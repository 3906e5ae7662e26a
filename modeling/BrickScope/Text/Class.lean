/-!
# Character classes of template code

White space, quotes and names as the code inside template tags knows them.  All names are ASCII.
-/

namespace BrickScope.Text

/-- White space between tokens: the space, the no-break space and every control character but U+0000. -/
def isSpace (c : Char) : Bool := c = ' ' || c.toNat = 0xA0 || (0 < c.toNat && c.toNat < 32)

def isQuote (c : Char) : Bool := c = '\'' || c = '"'

/-- The characters that may start a name. -/
def isNameStart (c : Char) : Bool := c.isAlpha || c = '_' || c = '$'

/-- The characters of a name. -/
def isNamePart (c : Char) : Bool := isNameStart c || c.isDigit

end BrickScope.Text
