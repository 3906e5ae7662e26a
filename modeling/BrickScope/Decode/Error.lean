import BrickScope.Json.Lexeme
import BrickScope.Json.Printer

/-!
# Why a JSON value or text is refused
-/

namespace BrickScope

/-- What is wrong with an object that is marked as an expression. -/
inductive ExpressionError where
  | markNotText
  | textExpected (mark : String) (found : Json)
  | pipelineExpected (found : Json)
  | unknownMark (mark : String)

namespace ExpressionError

def reason : ExpressionError → String
  | markNotText => "expression __type__ must be a string"
  | textExpected mark found => mark ++ " expression value must be a string, got " ++ found.render
  | pipelineExpected found => "pipeline expression value must be an array, got " ++ found.render
  | unknownMark mark => "unknown expression type '" ++ mark ++ "'"

def message (e : ExpressionError) : String := "Invalid pipeline definition: " ++ e.reason

end ExpressionError

/-- Why a JSON value does not describe what it should. -/
inductive DecodeError where
  | mismatch
  | missingField (name : String)
  | repeatedField (name : String)
  | noVariant (type : String)
  | expression (e : ExpressionError)

namespace DecodeError

/-- The text of an error; a plain mismatch has none. -/
def message? : DecodeError → Option String
  | mismatch => none
  | missingField name => some ("missing field `" ++ name ++ "`")
  | repeatedField name => some ("duplicate field `" ++ name ++ "`")
  | noVariant type => some ("data did not match any variant of untagged enum " ++ type)
  | expression e => some e.message

end DecodeError

/-- Why a JSON text is refused: as a text, or for what it describes. -/
inductive ReadError where
  | text (e : Json.TextError)
  | data (e : DecodeError)

end BrickScope
