import BrickScope.Template.Tag

/-!
# Tokens of template code

The code inside a tag is a run of names, numbers, quoted texts, variables and single characters, with white space
between them.  A variable takes along the longest path of members and static indices behind it.

* `Scan.ofCode`: the tokens of a code, and what stopped the scan before its end.
-/

namespace BrickScope.Template

open Text

inductive TokenKind where
  | character
  | identifier
  | variable
  | string
  | number
  | error
  deriving DecidableEq

/-- A token with its byte offsets.  The text of a quoted text is its value, that of an error its message. -/
structure Token where
  start : Nat
  stop : Nat
  kind : TokenKind
  text : String
  deriving DecidableEq

namespace Token

def isKeyword (t : Token) (keyword : String) : Bool := t.kind = .identifier && t.text = keyword

def isCharacter (t : Token) (c : Char) : Bool := t.kind = .character && t.text.toList.head? = some c

end Token

/-- What a template can leave open. -/
inductive Opening where
  | quote
  | index
  | tag
  | comment
  deriving DecidableEq

def Opening.message : Opening → String
  | quote => "Unterminated quote"
  | index => "Unterminated index"
  | tag => "Unterminated tag"
  | comment => "Unterminated comment"

/-! ## Quoted texts -/

/-- How many characters a quoted text takes behind its opening quote, the closing one included.  A backslash takes the
next character along.  The text may not hold a bare `stop` character. -/
def quotedLength? (quote : Char) (stop : Char → Bool) : List Char → Option Nat
  | [] => none
  | c :: s =>
    if stop c then none
    else if c = '\\' then
      match s with
      | [] => none
      | _ :: s => (quotedLength? quote stop s).map (· + 2)
    else if c = quote then some 1
    else (quotedLength? quote stop s).map (· + 1)

/-- The characters of a quoted text, each backslash replaced by what follows it. -/
def unescape : List Char → List Char
  | [] => []
  | '\\' :: c :: s => c :: unescape s
  | c :: s => c :: unescape s

/-! ## Variables -/

/-- The length of a name at the front of a text; zero if there is none. -/
def nameLength : List Char → Nat
  | c :: s => if isNameStart c then (s.takeWhile isNamePart).length + 1 else 0
  | [] => 0

/-- The length of a static index at the front of a text: digits or a quoted key, in brackets.  A key holds no bare
U+0000. -/
def indexLength? : List Char → Option Nat
  | '[' :: c :: s =>
    let inner? :=
      if c.isDigit then some (s.takeWhile Char.isDigit).length
      else if isQuote c then quotedLength? c (fun d => d.toNat = 0) s
      else none
    match inner? with
    | some n => if (s.drop n).head? = some ']' then some (n + 3) else none
    | none => none
  | _ => none

/-- The length of a member or a static index at the front of a text. -/
def accessorLength? : List Char → Option Nat
  | '.' :: s => if nameLength s = 0 then none else some (nameLength s + 1)
  | '?' :: '.' :: s => if nameLength s = 0 then (indexLength? s).map (· + 2) else some (nameLength s + 2)
  | s => indexLength? s

/-- The length of the members and indices at the front of a text. -/
def accessorsLength : List Char → Nat
  | [] => 0
  | c :: s =>
    match accessorLength? (c :: s) with
    | some (n + 1) => n + 1 + accessorsLength (s.drop n)
    | _ => 0
termination_by s => s.length
decreasing_by simp only [List.length_drop, List.length_cons]; omega

/-- The length of a variable's path behind its sigil. -/
def pathLength (s : List Char) : Nat :=
  let n := nameLength s
  if n = 0 then 0 else n + accessorsLength (s.drop n)

/-- A closing bracket outside quotes. -/
def closesBracket : Option Char → List Char → Bool
  | _, [] => false
  | some q, c :: s =>
    if c = '\\' then
      match s with
      | [] => false
      | _ :: s => closesBracket (some q) s
    else closesBracket (if c = q then none else some q) s
  | none, c :: s => if isQuote c then closesBracket (some c) s else c = ']' || closesBracket none s

/-- A bracket that is never closed, at the front of a text. -/
def opensIndex : List Char → Bool
  | '[' :: s => !closesBracket none s
  | _ => false

/-! ## The scan -/

/-- What was left open, and where. -/
structure Stop where
  opening : Opening
  index : Nat
  deriving DecidableEq

/-- The tokens of a code up to its end, or up to what is left open. -/
structure Scan where
  tokens : List Token
  stop : Option Stop

/-- A token in front of a scan. -/
def Scan.cons (t : Token) (scan : Scan) : Scan := ⟨t :: scan.tokens, scan.stop⟩

/-- Scan a code that starts at byte `pos`. -/
def scanFrom (pos : Nat) : List Char → Scan
  | [] => ⟨[], none⟩
  | c :: s =>
    if isSpace c then scanFrom (pos + c.utf8Size) s
    else if c = '@' then
      let n := pathLength s
      let stop := pos + 1 + width (s.take n)
      let token : Token := ⟨pos, stop, .variable, String.ofList (c :: s.take n)⟩
      if n ≠ 0 && opensIndex (s.drop n) then ⟨[token], some ⟨.index, stop⟩⟩
      else (scanFrom stop (s.drop n)).cons token
    else if isNameStart c then
      let n := (s.takeWhile isNamePart).length
      let stop := pos + 1 + width (s.take n)
      (scanFrom stop (s.drop n)).cons ⟨pos, stop, .identifier, String.ofList (c :: s.take n)⟩
    else if c.isDigit then
      let n := (s.takeWhile fun d => d.isDigit || d = '.').length
      let stop := pos + 1 + width (s.take n)
      (scanFrom stop (s.drop n)).cons ⟨pos, stop, .number, String.ofList (c :: s.take n)⟩
    else if isQuote c then
      match quotedLength? c (fun _ => false) s with
      | none => ⟨[], some ⟨.quote, pos⟩⟩
      | some n =>
        let stop := pos + 1 + width (s.take n)
        (scanFrom stop (s.drop n)).cons ⟨pos, stop, .string, String.ofList (unescape (s.take (n - 1)))⟩
    else (scanFrom (pos + c.utf8Size) s).cons ⟨pos, pos + c.utf8Size, .character, String.ofList [c]⟩
termination_by s => s.length
decreasing_by all_goals simp only [List.length_drop, List.length_cons]; omega

def Scan.ofCode (code : String) : Scan := scanFrom 0 code.toList

/-- The variables of a scan with their paths, in order. -/
def Scan.references (scan : Scan) : List String :=
  (scan.tokens.filter fun t => t.kind = .variable).map Token.text

/-- All tokens of a code; what is left open becomes an error token that reaches to the end. -/
def Token.all (code : String) : List Token :=
  let scan := Scan.ofCode code
  scan.tokens ++ (scan.stop.map fun f =>
    (⟨f.index, width code.toList, .error, f.opening.message⟩ : Token)).toList

end BrickScope.Template
