import BrickScope.Json.Basic
import BrickScope.Text.Offset

/-!
# Lexemes of JSON texts

A JSON text is cut into lexemes from left to right.  Cutting stops at the first fault; what stands before it is still
read, so that a reader can object to it first.

Two standards apply.  A value that is wanted must be sound: its number must be representable and its surrogates
paired.  A value that is skipped only has to follow the grammar.  A lexeme therefore carries the outcome of both.
-/

namespace BrickScope.Json

/-- What can be wrong with a text: it departs from the grammar, or it ends too early. -/
inductive TextError where
  | malformed
  | truncated
  deriving DecidableEq

/-- A fault, as met by a reader that wants the value and by one that skips it; `quoted` says that it lies inside
quotes. -/
structure Fault where
  strict : TextError
  lenient : TextError
  quoted : Bool

/-- A fault outside quotes, the same for both readers. -/
def Fault.plain (e : TextError) : Fault := ⟨e, e, false⟩

/-- A number that stops too early: only a reader that wants it waits for the rest. -/
def Fault.cut (rest : List Char) : Fault := ⟨if rest.isEmpty then .truncated else .malformed, .malformed, false⟩

inductive Bracket where
  | square
  | curly
  deriving DecidableEq

inductive Lexeme where
  | opening (b : Bracket)
  | closing (b : Bracket)
  | comma
  | colon
  | word (value : Scalar)
  | number (value : Option Number)
  | string (value : Except TextError String)
  | broken (fault : Fault)

/-! ## Numbers -/

def digitValue (c : Char) : Nat := c.toNat - '0'.toNat

/-- The digits at the front of a text, and what follows them. -/
def spanDigits (s : List Char) : List Nat × List Char :=
  ((s.takeWhile Char.isDigit).map digitValue, s.dropWhile Char.isDigit)

/-- The exponent at the front of a text, with the rest; a text that starts otherwise has none. -/
def spanExponent : List Char → Except Fault (Option Int × List Char)
  | c :: s =>
    if c = 'e' || c = 'E' then
      let (negative, s) := match s with
        | '-' :: s => (true, s)
        | '+' :: s => (false, s)
        | s => (false, s)
      match spanDigits s with
      | ([], s) => .error (.cut s)
      | (ds, s) =>
        let n : Nat := ds.foldl (fun n d => 10 * n + d) 0
        .ok (some (if negative then -(n : Int) else n), s)
    else .ok (none, c :: s)
  | [] => .ok (none, [])

/-- The fraction at the front of a text, with the rest. -/
def spanFraction : List Char → Except Fault (Option (List Nat) × List Char)
  | '.' :: s =>
    match spanDigits s with
    | ([], s) => .error (.cut s)
    | (ds, s) => .ok (some ds, s)
  | s => .ok (none, s)

/-- The number at the front of a text, with the rest. -/
def spanNumber (s : List Char) : Except Fault (Number.Literal × List Char) := do
  let (negative, s) := match s with
    | '-' :: s => (true, s)
    | s => (false, s)
  match spanDigits s with
  | ([], s) => .error (.cut s)
  | (0 :: _ :: _, _) => .error (.plain .malformed)
  | (whole, s) =>
    let (fraction, s) ← spanFraction s
    let (exponent, s) ← spanExponent s
    return (⟨negative, whole, fraction, exponent⟩, s)

/-- The characters that numbers are spelled with. -/
def isNumeral (c : Char) : Bool := c.isDigit || c = '-' || c = '+' || c = '.' || c = 'e' || c = 'E'

/-- How many characters of `s` stand before `rest`, if numbers are spelled with all of them. -/
def spelledBefore (rest s : List Char) : Nat := (s.takeWhile isNumeral).length - (rest.takeWhile isNumeral).length

/-! ## Texts -/

def hexValue? (c : Char) : Option Nat :=
  if c.isDigit then some (digitValue c)
  else if 'a' ≤ c && c ≤ 'f' then some (c.toNat - 'a'.toNat + 10)
  else if 'A' ≤ c && c ≤ 'F' then some (c.toNat - 'A'.toNat + 10)
  else none

/-- The four hexadecimal digits at the front of a text. -/
def hexUnit (s : List Char) : Except TextError Nat :=
  match (s.take 4).mapM hexValue? with
  | some [a, b, c, d] => .ok (((a * 16 + b) * 16 + c) * 16 + d)
  | _ => .error (if Text.width s < 4 then .truncated else .malformed)

def isLeading (n : Nat) : Bool := 0xD800 ≤ n && n < 0xDC00

def isTrailing (n : Nat) : Bool := 0xDC00 ≤ n && n < 0xE000

/-- The trailing unit that a leading one has to be followed by. -/
def trailingUnit : List Char → Except TextError Nat
  | [] | ['\\'] => .error .truncated
  | '\\' :: 'u' :: s => do
    let n ← hexUnit s
    if isTrailing n then return n else .error .malformed
  | _ => .error .malformed

/-- The character that an escape stands for, given what follows the backslash, and how many characters spell it. -/
def escaped : List Char → Except TextError (Char × Nat)
  | [] => .error .truncated
  | 'u' :: s => do
    let n ← hexUnit s
    if isTrailing n then .error .malformed
    else if isLeading n then do
      let m ← trailingUnit (s.drop 4)
      return (Char.ofNat ((n - 0xD800) * 0x400 + (m - 0xDC00) + 0x10000), 11)
    else return (Char.ofNat n, 5)
  | c :: _ =>
    match c with
    | '"' => .ok ('"', 1)
    | '\\' => .ok ('\\', 1)
    | '/' => .ok ('/', 1)
    | 'b' => .ok ('\x08', 1)
    | 'f' => .ok ('\x0c', 1)
    | 'n' => .ok ('\n', 1)
    | 'r' => .ok ('\r', 1)
    | 't' => .ok ('\t', 1)
    | _ => .error .malformed

/-- The characters up to the closing quote, escapes resolved; the first `skip` ones are part of an escape that has been
read, and `done` holds what came before, last first. -/
def unquote (skip : Nat) (done : List Char) : List Char → Except TextError (List Char)
  | [] => .error .truncated
  | c :: s =>
    match skip with
    | k + 1 => unquote k done s
    | 0 =>
      if c = '"' then .ok done.reverse
      else if c = '\\' then
        match escaped s with
        | .ok (d, k) => unquote k (d :: done) s
        | .error e => .error e
      else if c.toNat < 32 then .error .malformed
      else unquote 0 (c :: done) s

/-- The number of characters up to and with the closing quote, escapes checked for their spelling only. -/
def quotedLength (n : Nat) : List Char → Except TextError Nat
  | [] => .error .truncated
  | '"' :: _ => .ok (n + 1)
  | ['\\'] => .error .truncated
  | '\\' :: 'u' :: s =>
    match hexUnit s with
    | .ok _ => quotedLength (n + 2) s
    | .error e => .error e
  | '\\' :: c :: s => if c ∈ "\"\\/bfnrt".toList then quotedLength (n + 2) s else .error .malformed
  | c :: s => if c.toNat < 32 then .error .malformed else quotedLength (n + 1) s

/-- The lexeme behind an opening quote, and its length. -/
def quoted (s : List Char) : Lexeme × Nat :=
  let value := (unquote 0 [] s).map String.ofList
  match quotedLength 0 s, value with
  | .ok n, value => (.string value, n)
  | .error e, .ok _ => (.broken ⟨e, e, true⟩, 0)
  | .error e, .error e' => (.broken ⟨e', e, true⟩, 0)

/-! ## All lexemes -/

/-- The rest of a word. -/
def spanWord : List Char → List Char → Except TextError Unit
  | [], _ => .ok ()
  | _ :: _, [] => .error .truncated
  | e :: es, c :: s => if e = c then spanWord es s else .error .malformed

def wordLexeme (rest : String) (value : Scalar) (s : List Char) : Lexeme × Nat :=
  match spanWord rest.toList s with
  | .ok () => (.word value, rest.length)
  | .error e => (.broken (.plain e), 0)

/-- The lexeme that starts with `c`, and how many characters of `s` belong to it. -/
def lexeme (c : Char) (s : List Char) : Lexeme × Nat :=
  match c with
  | '[' => (.opening .square, 0)
  | ']' => (.closing .square, 0)
  | '\x7b' => (.opening .curly, 0)
  | '\x7d' => (.closing .curly, 0)
  | ',' => (.comma, 0)
  | ':' => (.colon, 0)
  | '"' => quoted s
  | 'n' => wordLexeme "ull" .null s
  | 't' => wordLexeme "rue" (.bool true) s
  | 'f' => wordLexeme "alse" (.bool false) s
  | _ =>
    if c = '-' || c.isDigit then
      match spanNumber (c :: s) with
      | .ok (l, rest) => (.number l.value?, spelledBefore rest s)
      | .error f => (.broken f, 0)
    else (.broken (.plain .malformed), 0)

def isSpace (c : Char) : Bool := c = ' ' || c = '\t' || c = '\n' || c = '\r'

/-- The lexemes of a text whose first `skip` characters belong to one that has been cut. -/
def lexemesAfter (skip : Nat) : List Char → List Lexeme
  | [] => []
  | c :: s =>
    match skip with
    | k + 1 => lexemesAfter k s
    | 0 =>
      if isSpace c then lexemesAfter 0 s
      else match lexeme c s with
        | (.broken f, _) => [.broken f]
        | (l, k) => l :: lexemesAfter k s

def lexemes (text : String) : List Lexeme := lexemesAfter 0 text.toList

end BrickScope.Json
