import BrickScope.Decimal.Shortest
import BrickScope.Json.Basic

/-!
# Compact JSON text

Values are written without blanks, members in their order.  A text escapes quotes, backslashes and control characters
and nothing else.

* `Json.render`: the text of a value.
-/

namespace BrickScope

/-! ## Numbers -/

/-- How a double is laid out: places of the first digit that are written positionally, and the mark in front of the
exponent for places at or above zero. -/
structure DoubleLayout where
  positionalFrom : Int
  positionalBelow : Int
  mark : String
  plus : String

namespace DoubleLayout

/-- Positional from `0.00001` up to sixteen digits before the point, always with a fraction; otherwise an exponent that
always has a sign. -/
def json : DoubleLayout := ⟨-5, 16, "e", "+"⟩

/-- Write digits whose first one stands at a place. -/
def write (f : DoubleLayout) (d : Decimal.Digits) : String :=
  if f.positionalFrom ≤ d.place && d.place < f.positionalBelow then
    match d.place with
    | .ofNat n =>
      let whole := d.digits.take (n + 1)
      let fraction := d.digits.drop (n + 1)
      String.ofList (whole ++ List.replicate (n + 1 - whole.length) '0') ++ "." ++
        (if fraction.isEmpty then "0" else String.ofList fraction)
    | .negSucc n => "0." ++ String.ofList (List.replicate n '0' ++ d.digits)
  else
    let fraction := d.digits.drop 1
    String.ofList (d.digits.take 1) ++ (if fraction.isEmpty then "" else "." ++ String.ofList fraction) ++ f.mark ++
      (match d.place with
      | .ofNat n => f.plus ++ toString n
      | .negSucc n => "-" ++ toString (n + 1))

end DoubleLayout

/-- The reals that round to a double. -/
def Double.target (d : Double) : Decimal.Target :=
  ⟨d.significand, d.exponent, d.fraction = 0 && 1 < d.biasedExponent⟩

def Double.render (d : Double) : String :=
  (if d.isNegative then "-" else "") ++
    (if d.significand = 0 then "0.0" else DoubleLayout.json.write (Decimal.shortest d.target))

def Number.render : Number → String
  | .int n => toString n
  | .double d => d.render

/-! ## Texts -/

namespace Json

/-- A hexadecimal digit in lower case. -/
def hexDigit (n : Nat) : Char := (Nat.toDigits 16 n).headD '0'

/-- The written form of a character inside quotes. -/
def escape (c : Char) : List Char :=
  if c = '"' then ['\\', '"']
  else if c = '\\' then ['\\', '\\']
  else if c = '\n' then ['\\', 'n']
  else if c = '\r' then ['\\', 'r']
  else if c = '\t' then ['\\', 't']
  else if c.toNat = 8 then ['\\', 'b']
  else if c.toNat = 12 then ['\\', 'f']
  else if c.toNat < 32 then ['\\', 'u', '0', '0', hexDigit (c.toNat / 16), hexDigit (c.toNat % 16)]
  else [c]

def quote (s : String) : String := "\"" ++ String.ofList (s.toList.flatMap escape) ++ "\""

end Json

def Scalar.render : Scalar → String
  | .null => "null"
  | .bool b => if b then "true" else "false"
  | .number n => n.render
  | .string s => Json.quote s

/-! ## Values -/

namespace Json

mutual

/-- The text of a value. -/
def render : Json → String
  | .scalar s => s.render
  | .array items => "[" ++ ",".intercalate (renderItems items) ++ "]"
  | .object members => "\x7b" ++ ",".intercalate (renderMembers members) ++ "\x7d"

def renderItems : List Json → List String
  | [] => []
  | v :: items => v.render :: renderItems items

def renderMembers : List (String × Json) → List String
  | [] => []
  | (name, v) :: members => (quote name ++ ":" ++ v.render) :: renderMembers members

end

end Json

end BrickScope
