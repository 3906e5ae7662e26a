import BrickScope.Decode.Shape

/-!
# Formats

A format says how values of a type are written as JSON, read back from a JSON value, and which shape their texts have.

Records follow one rule.  Given as an object, the members are read in their order and unknown ones are skipped; the
first bad member decides, and after them the first missing field.  Given as an array, the fields are read by position.

* `Record.format`: the format of a record, from the formats of its fields.
-/

namespace BrickScope

class Format (α : Type) where
  shape : Shape
  decode : Json → Except DecodeError α
  encode : α → Json

namespace Format

variable {α : Type}

/-- Read a text. -/
def read [Format α] (text : String) : Except ReadError α := do
  let v ← (shape α).read text
  (decode v).mapError .data

def render [Format α] (a : α) : String := (encode a).render

instance : Format Json := ⟨.any, .ok, id⟩

instance : Format String where
  shape := .string
  decode
    | .scalar (.string s) => .ok s
    | _ => .error .mismatch
  encode := .string

instance : Format Bool where
  shape := .bool
  decode
    | .scalar (.bool b) => .ok b
    | _ => .error .mismatch
  encode := .bool

instance : Format Nat where
  shape := .count
  decode
    | .scalar (.number n) => match n.toCount? with
      | some n => .ok n
      | none => .error .mismatch
    | _ => .error .mismatch
  encode := .count

instance [Format α] : Format (Option α) where
  shape := .optional (shape α)
  decode v := if v.isNull then .ok none else (decode v).map some
  encode
    | none => .null
    | some a => encode a

instance [Format α] : Format (List α) where
  shape := .list (shape α)
  decode
    | .array items => items.mapM decode
    | _ => .error .mismatch
  encode as := .array (as.map encode)

/-- A finite type whose values have names. -/
@[reducible] def ofNames [DecidableEq α] (names : List (String × α)) : Format α where
  shape := .oneOf (names.map Prod.fst)
  decode v :=
    let name? := match v with
      | .scalar (.string s) => some s
      | .object [(s, .scalar .null)] => some s
      | _ => none
    match name?.bind (Table.get? names) with
    | some a => .ok a
    | none => .error .mismatch
  encode a := match names.find? fun n => n.2 = a with
    | some n => .string n.1
    | none => .null

end Format

/-! ## Records -/

/-- How a field of a record is read from a value of some kind into the record. -/
structure Reader (ν σ : Type) where
  name : String
  required : Bool
  read : ν → σ → Except DecodeError σ

namespace Record

variable {ν σ : Type}

/-- Read members in their order; `seen` holds the fields that have been met. -/
def ofMembers (fields : List (Reader ν σ)) (s : σ) (seen : List String) :
    List (String × ν) → Except DecodeError σ
  | [] =>
    match fields.find? fun f => f.required && !seen.contains f.name with
    | some f => .error (.missingField f.name)
    | none => .ok s
  | (name, v) :: members =>
    match fields.find? fun f => f.name = name with
    | none => ofMembers fields s seen members
    | some f =>
      if seen.contains name then .error (.repeatedField name)
      else match f.read v s with
        | .ok s => ofMembers fields s (name :: seen) members
        | .error e => .error e

/-- Read values by position. -/
def ofSlots (s : σ) : List (Reader ν σ) → List ν → Except DecodeError σ
  | [], [] => .ok s
  | [], _ :: _ => .error .mismatch
  | f :: fields, [] => if f.required then .error .mismatch else ofSlots s fields []
  | f :: fields, v :: items =>
    match f.read v s with
    | .ok s => ofSlots s fields items
    | .error e => .error e

end Record

/-- A field with the shape of its texts and the way it is written. -/
structure Field (σ : Type) extends Reader Json σ where
  shape : Shape
  write : σ → Json

namespace Field

variable {σ α : Type} [Format α]

/-- A field that must be there. -/
def mandatory (name : String) (get : σ → α) (set : α → σ → σ) : Field σ where
  name := name
  required := true
  read v s := (Format.decode v).map (set · s)
  shape := Format.shape α
  write s := Format.encode (get s)

/-- A field that may be missing. -/
def defaulted (name : String) (get : σ → α) (set : α → σ → σ) : Field σ :=
  { mandatory name get set with required := false }

end Field

/-- The format of a record whose missing fields are taken from `start`. -/
@[reducible] def Record.format {σ : Type} (start : σ) (fields : List (Field σ)) : Format σ where
  shape := .record (fields.map fun f => (f.name, f.required, f.shape))
  decode
    | .object members => Record.ofMembers (fields.map Field.toReader) start [] members
    | .array items => Record.ofSlots start (fields.map Field.toReader) items
    | _ => .error .mismatch
  encode s := .object (fields.map fun f => (f.name, f.write s))

end BrickScope
