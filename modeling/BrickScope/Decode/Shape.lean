import BrickScope.Decode.Error
import BrickScope.Table

/-!
# Reading a text against a shape

A shape says what kind of value is due.  The reader takes one lexeme after the other and keeps the brackets that are
open on a stack, so that the first lexeme at which the text departs from the grammar or from the shape decides the
error.

* `Shape.read`: the value of a text that has the shape.
-/

namespace BrickScope

inductive Shape where
  /-- Any value; of members with one name the last one counts. -/
  | any
  /-- Any value, with all members as they are written. -/
  | verbatim
  /-- A value that is skipped. -/
  | skipped
  | null
  | bool
  | string
  | count
  /-- One of some names, plain or as the only member of an object, with the value `null`. -/
  | oneOf (names : List String)
  | optional (shape : Shape)
  | list (item : Shape)
  /-- An object with any names. -/
  | table (value : Shape)
  /-- An object with these members, or an array of their values in this order.  The flag marks those that must be
  there. -/
  | record (fields : List (String × Bool × Shape))
  /-- A value that is read as a whole and then tested. -/
  | tested (shape : Shape) (test : Json → Option DecodeError)

namespace Shape

abbrev Field := String × Bool × Shape

/-- An open bracket, with what was read behind it, last first. -/
inductive Frame where
  | array (item : Shape) (items : List Json)
  /-- A record given as an array; `due` starts with the field whose value is awaited. -/
  | slots (due : List Field) (items : List Json)
  | object (value : Shape) (name : String) (members : List (String × Json))
  /-- A record given as an object; members that are no fields are read under no name. -/
  | fields (fields : List Field) (name : Option String) (members : List (String × Json))
  | variant (name : String)
  | test (test : Json → Option DecodeError)

/-- What is awaited. -/
inductive Due where
  | value (shape : Shape)
  /-- The first item of an array, or its end. -/
  | item (shape : Shape)
  /-- The first member of an object, or its end. -/
  | member
  | memberName
  | variantName (names : List String)
  | colon (shape : Shape)
  /-- A comma or the end of the innermost bracket. -/
  | more
  /-- Nothing: the value is complete. -/
  | done (value : Json)

structure State where
  frames : List Frame
  due : Due

def malformed {α : Type} : Except ReadError α := .error (.text .malformed)

def mismatch {α : Type} : Except ReadError α := .error (.data .mismatch)

/-- Hand a complete value to the innermost bracket. -/
def deliver (v : Json) : List Frame → Except ReadError State
  | [] => .ok ⟨[], .done v⟩
  | .test test :: frames =>
    match test v with
    | some e => .error (.data e)
    | none => deliver v frames
  | .array item items :: frames => .ok ⟨.array item (v :: items) :: frames, .more⟩
  | .slots due items :: frames => .ok ⟨.slots due.tail (v :: items) :: frames, .more⟩
  | .object value name members :: frames => .ok ⟨.object value name ((name, v) :: members) :: frames, .more⟩
  | .fields fields name members :: frames =>
    let members := match name with
      | some name => (name, v) :: members
      | none => members
    .ok ⟨.fields fields name members :: frames, .more⟩
  | .variant name :: frames => .ok ⟨.variant name :: frames, .more⟩

/-- Brackets around values that are wanted; there may be 127 of them. -/
def Frame.counts : Frame → Bool
  | .array .skipped _ | .object .skipped _ _ | .test _ => false
  | _ => true

def depthLimit : Nat := 127

def opened (frame : Frame) (frames : List Frame) (due : Due) : Except ReadError State :=
  if frame.counts && depthLimit ≤ frames.countP Frame.counts then malformed else .ok ⟨frame :: frames, due⟩

/-- A bracket where a value is due. -/
def openBracket (frames : List Frame) : Shape → Json.Bracket → Except ReadError State
  | .any, .square => opened (.array .any []) frames (.item .any)
  | .any, .curly => opened (.object .any "" []) frames .member
  | .verbatim, .square => opened (.array .verbatim []) frames (.item .verbatim)
  | .verbatim, .curly => opened (.object .verbatim "" []) frames .member
  | .skipped, .square => opened (.array .skipped []) frames (.item .skipped)
  | .skipped, .curly => opened (.object .skipped "" []) frames .member
  | .oneOf _, .square => malformed
  | .oneOf names, .curly => opened (.variant "") frames (.variantName names)
  | .list item, .square => opened (.array item []) frames (.item item)
  | .table value, .curly => opened (.object value "" []) frames .member
  | .record fields, .square =>
    opened (.slots fields []) frames (.item (match fields with
      | (_, _, shape) :: _ => shape
      | [] => .skipped))
  | .record fields, .curly => opened (.fields fields none []) frames .member
  | _, _ => mismatch

/-- A sound scalar where a value is due. -/
def scalar (frames : List Frame) (v : Scalar) : Shape → Except ReadError State
  | .any | .verbatim | .skipped => deliver (.scalar v) frames
  | .null => if v = .null then deliver (.scalar v) frames else mismatch
  | .bool => match v with
    | .bool _ => deliver (.scalar v) frames
    | _ => mismatch
  | .string => match v with
    | .string _ => deliver (.scalar v) frames
    | _ => mismatch
  | .count => match v with
    | .number n => if n.toCount?.isSome then deliver (.scalar v) frames else mismatch
    | _ => mismatch
  | .oneOf names => match v with
    | .string s => if s ∈ names then deliver (.scalar v) frames else mismatch
    | _ => malformed
  | _ => mismatch

def isSkipped : Shape → Bool
  | .skipped => true
  | _ => false

def isOneOf : Shape → Bool
  | .oneOf _ => true
  | _ => false

/-- A lexeme where a value is due. -/
def value (frames : List Frame) : Shape → Json.Lexeme → Except ReadError State
  | .optional _, .word .null => deliver .null frames
  | .optional shape, l => value frames shape l
  | .tested shape test, l => value (.test test :: frames) shape l
  | shape, .opening b => openBracket frames shape b
  | shape, .word v => scalar frames v shape
  | shape, .number (some n) => scalar frames (.number n) shape
  | shape, .string (.ok s) => scalar frames (.string s) shape
  | .skipped, .number none | .skipped, .string (.error _) => deliver .null frames
  | _, .number none => malformed
  | _, .string (.error e) => .error (.text e)
  | shape, .broken f =>
    if shape.isSkipped then .error (.text f.lenient)
    else if shape.isOneOf && !f.quoted then malformed
    else .error (.text f.strict)
  | _, .closing _ | _, .comma | _, .colon => malformed

/-- The end of the innermost bracket. -/
def close : List Frame → Json.Bracket → Except ReadError State
  | .array _ items :: frames, .square => deliver (.array items.reverse) frames
  | .slots due items :: frames, .square =>
    if due.any fun f => f.2.1 then mismatch else deliver (.array items.reverse) frames
  | .object .any _ members :: frames, .curly => deliver (.object (Table.ofList members.reverse)) frames
  | .object _ _ members :: frames, .curly => deliver (.object members.reverse) frames
  | .fields fields _ members :: frames, .curly =>
    match fields.find? fun f => f.2.1 && !Table.contains members f.1 with
    | some f => .error (.data (.missingField f.1))
    | none => deliver (.object members.reverse) frames
  | .variant name :: frames, .curly => deliver (.object [(name, .null)]) frames
  | _, _ => malformed

/-- A member name. -/
def memberName (name : Except Json.TextError String) : List Frame → Except ReadError State
  | .object .skipped _ members :: frames => .ok ⟨.object .skipped "" members :: frames, .colon .skipped⟩
  | .object shape _ members :: frames =>
    match name with
    | .ok name => .ok ⟨.object shape name members :: frames, .colon shape⟩
    | .error e => .error (.text e)
  | .fields fields _ members :: frames =>
    match name with
    | .error e => .error (.text e)
    | .ok name =>
      match fields.find? fun f => f.1 = name with
      | none => .ok ⟨.fields fields none members :: frames, .colon .skipped⟩
      | some (_, _, shape) =>
        if Table.contains members name then .error (.data (.repeatedField name))
        else .ok ⟨.fields fields (some name) members :: frames, .colon shape⟩
  | _ => malformed

/-- A fault where a name is due, which must be quoted; only a name that is skipped is met leniently. -/
def brokenName (f : Json.Fault) : List Frame → Except ReadError State
  | .object .skipped _ _ :: _ => if f.quoted then .error (.text f.lenient) else malformed
  | _ => if f.quoted then .error (.text f.strict) else malformed

/-- A comma behind a value. -/
def comma : List Frame → Except ReadError State
  | .array item items :: frames => .ok ⟨.array item items :: frames, .value item⟩
  | .slots ((name, required, shape) :: due) items :: frames =>
    .ok ⟨.slots ((name, required, shape) :: due) items :: frames, .value shape⟩
  | .object shape name members :: frames => .ok ⟨.object shape name members :: frames, .memberName⟩
  | .fields fields name members :: frames => .ok ⟨.fields fields name members :: frames, .memberName⟩
  | _ => malformed

/-- One lexeme. -/
def step (s : State) (l : Json.Lexeme) : Except ReadError State :=
  match s.due, l with
  | .value shape, l => value s.frames shape l
  | .item _, .closing .square => close s.frames .square
  | .item shape, l => value s.frames shape l
  | .member, .closing .curly => close s.frames .curly
  | .member, .string name | .memberName, .string name => memberName name s.frames
  | .member, .broken f | .memberName, .broken f => brokenName f s.frames
  | .member, _ | .memberName, _ => malformed
  | .variantName names, .string (.ok name) =>
    if name ∈ names then .ok ⟨.variant name :: s.frames.tail, .colon .null⟩ else mismatch
  | .variantName _, .string (.error e) => .error (.text e)
  | .variantName _, .broken f => brokenName f s.frames
  | .variantName _, _ => malformed
  | .colon shape, .colon => .ok ⟨s.frames, .value shape⟩
  | .colon _, _ => malformed
  | .more, .comma => comma s.frames
  | .more, .closing b => close s.frames b
  | .more, _ => malformed
  | .done _, _ => malformed

/-- The value of a text that has the shape. -/
def read (shape : Shape) (text : String) : Except ReadError Json := do
  let s ← (Json.lexemes text).foldlM step ⟨[], .value shape⟩
  match s.due with
  | .done v => return v
  | _ => .error (.text .truncated)

end Shape

end BrickScope
