import BrickScope.Decode.Format
import BrickScope.Schema.Basic

/-!
# Schemas as JSON

Keywords that are absent or empty are not written.  Reading tries the forms of a value in order: a Boolean before
keywords, one type name before a list, a list of item schemas before a single one.  Unknown keywords are skipped, and
anything wrong inside makes the whole schema unreadable.

* `Schema.toJson`, `Schema.ofJson`: writing and reading.
-/

namespace BrickScope

/-! ## Writing -/

def TypeNames.toJson : TypeNames → Json
  | one name => .string name
  | many names => Format.encode names

/-- A member that is written only if it is there. -/
def optionalMember (name : String) (v : Option Json) : List (String × Json) := (v.map fun v => (name, v)).toList

/-- A list that is written only if it has members. -/
def listMember (name : String) (items : List Json) : List (String × Json) :=
  if items.isEmpty then [] else [(name, .array items)]

mutual

def Schema.toJson : Schema → Json
  | .bool allowed => .bool allowed
  | .object o => o.toJson

def ObjectSchema.toJson : ObjectSchema → Json
  | ⟨type, title, description, properties, required, additionalProperties, items, additionalItems,
      anyOf, oneOf, allOf⟩ =>
    .object (optionalMember "type" (type.map TypeNames.toJson) ++
      optionalMember "title" (title.map .string) ++
      optionalMember "description" (description.map .string) ++
      (if properties.isEmpty then [] else [("properties", .object (propertiesToJson properties))]) ++
      listMember "required" (required.map .string) ++
      optionalMember "additionalProperties" (schemaToJson? additionalProperties) ++
      optionalMember "items" (itemsToJson? items) ++
      optionalMember "additionalItems" (schemaToJson? additionalItems) ++
      listMember "anyOf" (schemasToJson anyOf) ++
      listMember "oneOf" (schemasToJson oneOf) ++
      listMember "allOf" (schemasToJson allOf))

def schemaToJson? : Option Schema → Option Json
  | none => none
  | some s => some s.toJson

def itemsToJson? : Option Items → Option Json
  | none => none
  | some (.tuple schemas) => some (.array (schemasToJson schemas))
  | some (.single schema) => some schema.toJson

def schemasToJson : List Schema → List Json
  | [] => []
  | s :: schemas => s.toJson :: schemasToJson schemas

def propertiesToJson : List (String × Schema) → List (String × Json)
  | [] => []
  | (name, s) :: properties => (name, s.toJson) :: propertiesToJson properties

end

/-! ## Reading -/

/-- Everything a schema may want to know of a JSON value. -/
structure SchemaView where
  isNull : Bool := false
  text? : Option String := none
  texts? : Option (List String) := none
  schema? : Option Schema := none
  schemas? : Option (List Schema) := none
  properties? : Option (List (String × Schema)) := none

namespace SchemaView

/-- Either `null` or a readable value. -/
def optional {α : Type} (f : SchemaView → Option α) (v : SchemaView) : Option (Option α) :=
  if v.isNull then some none else (f v).map some

def typeNames? (v : SchemaView) : Option TypeNames := (v.text?.map .one).or (v.texts?.map .many)

def items? (v : SchemaView) : Option Items := (v.schemas?.map .tuple).or (v.schema?.map .single)

/-- A keyword, from a reader of its value. -/
def keyword {α : Type} (name : String) (f : SchemaView → Option α) (set : α → ObjectSchema → ObjectSchema) :
    Reader SchemaView ObjectSchema :=
  ⟨name, false, fun v o => match f v with
    | some a => .ok (set a o)
    | none => .error .mismatch⟩

/-- The keywords, in the order in which they are written. -/
def keywords : List (Reader SchemaView ObjectSchema) :=
  [keyword "type" (optional typeNames?) fun a o => { o with type := a },
    keyword "title" (optional text?) fun a o => { o with title := a },
    keyword "description" (optional text?) fun a o => { o with description := a },
    keyword "properties" properties? fun a o => { o with properties := a },
    keyword "required" texts? fun a o => { o with required := a },
    keyword "additionalProperties" (optional schema?) fun a o => { o with additionalProperties := a },
    keyword "items" (optional items?) fun a o => { o with items := a },
    keyword "additionalItems" (optional schema?) fun a o => { o with additionalItems := a },
    keyword "anyOf" schemas? fun a o => { o with anyOf := a },
    keyword "oneOf" schemas? fun a o => { o with oneOf := a },
    keyword "allOf" schemas? fun a o => { o with allOf := a }]

def ofScalar : Scalar → SchemaView
  | .null => { isNull := true }
  | .bool b => { schema? := some (.bool b) }
  | .number _ => {}
  | .string s => { text? := some s }

/-- An array holds schemas or texts, or the keywords of a schema by position. -/
def ofItems (items : List SchemaView) : SchemaView where
  texts? := items.mapM text?
  schemas? := items.mapM schema?
  schema? := (Record.ofSlots {} keywords items).toOption.map .object

/-- An object holds properties, or the keywords of a schema. -/
def ofMembers (members : List (String × SchemaView)) : SchemaView where
  properties? := (members.mapM fun (m : String × SchemaView) => m.2.schema?.map fun s => (m.1, s)).map Table.ofList
  schema? := (Record.ofMembers keywords {} [] members).toOption.map .object

end SchemaView

def Json.schemaView : Json → SchemaView := Json.fold SchemaView.ofScalar SchemaView.ofItems SchemaView.ofMembers

namespace Schema

def ofJson (v : Json) : Except DecodeError Schema :=
  match v.schemaView.schema? with
  | some s => .ok s
  | none => .error (.noVariant "Schema")

instance : Format Schema where
  shape := .tested .verbatim fun v => match ofJson v with
    | .ok _ => none
    | .error e => some e
  decode := ofJson
  encode := toJson

end Schema

end BrickScope
