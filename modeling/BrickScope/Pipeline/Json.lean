import BrickScope.Decode.Format
import BrickScope.Pipeline.Basic
import BrickScope.Schema.Json

/-!
# Pipelines as JSON

An object with the member `__type__` is an expression, a nested pipeline or a deferred body; its content is the member
`__value__`.  Every other value stands for itself.

* `ConfigValue.toJson`, `Brick.toJson`: writing.
* `ConfigValue.ofJson`, `Brick.ofJson`: reading.
-/

namespace BrickScope

instance : Format TemplateKind :=
  Format.ofNames [("nunjucks", .nunjucks), ("mustache", .mustache), ("handlebars", .handlebars)]

/-! ## Writing -/

def markKey : String := "__type__"

def contentKey : String := "__value__"

/-- A marked object. -/
def markedJson (mark : String) (content : Json) : Json := .object [(markKey, .string mark), (contentKey, content)]

mutual

def ConfigValue.toJson : ConfigValue → Json
  | .literal value => .scalar value
  | .object members => .object (configToJson members)
  | .array items => .array (valuesToJson items)
  | .expression e => markedJson e.mark (.string e.source)
  | .pipeline bricks => markedJson "pipeline" (.array (bricksToJson bricks))
  | .deferred body => markedJson "defer" body.toJson

def configToJson : List (String × ConfigValue) → List (String × Json)
  | [] => []
  | (name, v) :: members => (name, v.toJson) :: configToJson members

def valuesToJson : List ConfigValue → List Json
  | [] => []
  | v :: items => v.toJson :: valuesToJson items

def conditionToJson : Option ConfigValue → Option Json
  | none => none
  | some v => some v.toJson

def Brick.toJson : Brick → Json
  | ⟨id, instanceId, label, config, outputKey, condition⟩ =>
    .object ([("id", .string id)] ++ optionalMember "instanceId" (instanceId.map .string) ++
      optionalMember "label" (label.map .string) ++ [("config", .object (configToJson config))] ++
      optionalMember "outputKey" (outputKey.map .string) ++ optionalMember "if" (conditionToJson condition))

def bricksToJson : List Brick → List Json
  | [] => []
  | b :: bricks => b.toJson :: bricksToJson bricks

end

/-! ## Reading -/

/-- Why a JSON value is no configuration value: by its own mark, or for a brick inside. -/
inductive ConfigError where
  | expression (e : ExpressionError)
  | brick (e : DecodeError)

def ConfigError.toDecodeError : ConfigError → DecodeError
  | expression e => .expression e
  | brick e => e

/-- Everything a pipeline may want to know of a JSON value. -/
structure ConfigView where
  json : Json
  value : Except ConfigError ConfigValue
  config : Except DecodeError (List (String × ConfigValue)) := .error .mismatch
  brick : Except DecodeError Brick := .error .mismatch
  bricks : Except DecodeError (List Brick) := .error .mismatch

namespace ConfigView

def ofScalar (s : Scalar) : ConfigView where
  json := .scalar s
  value := .ok (.literal s)

def text (v : ConfigView) : Except DecodeError String := Format.decode v.json

/-- Either `null` or a readable value. -/
def optional {α : Type} (f : ConfigView → Except DecodeError α) (v : ConfigView) : Except DecodeError (Option α) :=
  if v.json.isNull then .ok none else (f v).map some

/-- The fields of a brick, in the order in which they are written. -/
def brickFields : List (Reader ConfigView Brick) :=
  [⟨"id", true, fun v b => v.text.map fun a => { b with id := a }⟩,
    ⟨"instanceId", false, fun v b => (optional text v).map fun a => { b with instanceId := a }⟩,
    ⟨"label", false, fun v b => (optional text v).map fun a => { b with label := a }⟩,
    ⟨"config", false, fun v b => v.config.map fun a => { b with config := a }⟩,
    ⟨"outputKey", false, fun v b => (optional text v).map fun a => { b with outputKey := a }⟩,
    ⟨"if", false, fun v b =>
      (optional (fun v => v.value.mapError ConfigError.toDecodeError) v).map fun a => { b with condition := a }⟩]

/-- An array holds values or bricks, or the fields of a brick by position. -/
def ofItems (items : List ConfigView) : ConfigView where
  json := .array (items.map json)
  value := (items.mapM value).map .array
  brick := Record.ofSlots { id := "" } brickFields items
  bricks := items.mapM brick

/-- The text of an expression, for which `null` counts as empty. -/
def content (mark : String) (v : ConfigView) : Except ConfigError String :=
  match v.json with
  | .scalar .null => .ok ""
  | .scalar (.string s) => .ok s
  | found => .error (.expression (.textExpected mark found))

/-- A value with a mark. -/
def marked (mark : String) (v : ConfigView) : Except ConfigError ConfigValue :=
  match TemplateKind.ofMark? mark with
  | some kind => (v.content mark).map fun text => .expression (.template kind text)
  | none =>
    if mark = "var" then (v.content mark).map fun text => .expression (.reference text)
    else if mark = "pipeline" then
      match v.json with
      | .scalar .null => .ok (.pipeline [])
      | .array _ => (v.bricks.mapError .brick).map .pipeline
      | found => .error (.expression (.pipelineExpected found))
    else if mark = "defer" then v.value.map .deferred
    else .error (.expression (.unknownMark mark))

/-- The members of an object as values, in their order. -/
def values (members : List (String × ConfigView)) : Except ConfigError (List (String × ConfigValue)) :=
  (members.mapM fun (m : String × ConfigView) => m.2.value.map fun v => (m.1, v)).map Table.ofList

/-- An object is a marked value, a table of values, or the fields of a brick. -/
def ofMembers (members : List (String × ConfigView)) : ConfigView where
  json := .object (members.map fun m => (m.1, m.2.json))
  value :=
    match Table.get? members markKey with
    | some ⟨.scalar (.string mark), _, _, _, _⟩ =>
      marked mark ((Table.get? members contentKey).getD (ofScalar .null))
    | some _ => .error (.expression .markNotText)
    | none => (values members).map .object
  config := (values members).mapError ConfigError.toDecodeError
  brick := Record.ofMembers brickFields { id := "" } [] members

end ConfigView

def Json.configView : Json → ConfigView := Json.fold ConfigView.ofScalar ConfigView.ofItems ConfigView.ofMembers

def ConfigValue.ofJson (v : Json) : Except ConfigError ConfigValue := v.configView.value

def Brick.ofJson (v : Json) : Except DecodeError Brick := v.configView.brick

namespace ConfigValue

instance : Format ConfigValue where
  shape := .tested .any fun v => match ofJson v with
    | .ok _ => none
    | .error e => some e.toDecodeError
  decode v := (ofJson v).mapError ConfigError.toDecodeError
  encode := toJson

end ConfigValue

namespace Brick

instance : Format Brick where
  shape := .record [("id", true, Format.shape String), ("instanceId", false, Format.shape (Option String)),
    ("label", false, Format.shape (Option String)), ("config", false, .table (Format.shape ConfigValue)),
    ("outputKey", false, Format.shape (Option String)), ("if", false, Format.shape (Option ConfigValue))]
  decode := ofJson
  encode := toJson

end Brick

end BrickScope
