import BrickScope.Distinct
import BrickScope.Table

/-!
# Schemas

The part of JSON Schema that definitions use to describe what bricks take and give.  A schema is a Boolean, which
allows everything or nothing, or an object of keywords.

* `Schema.permissive`: an object with any members.
* `Schema.mergeObjects`: several object schemas that describe one value together.
-/

namespace BrickScope

/-- The keyword `type`: one name or a list of names. -/
inductive TypeNames where
  | one (name : String)
  | many (names : List String)
  deriving DecidableEq

def TypeNames.includes : TypeNames → String → Bool
  | one n, name => n = name
  | many ns, name => ns.contains name

mutual

inductive Schema where
  | bool (allowed : Bool)
  | object (keywords : ObjectSchema)

structure ObjectSchema where
  type : Option TypeNames := none
  title : Option String := none
  description : Option String := none
  properties : List (String × Schema) := []
  required : List String := []
  additionalProperties : Option Schema := none
  items : Option Items := none
  additionalItems : Option Schema := none
  anyOf : List Schema := []
  oneOf : List Schema := []
  allOf : List Schema := []

/-- The keyword `items`: a schema for each place, or one for all. -/
inductive Items where
  | tuple (schemas : List Schema)
  | single (schema : Schema)

end

namespace ObjectSchema

def isArray (o : ObjectSchema) : Bool :=
  match o.type with
  | some t => t.includes "array"
  | none => o.items.isSome || o.additionalItems.isSome

/-- A type is declared and admits no object. -/
def isLeaf (o : ObjectSchema) : Bool :=
  match o.type with
  | some t => !t.includes "object"
  | none => false

def isRequired (o : ObjectSchema) (property : String) : Bool := o.required.contains property

def isComposite (o : ObjectSchema) : Bool := !o.anyOf.isEmpty || !o.oneOf.isEmpty || !o.allOf.isEmpty

/-- No keyword but `title` and `description`. -/
def isEmpty (o : ObjectSchema) : Bool :=
  o.type.isNone && o.properties.isEmpty && o.required.isEmpty && o.additionalProperties.isNone &&
    o.items.isNone && o.additionalItems.isNone && !o.isComposite

/-- Members beyond the declared ones are allowed: by `true`, or by a schema that says something. -/
def allowsAdditional (o : ObjectSchema) : Bool :=
  match o.additionalProperties with
  | some (.bool allowed) => allowed
  | some (.object s) => !s.isEmpty
  | none => false

/-- Elements are described place by place. -/
def variesByIndex (o : ObjectSchema) : Bool :=
  match o.additionalItems with
  | some (.bool allowed) => allowed
  | some (.object _) => true
  | none => false

end ObjectSchema

namespace Schema

/-- A schema of a type and nothing else. -/
def typed (name : String) : Schema := .object { type := some (.one name) }

/-- An object with no declared members: any member may be there. -/
def permissive : Schema := typed "object"

instance : Inhabited Schema := ⟨permissive⟩

/-- An object with declared members. -/
def ofProperties (properties : List (String × Schema)) (required : List String) : Schema :=
  .object { type := some (.one "object"), properties := Table.ofList properties, required := required }

/-- A list whose elements all have one schema. -/
def array (items : Schema) : Schema := .object { type := some (.one "array"), items := some (.single items) }

/-- The keywords of a plain object schema: with properties, and not composed of others. -/
def plainObject? : Schema → Option ObjectSchema
  | .object o => if !o.properties.isEmpty && !o.isComposite then some o else none
  | .bool _ => none

/-- Add the members of a plain object schema. -/
def addObject (merged o : ObjectSchema) : ObjectSchema :=
  { merged with
    properties := Table.insertAll merged.properties o.properties
    required := addAllNew merged.required o.required
    additionalProperties := if o.allowsAdditional then some (.bool true) else merged.additionalProperties }

/-- The members of several plain object schemas, as when several readers feed one value; the schema of a member is that
of its last reader.  Anything else merges to the permissive schema. -/
def mergeObjects (schemas : List Schema) : Schema :=
  match schemas.mapM plainObject? with
  | none | some [] => permissive
  | some objects => .object (objects.foldl addObject { type := some (.one "object") })

end Schema

end BrickScope
