import BrickScope.Pipeline.Basic
import BrickScope.Pipeline.Position

/-!
# Document elements and structural rules

The body of a document brick is a tree of elements.  An element is an object with a type; its configuration and its
children are optional.  A list element repeats a deferred body for each row.

* `Element.ofConfig`: a configuration value as an element.
* `Violation.message`: the text of a structural error.
-/

namespace BrickScope

/-- The rules that the tree of a pipeline has to keep. -/
inductive Rule where
  | bodyIsList
  | elementIsObject
  | elementHasType
  | rowIsDeferred
  | propertyIsPipeline (brick property : String)
  deriving DecidableEq

def Rule.message : Rule → String
  | bodyIsList => "document body must be a list of elements"
  | elementIsObject => "document element must be an object"
  | elementHasType => "document element has no type"
  | rowIsDeferred => "list element must have a deferred element body"
  | propertyIsPipeline brick property => brick ++ " expects a pipeline in '" ++ property ++ "'"

/-- A node that breaks a rule. -/
structure Violation where
  position : Position
  rule : Rule
  deriving DecidableEq

def Violation.message (v : Violation) : String :=
  "Business rule violation at " ++ v.position.path ++ ": " ++ v.rule.message

structure Element where
  type : String
  config : Option (List (String × ConfigValue))
  children : List ConfigValue

namespace Element

/-- A configuration value as an element. -/
def ofConfig : ConfigValue → Except Rule Element
  | .object members =>
    match (Table.get? members "type").bind ConfigValue.text? with
    | some type => .ok ⟨type, (Table.get? members "config").bind ConfigValue.members?,
        ((Table.get? members "children").bind ConfigValue.items?).getD []⟩
    | none => .error .elementHasType
  | _ => .error .elementIsObject

def isList (e : Element) : Bool := e.type = "list"

def value? (e : Element) (name : String) : Option ConfigValue := e.config.bind fun config => Table.get? config name

/-- The member of a list element that holds the body of its rows. -/
def rowKey : String := "element"

/-- A list element without a deferred body. -/
def lacksRow (e : Element) : Bool :=
  e.isList && (match e.value? rowKey with
  | some (.deferred _) => false
  | _ => true)

end Element

end BrickScope
