import BrickScope.Pipeline.Element
import BrickScope.Schema.Json

/-!
# Constructs

A construct is a brick that runs pipelines of its own: a loop, a branch, a retry.  Its rule names the properties that
hold these pipelines and the variables that it binds in them.

* `Construct.bindings`: the variables bound in the pipeline of a property.
* `Construct.violation?`: a property that must hold a pipeline and does not.
-/

namespace BrickScope

/-- A variable that a construct binds in one of its pipelines. -/
structure Injection where
  pipelineProp : String
  /-- The property that may give the variable another name. -/
  variableKeyProp : Option String := none
  defaultVariable : String
  schema : Option Schema := none

instance : Format Injection := Record.format { pipelineProp := "", defaultVariable := "" }
  [.mandatory "pipelineProp" Injection.pipelineProp fun v s => { s with pipelineProp := v },
    .defaulted "variableKeyProp" Injection.variableKeyProp fun v s => { s with variableKeyProp := v },
    .mandatory "defaultVariable" Injection.defaultVariable fun v s => { s with defaultVariable := v },
    .defaulted "schema" Injection.schema fun v s => { s with schema := v }]

structure Construct where
  brickId : String
  /-- The properties that hold a pipeline, if they are there. -/
  pipelineProps : List String := []
  injections : List Injection := []

/-- A variable with its sigil and what is known of its shape. -/
structure Binding where
  name : String
  schema : Option Schema

/-- The name that a brick gives to an injected variable. -/
def Injection.name (i : Injection) (b : Brick) : String :=
  nameOr i.defaultVariable (i.variableKeyProp.bind b.literalText?)

namespace Construct

instance : Format Construct := Record.format { brickId := "" }
  [.mandatory "brickId" Construct.brickId fun v s => { s with brickId := v },
    .defaulted "pipelineProps" Construct.pipelineProps fun v s => { s with pipelineProps := v },
    .defaulted "injections" Construct.injections fun v s => { s with injections := v }]

/-- A construct that binds one variable in the pipeline of a property. -/
def binding (brickId : String) (pipelineProps : List String) (property variableKey byDefault : String) : Construct :=
  ⟨brickId, pipelineProps, [⟨property, some variableKey, byDefault, none⟩]⟩

/-- The constructs that every platform has. -/
def builtin : List Construct :=
  [binding "@pixiebrix/for-each" ["body"] "body" "elementKey" "element",
    binding "@pixiebrix/for-each-element" ["body"] "body" "elementKey" "element",
    binding "@pixiebrix/try-except" ["try", "except"] "except" "errorKey" "error",
    { brickId := "@pixiebrix/if-else", pipelineProps := ["if", "else"] },
    { brickId := "@pixiebrix/retry", pipelineProps := ["body"] }]

def injectionsFor (c : Construct) (property : String) : List Injection :=
  c.injections.filter fun i => i.pipelineProp = property

/-- The variables that a brick binds in the pipeline of a property. -/
def bindings (c : Construct) (b : Brick) (property : String) : List Binding :=
  (c.injectionsFor property).map fun i => ⟨Reference.withSigil (i.name b), i.schema⟩

/-- May a property that is reserved for pipelines have this value? -/
def allows : Option ConfigValue → Bool
  | none | some (.literal .null) | some (.pipeline _) => true
  | some _ => false

/-- The first property that must hold a pipeline and does not. -/
def violation? (c : Construct) (b : Brick) (p : Position) : Option Violation :=
  (c.pipelineProps.find? fun property => !allows (Table.get? b.config property)).map fun property =>
    ⟨p.nested ["config", property], .propertyIsPipeline b.id property⟩

end Construct

end BrickScope
