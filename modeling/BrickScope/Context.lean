import BrickScope.Existence.Evidence
import BrickScope.Existence.Schema
import BrickScope.Registry

/-!
# Context

What surrounds a pipeline before it runs: the options and the state of its mod, the integrations it may use, the input
that the starter brings, and what was seen when its bricks last ran.

* `Context.rootScope`: the variables that the first brick sees.
* `Context.traceFor?`: what was seen when a brick last ran.
-/

namespace BrickScope

/-- A configured service, which is a variable of the pipeline. -/
structure Integration where
  integrationId : String
  outputKey : String
  isOptional : Bool := false
  configSchema : Option Schema := none

instance : Format Integration := Record.format { integrationId := "", outputKey := "" }
  [.mandatory "integrationId" Integration.integrationId fun v s => { s with integrationId := v },
    .mandatory "outputKey" Integration.outputKey fun v s => { s with outputKey := v },
    .defaulted "isOptional" Integration.isOptional fun v s => { s with isOptional := v },
    .defaulted "configSchema" Integration.configSchema fun v s => { s with configSchema := v }]

/-- The variables that a brick saw when it ran. -/
structure TraceRecord where
  instanceId : String
  templateContext : Json

instance : Format TraceRecord := Record.format ⟨"", .null⟩
  [.mandatory "instanceId" TraceRecord.instanceId fun v s => { s with instanceId := v },
    .mandatory "templateContext" TraceRecord.templateContext fun v s => { s with templateContext := v }]

structure Context where
  modId : Option String := none
  /-- If given, the registry of mods is not asked. -/
  optionsSchema : Option Schema := none
  optionValues : Option Json := none
  modState : Option Json := none
  modVariablesSchema : Option Schema := none
  integrations : List Integration := []
  readerIds : List String := []
  /-- If given, the readers are not asked. -/
  inputSchema : Option Schema := none
  trace : List TraceRecord := []

/-- The name of the variable of an integration, without a sigil. -/
def Integration.key (i : Integration) : String :=
  String.ofList ((Text.trim i.outputKey).toList.dropWhile (· = Reference.sigil))

namespace Context

instance : Format Context := Record.format {}
  [.defaulted "modId" Context.modId fun v s => { s with modId := v },
    .defaulted "optionsSchema" Context.optionsSchema fun v s => { s with optionsSchema := v },
    .defaulted "optionValues" Context.optionValues fun v s => { s with optionValues := v },
    .defaulted "modState" Context.modState fun v s => { s with modState := v },
    .defaulted "modVariablesSchema" Context.modVariablesSchema fun v s => { s with modVariablesSchema := v },
    .defaulted "integrations" Context.integrations fun v s => { s with integrations := v },
    .defaulted "readerIds" Context.readerIds fun v s => { s with readerIds := v },
    .defaulted "inputSchema" Context.inputSchema fun v s => { s with inputSchema := v },
    .defaulted "trace" Context.trace fun v s => { s with trace := v }]

/-- What was seen when a brick last ran. -/
def traceFor? (c : Context) (instanceId : String) : Option Json :=
  (c.trace.reverse.find? fun r => r.instanceId = instanceId).map TraceRecord.templateContext

/-- The schema of the options, and what is logged about it. -/
def options (c : Context) (mods : Option (Registry Schema)) : Schema × List Log.Entry :=
  match c.optionsSchema, c.modId, mods with
  | some schema, _, _ => (schema, [])
  | none, some id, some registry =>
    match registry id with
    | .ok schema => (schema, [])
    | .error e => (.permissive, [Log.warn ("Using permissive @options for " ++ id ++ ": " ++ e.message)])
  | none, _, _ => (.permissive, [])

/-- The schema of the input, and what is logged about it. -/
def input (c : Context) (bricks : Definitions) : Schema × List Log.Entry :=
  match c.inputSchema with
  | some schema => (schema, [])
  | none => bricks.readers c.readerIds

/-- Add the options: their schema, and the values that are set. -/
def addOptions (c : Context) (schema : Schema) (m : Scope) : Scope :=
  let m := m.describe "options" schema ["@options"] none
  match c.optionValues with
  | some values => m.observe "options:values" values ["@options"]
  | none => m

/-- Nothing is known of the variables of the mod. -/
def modIsUnknown (c : Context) : Bool := c.modState.isNone && c.modVariablesSchema.isNone

/-- Add the variables of the mod: those in its state, and those that its bricks may set. -/
def addMod (c : Context) (m : Scope) : Scope :=
  let m := m.set "mod" ["@mod"] .definitely c.modIsUnknown false
  let m := match c.modState with
    | some state => m.observe "mod" state ["@mod"]
    | none => m
  match c.modVariablesSchema with
  | some schema => m.describe "mod:inferred" schema ["@mod"] (some .maybe)
  | none => m

end Context

/-- Add an integration; one without a key is left out. -/
def Integration.addTo (i : Integration) (m : Scope) : Scope :=
  if i.key.isEmpty then m
  else m.describe ("integration:" ++ i.key) (i.configSchema.getD .permissive) ["@" ++ i.key]
    (if i.isOptional then some .maybe else none)

def Integration.log (i : Integration) : List Log.Entry :=
  if i.key.isEmpty then [Log.warn ("Skipping integration " ++ i.integrationId ++ " without an output key")] else []

namespace Context

/-- The variables that the first brick sees. -/
def rootScope (c : Context) (mods : Option (Registry Schema)) (bricks : Definitions) : Scope :=
  let m := c.addMod (c.addOptions (c.options mods).1 .empty)
  (c.integrations.foldl (fun m i => i.addTo m) m).describe "input" (c.input bricks).1 ["@input"] none

/-- What is logged about the variables that the first brick sees. -/
def rootLog (c : Context) (mods : Option (Registry Schema)) (bricks : Definitions) : List Log.Entry :=
  (c.options mods).2 ++ c.integrations.flatMap Integration.log ++ (c.input bricks).2

end Context

end BrickScope
