import BrickScope.Analysis.Steps
import BrickScope.Annotation
import BrickScope.Template.References

/-!
# Reports

A report holds the scope at every brick and every deferred body, and an annotation for each reference that is not
known to be defined.  Scopes, annotations and log entries are views of the steps of an analysis.

* `Analyzer.run`: the report on a pipeline, or the violation that ended the walk, with the log.
-/

namespace BrickScope

structure Report where
  /-- The scope at each position at which one was recorded. -/
  knownVars : Table Scope := []
  annotations : List Annotation := []

namespace Report

def scopeAt? (r : Report) (position : String) : Option Scope := Table.get? r.knownVars position

def annotationsAt (r : Report) (position : String) : List Annotation :=
  r.annotations.filter fun a => a.position.path = position

def toJson (r : Report) : Json :=
  .object [("knownVars", .object (r.knownVars.map fun k => (k.1, k.2.toJson))),
    ("annotations", Format.encode r.annotations)]

end Report

/-- The references in an expression, or where its template ends too early. -/
def Expression.references (checkTemplates : Bool) : Expression → Except Template.Stop (List String)
  | reference path => .ok [path]
  | template _ text =>
    if checkTemplates then
      let r := Template.extract text
      match r.stop with
      | some stop => .error stop
      | none => .ok r.references
    else .ok []

/-- The annotations for the references in an expression that a scope does not define. -/
def Expression.annotations (checkTemplates : Bool) (p : Position) (scope : Scope) (e : Expression) : List Annotation :=
  match e.references checkTemplates with
  | .ok references =>
    (references.filter fun r => !scope.defines (Text.trim r)).map fun r => .undefined p r e.quote
  | .error _ => []

namespace Product

/-- The word for how surely the product is there. -/
def sureness (o : Product) : String := if o.isConditional then "maybe" else "definitely"

def log (o : Product) (p : Position) : List Log.Entry :=
  o.output.log o.brickId ++ [Log.debug (p.path ++ " outputs " ++ o.name ++ " (" ++ o.sureness ++ ")")]

end Product

namespace Step

/-- The scope that is recorded for a position. -/
def record? : Step → Option (String × Scope)
  | enterBrick p _ scope => some (p.path, scope)
  | enterBody p _ scope => some (p.path, scope)
  | _ => none

/-- What the author is told. -/
def annotations (settings : Settings) : Step → List Annotation
  | check p e scope => e.annotations settings.checkTemplates p scope
  | _ => []

/-- What is logged.  The root level is not worth an entry. -/
def log (settings : Settings) : Step → List Log.Entry
  | openLevel p depth _ =>
    if depth ≤ 1 then []
    else [Log.debug ("push frame " ++ p.path ++ " (depth " ++ toString depth ++ ")")]
  | closeLevel p depth => if depth ≤ 1 then [] else [Log.debug ("pop frame " ++ p.path)]
  | enterBrick p _ _ => [Log.debug ("recorded scope " ++ p.path)]
  | leaveBrick p product => (product.map fun o => o.log p).getD []
  | enterBody p isRow _ =>
    [Log.debug ("recorded " ++ (if isRow then "element" else "deferred") ++ " scope " ++ p.path)]
  | leaveBody _ => []
  | check p e _ =>
    match e.references settings.checkTemplates with
    | .error stop => [Log.warn ("Skipping malformed template at " ++ p.path ++ ": " ++ stop.opening.message ++
        " (index " ++ toString stop.index ++ ")")]
    | .ok _ => []

end Step

/-- The report on the steps of a walk that met no violation. -/
def Report.ofSteps (settings : Settings) (steps : List Step) : Report where
  knownVars := Table.ofList (steps.filterMap Step.record?)
  annotations := (steps.flatMap (Step.annotations settings)).foldl Annotation.push []

/-- The entry at the end of a run. -/
def Report.summary (r : Report) : Log.Entry :=
  Log.debug ("Analysis finished: " ++ toString r.knownVars.length ++ " scopes, " ++
    toString r.annotations.length ++ " annotations")

/-- Everything that an analysis is given besides the pipeline. -/
structure Analyzer where
  context : Context := {}
  bricks : Registry Definition
  mods : Option (Registry Schema) := none
  settings : Settings := {}

structure Run where
  outcome : Except Violation Report
  log : List Log.Entry := []

namespace Analyzer

/-- The session for a pipeline with the given bricks; readers are looked up as well. -/
def session (a : Analyzer) (ids : List String) : Session :=
  ⟨a.context, a.settings, Definitions.resolve a.bricks (ids ++ a.context.readerIds)⟩

/-- The variables that the first brick sees. -/
def rootScope (a : Analyzer) (s : Session) : Scope := a.context.rootScope a.mods s.bricks

/-- What is logged before the walk. -/
def preamble (a : Analyzer) (s : Session) : List Log.Entry :=
  Log.debug ("Resolved " ++ toString s.bricks.size ++ " brick definitions") :: a.context.rootLog a.mods s.bricks

def run (a : Analyzer) (pipeline : Pipeline) : Run :=
  match pipeline.brickIds with
  | .error v => { outcome := .error v }
  | .ok ids =>
    let s := a.session ids
    let walk := s.steps (a.rootScope s) pipeline
    let log := a.preamble s ++ walk.events.flatMap (Step.log a.settings)
    match walk.failure with
    | some v => ⟨.error v, log⟩
    | none =>
      let report := Report.ofSteps a.settings walk.events
      ⟨.ok report, log ++ [report.summary]⟩

end Analyzer

end BrickScope
