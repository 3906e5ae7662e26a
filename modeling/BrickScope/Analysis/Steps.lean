import BrickScope.Context
import BrickScope.Settings

/-!
# Steps of an analysis

The analysis walks through the outline of a pipeline and carries the scope along.  At each level a brick sees what the
level inherits and the outputs of the bricks before it; inside a brick, expressions and nested levels see what the brick
sees.  Since a scope is only ever handed inwards, nothing that is defined inside a level can be seen behind it.

The walk gives a list of steps, of which every other result is a view.  Whatever is entered is left again, also when a
violation ends the walk.

* `Session.steps`: the steps of the walk through a pipeline.
-/

namespace BrickScope

/-- The variable that a brick defines for the bricks behind it. -/
structure Product where
  name : String
  brickId : String
  output : Output
  /-- The brick may be passed over. -/
  isConditional : Bool

namespace Product

/-- The existence that overrides what the schema says: a brick that may be passed over only perhaps has an output. -/
def bound (o : Product) : Option Existence := if o.isConditional then some .maybe else none

/-- Add the product of the brick at `p`. -/
def addTo (o : Product) (p : Position) (m : Scope) : Scope := m.describe p.path o.output.schema [o.name] o.bound

end Product

inductive Step where
  /-- A level is entered; the root has depth 1. -/
  | openLevel (position : Position) (depth : Nat) (inherited : Scope)
  | closeLevel (position : Position) (depth : Nat)
  | enterBrick (position : Position) (brick : Brick) (scope : Scope)
  /-- A brick is left, with its product if it has one and nothing was wrong inside. -/
  | leaveBrick (position : Position) (product : Option Product)
  /-- A deferred body is entered, which may be the row of a list. -/
  | enterBody (position : Position) (isRow : Bool) (scope : Scope)
  | leaveBody (position : Position)
  | check (position : Position) (e : Expression) (scope : Scope)

/-- What the walk has to know: the definitions of the bricks have been looked up. -/
structure Session where
  context : Context
  settings : Settings
  bricks : Definitions

/-- The name of the rows of a list element. -/
def Element.rowName (e : Element) : String := nameOr "element" ((e.value? "elementKey").bind ConfigValue.text?)

namespace Session

/-- What a brick defines, if it has an output key. -/
def product? (s : Session) (b : Brick) : Option Product :=
  b.outputVariable?.map fun name => ⟨name, b.id, s.bricks.output b, b.isConditional⟩

/-- The outputs of a level after the brick at `p`. -/
def addProduct (s : Session) (p : Position) (b : Brick) (outputs : Scope) : Scope :=
  match s.product? b with
  | some o => o.addTo p outputs
  | none => outputs

/-- What a brick sees: what its level inherits, the outputs before it, and what was seen when it last ran. -/
def brickScope (s : Session) (inherited outputs : Scope) (b : Brick) : Scope :=
  let m := inherited.extend outputs
  match b.instanceId.bind s.context.traceFor? with
  | some seen => m.observe "trace" seen []
  | none => m

/-- Add a variable that a construct binds in its pipeline at `p`. -/
def bind (p : Position) (m : Scope) (b : Binding) : Scope :=
  match b.schema with
  | some schema => m.describe p.path schema [b.name] none
  | none => m.setVariable p.path b.name .definitely true

/-- The variables that the owner of a pipeline binds in it.  A pipeline in a document element gets none. -/
def ownerBindings (s : Session) (o : Owner) : List Binding :=
  match o.property, o.elementType with
  | some property, none =>
    match s.settings.construct? o.brick.id with
    | some c => c.bindings o.brick property
    | none => []
  | _, _ => []

/-- What the level at `p` inherits. -/
def levelScope (s : Session) (p : Position) (owner : Option Owner) (active : Scope) : Scope :=
  ((owner.map s.ownerBindings).getD []).foldl (bind p) active

/-- What the deferred body at `p` sees: a row of a list is a variable of its own. -/
def bodyScope (p : Position) (row : Option Element) (active : Scope) : Scope :=
  match row with
  | some e => active.setVariable p.path e.rowName .definitely true
  | none => active

/-- A property of a construct that must hold a pipeline and does not. -/
def violation? (s : Session) (p : Position) (b : Brick) : Option Violation :=
  (s.settings.construct? b.id).bind fun c => c.violation? b p

mutual

/-- The steps at a node that sees `active` in a level of the given depth. -/
def siteSteps (s : Session) (depth : Nat) (active : Scope) : Site → Walk Step
  | .literal _ _ => {}
  | .expression p e => ⟨[.check p e active], none⟩
  | .level level => s.levelSteps depth active level
  | .document _ _ inside => s.sitesSteps depth active inside
  | .element _ _ _ inside => s.sitesSteps depth active inside
  | .deferred p _ row inside =>
    let scope := bodyScope p row active
    .bracket (.enterBody p row.isSome scope) (s.sitesSteps depth scope inside) (.leaveBody p)
  | .violation v => ⟨[], some v⟩
termination_by structural site => site

def sitesSteps (s : Session) (depth : Nat) (active : Scope) : List Site → Walk Step
  | [] => {}
  | site :: sites => s.siteSteps depth active site ++ s.sitesSteps depth active sites
termination_by structural sites => sites

/-- The steps of a level in which `active` is seen around it; `depth` levels are around it. -/
def levelSteps (s : Session) (depth : Nat) (active : Scope) : Level → Walk Step
  | ⟨p, owner, bricks⟩ =>
    let inherited := s.levelScope p owner active
    .bracket (.openLevel p (depth + 1) inherited) (s.bricksSteps (depth + 1) inherited .empty bricks)
      (.closeLevel p (depth + 1))
termination_by structural level => level

def bricksSteps (s : Session) (depth : Nat) (inherited outputs : Scope) : List BrickSite → Walk Step
  | [] => {}
  | b :: bricks =>
    s.brickSteps depth inherited outputs b ++
      s.bricksSteps depth inherited (s.addProduct b.position b.brick outputs) bricks
termination_by structural bricks => bricks

def brickSteps (s : Session) (depth : Nat) (inherited outputs : Scope) : BrickSite → Walk Step
  | ⟨p, b, _, inside⟩ =>
    let scope := s.brickScope inherited outputs b
    let walk := match s.violation? p b with
      | some v => ⟨[], some v⟩
      | none => s.sitesSteps depth scope inside
    .bracket (.enterBrick p b scope) walk (.leaveBrick p (if walk.failure.isNone then s.product? b else none))
termination_by structural b => b

end

/-- The outline of a pipeline under the settings of a session. -/
def outline (s : Session) (pipeline : Pipeline) : Level := pipeline.outline s.settings.isDocument ⟨s.settings.rootPath⟩

/-- The steps of the walk through a pipeline whose first brick sees `root`. -/
def steps (s : Session) (root : Scope) (pipeline : Pipeline) : Walk Step := s.levelSteps 0 root (s.outline pipeline)

end Session

end BrickScope
