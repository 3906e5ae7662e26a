import BrickScope.Distinct
import BrickScope.Pipeline.Outline
import BrickScope.Pipeline.Walk

/-!
# Visits

A walk through an outline visits its nodes in order and ends at the first violation.

* `Level.visits`: the visits of a walk, and the violation that ended it.
* `Pipeline.brickIds`: the ids of all bricks in a pipeline.
-/

namespace BrickScope

inductive Visit where
  | pipeline (position : Position) (size : Nat) (owner : Option Owner)
  | brick (position : Position) (brick : Brick) (isDocument : Bool)
  | expression (position : Position) (e : Expression)
  | literal (position : Position) (value : Scalar)
  | document (position : Position) (brick : Brick)
  | element (position : Position) (element : Element) (brick : Brick)
  | deferred (position : Position) (brick : Brick) (row : Option Element)

mutual

/-- The visits at a node; `enter` says which bricks are looked into. -/
def Site.visits (enter : Brick → Bool) : Site → Walk Visit
  | .literal p value => ⟨[.literal p value], none⟩
  | .expression p e => ⟨[.expression p e], none⟩
  | .level level => level.visits enter
  | .document p brick inside => (sitesVisits enter inside).cons (.document p brick)
  | .element p element brick inside => (sitesVisits enter inside).cons (.element p element brick)
  | .deferred p brick row inside => (sitesVisits enter inside).cons (.deferred p brick row)
  | .violation v => ⟨[], some v⟩

def sitesVisits (enter : Brick → Bool) : List Site → Walk Visit
  | [] => {}
  | s :: sites => s.visits enter ++ sitesVisits enter sites

def Level.visits (enter : Brick → Bool) : Level → Walk Visit
  | ⟨p, owner, bricks⟩ => (bricksVisits enter bricks).cons (.pipeline p bricks.length owner)

def bricksVisits (enter : Brick → Bool) : List BrickSite → Walk Visit
  | [] => {}
  | b :: bricks => b.visits enter ++ bricksVisits enter bricks

def BrickSite.visits (enter : Brick → Bool) : BrickSite → Walk Visit
  | ⟨p, brick, isDocument, inside⟩ =>
    (if enter brick then sitesVisits enter inside else {}).cons (.brick p brick isDocument)

end

/-- The brick of a visit to one. -/
def Visit.brick? : Visit → Option Brick
  | brick _ b _ => some b
  | _ => none

/-- The document brick that every platform has. -/
def defaultDocumentId : String := "@pixiebrix/document"

/-- The ids of all bricks in a pipeline, each once, in the order in which they are met.  Positions in errors are given
without a root. -/
def Pipeline.brickIds (pipeline : Pipeline) : Except Violation (List String) :=
  let walk := (pipeline.outline (· = defaultDocumentId) ⟨""⟩).visits fun _ => true
  match walk.failure with
  | some v => .error v
  | none => .ok (distinct ((walk.events.filterMap Visit.brick?).map Brick.id))

end BrickScope
