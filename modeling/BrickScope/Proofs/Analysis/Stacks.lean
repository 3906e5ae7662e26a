import BrickScope.Proofs.Analysis.Walk
import BrickScope.Proofs.Pipeline.Placement
import BrickScope.Proofs.Sources

/-!
# What is open during a walk

The steps of an analysis can be replayed on two stacks: the levels that have been entered and not left, and the scopes
that expressions are checked against.  Each step of an analysis fits what is open when it is made.

* `Session.visible`: what a brick sees, said by the bricks before it;
* `Stacks.after`, `Stacks.replay`: what is open after some steps;
* `Stacks.Along`, `Leads`: what holds at each of some steps, with what is open there;
* `Step.Fits`: what a step has to do with what is open;
* `Session.levelSteps_fit`: all steps of a level fit, and leave open what was open before.
-/

namespace BrickScope

open Position (Below)

/-! ## what a brick sees -/

namespace Session

variable (s : Session)

/-- The tree of the output of the brick with index `j` in the level at `p`, if it has an output. -/
def outputTree? (p : Position) (b : Brick) (j : Nat) : Option Node :=
  b.outputVariable?.bind fun name =>
    Scope.treeOf (p.brick j).path (s.bricks.output b).schema [name] (if b.isConditional then some .maybe else none)

/-- The outputs of the first bricks of the level at `p`, each under the position of its brick. -/
def outputTrees (p : Position) (bricks : List Brick) : Table Node :=
  bricks.zipIdx.flatMap fun b => (s.outputTree? p b.1 b.2).toList.map fun tree => ((p.brick b.2).path, tree)

/-- What was seen when a brick last ran. -/
def lastSeen? (b : Brick) : Option Json :=
  b.instanceId.bind fun id =>
    (s.context.trace.filter fun r => r.instanceId = id).getLast?.map TraceRecord.templateContext

/-- What a brick sees in the level at `p`: what the level inherits, the outputs of the bricks before it, and what was
seen when it last ran. -/
def visible (inherited : Scope) (p : Position) (earlier : List Brick) (b : Brick) : Scope :=
  let m : Scope := ⟨Table.insertAll inherited.sources (s.outputTrees p earlier)⟩
  match s.lastSeen? b with
  | some seen => m.observe "trace" seen []
  | none => m

theorem mem_outputTrees {p : Position} {bricks : List Brick} {k : String × Node} (h : k ∈ s.outputTrees p bricks) :
    ∃ j < bricks.length, k.1 = (p.brick j).path := by
  obtain ⟨⟨b, j⟩, hb, hk⟩ := List.mem_flatMap.1 h
  obtain ⟨tree, -, rfl⟩ := List.mem_map.1 hk
  obtain ⟨-, hj, -⟩ := List.mem_zipIdx hb
  exact ⟨j, by omega, rfl⟩

/-- A brick adds its tree to the outputs before it: no other brick of the level has its position. -/
theorem addProduct_outputTrees (p : Position) (earlier : List Brick) (b : Brick) :
    s.addProduct (p.brick earlier.length) b ⟨s.outputTrees p earlier⟩ = ⟨s.outputTrees p (earlier ++ [b])⟩ := by
  have happ : s.outputTrees p (earlier ++ [b]) = s.outputTrees p earlier ++
      (s.outputTree? p b earlier.length).toList.map fun tree => ((p.brick earlier.length).path, tree) := by
    simp [outputTrees, List.zipIdx_append]
  have hnew : (⟨s.outputTrees p earlier⟩ : Scope).source? (p.brick earlier.length).path = none := by
    refine Table.get?_eq_none fun k hk he => ?_
    obtain ⟨j, hj, hkj⟩ := s.mem_outputTrees hk
    have := Position.brick_injective (he.trans hkj)
    omega
  rw [happ, addProduct, product?, outputTree?]
  cases b.outputVariable? with
  | none => simp
  | some name => exact Scope.describe_new hnew _ _ _

theorem brickScope_outputTrees (inherited : Scope) (p : Position) (earlier : List Brick) (b : Brick) :
    s.brickScope inherited ⟨s.outputTrees p earlier⟩ b = s.visible inherited p earlier b := by
  have hseen : b.instanceId.bind s.context.traceFor? = s.lastSeen? b := by
    unfold lastSeen?
    cases b.instanceId with
    | none => rfl
    | some id => simp [Context.traceFor?, List.getLast?_filter]
  rw [brickScope, hseen]
  rfl

end Session

/-! ## the two stacks -/

/-- A level that is open: where it stands, what it inherits, and its bricks so far, the one that is open included. -/
structure OpenLevel where
  position : Position
  inherited : Scope
  bricks : List Brick := []

namespace OpenLevel

/-- The position of the next brick. -/
def next (l : OpenLevel) : Position := l.position.brick l.bricks.length

/-- The position of the brick that was entered last. -/
def current (l : OpenLevel) : Position := l.position.brick (l.bricks.length - 1)

def add (b : Brick) (l : OpenLevel) : OpenLevel := { l with bricks := l.bricks ++ [b] }

@[simp] theorem current_add (b : Brick) (l : OpenLevel) : (l.add b).current = l.next := by
  simp [current, next, add]

end OpenLevel

/-- What is open in the middle of a walk, the innermost first: levels, and the scopes that expressions see. -/
structure Stacks where
  levels : List OpenLevel := []
  active : List Scope := []

namespace Stacks

/-- What is open after a step.  The row of a list brings a scope of its own; any other body sees what is seen around
it. -/
def after (σ : Stacks) : Step → Stacks
  | .openLevel p _ inherited => { σ with levels := ⟨p, inherited, []⟩ :: σ.levels }
  | .closeLevel _ _ => { σ with levels := σ.levels.tail }
  | .enterBrick _ b scope => ⟨σ.levels.modifyHead (OpenLevel.add b), scope :: σ.active⟩
  | .leaveBrick _ _ => { σ with active := σ.active.tail }
  | .enterBody _ isRow scope => { σ with active := (if isRow then [scope] else σ.active.take 1) ++ σ.active }
  | .leaveBody _ => { σ with active := σ.active.tail }
  | .check _ _ _ => σ

/-- What is open after some steps. -/
def replay (σ : Stacks) (steps : List Step) : Stacks := steps.foldl after σ

theorem replay_append (σ : Stacks) (xs ys : List Step) : σ.replay (xs ++ ys) = (σ.replay xs).replay ys :=
  List.foldl_append

end Stacks

/-- What a step has to do with what is open: a level stands below the brick that is open, a brick is the next one of the
innermost level and sees what it should, expressions see the innermost scope. -/
def Step.Fits (s : Session) (σ : Stacks) : Step → Prop
  | .openLevel p _ _ => ∀ l ∈ σ.levels.head?, Below l.current p
  | .enterBrick p b scope => ∃ l outer, σ.levels = l :: outer ∧ p = l.next ∧
      scope = s.visible l.inherited l.position l.bricks b
  | .enterBody _ isRow scope => isRow = false → σ.active.head? = some scope
  | .check _ _ scope => σ.active.head? = some scope
  | _ => True

/-- `F` holds of each step and of what is open when it is made, from `σ` on. -/
def Stacks.Along (F : Stacks → Step → Prop) : Stacks → List Step → Prop
  | _, [] => True
  | σ, step :: steps => F σ step ∧ Along F (σ.after step) steps

/-- The steps fit one after the other, from `σ` on. -/
abbrev AllFit (s : Session) : Stacks → List Step → Prop := Stacks.Along (Step.Fits s)

section

variable {F : Stacks → Step → Prop}

theorem Stacks.along_append {σ : Stacks} {xs ys : List Step} :
    σ.Along F (xs ++ ys) ↔ σ.Along F xs ∧ (σ.replay xs).Along F ys := by
  induction xs generalizing σ with
  | nil => simp [Along, replay]
  | cons x xs ih =>
    rw [List.cons_append, Along, Along, ih, and_assoc]
    rfl

/-- `F` holds at any place of the steps, with what is open there. -/
theorem Stacks.Along.at {σ : Stacks} {before after : List Step} {step : Step}
    (h : σ.Along F (before ++ step :: after)) : F (σ.replay before) step :=
  (along_append.1 h).2.1

/-- Steps along which `F` holds, and that lead from `σ` to `τ`. -/
def Leads (F : Stacks → Step → Prop) (σ : Stacks) (steps : List Step) (τ : Stacks) : Prop :=
  σ.Along F steps ∧ σ.replay steps = τ

theorem Leads.nil (σ : Stacks) : Leads F σ [] σ := ⟨trivial, rfl⟩

theorem Leads.append {σ τ υ : Stacks} {xs ys : List Step} (hx : Leads F σ xs τ) (hy : Leads F τ ys υ) :
    Leads F σ (xs ++ ys) υ := by
  obtain ⟨fx, rfl⟩ := hx
  obtain ⟨fy, rfl⟩ := hy
  exact ⟨Stacks.along_append.2 ⟨fx, fy⟩, Stacks.replay_append _ _ _⟩

theorem Leads.single (σ : Stacks) (step : Step) (h : F σ step) : Leads F σ [step] (σ.after step) :=
  ⟨⟨h, trivial⟩, rfl⟩

theorem Leads.bracket {σ τ υ : Stacks} {first last : Step} {w : Walk Step} (hfirst : F σ first)
    (hw : Leads F (σ.after first) w.events τ) (hlast : F τ last) (hυ : τ.after last = υ) :
    Leads F σ (Walk.bracket first w last).events υ := by
  subst hυ
  exact ((Leads.single σ first hfirst).append hw).append (Leads.single τ last hlast)

/-- A walk, and another one behind it unless it has failed. -/
theorem Leads.walk_append_or {σ τ υ : Stacks} {w rest : Walk Step} (hw : Leads F σ w.events τ)
    (hr : Leads F τ rest.events υ) : Leads F σ (w ++ rest).events τ ∨ Leads F σ (w ++ rest).events υ := by
  cases h : w.failure with
  | some v =>
    rw [Walk.append_of_failure h]
    exact .inl hw
  | none =>
    rw [Walk.events_append h]
    exact .inr (hw.append hr)

/-- A walk that leads back to where it started, and another such walk behind it. -/
theorem Leads.walk_append {σ : Stacks} {w rest : Walk Step} (hw : Leads F σ w.events σ)
    (hr : Leads F σ rest.events σ) : Leads F σ (w ++ rest).events σ :=
  (hw.walk_append_or hr).elim id id

end

/-! ## all steps fit -/

namespace Session

variable (s : Session)

mutual

theorem siteSteps_fit (depth : Nat) {l : OpenLevel} (outer : List OpenLevel) (active : Scope) (rest : List Scope) :
    ∀ site : Site, site.Placed l.current →
      Leads (Step.Fits s) ⟨l :: outer, active :: rest⟩ (s.siteSteps depth active site).events
        ⟨l :: outer, active :: rest⟩
  | .literal _ _, _ => Leads.nil _
  | .expression p e, _ => Leads.single _ (.check p e active) rfl
  | .level level, h => levelSteps_fit depth _ active level (by rintro _ ⟨⟩; exact h.1) h.2
  | .document _ _ inside, h => sitesSteps_fit depth outer active rest inside h
  | .element _ _ _ inside, h => sitesSteps_fit depth outer active rest inside h
  | .deferred p _ row inside, h => by
    have hin := sitesSteps_fit depth outer (bodyScope p row active) (active :: rest) inside h
    have henter : Leads (Step.Fits s) ⟨l :: outer, active :: rest⟩ [.enterBody p row.isSome (bodyScope p row active)]
        ⟨l :: outer, bodyScope p row active :: active :: rest⟩ := by
      cases row with
      | none => exact Leads.single _ _ fun _ => rfl
      | some e => exact Leads.single _ _ fun h => absurd h (by simp)
    exact (henter.append hin).append (Leads.single _ (.leaveBody p) trivial)
  | .violation _, _ => Leads.nil _

theorem sitesSteps_fit (depth : Nat) {l : OpenLevel} (outer : List OpenLevel) (active : Scope) (rest : List Scope) :
    ∀ sites : List Site, SitesPlaced l.current sites →
      Leads (Step.Fits s) ⟨l :: outer, active :: rest⟩ (s.sitesSteps depth active sites).events
        ⟨l :: outer, active :: rest⟩
  | [], _ => Leads.nil _
  | site :: sites, h => by
    rw [sitesSteps]
    exact (siteSteps_fit depth outer active rest site h.1).walk_append
      (sitesSteps_fit depth outer active rest sites h.2)

theorem levelSteps_fit (depth : Nat) (σ : Stacks) (active : Scope) :
    ∀ level : Level, (∀ l ∈ σ.levels.head?, Below l.current level.position) → level.Placed →
      Leads (Step.Fits s) σ (s.levelSteps depth active level).events σ
  | ⟨p, owner, bricks⟩, hbelow, hplaced => by
    obtain ⟨done, hb⟩ := bricksSteps_fit (depth + 1) (s.levelScope p owner active) p [] σ.levels σ.active bricks
      hplaced
    rw [levelSteps]
    exact Leads.bracket hbelow hb trivial rfl

-- The outputs that are carried along are those of the bricks that have been entered.
theorem bricksSteps_fit (depth : Nat) (inherited : Scope) (p : Position) (earlier : List Brick)
    (outer : List OpenLevel) (rest : List Scope) :
    ∀ bricks : List BrickSite, BricksPlaced p earlier.length bricks →
      ∃ done, Leads (Step.Fits s) ⟨⟨p, inherited, earlier⟩ :: outer, rest⟩
        (s.bricksSteps depth inherited ⟨s.outputTrees p earlier⟩ bricks).events ⟨⟨p, inherited, done⟩ :: outer, rest⟩
  | [], _ => ⟨earlier, Leads.nil _⟩
  | b :: bricks, h => by
    have hb := brickSteps_fit depth inherited p earlier outer rest b h.1
    have hlen : earlier.length + 1 = (earlier ++ [b.brick]).length := by simp
    have hpos : b.position = p.brick earlier.length := by
      cases b
      exact h.1.1
    obtain ⟨done, hr⟩ := bricksSteps_fit depth inherited p (earlier ++ [b.brick]) outer rest bricks (hlen ▸ h.2)
    rw [bricksSteps, hpos, addProduct_outputTrees]
    exact (hb.walk_append_or hr).elim (fun h => ⟨_, h⟩) fun h => ⟨done, h⟩

theorem brickSteps_fit (depth : Nat) (inherited : Scope) (p : Position) (earlier : List Brick)
    (outer : List OpenLevel) (rest : List Scope) :
    ∀ b : BrickSite, b.Placed (p.brick earlier.length) →
      Leads (Step.Fits s) ⟨⟨p, inherited, earlier⟩ :: outer, rest⟩
        (s.brickSteps depth inherited ⟨s.outputTrees p earlier⟩ b).events
        ⟨⟨p, inherited, earlier ++ [b.brick]⟩ :: outer, rest⟩
  | ⟨q, b, _, inside⟩, ⟨hq, hin⟩ => by
    subst hq
    rw [brickSteps, brickScope_outputTrees]
    dsimp only
    set scope := s.visible inherited p earlier b
    set walk := (match s.violation? (p.brick earlier.length) b with
      | some v => (⟨[], some v⟩ : Walk Step)
      | none => s.sitesSteps depth scope inside)
    have hcurrent : OpenLevel.current ⟨p, inherited, earlier ++ [b]⟩ = p.brick earlier.length :=
      OpenLevel.current_add b ⟨p, inherited, earlier⟩
    have hwalk : Leads (Step.Fits s) ⟨⟨p, inherited, earlier ++ [b]⟩ :: outer, scope :: rest⟩ walk.events
        ⟨⟨p, inherited, earlier ++ [b]⟩ :: outer, scope :: rest⟩ := by
      unfold walk
      cases s.violation? (p.brick earlier.length) b with
      | some v => exact Leads.nil _
      | none => exact sitesSteps_fit depth outer scope rest inside (hcurrent ▸ hin)
    exact Leads.bracket ⟨_, _, rfl, rfl, rfl⟩ hwalk trivial rfl

end

end Session

end BrickScope
