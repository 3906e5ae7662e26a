import BrickScope.Proofs.Analysis.Diagnostics
import BrickScope.Proofs.Pipeline.Spots

/-!
# Positions as names of nodes

What a run records and reports is filed by position.  A position is a text, and the names in it are any texts, so that
two nodes may come to the same position: then one scope is recorded over the other, and what is said of one expression
is left out if it was said of the other.  Whether this happens in a run can be seen from the names on the ways to its
nodes.

* `Session.levelSteps_sights`: a run comes to the spots of the pipeline, one after the other;
* `keepFirst_flatMap`: annotations of different places are not taken for repetitions;
* `Report.TellsApart`: a report in which nothing is lost to another node;
* `Analyzer.tellsApart_iff`: this is so just if no two nodes have the same pieces on their ways.
-/

namespace BrickScope

/-! ## the spots of a run -/

/-- Where something is recorded or checked in a step. -/
def Step.sight? : Step → Option (Position × SpotKind)
  | enterBrick p _ _ | enterBody p _ _ => some (p, .recorded)
  | check p _ _ => some (p, .checked)
  | openLevel _ _ _ | closeLevel _ _ | leaveBrick _ _ | leaveBody _ => none

theorem Step.sight?_of_record? {step : Step} {k : String × Scope} (h : step.record? = some k) :
    step.sight? = some (⟨k.1⟩, .recorded) := by
  cases step with
  | enterBrick p b scope | enterBody p isRow scope =>
    cases h
    rfl
  | openLevel _ _ _ | closeLevel _ _ | leaveBrick _ _ | leaveBody _ | check _ _ _ => cases h

theorem Step.sight?_of_mem_annotations {settings : Settings} {step : Step} {x : Annotation}
    (h : x ∈ step.annotations settings) : step.sight? = some (x.position, .checked) := by
  cases step with
  | check p e scope =>
    rw [Step.annotations, Expression.annotations] at h
    split at h
    · obtain ⟨reference, -, rfl⟩ := List.mem_map.1 h
      rfl
    · cases h
  | openLevel _ _ _ | closeLevel _ _ | leaveBrick _ _ | leaveBody _ | enterBrick _ _ _ | enterBody _ _ _ => cases h

/-- If the steps come to their end, they come to the spots `marks`. -/
def Sights (steps : Walk Step) (marks : List (Position × SpotKind)) : Prop :=
  steps.Complete → steps.events.filterMap Step.sight? = marks

section

variable {steps steps' : Walk Step} {marks marks' : List (Position × SpotKind)}

theorem sights_empty : Sights {} [] := fun _ => rfl

theorem Sights.append (h : Sights steps marks) (h' : Sights steps' marks') :
    Sights (steps ++ steps') (marks ++ marks') := by
  intro hc
  obtain ⟨hc₁, hc₂⟩ := Walk.complete_append.1 hc
  rw [Walk.events_append hc₁, List.filterMap_append, h hc₁, h' hc₂]

theorem Sights.bracket {first last : Step} (h : Sights steps marks) (hl : last.sight? = none) :
    Sights (.bracket first steps last) (first.sight?.toList ++ marks) := by
  intro hc
  rw [Walk.events_bracket, List.filterMap_append, List.filterMap_cons, h hc, List.filterMap_cons_none hl,
    List.filterMap_nil, List.append_nil]
  cases first.sight? <;> rfl

end

namespace Session

variable (s : Session)

mutual

theorem siteSteps_sights (depth : Nat) (active : Scope) :
    ∀ site : Site, Sights (s.siteSteps depth active site) site.marks
  | .literal _ _ => sights_empty
  | .expression _ _ => fun _ => rfl
  | .level level => levelSteps_sights depth active level
  | .document _ _ inside => sitesSteps_sights depth active inside
  | .element _ _ _ inside => sitesSteps_sights depth active inside
  | .deferred p _ row inside => (sitesSteps_sights depth (bodyScope p row active) inside).bracket rfl
  | .violation v => fun hc => absurd hc (by simp [siteSteps])

theorem sitesSteps_sights (depth : Nat) (active : Scope) :
    ∀ sites : List Site, Sights (s.sitesSteps depth active sites) (sitesMarks sites)
  | [] => sights_empty
  | site :: sites => by
    rw [sitesSteps, sitesMarks]
    exact (siteSteps_sights depth active site).append (sitesSteps_sights depth active sites)

theorem levelSteps_sights (depth : Nat) (active : Scope) :
    ∀ level : Level, Sights (s.levelSteps depth active level) level.marks
  | ⟨p, owner, bricks⟩ => (bricksSteps_sights (depth + 1) (s.levelScope p owner active) .empty bricks).bracket rfl

theorem bricksSteps_sights (depth : Nat) (inherited outputs : Scope) :
    ∀ bricks : List BrickSite, Sights (s.bricksSteps depth inherited outputs bricks) (bricksMarks bricks)
  | [] => sights_empty
  | b :: bricks => by
    rw [bricksSteps, bricksMarks]
    exact (brickSteps_sights depth inherited outputs b).append (bricksSteps_sights depth inherited _ bricks)

theorem brickSteps_sights (depth : Nat) (inherited outputs : Scope) :
    ∀ b : BrickSite, Sights (s.brickSteps depth inherited outputs b) b.marks
  | ⟨p, b, _, inside⟩ => by
    rw [brickSteps]
    cases hv : s.violation? p b with
    | some v => exact fun hc => absurd hc (by simp)
    | none => exact (sitesSteps_sights depth (s.brickScope inherited outputs b) inside).bracket rfl

end

end Session

/-! ## repetitions in other places -/

theorem keepFirst_append {xs ys : List Annotation} (h : ∀ x ∈ xs, ∀ y ∈ ys, x.position ≠ y.position) :
    keepFirst (xs ++ ys) = keepFirst xs ++ keepFirst ys := by
  induction xs with
  | nil => rfl
  | cons x xs ih =>
    obtain ⟨hx, hxs⟩ := List.forall_mem_cons.1 h
    have hkeep : (keepFirst ys).filter (fun y => !y.repeats x) = keepFirst ys := by
      refine List.filter_eq_self.2 fun y hy => ?_
      have hne : ¬y.repeats x = true := fun hr => hx y (mem_of_mem_keepFirst hy) (repeats_iff.1 hr).2.symm
      simpa using hne
    rw [List.cons_append, keepFirst_cons, keepFirst_cons, ih hxs, List.filter_append, hkeep, List.cons_append]

theorem keepFirst_flatMap {α : Type} {f : α → List Annotation} {l : List α}
    (h : l.Pairwise fun a b => ∀ x ∈ f a, ∀ y ∈ f b, x.position ≠ y.position) :
    keepFirst (l.flatMap f) = l.flatMap fun a => keepFirst (f a) := by
  induction l with
  | nil => rfl
  | cons a l ih =>
    obtain ⟨ha, h⟩ := List.pairwise_cons.1 h
    have hbehind : ∀ x ∈ f a, ∀ y ∈ l.flatMap f, x.position ≠ y.position := by
      intro x hx y hy
      obtain ⟨b, hb, hy⟩ := List.mem_flatMap.1 hy
      exact ha b hb x hx y hy
    rw [List.flatMap_cons, keepFirst_append hbehind, ih h, List.flatMap_cons]

/-! ## reports in which nothing is lost -/

/-- The spots of a pipeline under the settings of an analyzer. -/
def Analyzer.spots (a : Analyzer) (p : Pipeline) : List Spot := p.spots a.settings.isDocument

/-- The position that a run gives to a spot. -/
def Analyzer.positionOf (a : Analyzer) (n : Spot) : Position := Position.nested ⟨a.settings.rootPath⟩ n.steps

/-- Nodes with different ways have different positions; so every scope that is recorded is in the report, and only what
is said twice of one expression is left out. -/
structure Report.TellsApart (a : Analyzer) (p : Pipeline) (r : Report) : Prop where
  positions : ∀ m ∈ a.spots p, ∀ n ∈ a.spots p, a.positionOf m = a.positionOf n → m.steps = n.steps
  scopes : r.knownVars = (a.steps p).filterMap Step.record?
  annotations : r.annotations = (a.steps p).flatMap fun step => keepFirst (step.annotations a.settings)

theorem pieces_of_isStep {steps : List String} (h : ∀ step ∈ steps, IsStep step) :
    Position.pieces steps = steps.map String.toList := by
  induction steps with
  | nil => rfl
  | cons step steps ih =>
    obtain ⟨⟨hne, hdot⟩, h⟩ := List.forall_mem_cons.1 h
    rw [Position.pieces_cons hne, List.splitOn_eq_singleton hdot, ih h]
    rfl

namespace Analyzer

variable {a : Analyzer} {p : Pipeline} {r : Report}

/-- A run comes to the spots of the pipeline. -/
theorem sights_eq (h : (a.run p).outcome = .ok r) :
    (a.steps p).filterMap Step.sight? = (a.spots p).map fun n => (a.positionOf n, n.kind) := by
  obtain ⟨-, hc, -⟩ := run_eq_ok_iff.1 h
  exact ((a.sessionFor p).levelSteps_sights 0 _ (a.outline p) hc).trans (Pipeline.marks_outline _ _ p)

/-- If the ways are told apart, no two steps have the same spot. -/
theorem pairwise_sight? (h : (a.run p).outcome = .ok r) (hd : p.Distinct)
    (hpos : ∀ m ∈ a.spots p, ∀ n ∈ a.spots p, a.positionOf m = a.positionOf n → m.steps = n.steps) :
    (a.steps p).Pairwise fun s t => ∀ m, s.sight? = some m → ∀ n, t.sight? = some n → m ≠ n := by
  have hmarks : ((a.spots p).map fun n => (a.positionOf n, n.kind)).Nodup := by
    -- a deferred body that is an expression has two spots with the same steps, so the kind is needed
    refine (Pipeline.nodup_spots _ hd).map_on fun m hm n hn he => ?_
    obtain ⟨hp, hk⟩ := Prod.mk.inj he
    obtain ⟨steps, kind⟩ := m
    obtain rfl : kind = n.kind := hk
    obtain rfl : steps = n.steps := hpos _ hm n hn hp
    rfl
  rw [← sights_eq h] at hmarks
  exact List.pairwise_filterMap.1 hmarks

theorem tellsApart_of_positions (h : (a.run p).outcome = .ok r) (hd : p.Distinct)
    (hpos : ∀ m ∈ a.spots p, ∀ n ∈ a.spots p, a.positionOf m = a.positionOf n → m.steps = n.steps) : r.TellsApart a p := by
  have hpair := pairwise_sight? h hd hpos
  obtain ⟨-, -, rfl⟩ := run_eq_ok_iff.1 h
  refine ⟨hpos, ?_, ?_⟩
  · refine Table.ofList_eq_self ?_
    rw [Table.keys, List.Nodup, List.pairwise_map, List.pairwise_filterMap]
    refine hpair.imp fun {s t} hst k hk k' hk' he => ?_
    exact hst _ (Step.sight?_of_record? hk) _ (Step.sight?_of_record? hk') (by rw [he])
  · have hplaces : (a.steps p).Pairwise fun s t => ∀ x ∈ s.annotations a.settings, ∀ y ∈ t.annotations a.settings,
        x.position ≠ y.position := by
      refine hpair.imp fun {s t} hst x hx y hy he => ?_
      exact hst _ (Step.sight?_of_mem_annotations hx) _ (Step.sight?_of_mem_annotations hy) (by rw [he])
    rw [← keepFirst_flatMap hplaces]
    exact (foldl_push _ _).trans (by simp)

/-- **When positions tell nodes apart.**  A run comes to the spots of the pipeline, each once.  Its report tells them
apart just if no two of them have the same pieces on the ways to them, and so it does if no name on these ways is empty
or has a dot in it. -/
theorem tellsApart_iff (h : (a.run p).outcome = .ok r) (hd : p.Distinct) :
    (a.steps p).filterMap Step.sight? = ((a.spots p).map fun n => (a.positionOf n, n.kind)) ∧ (a.spots p).Nodup ∧
    (r.TellsApart a p ↔
      ∀ m ∈ a.spots p, ∀ n ∈ a.spots p, Position.pieces m.steps = Position.pieces n.steps → m.steps = n.steps) ∧
    ((∀ n ∈ a.spots p, ∀ step ∈ n.steps, IsStep step) → r.TellsApart a p) := by
  have hiff : r.TellsApart a p ↔
      ∀ m ∈ a.spots p, ∀ n ∈ a.spots p, Position.pieces m.steps = Position.pieces n.steps → m.steps = n.steps := by
    constructor
    · intro ht m hm n hn he
      exact ht.positions m hm n hn (Position.nested_eq_nested_iff.2 he)
    · intro hp
      exact tellsApart_of_positions h hd fun m hm n hn he => hp m hm n hn (Position.nested_eq_nested_iff.1 he)
  refine ⟨sights_eq h, Pipeline.nodup_spots _ hd, hiff, fun hsteps => hiff.2 fun m hm n hn he => ?_⟩
  rw [pieces_of_isStep (hsteps m hm), pieces_of_isStep (hsteps n hn)] at he
  exact List.map_injective_iff.2 (fun _ _ => String.toList_injective) he

end Analyzer

/-- A brick with a pipeline under the names `a` and `b`, and another one under the name `a.b`. -/
def dottedNames : Pipeline :=
  [{ id := "outer", config :=
    [("a", .object [("b", .pipeline [{ id := "first", outputKey := some "x" },
        { id := "show", config := [("text", .expression (.reference "@y"))] }])]),
      ("a.b", .pipeline [{ id := "second" }, { id := "print", config := [("text", .expression (.reference "@y"))] }])] }]

/-- The nested bricks come to the same two positions: of five scopes three are left, of two annotations one. -/
theorem dottedNames_not_told_apart :
    Pipeline.Distinct dottedNames ∧ ∃ r, (plainAnalyzer.run dottedNames).outcome = .ok r ∧
      ¬r.TellsApart plainAnalyzer dottedNames ∧
      ((plainAnalyzer.steps dottedNames).filterMap Step.record?).map Prod.fst =
        ["pipeline.0", "pipeline.0.config.a.b.__value__.0", "pipeline.0.config.a.b.__value__.1",
          "pipeline.0.config.a.b.__value__.0", "pipeline.0.config.a.b.__value__.1"] ∧
      Table.keys r.knownVars =
        ["pipeline.0", "pipeline.0.config.a.b.__value__.0", "pipeline.0.config.a.b.__value__.1"] ∧
      ((plainAnalyzer.steps dottedNames).flatMap (Step.annotations plainAnalyzer.settings)).length = 2 ∧
      r.annotations.length = 1 := by
  refine ⟨Pipeline.distinct_of_readable ?_, _, Analyzer.run_eq_ok_iff.2
    ⟨⟨["outer", "first", "show", "second", "print"], rfl⟩, rfl, rfl⟩, fun ht => ?_, ?_, ?_, ?_, ?_⟩
  · simp +decide [dottedNames, BricksReadable, Brick.Readable, GuardReadable, MembersReadable, ConfigValue.Readable]
  · have hne := ht.positions ⟨["0", "config", "a", "b", "__value__", "0"], .recorded⟩ (by decide +kernel)
      ⟨["0", "config", "a.b", "__value__", "0"], .recorded⟩ (by decide +kernel) (by decide +kernel)
    exact absurd hne (by decide)
  all_goals decide +kernel

/-- A brick with a pipeline behind the names `a` and `c`, and a deferred expression behind the name `a.b`. -/
def mixedNames : Pipeline :=
  [{ id := "outer", config :=
    [("a", .object [("c", .pipeline [{ id := "show", config := [("", .expression (.reference "@y"))] }])]),
      ("a.b", .deferred (.expression (.reference "@y")))] }]

/-- Dots do no harm as long as the ways have different pieces. -/
theorem tellsApart_iff_mixedNames :
    Pipeline.Distinct mixedNames ∧ ∃ r, (plainAnalyzer.run mixedNames).outcome = .ok r ∧
      r.TellsApart plainAnalyzer mixedNames ∧
      Table.keys r.knownVars =
        ["pipeline.0", "pipeline.0.config.a.c.__value__.0", "pipeline.0.config.a.b.__value__"] ∧
      r.annotations.map Annotation.position =
        [⟨"pipeline.0.config.a.c.__value__.0.config"⟩, ⟨"pipeline.0.config.a.b.__value__"⟩] := by
  have hd : Pipeline.Distinct mixedNames := Pipeline.distinct_of_readable (by
    simp +decide [mixedNames, BricksReadable, Brick.Readable, GuardReadable, MembersReadable, ConfigValue.Readable])
  have h : (plainAnalyzer.run mixedNames).outcome = .ok _ :=
    Analyzer.run_eq_ok_iff.2 ⟨⟨["outer", "show"], rfl⟩, rfl, rfl⟩
  obtain ⟨-, -, hiff, -⟩ := Analyzer.tellsApart_iff h hd
  exact ⟨hd, _, h, hiff.2 (by decide +kernel), by decide +kernel, by decide +kernel⟩

end BrickScope
