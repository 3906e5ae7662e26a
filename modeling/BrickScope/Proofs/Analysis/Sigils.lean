import BrickScope.Proofs.Analysis.BoundNames
import BrickScope.Proofs.Existence.Merging

/-!
# Variables have their sigil

Whatever binds a variable on a run puts the sigil in front of its name, or keeps the one that is there, before the name
is split into segments.  So the variables of all scopes have their sigil, as long as nothing was seen when the bricks
last ran: what was seen is recorded as it is.

* `Node.HoldsVariables`, `Scope.HoldsVariables`: trees whose roots say nothing of themselves, and only hold variables;
* `Session.Keeps`, `Session.levelSteps_shows`: a property that is kept by what a walk does to scopes holds of all scopes
  that it shows;
* `Analyzer.variables_have_sigil`: the scopes of a report.
-/

namespace BrickScope

open Reference (sigil segments withSigil)

/-! ## roots -/

/-- A root that says nothing of itself; its children are variables with their sigil. -/
structure Node.HoldsVariables (root : Node) : Prop where
  existence : root.existence = none
  anyChild : root.anyChild = false
  isArray : root.isArray = false
  sigil : ∀ name ∈ Table.keys root.children, name.toList.head? = some sigil

namespace Node

variable {root : Node}

theorem holdsVariables_empty : HoldsVariables {} := ⟨rfl, rfl, rfl, fun _ h => by cases h⟩

theorem HoldsVariables.write (h : root.HoldsVariables) {x : String} (hx : x.toList.head? = some Reference.sigil)
    (path : List String) (e : Existence) (f : Node → Node) : (root.write e f (x :: path)).HoldsVariables := by
  refine ⟨h.existence, h.anyChild, h.isArray, fun name hname => ?_⟩
  obtain ⟨b, hb, rfl⟩ := List.mem_map.1 hname
  rcases Table.mem_insert hb with rfl | hb
  · exact hx
  · exact h.sigil _ (List.mem_map_of_mem hb)

/-- Only what is below a variable is known. -/
theorem HoldsVariables.mem_keys_of_lookup (h : root.HoldsVariables) {x : String} {path : List String}
    (hx : (root.lookup (x :: path)).isSome = true) : x ∈ Table.keys root.children := by
  by_contra hnot
  have hnone : root.child? x = none := Table.get?_eq_none_iff.2 hnot
  rw [lookup_cons_of_none h.anyChild hnone, h.isArray] at hx
  cases hx

end Node

/-! ## scopes -/

namespace Scope

/-- Each source of the scope only holds variables. -/
def HoldsVariables (m : Scope) : Prop := ∀ t ∈ m.sources, t.2.HoldsVariables

theorem holdsVariables_empty : empty.HoldsVariables := fun _ h => by cases h

namespace HoldsVariables

variable {m m' : Scope} (h : m.HoldsVariables)

include h

theorem write (source : String) {x : String} (hx : x.toList.head? = some sigil) (path : List String) (e : Existence)
    (f : Node → Node) : (m.write source (x :: path) e f).HoldsVariables := by
  intro t ht
  rcases Table.mem_insert ht with rfl | ht
  · refine Node.HoldsVariables.write ?_ hx path e f
    cases hroot : Table.get? m.sources source with
    | none => exact Node.holdsVariables_empty
    | some root => exact h _ (Table.mem_of_get? hroot)
  · exact h t ht

theorem describe (source : String) (s : Schema) {x : String} (hx : x.toList.head? = some sigil)
    (override : Option Existence) : (m.describe source s [x] override).HoldsVariables := by
  unfold Scope.describe
  dsimp only
  split
  · exact h.write source hx [] _ _
  · exact h

theorem setVariable (source name : String) (e : Existence) (anyChild : Bool) :
    (m.setVariable source name e anyChild).HoldsVariables := by
  obtain ⟨first, rest, hs, hfirst⟩ := Reference.exists_segments_eq_sigil (Reference.head?_withSigil name)
  rw [Scope.setVariable, Scope.set, hs]
  exact h.write source hfirst rest _ _

theorem extend (h' : m'.HoldsVariables) : (m.extend m').HoldsVariables := by
  intro t ht
  exact (Table.mem_insertAll ht).elim (h' t) (h t)

theorem head?_of_mem {name : String} (hname : name ∈ m.variableNames) : name.toList.head? = some sigil := by
  obtain ⟨t, ht, hkey⟩ := mem_variableNames.1 hname
  exact (h t ht).sigil name hkey

/-- A reference that is defined starts with one of the variables. -/
theorem exists_variable_of_defines {reference : String} (hd : m.defines reference = true) :
    ∃ first rest, segments reference = first :: rest ∧ first ∈ m.variableNames := by
  obtain ⟨hne, t, ht, hsome⟩ := defines_iff_exists.1 hd
  obtain ⟨first, rest, hs⟩ := List.exists_cons_of_ne_nil hne
  rw [hs] at hsome
  exact ⟨first, rest, hs, mem_variableNames.2 ⟨t, ht, (h t ht).mem_keys_of_lookup hsome⟩⟩

end HoldsVariables

end Scope

/-! ## what a walk shows -/

/-- The scope that a step shows. -/
def Step.scope? : Step → Option Scope
  | openLevel _ _ scope | enterBrick _ _ scope | enterBody _ _ scope | check _ _ scope => some scope
  | closeLevel _ _ | leaveBrick _ _ | leaveBody _ => none

/-- All scopes that a walk shows have a property. -/
def Shows (Q : Scope → Prop) (w : Walk Step) : Prop := ∀ step ∈ w.events, ∀ scope ∈ step.scope?, Q scope

section

variable {Q : Scope → Prop} {w w' : Walk Step}

theorem shows_nil (failure : Option Violation) : Shows Q ⟨[], failure⟩ := fun _ h => by cases h

theorem Shows.append (h : Shows Q w) (h' : Shows Q w') : Shows Q (w ++ w') := by
  intro step hstep
  exact (Walk.mem_or_mem_of_events_append hstep).elim (h step) (h' step)

theorem Shows.bracket {first last : Step} (h : Shows Q w) (hf : ∀ scope ∈ first.scope?, Q scope)
    (hl : last.scope? = none) : Shows Q (.bracket first w last) := by
  intro step hstep
  rw [Walk.events_bracket, List.cons_append, List.mem_cons, List.mem_append, List.mem_singleton] at hstep
  rcases hstep with rfl | hstep | rfl
  · exact hf
  · exact h step hstep
  · simp [hl]

end

namespace Session

/-- A property of scopes that is kept by whatever a walk makes of them. -/
structure Keeps (s : Session) (Q : Scope → Prop) : Prop where
  empty : Q .empty
  level (p : Position) (owner : Option Owner) {active : Scope} : Q active → Q (s.levelScope p owner active)
  body (p : Position) (row : Option Element) {active : Scope} : Q active → Q (bodyScope p row active)
  brick (b : Brick) {inherited outputs : Scope} : Q inherited → Q outputs → Q (s.brickScope inherited outputs b)
  product (p : Position) (b : Brick) {outputs : Scope} : Q outputs → Q (s.addProduct p b outputs)

variable {s : Session} {Q : Scope → Prop}

mutual

theorem siteSteps_shows (h : s.Keeps Q) (depth : Nat) {active : Scope} (ha : Q active) :
    ∀ site : Site, Shows Q (s.siteSteps depth active site)
  | .literal _ _ => shows_nil none
  | .expression p e => by
    intro step hstep scope hscope
    cases List.mem_singleton.1 hstep
    cases hscope
    exact ha
  | .level level => levelSteps_shows h depth ha level
  | .document _ _ inside => sitesSteps_shows h depth ha inside
  | .element _ _ _ inside => sitesSteps_shows h depth ha inside
  | .deferred p _ row inside => by
    have hbody := h.body p row ha
    refine (sitesSteps_shows h depth hbody inside).bracket ?_ rfl
    rintro _ ⟨⟩
    exact hbody
  | .violation v => shows_nil (some v)

theorem sitesSteps_shows (h : s.Keeps Q) (depth : Nat) {active : Scope} (ha : Q active) :
    ∀ sites : List Site, Shows Q (s.sitesSteps depth active sites)
  | [] => shows_nil none
  | site :: sites => by
    rw [sitesSteps]
    exact (siteSteps_shows h depth ha site).append (sitesSteps_shows h depth ha sites)

theorem levelSteps_shows (h : s.Keeps Q) (depth : Nat) {active : Scope} (ha : Q active) :
    ∀ level : Level, Shows Q (s.levelSteps depth active level)
  | ⟨p, owner, bricks⟩ => by
    have hlevel := h.level p owner ha
    refine (bricksSteps_shows h (depth + 1) hlevel h.empty bricks).bracket ?_ rfl
    rintro _ ⟨⟩
    exact hlevel

theorem bricksSteps_shows (h : s.Keeps Q) (depth : Nat) {inherited outputs : Scope} (hi : Q inherited)
    (ho : Q outputs) :
    ∀ bricks : List BrickSite, Shows Q (s.bricksSteps depth inherited outputs bricks)
  | [] => shows_nil none
  | b :: bricks => by
    rw [bricksSteps]
    have hproduct := h.product b.position b.brick ho
    exact (brickSteps_shows h depth hi ho b).append (bricksSteps_shows h depth hi hproduct bricks)

theorem brickSteps_shows (h : s.Keeps Q) (depth : Nat) {inherited outputs : Scope} (hi : Q inherited) (ho : Q outputs) :
    ∀ b : BrickSite, Shows Q (s.brickSteps depth inherited outputs b)
  | ⟨p, b, _, inside⟩ => by
    have hbrick := h.brick b hi ho
    rw [brickSteps]
    refine Shows.bracket ?_ ?_ rfl
    · split
      · exact shows_nil _
      · exact sitesSteps_shows h depth hbrick inside
    · rintro _ ⟨⟩
      exact hbrick

end

end Session

/-! ## what is bound -/

namespace Session

variable {s : Session}

theorem head?_of_mem_ownerBindings {o : Owner} {b : Binding} (hb : b ∈ s.ownerBindings o) :
    b.name.toList.head? = some sigil := by
  unfold ownerBindings at hb
  split at hb
  · split at hb
    · obtain ⟨i, -, rfl⟩ := List.mem_map.1 hb
      exact Reference.head?_withSigil _
    · cases hb
  · cases hb

theorem holdsVariables_bind {m : Scope} (h : m.HoldsVariables) (p : Position) {b : Binding}
    (hb : b.name.toList.head? = some sigil) : (bind p m b).HoldsVariables := by
  unfold bind
  split
  · exact h.describe _ _ hb _
  · exact h.setVariable _ _ _ _

/-- If nothing was seen when the bricks last ran, scopes only ever hold variables. -/
theorem keeps_holdsVariables (htrace : s.context.trace = []) : s.Keeps Scope.HoldsVariables where
  empty := Scope.holdsVariables_empty
  level p owner active ha := by
    cases owner with
    | none => exact ha
    | some o =>
      exact List.foldlRecOn (motive := Scope.HoldsVariables) (s.ownerBindings o) (bind p) ha
        fun _ hm _ hb => holdsVariables_bind hm p (head?_of_mem_ownerBindings hb)
  body p row active ha := by
    cases row with
    | none => exact ha
    | some e => exact ha.setVariable _ _ _ _
  brick b inherited outputs hi ho := by
    have hnone : b.instanceId.bind s.context.traceFor? = none := by
      cases b.instanceId with
      | none => rfl
      | some id => simp [Context.traceFor?, htrace]
    rw [brickScope, hnone]
    exact hi.extend ho
  product p b outputs ho := by
    unfold addProduct
    split
    · rename_i o hproduct
      obtain ⟨name, hname, rfl⟩ := Option.map_eq_some_iff.1 hproduct
      exact ho.describe _ _ (Brick.head?_outputVariable hname) _
    · exact ho

end Session

/-! ## runs -/

/-- All scopes that a run shows only hold variables, if nothing was seen when the bricks last ran. -/
theorem Analyzer.shows_holdsVariables (a : Analyzer) (pipeline : Pipeline) (htrace : a.context.trace = []) :
    Shows Scope.HoldsVariables (a.walk pipeline) := by
  have hroot : (a.rootScope (a.sessionFor pipeline)).HoldsVariables :=
    a.context.rootScope_keeps (fun _ hx h e f => h.write _ hx [] e f) Scope.holdsVariables_empty _ _
  exact Session.levelSteps_shows (Session.keeps_holdsVariables htrace) 0 hroot (a.outline pipeline)

theorem Step.scope?_of_record? {step : Step} {k : String × Scope} (h : step.record? = some k) :
    step.scope? = some k.2 := by
  cases step with
  | enterBrick | enterBody =>
    cases h
    rfl
  | openLevel | closeLevel | leaveBrick | leaveBody | check => cases h

/-- **Variables have their sigil.**  If nothing was seen when the bricks last ran, then in every scope of a report the
variables start with the sigil, and no source says anything of its root.  So a reference is not defined if its first
segment does not start with the sigil. -/
theorem Analyzer.variables_have_sigil {a : Analyzer} {pipeline : Pipeline} {r : Report}
    (h : (a.run pipeline).outcome = .ok r) (htrace : a.context.trace = []) :
    ∀ k ∈ r.knownVars,
      (∀ name ∈ k.2.variableNames, name.toList.head? = some sigil) ∧
      (∀ t ∈ k.2.sources, t.2.existence = none ∧ t.2.anyChild = false ∧ t.2.isArray = false) ∧
      ∀ reference, (∀ first ∈ (segments reference).head?, first.toList.head? ≠ some sigil) →
        k.2.defines reference = false := by
  obtain ⟨-, -, rfl⟩ := Analyzer.run_eq_ok_iff.1 h
  intro k hk
  obtain ⟨step, hstep, hrecord⟩ := List.mem_filterMap.1 (Table.mem_ofList hk)
  have hholds : k.2.HoldsVariables :=
    a.shows_holdsVariables pipeline htrace step hstep k.2 (Step.scope?_of_record? hrecord)
  refine ⟨fun name => hholds.head?_of_mem, fun t ht => ?_, fun reference hfirst => ?_⟩
  · obtain ⟨existence, anyChild, isArray, -⟩ := hholds t ht
    exact ⟨existence, anyChild, isArray⟩
  · by_contra hd
    obtain ⟨first, rest, hs, hmem⟩ := hholds.exists_variable_of_defines (Bool.not_eq_false _ ▸ hd)
    exact hfirst first (by simp [hs]) (hholds.head?_of_mem hmem)

/-- Behind the loop, its output is defined with its sigil, and not without. -/
theorem variables_have_sigil_loop : ∃ r scope,
    (plainAnalyzer.run loopPipeline).outcome = .ok r ∧ plainAnalyzer.context.trace = [] ∧
    ("pipeline.2", scope) ∈ r.knownVars ∧ scope.defines "@all" = true ∧
    (∀ name ∈ scope.variableNames, name.toList.head? = some sigil) ∧ scope.defines "all" = false := by
  have hdefines : ((Report.ofSteps {} (plainAnalyzer.steps loopPipeline)).scopeAt? "pipeline.2").any
      (·.defines "@all") = true := by decide +kernel
  obtain ⟨scope, hscope, hall⟩ := (Option.any_eq_true _ _).1 hdefines
  have hmem := Table.mem_of_get? hscope
  obtain ⟨hnames, -, hwithout⟩ := Analyzer.variables_have_sigil run_loopPipeline rfl _ hmem
  exact ⟨_, scope, run_loopPipeline, rfl, hmem, hall, hnames, hwithout "all" (by decide +kernel)⟩

end BrickScope
