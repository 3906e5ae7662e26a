import BrickScope.Proofs.Analysis.BoundNames
import BrickScope.Proofs.Existence.Tags

/-!
# Pipelines in guards

The guard of a brick is walked through like a property of its configuration, under the name `if`.  So a rule that
injects variables into the pipelines of a property `if` injects them into the pipelines of the guard as well; only those
in deferred bodies get none.

* `InGuard`: what stands in the guard of a brick;
* `Injection.SaysNothing`: injections without effect, `Settings.inject_eq_iff`;
* `Session.GuardsInherit`, `Analyzer.guards_inherit`: what the pipelines of guards inherit on a run.
-/

namespace BrickScope

open Position (Below)

/-! ## injections without effect -/

namespace Injection

/-- The injected variable has a schema that is void, so that nothing is recorded of it. -/
def SaysNothing (i : Injection) : Prop := ∃ schema, i.schema = some schema ∧ schema.Void

variable {i : Injection}

theorem addTo_of_saysNothing (h : i.SaysNothing) (b : Brick) (p : Position) (m : Scope) : i.addTo b p m = m := by
  obtain ⟨schema, hi, hvoid⟩ := h
  have hd : ¬schema.describes = true := fun hd => (Schema.describes_iff schema).1 hd hvoid
  rw [addTo, hi]
  exact if_neg hd

theorem source?_addTo_of_not_saysNothing (h : ¬i.SaysNothing) (b : Brick) (p : Position) (m : Scope) :
    (i.addTo b p m).source? p.path ≠ none := by
  unfold addTo
  cases hi : i.schema with
  | none =>
    dsimp only
    rw [Scope.setVariable, Scope.set, Scope.source?_write_self]
    exact Option.some_ne_none _
  | some schema =>
    have hd : schema.describes = true := (Schema.describes_iff schema).2 fun hvoid => h ⟨schema, hi, hvoid⟩
    dsimp only
    rw [Scope.describe, if_pos hd, Scope.source?_write_self]
    exact Option.some_ne_none _

/-- A source that is there stays when a variable is injected. -/
theorem source?_addTo_ne_none (b : Brick) {p : Position} {m : Scope} (h : m.source? p.path ≠ none) :
    (i.addTo b p m).source? p.path ≠ none := by
  by_cases hi : i.SaysNothing
  · rw [addTo_of_saysNothing hi]
    exact h
  · exact source?_addTo_of_not_saysNothing hi b p m

section

variable {b : Brick} {p : Position} {m : Scope} {is : List Injection}

theorem addAll_of_saysNothing (h : ∀ i ∈ is, i.SaysNothing) : addAll is b p m = m := by
  induction is with
  | nil => rfl
  | cons i is ih =>
    have hrest := ih fun j hj => h j (List.mem_cons_of_mem _ hj)
    rw [addAll, List.foldl_cons, addTo_of_saysNothing (h i List.mem_cons_self)]
    exact hrest

theorem source?_addAll_ne_none (h : m.source? p.path ≠ none ∨ ∃ i ∈ is, ¬i.SaysNothing) :
    (addAll is b p m).source? p.path ≠ none := by
  induction is generalizing m with
  | nil =>
    rcases h with h | ⟨i, hi, -⟩
    · exact h
    · cases hi
  | cons i is ih =>
    apply ih
    rcases h with h | ⟨j, hj, hsays⟩
    · exact .inl (source?_addTo_ne_none b h)
    · rcases List.mem_cons.1 hj with rfl | hj
      · exact .inl (source?_addTo_of_not_saysNothing hsays b p m)
      · exact .inr ⟨j, hj, hsays⟩

end

end Injection

namespace Settings

variable {s : Settings} {b : Brick} {property : String}

theorem inject_of_saysNothing (h : ∀ i ∈ s.injections b.id property, i.SaysNothing) (p : Position) (m : Scope) :
    s.inject b property p m = m := Injection.addAll_of_saysNothing h

/-- Where nothing is known under a position, injections make a difference exactly if one of them says something. -/
theorem inject_eq_iff {p : Position} {m : Scope} (hm : m.source? p.path = none) :
    s.inject b property p m = m ↔ ∀ i ∈ s.injections b.id property, i.SaysNothing := by
  constructor
  · intro h i hi
    by_contra hsays
    have hsome : (s.inject b property p m).source? p.path ≠ none :=
      Injection.source?_addAll_ne_none (.inr ⟨i, hi, hsays⟩)
    rw [h] at hsome
    exact hsome hm
  · intro h
    exact inject_of_saysNothing h p m

/-- No construct that every platform has injects anything for the property `if`. -/
theorem injections_if_of_builtin (h : s.constructs = Construct.builtin) (brickId : String) :
    s.injections brickId "if" = [] := by
  have hnone : ∀ c ∈ Construct.builtin, (c.injections.filter fun i => i.pipelineProp = "if") = [] := by decide
  unfold injections
  rw [h]
  cases hc : Construct.builtin.find? fun c => c.brickId = brickId with
  | none => rfl
  | some c => exact hnone c (List.mem_of_find?_eq_some hc)

end Settings

/-! ## guards -/

/-- `v` stands at `p` in the guard of the brick `b` at `p₀`, perhaps in a deferred body. -/
inductive InGuard (p₀ : Position) (b : Brick) : Position → Bool → ConfigValue → Prop
  | whole {v : ConfigValue} (h : b.condition = some v) : InGuard p₀ b (p₀.nested ["if"]) false v
  | member {p : Position} {deferred : Bool} {members : List (String × ConfigValue)} {name : String} {v : ConfigValue}
    (h : InGuard p₀ b p deferred (.object members)) (hm : (name, v) ∈ members) :
    InGuard p₀ b (p.nested [name]) deferred v
  | item {p : Position} {deferred : Bool} {items : List ConfigValue} {i : Nat} {v : ConfigValue}
    (h : InGuard p₀ b p deferred (.array items)) (hi : items[i]? = some v) :
    InGuard p₀ b (p.nested [toString i]) deferred v
  | body {p : Position} {deferred : Bool} {body : ConfigValue} (h : InGuard p₀ b p deferred (.deferred body)) :
    InGuard p₀ b (p.nested ["__value__"]) true body

/-- How the values of a guard are reached. -/
def guardReach (deferred : Bool) : Reach := if deferred then .deferred else .plain "if"

theorem InGuard.holds {documents : String → Bool} {p₀ p : Position} {b : Brick} {deferred : Bool} {v : ConfigValue}
    (h : InGuard p₀ b p deferred v) : Holds documents p₀ b [] (.value p (guardReach deferred) v) := by
  induction h with
  | whole h => exact .guard h
  | member _ hm ih => exact .member ih hm
  | item _ hi ih => exact .item ih hi
  | body _ ih => exact .deferred ih

namespace Session

/-- What the pipelines in the guard of a brick inherit that stands at `p₀` and sees `scope`, and inside of which the
steps `inside` are taken. -/
structure GuardsInherit (s : Session) (root : Scope) (p₀ : Position) (b : Brick) (scope : Scope) (depth : Nat)
    (inside : List Step) : Prop where
  /-- In a deferred body, what the brick sees. -/
  deferred {p : Position} {inner : List Brick} : InGuard p₀ b p true (.pipeline inner) →
    s.nestedSteps (p.nested ["__value__"]) (depth + 1) scope inner <:+: inside
  /-- Elsewhere, what is injected for the property `if` as well. -/
  plain {p : Position} {inner : List Brick} : InGuard p₀ b p false (.pipeline inner) →
    s.nestedSteps (p.nested ["__value__"]) (depth + 1) (s.settings.inject b "if" (p.nested ["__value__"]) scope) inner
      <:+: inside
  /-- That is known under the position of the pipeline only. -/
  elsewhere {p : Position} {k : String} : k ≠ p.path → (s.settings.inject b "if" p scope).source? k = scope.source? k
  /-- It is what the brick sees if all those injections say nothing, -/
  unchanged : (∀ i ∈ s.settings.injections b.id "if", i.SaysNothing) → ∀ p, s.settings.inject b "if" p scope = scope
  /-- as they do for the constructs that every platform has, -/
  builtin : s.settings.constructs = Construct.builtin → ∀ p, s.settings.inject b "if" p scope = scope
  /-- and only then, if the root knows nothing under the position. -/
  changed {p : Position} {v : ConfigValue} : InGuard p₀ b p false v →
    root.source? (p.nested ["__value__"]).path = none →
    s.settings.inject b "if" (p.nested ["__value__"]) scope = scope →
    ∀ i ∈ s.settings.injections b.id "if", i.SaysNothing

end Session

/-! ## runs -/

/-- Below a brick that is entered, the brick knows what the root knows. -/
theorem Analyzer.source?_of_below {a : Analyzer} {pipeline : Pipeline} {before after : List Step} {p₀ q : Position}
    {b : Brick} {scope : Scope} (hs : a.steps pipeline = before ++ .enterBrick p₀ b scope :: after) (hq : Below p₀ q) :
    scope.source? q.path = (a.rootScope (a.sessionFor pipeline)).source? q.path := by
  obtain ⟨l, outer, hl, hp, hscope⟩ := exists_level_of_enter hs
  rw [hscope]
  exact (rootOnly_inherited hs hl).visible l.bricks b _ q (hp ▸ hq)

/-- **What the pipelines of guards inherit.**  On a run with a report, behind each brick that is entered come the steps
inside of it.  A pipeline in a deferred body of the guard inherits exactly what the brick sees.  Any other pipeline in
the guard inherits that with the variables that the rule of the brick injects for the property `if`; this is exactly
what the brick sees if these injections say nothing, and only then. -/
theorem Analyzer.guards_inherit {a : Analyzer} {pipeline : Pipeline} {r : Report}
    (h : (a.run pipeline).outcome = .ok r) (before after : List Step) (p₀ : Position) (b : Brick) (scope : Scope)
    (hs : a.steps pipeline = before ++ .enterBrick p₀ b scope :: after) :
    ∃ (depth : Nat) (inside rest : List Step) (product : Option Product),
      after = inside ++ .leaveBrick p₀ product :: rest ∧
      (a.sessionFor pipeline).GuardsInherit (a.rootScope (a.sessionFor pipeline)) p₀ b scope depth inside := by
  obtain ⟨-, hcomplete, -⟩ := Analyzer.run_eq_ok_iff.1 h
  obtain ⟨depth, product, rest, hc, hafter⟩ := a.looksInto_walk pipeline hcomplete _ _ _ _ _ hs
  refine ⟨depth, _, rest, product, hafter, ?_⟩
  constructor
  case deferred =>
    intro p inner hg
    exact Session.nestedSteps_within hc hg.holds
  case plain =>
    intro p inner hg
    exact Session.nestedSteps_within hc hg.holds
  case elsewhere =>
    intro p k hk
    have hchanges := a.settings.changes_inherited (S := fun j => j = p.path) b rfl scope (.plain "if")
    exact hchanges.source?_eq hk
  case unchanged =>
    intro hsays p
    exact Settings.inject_of_saysNothing hsays p scope
  case builtin =>
    intro hbuiltin p
    have hnone : (a.sessionFor pipeline).settings.injections b.id "if" = [] :=
      Settings.injections_if_of_builtin hbuiltin b.id
    exact Settings.inject_of_saysNothing (by simp [hnone]) p scope
  case changed =>
    intro p v hg hroot heq
    have hholds : Holds a.settings.isDocument p₀ b [] (.value p (guardReach false) v) := hg.holds
    have hbelow : Below p₀ (p.nested ["__value__"]) := hholds.stands_below.1.nested _
    rw [← Analyzer.source?_of_below hs hbelow] at hroot
    exact (Settings.inject_eq_iff hroot).1 heq

/-! ## a rule for the property of a branch -/

/-- A rule that injects a variable into the pipelines of a property `if`. -/
def branchAnalyzer : Analyzer :=
  { plainAnalyzer with settings := { constructs := [⟨"branch", [], [⟨"if", none, "item", none⟩]⟩] } }

/-- A branch with a pipeline in its guard. -/
def guardedBranch : Brick :=
  { id := "branch", condition := some (.pipeline [{ id := "show" }]),
    config := [("if", .pipeline [{ id := "print" }])] }

theorem run_guardedBranch : (branchAnalyzer.run [guardedBranch]).outcome =
    .ok (Report.ofSteps branchAnalyzer.settings (branchAnalyzer.steps [guardedBranch])) :=
  Analyzer.run_eq_ok_iff.2 ⟨⟨["branch", "show", "print"], rfl⟩, rfl, rfl⟩

theorem inGuard_guardedBranch (p₀ : Position) :
    InGuard p₀ guardedBranch (p₀.nested ["if"]) false (.pipeline [{ id := "show" }]) := .whole rfl

/-- The pipeline in the guard of the branch gets the variable. -/
theorem guards_inherit_guardedBranch : ∃ r before after p₀ scope depth inside,
    (branchAnalyzer.run [guardedBranch]).outcome = .ok r ∧
    branchAnalyzer.steps [guardedBranch] = before ++ .enterBrick p₀ guardedBranch scope :: after ∧ inside <+: after ∧
    InGuard p₀ guardedBranch (p₀.nested ["if"]) false (.pipeline [{ id := "show" }]) ∧
    (branchAnalyzer.sessionFor [guardedBranch]).nestedSteps (p₀.nested ["if", "__value__"]) (depth + 1)
      (scope.setVariable (p₀.nested ["if", "__value__"]).path "@item" .definitely true) [{ id := "show" }] <:+:
        inside := by
  obtain ⟨depth, inside, rest, product, hafter, hguards⟩ :=
    Analyzer.guards_inherit run_guardedBranch ((branchAnalyzer.steps [guardedBranch]).take 1)
      ((branchAnalyzer.steps [guardedBranch]).drop 2) _ _ _ rfl
  refine ⟨_, (branchAnalyzer.steps [guardedBranch]).take 1, (branchAnalyzer.steps [guardedBranch]).drop 2, _, _, depth,
    inside, run_guardedBranch, rfl, ⟨_, hafter.symm⟩, inGuard_guardedBranch _, ?_⟩
  have hplain := hguards.plain (inGuard_guardedBranch _)
  rw [Position.nested_nested] at hplain
  exact hplain

/-- A run on which the pipeline in a guard does not inherit what the brick sees: it has a variable that the brick does
not have. -/
theorem guard_pipeline_gets_injection : ∃ r scope inherited,
    (branchAnalyzer.run [guardedBranch]).outcome = .ok r ∧
    .enterBrick ⟨"pipeline.0"⟩ guardedBranch scope ∈ branchAnalyzer.steps [guardedBranch] ∧
    InGuard ⟨"pipeline.0"⟩ guardedBranch ⟨"pipeline.0.if"⟩ false (.pipeline [{ id := "show" }]) ∧
    .openLevel ⟨"pipeline.0.if.__value__"⟩ 2 inherited ∈ branchAnalyzer.steps [guardedBranch] ∧
    inherited.defines "@item" = true ∧ scope.defines "@item" = false := by
  refine ⟨_, branchAnalyzer.rootScope (branchAnalyzer.sessionFor [guardedBranch]), _, run_guardedBranch,
    List.mem_cons_of_mem _ List.mem_cons_self, inGuard_guardedBranch ⟨"pipeline.0"⟩,
    List.mem_cons_of_mem _ (List.mem_cons_of_mem _ List.mem_cons_self), ?_, ?_⟩
  · decide +kernel
  · decide +kernel

end BrickScope
