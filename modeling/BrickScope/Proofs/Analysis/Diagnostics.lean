import BrickScope.Proofs.Analysis.ScopeLaw

/-!
# What is reported

The annotations of a report are those for the undefined references of all expressions, in the order in which a plain
walk meets the expressions; each expression is judged in the innermost scope that is open when it is met, and what would
say the same thing of the same place again is left out.

* `keepFirst`: a list of annotations without those that repeat an earlier one; `foldl_push` says that pushing one after
  the other gives just this;
* `checksFrom`: the expressions of a walk, each with the innermost open scope;
* `Analyzer.annotations_eq`: the annotations of a report.
-/

namespace BrickScope

open Annotation (push)

/-! ## repetitions -/

/-- Annotations in their order, without those that say the same as an earlier one of the same place. -/
def keepFirst : List Annotation → List Annotation
  | [] => []
  | a :: list =>
    a :: (keepFirst list).filter fun b => !(decide (b.message = a.message) && decide (b.position = a.position))

theorem repeats_iff {a b : Annotation} : a.repeats b = true ↔ a.message = b.message ∧ a.position = b.position := by
  unfold Annotation.repeats
  simp

theorem keepFirst_cons (a : Annotation) (list : List Annotation) :
    keepFirst (a :: list) = a :: (keepFirst list).filter fun b => !b.repeats a := rfl

theorem foldl_push (list seen : List Annotation) :
    list.foldl push seen = seen ++ (keepFirst list).filter fun a => !seen.any a.repeats := by
  induction list generalizing seen with
  | nil => simp [keepFirst]
  | cons a list ih =>
    rw [List.foldl_cons, ih, keepFirst_cons, List.filter_cons]
    by_cases h : seen.any a.repeats = true
    · -- whatever repeats `a` repeats something seen before
      have hfilter : ∀ b ∈ keepFirst list, (!seen.any b.repeats) = ((!seen.any b.repeats) && !b.repeats a) := by
        intro b _
        by_cases hb : b.repeats a = true
        · have hseen : seen.any b.repeats = true := by
            obtain ⟨c, hc, hac⟩ := List.any_eq_true.1 h
            obtain ⟨h₁, h₂⟩ := repeats_iff.1 hb
            obtain ⟨h₃, h₄⟩ := repeats_iff.1 hac
            exact List.any_eq_true.2 ⟨c, hc, repeats_iff.2 ⟨h₁.trans h₃, h₂.trans h₄⟩⟩
          simp [hseen]
        · simp [hb]
      rw [push, if_pos h, List.filter_filter, if_neg (by simp [h]), List.filter_congr hfilter]
    · rw [push, if_neg h, List.filter_filter, if_pos (by simp [h]), List.append_assoc, List.singleton_append]
      simp [List.any_append, Bool.not_or]

theorem mem_of_mem_keepFirst {a : Annotation} {list : List Annotation} (h : a ∈ keepFirst list) : a ∈ list := by
  induction list with
  | nil => exact h
  | cons b list ih =>
    rcases List.mem_cons.1 h with rfl | h
    · exact List.mem_cons_self
    · exact List.mem_cons_of_mem _ (ih (List.mem_filter.1 h).1)

/-- Whatever is said is kept once. -/
theorem exists_mem_keepFirst {a : Annotation} {list : List Annotation} (h : a ∈ list) :
    ∃ b ∈ keepFirst list, a.message = b.message ∧ a.position = b.position := by
  induction list with
  | nil => cases h
  | cons c list ih =>
    rcases List.mem_cons.1 h with rfl | h
    · exact ⟨a, List.mem_cons_self, rfl, rfl⟩
    · obtain ⟨b, hb, hm, hp⟩ := ih h
      by_cases hr : b.repeats c = true
      · obtain ⟨h₁, h₂⟩ := repeats_iff.1 hr
        exact ⟨c, List.mem_cons_self, hm.trans h₁, hp.trans h₂⟩
      · refine ⟨b, ?_, hm, hp⟩
        rw [keepFirst_cons]
        exact List.mem_cons_of_mem _ (List.mem_filter.2 ⟨hb, by simp [hr]⟩)

theorem pairwise_keepFirst (list : List Annotation) :
    (keepFirst list).Pairwise fun a b => ¬(a.message = b.message ∧ a.position = b.position) := by
  induction list with
  | nil => exact List.Pairwise.nil
  | cons a list ih =>
    refine List.pairwise_cons.2 ⟨fun b hb he => ?_, ih.filter _⟩
    have hb' := (List.mem_filter.1 hb).2
    simp [he.1, he.2] at hb'

/-! ## expressions and their scopes -/

theorem Annotation.message_undefined (p : Position) (reference : String) (quote : Quote) :
    (undefined p reference quote).message = (Problem.ofReference reference).message reference := by
  rw [undefined]

theorem Annotation.position_undefined (p : Position) (reference : String) (quote : Quote) :
    (undefined p reference quote).position = p := rfl

open Annotation (message_undefined position_undefined)

/-- What an expression refers to.  A template counts if templates are looked into and it can be read to its end. -/
def Expression.mentions (checkTemplates : Bool) : Expression → List String
  | reference path => [path]
  | template _ text =>
    let r := Template.extract text
    if checkTemplates && r.stop.isNone then r.references else []

/-- An expression that is met, and the scope it is judged in. -/
structure Check where
  position : Position
  expression : Expression
  scope : Scope

/-- The annotations for what the scope of an expression does not define. -/
def Check.annotations (checkTemplates : Bool) (c : Check) : List Annotation :=
  ((c.expression.mentions checkTemplates).filter fun r => !c.scope.defines (Text.trim r)).map fun r =>
    .undefined c.position r c.expression.quote

/-- The expressions among some steps, each with the innermost scope that is open. -/
def checksFrom : Stacks → List Step → List Check
  | _, [] => []
  | σ, .check p e _ :: steps => ⟨p, e, σ.active.head?.getD .empty⟩ :: checksFrom σ steps
  | σ, step :: steps => checksFrom (σ.after step) steps

/-- The expression of a step, with the scope that the step gives to it. -/
def Step.check? : Step → Option Check
  | check p e scope => some ⟨p, e, scope⟩
  | _ => none

theorem Step.check?_check (p : Position) (e : Expression) (scope : Scope) :
    (check p e scope).check? = some ⟨p, e, scope⟩ := rfl

/-- Steps that fit judge every expression in the innermost scope. -/
theorem checksFrom_eq {s : Session} {steps : List Step} {σ : Stacks} (h : AllFit s σ steps) :
    checksFrom σ steps = steps.filterMap Step.check? := by
  induction steps generalizing σ with
  | nil => rfl
  | cons step steps ih =>
    obtain ⟨hstep, hsteps⟩ := h
    have ih := ih hsteps
    cases step with
    | check p e scope =>
      have hs : σ.active.head? = some scope := hstep
      rw [checksFrom, hs, List.filterMap_cons_some (Step.check?_check p e scope)]
      exact congrArg _ ih
    | _ => exact ih

theorem Expression.annotations_eq_check (checkTemplates : Bool) (p : Position) (scope : Scope) (e : Expression) :
    e.annotations checkTemplates p scope = Check.annotations checkTemplates ⟨p, e, scope⟩ := by
  unfold Expression.annotations Check.annotations
  cases e with
  | reference path => rfl
  | template kind text =>
    unfold Expression.references Expression.mentions
    cases checkTemplates with
    | false => rfl
    | true => cases hs : (Template.extract text).stop <;> simp [hs]

theorem flatMap_annotations (settings : Settings) (steps : List Step) :
    steps.flatMap (Step.annotations settings) =
      (steps.filterMap Step.check?).flatMap (Check.annotations settings.checkTemplates) := by
  induction steps with
  | nil => rfl
  | cons step steps ih =>
    cases step with
    | check p e scope =>
      rw [List.flatMap_cons, List.filterMap_cons_some (Step.check?_check p e scope), List.flatMap_cons, ih]
      exact congrArg (· ++ _) (e.annotations_eq_check settings.checkTemplates p scope)
    | _ => exact ih

/-! ## the order of expressions -/

/-- The expression of a visit to one. -/
def Visit.expression? : Visit → Option (Position × Expression)
  | expression p e => some (p, e)
  | _ => none

def Met.expression? : Met → Option (Position × Expression)
  | expression p e => some (p, e)
  | _ => none

theorem Visit.met?_bind_expression? (v : Visit) : v.met?.bind Met.expression? = v.expression? := by
  cases v <;> rfl

theorem Step.met?_bind_expression? (step : Step) :
    step.met?.bind Met.expression? = step.check?.map fun c => (c.position, c.expression) := by
  cases step <;> rfl

/-- An analysis that comes to its end checks the expressions that a plain walk meets, in the same order. -/
theorem Session.checks_eq_visits (s : Session) (depth : Nat) (active : Scope) (level : Level)
    (h : (s.levelSteps depth active level).Complete) :
    ((s.levelSteps depth active level).events.filterMap Step.check?).map (fun c => (c.position, c.expression)) =
      level.allVisits.events.filterMap Visit.expression? := by
  have he := congrArg (List.filterMap Met.expression?) (s.levelSteps_met depth active level h).2.1
  rw [List.filterMap_filterMap, List.filterMap_filterMap] at he
  simp only [Visit.met?_bind_expression?, Step.met?_bind_expression?] at he
  rw [List.map_filterMap]
  exact he.symm

/-! ## the annotations of a report -/

/-- **Exact diagnostics.**  Expressions are judged in the order of a plain walk, each in the innermost open scope; the
annotations are those for the undefined references, without repetitions.  So a message stands at a position if and only
if an undefined reference there gives rise to it, every annotation is for an undefined reference, and nothing is said
twice. -/
theorem Analyzer.annotations_eq {a : Analyzer} {pipeline : Pipeline} {r : Report}
    (h : (a.run pipeline).outcome = .ok r) :
    ((checksFrom {} (a.steps pipeline)).map fun c => (c.position, c.expression)) =
      (a.outline pipeline).allVisits.events.filterMap Visit.expression? ∧
    r.annotations =
      keepFirst ((checksFrom {} (a.steps pipeline)).flatMap (Check.annotations a.settings.checkTemplates)) ∧
    (∀ message position, (∃ x ∈ r.annotations, x.message = message ∧ x.position = position) ↔
      ∃ c ∈ checksFrom {} (a.steps pipeline), ∃ reference ∈ c.expression.mentions a.settings.checkTemplates,
        c.scope.defines (Text.trim reference) = false ∧ c.position = position ∧
          (Problem.ofReference reference).message reference = message) ∧
    (∀ x ∈ r.annotations, ∃ c ∈ checksFrom {} (a.steps pipeline),
      ∃ reference ∈ c.expression.mentions a.settings.checkTemplates,
        c.scope.defines (Text.trim reference) = false ∧ x = .undefined c.position reference c.expression.quote) ∧
    r.annotations.Pairwise fun x y => ¬(x.message = y.message ∧ x.position = y.position) := by
  obtain ⟨-, hcomplete, rfl⟩ := Analyzer.run_eq_ok_iff.1 h
  have hchecks : checksFrom {} (a.steps pipeline) = (a.steps pipeline).filterMap Step.check? :=
    checksFrom_eq (a.steps_fit pipeline)
  have hannotations : (Report.ofSteps a.settings (a.steps pipeline)).annotations =
      keepFirst ((checksFrom {} (a.steps pipeline)).flatMap (Check.annotations a.settings.checkTemplates)) := by
    rw [hchecks, ← flatMap_annotations]
    exact (foldl_push _ _).trans (by simp)
  have hmem : ∀ x, x ∈ (checksFrom {} (a.steps pipeline)).flatMap (Check.annotations a.settings.checkTemplates) ↔
      ∃ c ∈ checksFrom {} (a.steps pipeline), ∃ reference ∈ c.expression.mentions a.settings.checkTemplates,
        c.scope.defines (Text.trim reference) = false ∧ x = .undefined c.position reference c.expression.quote := by
    intro x
    simp only [List.mem_flatMap, Check.annotations, List.mem_map, List.mem_filter, Bool.not_eq_true']
    constructor
    · rintro ⟨c, hc, reference, ⟨hr, hd⟩, rfl⟩
      exact ⟨c, hc, reference, hr, hd, rfl⟩
    · rintro ⟨c, hc, reference, hr, hd, rfl⟩
      exact ⟨c, hc, reference, ⟨hr, hd⟩, rfl⟩
  refine ⟨?_, hannotations, ?_, ?_, ?_⟩
  · rw [walk_eq] at hcomplete
    rw [hchecks, steps, walk_eq]
    exact Session.checks_eq_visits _ _ _ _ hcomplete
  · intro message position
    rw [hannotations]
    constructor
    · rintro ⟨x, hx, rfl, rfl⟩
      obtain ⟨c, hc, reference, hr, hd, rfl⟩ := (hmem x).1 (mem_of_mem_keepFirst hx)
      rw [message_undefined, position_undefined]
      exact ⟨c, hc, reference, hr, hd, rfl, rfl⟩
    · rintro ⟨c, hc, reference, hr, hd, rfl, rfl⟩
      obtain ⟨x, hx, hm, hp⟩ := exists_mem_keepFirst ((hmem _).2 ⟨c, hc, reference, hr, hd, rfl⟩)
      rw [message_undefined] at hm
      rw [position_undefined] at hp
      exact ⟨x, hx, hm.symm, hp.symm⟩
  · intro x hx
    rw [hannotations] at hx
    exact (hmem x).1 (mem_of_mem_keepFirst hx)
  · rw [hannotations]
    exact pairwise_keepFirst _

/-- The variable that the body of the loop makes is reported behind the loop. -/
theorem annotations_eq_loop : ∃ r, (plainAnalyzer.run loopPipeline).outcome = .ok r ∧
    ∃ x ∈ r.annotations, x.message = "Variable \"@line\" might not be defined" ∧
      x.position = ⟨"pipeline.2.config.text"⟩ := by
  refine ⟨_, run_loopPipeline, ((Analyzer.annotations_eq run_loopPipeline).2.2.1 _ _).2 ?_⟩
  have hcheck : ∃ c ∈ checksFrom {} (plainAnalyzer.steps loopPipeline), c.expression = .reference "@line" ∧
      c.scope.defines (Text.trim "@line") = false ∧ c.position = ⟨"pipeline.2.config.text"⟩ := by
    decide +kernel
  obtain ⟨c, hc, he, hd, hp⟩ := hcheck
  exact ⟨c, hc, "@line", by rw [he]; simp [Expression.mentions], hd, hp, by decide +kernel⟩

end BrickScope
