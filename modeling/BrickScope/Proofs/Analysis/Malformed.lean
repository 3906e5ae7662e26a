import BrickScope.Proofs.Analysis.Diagnostics
import BrickScope.Proofs.Analysis.Sigils

/-!
# Malformed references

A reference that does not look like one is reported as an error, where one that may be undefined is only worth a
warning.  But a reference is looked up before it is looked at, and the look-up goes by its segments: it drops a dot in
front and takes a key out of its brackets.  So a reference without a sigil in front may be found all the same, and so
may a sigil alone, if something has no other name.

* `Reference.Malformed`, `Problem.severity_ofReference`: the references that are errors if they are not found;
* `Report.exists_annotation`: what is said of a reference that is not found;
* `Analyzer.malformed_reported`: the malformed references that are reported.
-/

namespace BrickScope

open Reference (sigil segments)

/-! ## problems -/

/-- A reference that is no name with its sigil, blanks at its ends aside. -/
def Reference.Malformed (reference : String) : Prop :=
  Text.trim reference = "" ∨ Text.trim reference = "@" ∨ (Text.trim reference).toList.head? ≠ some sigil

instance (reference : String) : Decidable (Reference.Malformed reference) :=
  inferInstanceAs (Decidable (_ ∨ _ ∨ _))

namespace Problem

theorem severity_ofReference {reference : String} (h : Reference.Malformed reference) :
    (ofReference reference).severity = .error := by
  have hname : ∀ name, (Text.trim reference).toList = sigil :: name → name = [] := by
    intro name ht
    rcases h with hempty | hbare | hmissing
    · simp [hempty] at ht
    · simpa [hbare, sigil, eq_comm] using ht
    · simp [ht] at hmissing
  unfold ofReference
  split
  · rfl
  · rename_i c name ht
    split
    · rfl
    · rename_i hc
      obtain rfl : c = sigil := not_not.1 hc
      simp [hname name ht, severity]

/-- Only the text of a warning quotes the reference, behind its first word. -/
theorem severity_eq (problem : Problem) (reference : String) :
    problem.severity = if (problem.message reference).toList[9]? = some '"' then .warning else .error := by
  cases problem <;> simp [severity, message]

theorem severity_eq_of_message_eq {problem problem' : Problem} {reference reference' : String}
    (h : problem.message reference = problem'.message reference') : problem.severity = problem'.severity := by
  rw [problem.severity_eq reference, problem'.severity_eq reference', h]

end Problem

/-! ## what is said of a reference that is not found -/

theorem Annotation.severity_undefined (p : Position) (reference : String) (quote : Quote) :
    (undefined p reference quote).severity = (Problem.ofReference reference).severity := by
  rw [undefined]

open Annotation (message_undefined position_undefined severity_undefined)

theorem exists_undefined_of_mem {settings : Settings} {step : Step} {x : Annotation}
    (h : x ∈ step.annotations settings) : ∃ p reference quote, x = .undefined p reference quote := by
  cases step with
  | check p e scope =>
    simp only [Step.annotations, Expression.annotations] at h
    split at h
    · obtain ⟨reference, -, rfl⟩ := List.mem_map.1 h
      exact ⟨p, reference, e.quote, rfl⟩
    · cases h
  | openLevel | closeLevel | enterBrick | leaveBrick | enterBody | leaveBody => cases h

/-- A reference that is not found is reported at its position, with the text and the severity of its problem. -/
theorem Report.exists_annotation (settings : Settings) {steps : List Step} {p : Position} {reference : String}
    {scope : Scope} (hcheck : .check p (.reference reference) scope ∈ steps)
    (hd : scope.defines (Text.trim reference) = false) :
    ∃ x ∈ (Report.ofSteps settings steps).annotations, x.position = p ∧
      x.severity = (Problem.ofReference reference).severity ∧
      x.message = (Problem.ofReference reference).message reference := by
  have hannotations : (Report.ofSteps settings steps).annotations =
      keepFirst (steps.flatMap (Step.annotations settings)) := (foldl_push _ _).trans (by simp)
  have hmem : .undefined p reference (Expression.quote (.reference reference)) ∈
      steps.flatMap (Step.annotations settings) :=
    List.mem_flatMap.2 ⟨_, hcheck, by simp [Step.annotations, Expression.annotations, Expression.references, hd]⟩
  obtain ⟨x, hx, hmessage, hposition⟩ := exists_mem_keepFirst hmem
  obtain ⟨step, -, hstep⟩ := List.mem_flatMap.1 (mem_of_mem_keepFirst hx)
  -- what was said before may be about another reference, but not with another severity
  obtain ⟨q, reference', quote, rfl⟩ := exists_undefined_of_mem hstep
  rw [message_undefined, message_undefined] at hmessage
  rw [position_undefined, position_undefined] at hposition
  refine ⟨_, by rwa [hannotations], hposition.symm, ?_, ?_⟩
  · rw [severity_undefined]
    exact (Problem.severity_eq_of_message_eq hmessage).symm
  · rw [message_undefined]
    exact hmessage.symm

/-! ## runs -/

theorem Analyzer.exists_check_of_visit {a : Analyzer} {pipeline : Pipeline} (h : (a.walk pipeline).Complete)
    {p : Position} {e : Expression} (hvisit : .expression p e ∈ (a.outline pipeline).allVisits.events) :
    ∃ scope, .check p e scope ∈ a.steps pipeline := by
  rw [walk_eq] at h
  rw [steps, walk_eq]
  have hmem : (p, e) ∈ (a.outline pipeline).allVisits.events.filterMap Visit.expression? :=
    List.mem_filterMap.2 ⟨_, hvisit, rfl⟩
  rw [← Session.checks_eq_visits _ _ _ _ h] at hmem
  obtain ⟨c, hc, hpe⟩ := List.mem_map.1 hmem
  obtain ⟨step, hstep, hcheck⟩ := List.mem_filterMap.1 hc
  cases step with
  | check =>
    cases hcheck
    cases hpe
    exact ⟨_, hstep⟩
  | openLevel | closeLevel | enterBrick | leaveBrick | enterBody | leaveBody => cases hcheck

/-- **Which malformed references are reported.**  If nothing was seen when the bricks last ran, then a malformed
reference is checked, and an error at its position tells what is wrong with it, except in two cases: it is a sigil
alone, and a variable has no other name; or it has no sigil in front, but its first segment has one and is a variable,
so that it is found. -/
theorem Analyzer.malformed_reported {a : Analyzer} {pipeline : Pipeline} {r : Report}
    (h : (a.run pipeline).outcome = .ok r) (htrace : a.context.trace = []) {p : Position} {reference : String}
    (hvisit : .expression p (.reference reference) ∈ (a.outline pipeline).allVisits.events)
    (hbad : Reference.Malformed reference) :
    (∃ scope, .check p (.reference reference) scope ∈ a.steps pipeline) ∧
    ∀ scope, .check p (.reference reference) scope ∈ a.steps pipeline →
      (∃ x ∈ r.annotations, x.position = p ∧ x.severity = .error ∧
        x.message = (Problem.ofReference reference).message reference) ∨
      (Text.trim reference = "@" ∧ "@" ∈ scope.variableNames) ∨
      ((Text.trim reference).toList.head? ≠ some sigil ∧ scope.defines (Text.trim reference) = true ∧
        ∃ first rest, segments (Text.trim reference) = first :: rest ∧ first.toList.head? = some sigil ∧
          first ∈ scope.variableNames) := by
  obtain ⟨-, hcomplete, rfl⟩ := Analyzer.run_eq_ok_iff.1 h
  refine ⟨Analyzer.exists_check_of_visit hcomplete hvisit, fun scope hcheck => ?_⟩
  cases hd : scope.defines (Text.trim reference) with
  | false =>
    obtain ⟨x, hx, hposition, hseverity, hmessage⟩ := Report.exists_annotation a.settings hcheck hd
    exact .inl ⟨x, hx, hposition, hseverity.trans (Problem.severity_ofReference hbad), hmessage⟩
  | true =>
    have hholds : scope.HoldsVariables := a.shows_holdsVariables pipeline htrace _ hcheck scope rfl
    obtain ⟨first, rest, hs, hmem⟩ := hholds.exists_variable_of_defines hd
    by_cases hsigil : (Text.trim reference).toList.head? = some sigil
    · rcases hbad with hempty | hbare | hmissing
      · simp [hempty] at hsigil
      · have hone : segments "@" = ["@"] := by decide
        rw [hbare, hone] at hs
        cases hs
        exact .inr (.inl ⟨hbare, hmem⟩)
      · exact absurd hsigil hmissing
    · exact .inr (.inr ⟨hsigil, rfl, first, rest, hs, hholds.head?_of_mem hmem, hmem⟩)

/-- A brick whose output has no name but the sigil, and one with three malformed references. -/
def sigilPipeline : Pipeline :=
  [{ id := "read", outputKey := some "@" },
    { id := "show", config := [("dotted", .expression (.reference ".@input")),
      ("bare", .expression (.reference "@")), ("plain", .expression (.reference "input"))] }]

theorem run_sigilPipeline : (plainAnalyzer.run sigilPipeline).outcome =
    .ok (Report.ofSteps {} (plainAnalyzer.steps sigilPipeline)) :=
  Analyzer.run_eq_ok_iff.2 ⟨⟨["read", "show"], rfl⟩, rfl, rfl⟩

/-- Two of the references are found, so that only the third one is reported. -/
theorem malformed_found : ∃ r, (plainAnalyzer.run sigilPipeline).outcome = .ok r ∧ plainAnalyzer.context.trace = [] ∧
    .expression ⟨"pipeline.1.config.dotted"⟩ (.reference ".@input") ∈
      (plainAnalyzer.outline sigilPipeline).allVisits.events ∧ Reference.Malformed ".@input" ∧
    .expression ⟨"pipeline.1.config.bare"⟩ (.reference "@") ∈
      (plainAnalyzer.outline sigilPipeline).allVisits.events ∧ Reference.Malformed "@" ∧
    r.annotations.map Annotation.position = [⟨"pipeline.1.config.plain"⟩] :=
  ⟨_, run_sigilPipeline, rfl, List.mem_of_getElem? (i := 3) rfl, by decide +kernel,
    List.mem_of_getElem? (i := 4) rfl, by decide +kernel, by decide +kernel⟩

/-- The third one. -/
theorem malformed_reported_plain : ∃ r, (plainAnalyzer.run sigilPipeline).outcome = .ok r ∧
    plainAnalyzer.context.trace = [] ∧
    .expression ⟨"pipeline.1.config.plain"⟩ (.reference "input") ∈
      (plainAnalyzer.outline sigilPipeline).allVisits.events ∧ Reference.Malformed "input" ∧
    ∃ x ∈ r.annotations, x.position = ⟨"pipeline.1.config.plain"⟩ ∧ x.severity = .error ∧
      x.message = (Problem.ofReference "input").message "input" := by
  have hvisit : .expression ⟨"pipeline.1.config.plain"⟩ (.reference "input") ∈
      (plainAnalyzer.outline sigilPipeline).allVisits.events := List.mem_of_getElem? (i := 5) rfl
  have hbad : Reference.Malformed "input" := by decide +kernel
  refine ⟨_, run_sigilPipeline, rfl, hvisit, hbad, ?_⟩
  obtain ⟨⟨scope, hcheck⟩, hall⟩ := Analyzer.malformed_reported run_sigilPipeline rfl hvisit hbad
  -- the reference has no sigil anywhere
  rcases hall scope hcheck with hreported | ⟨hbare, -⟩ | ⟨-, -, first, rest, hs, hsigil, -⟩
  · exact hreported
  · exact absurd hbare (by decide +kernel)
  · have hinput : segments (Text.trim "input") = ["input"] := by decide +kernel
    rw [hinput] at hs
    cases hs
    exact absurd hsigil (by decide)

end BrickScope
