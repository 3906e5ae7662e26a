import BrickScope.Proofs.Analysis.Run
import BrickScope.Proofs.Analysis.Stacks

/-!
# The scope law

At every brick of every level the scope is what the level inherits, with the outputs of the bricks before it in the
level, and with what was seen when the brick last ran.  Nothing else gets in: neither the output of the brick itself or
of a brick behind it, nor that of a brick in a nested level.

* `Session.source?_visible_of_ne`: the sources that a brick sees as its level inherits them;
* `Stacks.Nested`: each open level stands below the open brick of the level around it;
* `Analyzer.brick_scope_eq`: the scope law.
-/

namespace BrickScope

open Position (Below)

theorem Session.source?_visible_of_ne (s : Session) {inherited : Scope} {p : Position} {earlier : List Brick}
    {b : Brick} {k : String} (hk : ∀ j < earlier.length, k ≠ (p.brick j).path) (ht : k ≠ "trace") :
    (s.visible inherited p earlier b).source? k = inherited.source? k := by
  have hm : (⟨Table.insertAll inherited.sources (s.outputTrees p earlier)⟩ : Scope).source? k =
      inherited.source? k := by
    refine Table.get?_insertAll_of_ne (fun t hmem he => ?_) _
    obtain ⟨j, hj, htj⟩ := s.mem_outputTrees hmem
    exact hk j hj (he.trans htj)
  unfold visible
  dsimp only
  split
  · rw [Scope.source?_observe_of_ne ht, hm]
  · exact hm

/-! ## levels inside levels -/

/-- Each open level stands below the open brick of the level around it. -/
def Stacks.Nested (σ : Stacks) : Prop := σ.levels.IsChain fun inner outer => Below outer.current inner.position

theorem Stacks.Nested.after {s : Session} {σ : Stacks} (h : σ.Nested) {step : Step} (hf : step.Fits s σ) :
    (σ.after step).Nested := by
  unfold Nested at *
  cases step with
  | openLevel p depth inherited =>
    refine List.isChain_cons.2 ⟨?_, h⟩
    intro l hl
    exact hf l hl
  | closeLevel p depth => exact h.tail
  | enterBrick p b scope =>
    obtain ⟨l, outer, hl, -, -⟩ := hf
    simp only [Stacks.after, hl, List.modifyHead_cons] at h ⊢
    rw [List.isChain_cons] at h ⊢
    exact h
  | leaveBrick p product => exact h
  | enterBody p isRow scope => exact h
  | leaveBody p => exact h
  | check p e scope => exact h

theorem Stacks.Nested.replay {s : Session} {steps : List Step} {σ : Stacks} (h : σ.Nested) (hf : AllFit s σ steps) :
    (σ.replay steps).Nested := by
  induction steps generalizing σ with
  | nil => exact h
  | cons step steps ih => exact ih (h.after hf.1) hf.2

/-- The innermost level stands below the open brick of every level around it. -/
theorem below_of_nested {inner outer : List OpenLevel} {top l : OpenLevel}
    (h : (top :: inner ++ l :: outer).IsChain fun inner outer => Below outer.current inner.position) :
    Below l.current top.position := by
  induction inner generalizing top with
  | nil => exact (List.isChain_cons_cons.1 h).1
  | cons next inner ih =>
    obtain ⟨h₁, h₂⟩ := List.isChain_cons_cons.1 h
    have hcurrent : Below l.current next.current := (ih h₂).nested _
    exact hcurrent.trans h₁

/-! ## the law -/

/-- The levels that are open after the first steps of a run, the innermost first. -/
def openLevels (steps : List Step) : List OpenLevel := (Stacks.replay {} steps).levels

theorem Analyzer.steps_fit (a : Analyzer) (pipeline : Pipeline) :
    AllFit (a.sessionFor pipeline) {} (a.steps pipeline) := by
  rw [steps, walk_eq]
  exact (Session.levelSteps_fit _ _ {} _ _ (by simp) (Pipeline.outline_placed _ _ _)).1

/-- A brick is entered as the next one of the innermost open level, and sees what it should. -/
theorem Analyzer.exists_level_of_enter {a : Analyzer} {pipeline : Pipeline} {before after : List Step} {p : Position}
    {b : Brick} {scope : Scope} (h : a.steps pipeline = before ++ .enterBrick p b scope :: after) :
    ∃ (l : OpenLevel) (outer : List OpenLevel), openLevels before = l :: outer ∧
      p = l.position.brick l.bricks.length ∧
      scope = (a.sessionFor pipeline).visible l.inherited l.position l.bricks b := by
  have hfit := a.steps_fit pipeline
  rw [h] at hfit
  exact hfit.at

/-- A brick in a nested level does not have the position of a brick of a level around it. -/
theorem Analyzer.path_ne_of_nested {a : Analyzer} {pipeline : Pipeline} {before after : List Step} {q : Position}
    {b : Brick} {scope : Scope} (h : a.steps pipeline = before ++ .enterBrick q b scope :: after)
    {inner outer : List OpenLevel} {l : OpenLevel} (hl : openLevels before = inner ++ l :: outer) (hi : inner ≠ [])
    (j : Nat) : q.path ≠ (l.position.brick j).path := by
  have hfit := a.steps_fit pipeline
  rw [h] at hfit
  obtain ⟨top, inner, rfl⟩ := List.exists_cons_of_ne_nil hi
  obtain ⟨top', outer', htop, hq, -⟩ := Analyzer.exists_level_of_enter h
  have hnested : (Stacks.replay {} before).Nested :=
    Stacks.Nested.replay List.isChain_nil (Stacks.along_append.1 hfit).1
  have hsame : top' = top := by
    have : top' :: outer' = top :: inner ++ l :: outer := htop.symm.trans hl
    exact (List.cons.inj this).1
  unfold Stacks.Nested at hnested
  rw [show (Stacks.replay {} before).levels = top :: inner ++ l :: outer from hl] at hnested
  have hbelow : Below l.current q := by
    rw [hq, hsame]
    exact (below_of_nested hnested).nested _
  exact Position.path_ne_of_below hbelow

/-- **The scope law.**  When a brick is entered in the innermost open level `l`, it is the next brick of `l`, and it
sees what `l` inherits together with the outputs of the bricks of `l` before it, and what was seen when it last ran.
Under the positions of the brick itself, of the bricks behind it, and of the bricks inside any brick of the level, it
sees what `l` inherits. -/
theorem Analyzer.brick_scope_eq {a : Analyzer} {pipeline : Pipeline} {r : Report}
    (h : (a.run pipeline).outcome = .ok r) :
    r = Report.ofSteps a.settings (a.steps pipeline) ∧
    ∀ (before after : List Step) (p : Position) (b : Brick) (scope : Scope),
      a.steps pipeline = before ++ .enterBrick p b scope :: after →
      ∃ (l : OpenLevel) (outer : List OpenLevel),
        openLevels before = l :: outer ∧ p = l.position.brick l.bricks.length ∧
        scope = (a.sessionFor pipeline).visible l.inherited l.position l.bricks b ∧
        (∀ j, l.bricks.length ≤ j →
          scope.source? (l.position.brick j).path = l.inherited.source? (l.position.brick j).path) ∧
        ∀ (before' after' : List Step) (q : Position) (b' : Brick) (scope' : Scope),
          a.steps pipeline = before' ++ .enterBrick q b' scope' :: after' →
          ∀ (inner outer' : List OpenLevel) (l' : OpenLevel), openLevels before' = inner ++ l' :: outer' →
            inner ≠ [] → l'.position = l.position → scope.source? q.path = l.inherited.source? q.path := by
  refine ⟨(Analyzer.run_eq_ok_iff.1 h).2.2, fun before after p b scope hsteps => ?_⟩
  obtain ⟨l, outer, hl, hp, hscope⟩ := Analyzer.exists_level_of_enter hsteps
  refine ⟨l, outer, hl, hp, hscope, fun j hj => ?_, ?_⟩
  · -- an index that has not come up yet
    rw [hscope]
    refine Session.source?_visible_of_ne _ (fun i hi he => ?_) (Position.path_brick_ne (by simp))
    have := Position.brick_injective he
    omega
  · -- a brick in a nested level
    intro before' after' q b' scope' hsteps' inner outer' l' hl' hi hpos
    have hq : ∀ j, q.path ≠ (l.position.brick j).path :=
      fun j => hpos ▸ Analyzer.path_ne_of_nested hsteps' hl' hi j
    have ht : q.path ≠ "trace" := by
      obtain ⟨top, _, _, rfl, _⟩ := Analyzer.exists_level_of_enter hsteps'
      exact Position.path_brick_ne (by simp)
    rw [hscope]
    exact Session.source?_visible_of_ne _ (fun j _ => hq j) ht

/-- The last brick sees what the first two make. -/
theorem brick_scope_eq_loop : ∃ r before p b scope after l outer,
    (plainAnalyzer.run loopPipeline).outcome = .ok r ∧
    plainAnalyzer.steps loopPipeline = before ++ .enterBrick p b scope :: after ∧ b.id = "send" ∧
    openLevels before = l :: outer ∧ l.bricks = loopPipeline.take 2 ∧
    scope = (plainAnalyzer.sessionFor loopPipeline).visible l.inherited l.position l.bricks b := by
  obtain ⟨l, outer, hl, hp, hscope, -⟩ := (Analyzer.brick_scope_eq run_loopPipeline).2
    ((plainAnalyzer.steps loopPipeline).take 10) ((plainAnalyzer.steps loopPipeline).drop 11) _ _ _ rfl
  have hlevels : openLevels ((plainAnalyzer.steps loopPipeline).take 10) = [⟨_, _, loopPipeline.take 2⟩] := rfl
  have hbricks : l.bricks = loopPipeline.take 2 := by
    rw [← (List.cons.inj (hlevels.symm.trans hl)).1]
  exact ⟨_, _, _, _, _, _, l, outer, run_loopPipeline, rfl, rfl, hl, hbricks, hscope⟩

end BrickScope
