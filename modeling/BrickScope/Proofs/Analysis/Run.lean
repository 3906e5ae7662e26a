import BrickScope.Analysis.Report
import BrickScope.Proofs.Analysis.Walk

/-!
# Runs that give a report

A run gives a report if the ids of the bricks can be collected and the walk of the analysis comes to its end.

* `Analyzer.run_eq_ok_iff`: when there is a report, and which.
-/

namespace BrickScope

namespace Analyzer

/-- The session of a run, for the bricks whose ids are collected beforehand. -/
def sessionFor (a : Analyzer) (pipeline : Pipeline) : Session := a.session (pipeline.brickIds.toOption.getD [])

/-- The walk of a run. -/
def walk (a : Analyzer) (pipeline : Pipeline) : Walk Step :=
  (a.sessionFor pipeline).steps (a.rootScope (a.sessionFor pipeline)) pipeline

/-- The steps of a run. -/
abbrev steps (a : Analyzer) (pipeline : Pipeline) : List Step := (a.walk pipeline).events

/-- The outline that a run walks through. -/
def outline (a : Analyzer) (pipeline : Pipeline) : Level :=
  pipeline.outline a.settings.isDocument ⟨a.settings.rootPath⟩

theorem walk_eq (a : Analyzer) (pipeline : Pipeline) :
    a.walk pipeline =
      (a.sessionFor pipeline).levelSteps 0 (a.rootScope (a.sessionFor pipeline)) (a.outline pipeline) := rfl

theorem sessionFor_eq {a : Analyzer} {pipeline : Pipeline} {ids : List String} (h : pipeline.brickIds = .ok ids) :
    a.sessionFor pipeline = a.session ids := by
  rw [sessionFor, h]
  rfl

theorem run_eq_ok_iff {a : Analyzer} {pipeline : Pipeline} {r : Report} :
    (a.run pipeline).outcome = .ok r ↔
      (∃ ids, pipeline.brickIds = .ok ids) ∧ (a.walk pipeline).Complete ∧
        r = Report.ofSteps a.settings (a.steps pipeline) := by
  cases h : pipeline.brickIds with
  | error v => simp [run, h]
  | ok ids =>
    have hs : (a.session ids).steps (a.rootScope (a.session ids)) pipeline = a.walk pipeline := by
      rw [walk, sessionFor_eq h]
    cases hf : (a.walk pipeline).failure with
    | some v => simp [run, h, hs, hf, Walk.Complete]
    | none => simp [run, h, hs, hf, Walk.Complete, eq_comm]

end Analyzer

/-! ## a sample run -/

/-- A pipeline with a loop that is only sometimes run; a variable that its body may make is asked for behind it. -/
def loopOver (body : List Brick) : Pipeline :=
  [{ id := "read", outputKey := some "page" },
    { id := "@pixiebrix/for-each", outputKey := some "all", condition := some (.expression (.reference "@page")),
      config := [("body", .pipeline body)] },
    { id := "send", config := [("text", .expression (.reference "@line"))] }]

def loopPipeline : Pipeline := loopOver [{ id := "print", outputKey := some "line" }]

/-- An analyzer that knows every brick, and nothing of their outputs. -/
def plainAnalyzer : Analyzer where
  bricks id := .ok (.fixed id none none)

theorem run_loopPipeline : (plainAnalyzer.run loopPipeline).outcome =
    .ok (Report.ofSteps {} (plainAnalyzer.steps loopPipeline)) :=
  Analyzer.run_eq_ok_iff.2 ⟨⟨["read", "@pixiebrix/for-each", "print", "send"], rfl⟩, rfl, rfl⟩

end BrickScope
