import BrickScope.Proofs.Analysis.Descent

/-!
# Errors of a run

A run is ended by a node that breaks a structural rule.  Which nodes do is said here on the tree itself.  Two walks look
for them: the walk that collects the ids of bricks, which knows no root, one kind of document and no constructs, and then
the walk of the analysis.  A run fails if either finds a fault, and gives the position where the walk found it.

* `Breaks`, `Settings.Violates`: the nodes that break a rule;
* `Session.levelBreaks_of_failure`, `Session.not_levelBreaks_of_complete`: a walk finds one if there is one;
* `Settings.collecting`: what the first walk goes by;
* `Analyzer.errors_exact`: when a run fails and what it gives, and when that is what its settings say.
-/

namespace BrickScope

/-! ## broken rules -/

/-- The brick `b` at `p` breaks a rule, at or inside of it. -/
inductive Breaks (settings : Settings) : Position → Brick → Violation → Prop
  /-- A property that is reserved for pipelines holds something else. -/
  | property {p : Position} {b : Brick} {c : Construct} {property : String} {v : ConfigValue}
    (hc : settings.construct? b.id = some c) (hp : property ∈ c.pipelineProps)
    (hv : Table.get? b.config property = some v) (hnull : v ≠ .literal .null) (hpipe : ∀ bricks, v ≠ .pipeline bricks) :
    Breaks settings p b ⟨p.nested ["config", property], .propertyIsPipeline b.id property⟩
  /-- The body of a document is not a list. -/
  | body {p : Position} {b : Brick} {rows : List Row} {v : ConfigValue}
    (h : Holds settings.isDocument p b rows (.document v)) (hv : ∀ items, v ≠ .array items) :
    Breaks settings p b ⟨p.nested ["config", bodyKey], .bodyIsList⟩
  /-- An element is not an object. -/
  | noObject {p q : Position} {b : Brick} {rows : List Row} {v : ConfigValue}
    (h : Holds settings.isDocument p b rows (.element q v)) (hv : ∀ members, v ≠ .object members) :
    Breaks settings p b ⟨q, .elementIsObject⟩
  /-- An element has no text for its type. -/
  | noType {p q : Position} {b : Brick} {rows : List Row} {members : List (String × ConfigValue)}
    (h : Holds settings.isDocument p b rows (.element q (.object members)))
    (ht : ∀ text, Table.get? members "type" ≠ some (.literal (.string text))) :
    Breaks settings p b ⟨q, .elementHasType⟩
  /-- A list has no deferred body for its rows. -/
  | noRow {p q : Position} {b : Brick} {rows : List Row} {v : ConfigValue} {e : Element}
    (h : Holds settings.isDocument p b rows (.element q v)) (he : Element.ofConfig v = .ok e) (hl : e.type = "list")
    (hr : ∀ body, e.value? Element.rowKey ≠ some (.deferred body)) : Breaks settings p b ⟨q, .rowIsDeferred⟩
  /-- A brick of a nested pipeline breaks a rule. -/
  | nested {p q : Position} {b b' : Brick} {rows : List Row} {reach : Reach} {inner : List Brick} {i : Nat}
    {v : Violation} (h : Holds settings.isDocument p b rows (.value q reach (.pipeline inner)))
    (hi : inner[i]? = some b') (hb : Breaks settings ((q.nested ["__value__"]).brick i) b' v) : Breaks settings p b v

/-- A brick of the level at `p` breaks a rule. -/
def LevelBreaks (settings : Settings) (p : Position) (bricks : List Brick) (v : Violation) : Prop :=
  ∃ i b, bricks[i]? = some b ∧ Breaks settings (p.brick i) b v

/-- A node of a pipeline breaks a rule, by some settings. -/
def Settings.Violates (settings : Settings) (pipeline : Pipeline) (v : Violation) : Prop :=
  LevelBreaks settings ⟨settings.rootPath⟩ pipeline v

theorem Element.lacksRow_iff {e : Element} :
    e.lacksRow = true ↔ e.type = "list" ∧ ∀ body, e.value? rowKey ≠ some (.deferred body) := by
  unfold lacksRow isList
  rw [Bool.and_eq_true, decide_eq_true_eq, and_congr_right_iff]
  intro _
  split
  · rename_i body hv
    simp [hv]
  · rename_i hv
    simpa using hv

/-- Why a value is not an element. -/
theorem Element.ofConfig_eq_error {v : ConfigValue} {rule : Rule} (h : ofConfig v = .error rule) :
    (rule = .elementIsObject ∧ ∀ members, v ≠ .object members) ∨
      rule = .elementHasType ∧ ∃ members, v = .object members ∧
        ∀ text, Table.get? members "type" ≠ some (.literal (.string text)) := by
  cases v with
  | object members =>
    rw [ofConfig] at h
    split at h
    · cases h
    · rename_i ht
      cases h
      refine .inr ⟨rfl, members, rfl, fun text hm => ?_⟩
      rw [hm] at ht
      cases ht
  | _ =>
    cases h
    exact .inl ⟨rfl, by simp⟩

theorem Element.type_of_ofConfig {members : List (String × ConfigValue)} {e : Element}
    (h : ofConfig (.object members) = .ok e) : ∃ text, Table.get? members "type" = some (.literal (.string text)) := by
  rw [ofConfig] at h
  split at h
  · rename_i text ht
    obtain ⟨v, hv, hm⟩ := Option.bind_eq_some_iff.1 ht
    unfold ConfigValue.text? at hm
    split at hm
    · exact ⟨_, hv⟩
    · cases hm
  · cases h

namespace Session

variable {s : Session}

theorem breaks_of_violation? {p : Position} {b : Brick} {v : Violation} (h : s.violation? p b = some v) :
    Breaks s.settings p b v := by
  obtain ⟨c, hc, hv⟩ := Option.bind_eq_some_iff.1 h
  obtain ⟨property, hf, rfl⟩ := Option.map_eq_some_iff.1 hv
  have hallows := List.find?_some hf
  cases hg : Table.get? b.config property with
  | none => simp [hg, Construct.allows] at hallows
  | some v =>
    refine .property hc (List.mem_of_find?_eq_some hf) hg ?_ ?_
    · rintro rfl
      simp [hg, Construct.allows] at hallows
    · rintro bricks rfl
      simp [hg, Construct.allows] at hallows

theorem allows_of_noViolation {p : Position} {b : Brick} (h : s.violation? p b = none) {c : Construct}
    (hc : s.settings.construct? b.id = some c) {property : String} (hp : property ∈ c.pipelineProps) :
    Construct.allows (Table.get? b.config property) = true := by
  rw [violation?, hc, Option.bind_some, Construct.violation?, Option.map_eq_none_iff, List.find?_eq_none] at h
  simpa using h property hp

/-! ## a walk that fails has found a fault -/

theorem breaks_of_shown {p : Position} {b : Brick} {rows : List Row} {v : Violation}
    (h : Shown s.settings.isDocument p b rows (.violation v)) : Breaks s.settings p b v := by
  cases h with
  | noList h hv => exact .body h hv
  | noElement h he =>
    rcases Element.ofConfig_eq_error he with ⟨rfl, hv⟩ | ⟨rfl, members, rfl, ht⟩
    · exact .noObject h hv
    · exact .noType h ht
  | noRow h he hr =>
    obtain ⟨hl, hr⟩ := Element.lacksRow_iff.1 hr
    exact .noRow h he hl hr

/-- Whatever ends a walk is among some violations. -/
def FailsBy (C : Violation → Prop) (w : Walk Step) : Prop := ∀ v, w.failure = some v → C v

theorem FailsBy.append {C : Violation → Prop} {w w' : Walk Step} (h : FailsBy C w) (h' : FailsBy C w') :
    FailsBy C (w ++ w') := by
  intro v hv
  rw [Walk.failure_append, Option.or_eq_some_iff] at hv
  rcases hv with hv | ⟨-, hv⟩
  · exact h v hv
  · exact h' v hv

theorem failsBy_of_complete {C : Violation → Prop} {w : Walk Step} (h : w.Complete) : FailsBy C w := by
  intro v hv
  rw [show w.failure = none from h] at hv
  cases hv

theorem levelBreaks_of_failure (bricks : List Brick) :
    ∀ (depth : Nat) (p : Position) (inherited : Scope), FailsBy (LevelBreaks s.settings p bricks)
      (s.bricksSteps depth inherited .empty (brickSites s.settings.isDocument p 0 bricks)) := by
  induction bricks using @bricks_induction s.settings.isDocument with
  | step bricks ih =>
    intro depth p inherited
    refine bricksSteps_builds (failsBy_of_complete rfl) FailsBy.append fun earlier b later hall => ?_
    have hb : b ∈ bricks := by simp [hall]
    have hat : bricks[earlier.length]? = some b := by simp [hall]
    suffices hbreaks : FailsBy (Breaks s.settings (p.brick earlier.length) b) (s.brickSteps depth inherited
        ⟨s.outputTrees p earlier⟩ (brickSite s.settings.isDocument (p.brick earlier.length) b)) from
      fun v hv => ⟨earlier.length, b, hat, hbreaks v hv⟩
    cases hv : s.violation? (p.brick earlier.length) b with
    | some u =>
      rw [brickSteps_of_violation hv]
      rintro v ⟨⟩
      exact breaks_of_violation? hv
    | none =>
      obtain ⟨product, hwalk⟩ := brickSteps_of_noViolation depth inherited p earlier hv
      have hinside : s.Builds depth (s.visible inherited p earlier b)
          (brickSite s.settings.isDocument (p.brick earlier.length) b).inside
          (FailsBy (Breaks s.settings (p.brick earlier.length) b)) := by
        refine ⟨failsBy_of_complete rfl, FailsBy.append, fun _ => failsBy_of_complete rfl, ?_, ?_, fun _ hw => hw⟩
        · rintro rows u ho v ⟨⟩
          exact breaks_of_shown (shown_of_occurs ho)
        · intro rows l ho v hv
          cases shown_of_occurs ho with
          | level hh =>
            rw [levelSteps] at hv
            obtain ⟨i, b', hi, hb'⟩ := ih b hb hh (depth + 1) _ _ v hv
            exact .nested hh hi hb'
      rw [hwalk]
      exact fun v hv => sitesSteps_builds hinside v hv

/-! ## a walk that comes to its end has found everything in order -/

/-- Where a walk meets a broken rule: at the brick, in its outline, or in a nested pipeline. -/
theorem met_of_breaks {p : Position} {b : Brick} {v : Violation} (h : Breaks s.settings p b v) :
    s.violation? p b ≠ none ∨
      (∃ rows, OccursIn (brickSite s.settings.isDocument p b).inside rows (.violation v)) ∨
      ∃ rows q reach inner, Holds s.settings.isDocument p b rows (.value q reach (.pipeline inner)) ∧
        LevelBreaks s.settings (q.nested ["__value__"]) inner v := by
  cases h with
  | property hc hp hg hnull hpipe =>
    left
    intro hv
    have hallows := allows_of_noViolation hv hc hp
    rw [hg] at hallows
    unfold Construct.allows at hallows
    split at hallows
    · rename_i he
      cases he
    · rename_i he
      cases he
      exact hnull rfl
    · rename_i he
      cases he
      exact hpipe _ rfl
    · cases hallows
  | @body _ _ rows v h hv =>
    refine .inr (.inl ⟨rows, h.occurs _ ?_⟩)
    cases v with
    | array items => exact absurd rfl (hv items)
    | _ => exact List.mem_singleton.2 rfl
  | @noObject _ q _ rows v h hv =>
    refine .inr (.inl ⟨rows, h.occurs _ (List.mem_singleton.2 ?_)⟩)
    cases v with
    | object members => exact absurd rfl (hv members)
    | _ => rfl
  | @noType _ q _ rows members h ht =>
    have he : Element.ofConfig (.object members) = .error .elementHasType := by
      cases hc : Element.ofConfig (.object members) with
      | ok e =>
        obtain ⟨text, hm⟩ := Element.type_of_ofConfig hc
        exact absurd hm (ht text)
      | error rule =>
        rcases Element.ofConfig_eq_error hc with ⟨-, hv⟩ | ⟨rfl, -⟩
        · exact absurd rfl (hv members)
        · rfl
    exact .inr (.inl ⟨rows, h.occurs _ (List.mem_singleton.2 (elementSite_of_error he).symm)⟩)
  | @noRow _ q _ rows v e h he hl hr =>
    obtain ⟨x, hx, ho⟩ := h.occurs _ (List.mem_singleton.2 rfl)
    rw [elementSite_of_ok he, Element.lacksRow_iff.2 ⟨hl, hr⟩, if_pos rfl] at ho
    exact .inr (.inl ⟨rows, x, hx, ho.trans (.element (List.mem_singleton.2 rfl) .here)⟩)
  | @nested _ q _ b' rows reach inner i _ h hi hb => exact .inr (.inr ⟨rows, q, reach, inner, h, i, b', hi, hb⟩)

theorem not_levelBreaks_of_complete (bricks : List Brick) :
    ∀ (depth : Nat) (p : Position) (inherited : Scope),
      (s.bricksSteps depth inherited .empty (brickSites s.settings.isDocument p 0 bricks)).Complete →
      ∀ v, ¬LevelBreaks s.settings p bricks v := by
  induction bricks using @bricks_induction s.settings.isDocument with
  | step bricks ih =>
    rintro depth p inherited hc v ⟨i, b, hi, hb⟩
    obtain ⟨hlt, hget⟩ := List.getElem?_eq_some_iff.1 hi
    have hall : bricks = bricks.take i ++ b :: bricks.drop (i + 1) := by
      rw [← hget, ← List.drop_eq_getElem_cons hlt, List.take_append_drop]
    have hlen : (bricks.take i).length = i := List.length_take_of_le hlt.le
    have hbrick := brickSteps_complete hc hall
    rw [hlen] at hbrick
    cases hv : s.violation? (p.brick i) b with
    | some u =>
      rw [brickSteps_of_violation hv] at hbrick
      cases hbrick
    | none =>
      obtain ⟨product, hwalk⟩ := brickSteps_of_noViolation depth inherited p (bricks.take i) hv
      rw [hwalk] at hbrick
      rcases met_of_breaks hb with hne | ⟨rows, ho⟩ | ⟨rows, q, reach, inner, hh, hin⟩
      · exact hne hv
      · -- the walk would have ended here
        have hend := (sitesSteps_within ho hbrick).1
        cases hend
      · have hlevel := (sitesSteps_within (hh.occurs _ (List.mem_singleton.2 rfl)) hbrick).1
        rw [siteSteps, levelSteps] at hlevel
        exact ih b (List.mem_of_getElem? hi) hh _ _ _ hlevel v hin

/-! ## the walk that collects ids -/

section

variable (s)

mutual

theorem failure_siteSteps (h : ∀ p b, s.violation? p b = none) (depth : Nat) (active : Scope) :
    ∀ site : Site, (s.siteSteps depth active site).failure = (site.visits fun _ => true).failure
  | .literal _ _ => rfl
  | .expression _ _ => rfl
  | .level level => failure_levelSteps h depth active level
  | .document _ _ inside => failure_sitesSteps h depth active inside
  | .element _ _ _ inside => failure_sitesSteps h depth active inside
  | .deferred p _ row inside => failure_sitesSteps h depth (bodyScope p row active) inside
  | .violation _ => rfl
termination_by structural site => site

theorem failure_sitesSteps (h : ∀ p b, s.violation? p b = none) (depth : Nat) (active : Scope) :
    ∀ sites : List Site, (s.sitesSteps depth active sites).failure = (sitesVisits (fun _ => true) sites).failure
  | [] => rfl
  | site :: sites => by
    rw [sitesSteps, sitesVisits, Walk.failure_append, Walk.failure_append, failure_siteSteps h depth active site,
      failure_sitesSteps h depth active sites]
termination_by structural sites => sites

/-- If no brick is at fault as a construct, an analysis fails where a plain walk does. -/
theorem failure_levelSteps (h : ∀ p b, s.violation? p b = none) (depth : Nat) (active : Scope) :
    ∀ level : Level, (s.levelSteps depth active level).failure = level.allVisits.failure
  | ⟨p, owner, bricks⟩ => failure_bricksSteps h (depth + 1) (s.levelScope p owner active) .empty bricks
termination_by structural level => level

theorem failure_bricksSteps (h : ∀ p b, s.violation? p b = none) (depth : Nat) (inherited outputs : Scope) :
    ∀ bricks : List BrickSite,
      (s.bricksSteps depth inherited outputs bricks).failure = (bricksVisits (fun _ => true) bricks).failure
  | [] => rfl
  | b :: bricks => by
    rw [bricksSteps, bricksVisits, Walk.failure_append, Walk.failure_append,
      failure_brickSteps h depth inherited outputs b, failure_bricksSteps h depth inherited _ bricks]
termination_by structural bricks => bricks

theorem failure_brickSteps (h : ∀ p b, s.violation? p b = none) (depth : Nat) (inherited outputs : Scope) :
    ∀ b : BrickSite, (s.brickSteps depth inherited outputs b).failure = (b.visits fun _ => true).failure
  | ⟨p, b, _, inside⟩ => by
    rw [brickSteps, h p b]
    exact failure_sitesSteps h depth _ inside
termination_by structural b => b

end

end

end Session

/-- What the walk that collects ids goes by: no root, one kind of document, no constructs. -/
def Settings.collecting : Settings := { rootPath := "", documentBrickIds := [defaultDocumentId], constructs := [] }

theorem Settings.isDocument_collecting : collecting.isDocument = fun id => decide (id = defaultDocumentId) := by
  funext id
  simp [isDocument, collecting]

/-- The walk that collects ids is the walk of a session with settings of its own. -/
theorem Pipeline.visits_eq (pipeline : Pipeline) {s : Session} (hs : s.settings = .collecting) (root : Scope) :
    ((pipeline.outline (· = defaultDocumentId) ⟨""⟩).visits fun _ => true).failure =
      (s.bricksSteps 1 root .empty (brickSites s.settings.isDocument ⟨""⟩ 0 pipeline)).failure := by
  have hnone : ∀ p b, s.violation? p b = none := by
    intro p b
    rw [Session.violation?, hs]
    rfl
  rw [s.failure_bricksSteps hnone, hs, Settings.isDocument_collecting]
  rfl

theorem Pipeline.violates_of_brickIds_error {pipeline : Pipeline} {v : Violation} (h : pipeline.brickIds = .error v) :
    Settings.collecting.Violates pipeline v := by
  set s : Session := ⟨{}, .collecting, Definitions.resolve plainAnalyzer.bricks []⟩
  refine Session.levelBreaks_of_failure (s := s) pipeline 1 ⟨""⟩ .empty v ?_
  rw [← pipeline.visits_eq (s := s) rfl .empty]
  unfold brickIds at h
  dsimp only at h
  split at h
  · rename_i hv
    cases h
    exact hv
  · cases h

theorem Pipeline.not_violates_of_brickIds_ok {pipeline : Pipeline} {ids : List String} (h : pipeline.brickIds = .ok ids)
    (v : Violation) : ¬Settings.collecting.Violates pipeline v := by
  set s : Session := ⟨{}, .collecting, Definitions.resolve plainAnalyzer.bricks []⟩
  refine Session.not_levelBreaks_of_complete (s := s) pipeline 1 ⟨""⟩ .empty ?_ v
  rw [Walk.Complete, ← pipeline.visits_eq (s := s) rfl .empty]
  unfold brickIds at h
  dsimp only at h
  split at h
  · cases h
  · rename_i hv
    exact hv

/-! ## runs -/

namespace Analyzer

variable {a : Analyzer} {pipeline : Pipeline}

theorem run_eq_error_iff {v : Violation} :
    (a.run pipeline).outcome = .error v ↔ pipeline.brickIds = .error v ∨
      (∃ ids, pipeline.brickIds = .ok ids) ∧ (a.walk pipeline).failure = some v := by
  cases h : pipeline.brickIds with
  | error u => simp [run, h]
  | ok ids =>
    have hs : (a.session ids).steps (a.rootScope (a.session ids)) pipeline = a.walk pipeline := by
      rw [walk, sessionFor_eq h]
    cases hf : (a.walk pipeline).failure with
    | some u => simp [run, h, hs, hf]
    | none => simp [run, h, hs, hf]

theorem violates_of_failure {v : Violation} (h : (a.walk pipeline).failure = some v) :
    a.settings.Violates pipeline v := by
  rw [walk_eq_bracket] at h
  exact Session.levelBreaks_of_failure pipeline _ _ _ v h

theorem not_violates_of_complete (h : (a.walk pipeline).Complete) (v : Violation) :
    ¬a.settings.Violates pipeline v := by
  rw [walk_eq_bracket] at h
  exact Session.not_levelBreaks_of_complete pipeline _ _ _ h v

/-- There is a report if neither walk finds a fault. -/
theorem run_ok_iff_not_violates : (∃ r, (a.run pipeline).outcome = .ok r) ↔
    (∀ v, ¬Settings.collecting.Violates pipeline v) ∧ ∀ v, ¬a.settings.Violates pipeline v := by
  constructor
  · rintro ⟨r, hr⟩
    obtain ⟨⟨ids, hids⟩, hwalk, -⟩ := run_eq_ok_iff.1 hr
    exact ⟨Pipeline.not_violates_of_brickIds_ok hids, not_violates_of_complete hwalk⟩
  · rintro ⟨hcollect, hwalk⟩
    cases hr : (a.run pipeline).outcome with
    | ok r => exact ⟨r, rfl⟩
    | error v =>
      rcases run_eq_error_iff.1 hr with hids | ⟨-, hf⟩
      · exact absurd (Pipeline.violates_of_brickIds_error hids) (hcollect v)
      · exact absurd (violates_of_failure hf) (hwalk v)

/-- A fault that the first walk finds comes first. -/
theorem violates_of_run_error {v : Violation} (h : (a.run pipeline).outcome = .error v) :
    Settings.collecting.Violates pipeline v ∨
      (∀ u, ¬Settings.collecting.Violates pipeline u) ∧ a.settings.Violates pipeline v := by
  rcases run_eq_error_iff.1 h with hids | ⟨⟨ids, hids⟩, hf⟩
  · exact .inl (Pipeline.violates_of_brickIds_error hids)
  · exact .inr ⟨Pipeline.not_violates_of_brickIds_ok hids, violates_of_failure hf⟩

end Analyzer

/-! ## settings under which errors are exact -/

namespace Settings

/-- A run fails exactly if a node breaks a rule by the settings, and gives the position of such a node. -/
def ReportsViolations (settings : Settings) : Prop :=
  ∀ (a : Analyzer) (pipeline : Pipeline), a.settings = settings →
    ((∃ v, (a.run pipeline).outcome = .error v) ↔ ∃ v, settings.Violates pipeline v) ∧
    ∀ v, (a.run pipeline).outcome = .error v → ∃ rule, settings.Violates pipeline ⟨v.position, rule⟩

/-- Both walks have the same root and the same documents. -/
def SeesAsCollected (settings : Settings) : Prop :=
  settings.rootPath = "" ∧ ∀ id, settings.isDocument id = true ↔ id = defaultDocumentId

theorem SeesAsCollected.isDocument {settings : Settings} (h : settings.SeesAsCollected) :
    settings.isDocument = collecting.isDocument := by
  rw [isDocument_collecting]
  funext id
  rw [Bool.eq_iff_iff, h.2 id, decide_eq_true_eq]

end Settings

/-- What is broken without constructs is broken with them. -/
theorem Breaks.of_collecting {settings : Settings} (h : settings.isDocument = Settings.collecting.isDocument)
    {p : Position} {b : Brick} {v : Violation} (hb : Breaks .collecting p b v) : Breaks settings p b v := by
  induction hb with
  | property hc => cases hc
  | body hh hv => exact .body (h ▸ hh) hv
  | noObject hh hv => exact .noObject (h ▸ hh) hv
  | noType hh ht => exact .noType (h ▸ hh) ht
  | noRow hh he hl hr => exact .noRow (h ▸ hh) he hl hr
  | nested hh hi _ ih => exact .nested (h ▸ hh) hi ih

theorem Settings.SeesAsCollected.violates {settings : Settings} (h : settings.SeesAsCollected) {pipeline : Pipeline}
    {v : Violation} (hv : collecting.Violates pipeline v) : settings.Violates pipeline v := by
  obtain ⟨i, b, hi, hb⟩ := hv
  refine ⟨i, b, hi, ?_⟩
  rw [h.1]
  exact hb.of_collecting h.isDocument

theorem Settings.SeesAsCollected.reports {settings : Settings} (h : settings.SeesAsCollected) :
    settings.ReportsViolations := by
  rintro a pipeline rfl
  have herror : ∀ v, (a.run pipeline).outcome = .error v → a.settings.Violates pipeline v := by
    intro v hv
    rcases Analyzer.violates_of_run_error hv with hc | ⟨-, hv⟩
    · exact h.violates hc
    · exact hv
  refine ⟨⟨fun ⟨v, hv⟩ => ⟨v, herror v hv⟩, fun ⟨v, hv⟩ => ?_⟩, fun v hv => ⟨v.rule, herror v hv⟩⟩
  cases hr : (a.run pipeline).outcome with
  | error u => exact ⟨u, rfl⟩
  | ok r => exact absurd hv ((Analyzer.run_ok_iff_not_violates.1 ⟨r, hr⟩).2 v)

/-! ## settings under which they are not -/

/-- A document whose body is a literal. -/
def literalDocument (value : Scalar) : Brick := { id := defaultDocumentId, config := [(bodyKey, .literal value)] }

theorem brickIds_literalDocument (value : Scalar) :
    Pipeline.brickIds [literalDocument value] = .error ⟨⟨"0.config.body"⟩, .bodyIsList⟩ := rfl

/-- An element in which a faulty document stands where no walk through a document looks. -/
def hidingElement : ConfigValue :=
  .object [("type", .literal (.string "text")), ("extra", .pipeline [literalDocument .null])]

def hidingDocument (id : String) : Brick := { id := id, config := [(bodyKey, .array [hidingElement])] }

theorem brickIds_hidingDocument {id : String} (h : id ≠ defaultDocumentId) :
    Pipeline.brickIds [hidingDocument id] =
      .error ⟨⟨"0.config.body.0.extra.__value__.0.config.body"⟩, .bodyIsList⟩ := by
  unfold Pipeline.brickIds Pipeline.outline hidingDocument
  simp only [brickSites, brickSite, configSites, h, decide_false, Bool.false_and, Bool.false_eq_true, if_false]
  rfl

/-- A document holds nothing but its body if that is a literal. -/
theorem holds_literalDocument {documents : String → Bool} {p : Position} {value : Scalar} {rows : List Row}
    {c : Content} (h : Holds documents p (literalDocument value) rows c) :
    (c = .document (.literal value) ∧ documents defaultDocumentId = true) ∨
      ∃ q reach, c = .value q reach (.literal value) := by
  induction h with
  | guard h => cases h
  | config hm =>
    cases List.mem_singleton.1 hm
    exact .inr ⟨_, _, rfl⟩
  | document hm hd =>
    cases List.mem_singleton.1 hm
    exact .inl ⟨rfl, hd⟩
  | member _ _ ih | item _ _ ih | deferred _ ih | top _ _ ih | setting _ _ _ _ _ _ ih | row _ _ _ _ _ _ ih
  | inRow _ ih | child _ _ _ _ ih => rcases ih with ⟨he, -⟩ | ⟨q, reach, he⟩ <;> cases he

/-- The body is the only node of a literal document that may be at fault.  As `null` it is one only of a document. -/
theorem breaks_literalDocument {settings : Settings} {p : Position} {value : Scalar} {v : Violation}
    (h : Breaks settings p (literalDocument value) v) :
    v.position = p.nested ["config", bodyKey] ∧ (value = .null → settings.isDocument defaultDocumentId = true) := by
  cases h with
  | property hc hp hv hnull hpipe =>
    rw [literalDocument, Table.get?] at hv
    split at hv
    · rename_i he
      cases hv
      refine ⟨by rw [he], ?_⟩
      rintro rfl
      exact absurd rfl hnull
    · cases hv
  | body hh hv =>
    rcases holds_literalDocument hh with ⟨-, hd⟩ | ⟨q, reach, he⟩
    · exact ⟨rfl, fun _ => hd⟩
    · cases he
  | noObject hh | noType hh | noRow hh | nested hh =>
    rcases holds_literalDocument hh with ⟨he, -⟩ | ⟨q, reach, he⟩ <;> cases he

theorem ofConfig_hidingElement : Element.ofConfig hidingElement = .ok ⟨"text", none, []⟩ := rfl

/-- As a document, the hiding document holds its body and its element, and nothing else. -/
theorem holds_hidingDocument {documents : String → Bool} {p : Position} {id : String} (hid : documents id = true)
    {rows : List Row} {c : Content} (h : Holds documents p (hidingDocument id) rows c) :
    c = .document (.array [hidingElement]) ∨ ∃ q, c = .element q hidingElement := by
  induction h with
  | guard h => cases h
  | config hm hd =>
    cases List.mem_singleton.1 hm
    exact absurd ⟨hid, rfl⟩ hd
  | document hm =>
    cases List.mem_singleton.1 hm
    exact .inl rfl
  | top _ hi ih =>
    rcases ih with he | ⟨q, he⟩
    · cases he
      have hv := List.mem_of_getElem? hi
      rw [List.mem_singleton] at hv
      exact .inr ⟨_, by rw [hv]⟩
    · cases he
  | setting _ he _ hc _ _ ih =>
    rcases ih with hc' | ⟨q, hc'⟩
    · cases hc'
    · cases hc'
      rw [ofConfig_hidingElement] at he
      cases he
      cases hc
  | row _ he _ _ hc _ ih =>
    rcases ih with hc' | ⟨q, hc'⟩
    · cases hc'
    · cases hc'
      rw [ofConfig_hidingElement] at he
      cases he
      cases hc
  | child _ he _ hi ih =>
    rcases ih with hc' | ⟨q, hc'⟩
    · cases hc'
    · cases hc'
      rw [ofConfig_hidingElement] at he
      cases he
      simp at hi
  | member _ _ ih | item _ _ ih | deferred _ ih | inRow _ ih => rcases ih with he | ⟨q, he⟩ <;> cases he

/-- As a document, the hiding document has no fault but that its body may be reserved for a pipeline. -/
theorem breaks_hidingDocument {settings : Settings} {p : Position} {id : String} (hid : settings.isDocument id = true)
    {v : Violation} (h : Breaks settings p (hidingDocument id) v) : v.position = p.nested ["config", bodyKey] := by
  cases h with
  | property hc hp hv hnull hpipe =>
    rw [hidingDocument, Table.get?] at hv
    split at hv
    · rename_i he
      rw [he]
    · cases hv
  | body hh hv =>
    rcases holds_hidingDocument hid hh with he | ⟨q, he⟩
    · cases he
      exact absurd rfl (hv _)
    · cases he
  | noObject hh hv =>
    rcases holds_hidingDocument hid hh with he | ⟨q, he⟩
    · cases he
    · cases he
      exact absurd rfl (hv _)
  | noType hh ht =>
    rcases holds_hidingDocument hid hh with he | ⟨q, he⟩
    · cases he
    · cases he
      exact absurd rfl (ht "text")
  | noRow hh hof hl =>
    rcases holds_hidingDocument hid hh with he | ⟨q, he⟩
    · cases he
    · cases he
      rw [ofConfig_hidingElement] at hof
      cases hof
      exact absurd hl (by decide)
  | nested hh => rcases holds_hidingDocument hid hh with he | ⟨q, he⟩ <;> cases he

/-- In a pipeline of one brick, the faults are those of the brick. -/
theorem Settings.breaks_of_violates_singleton {settings : Settings} {b : Brick} {v : Violation}
    (h : settings.Violates [b] v) : Breaks settings (Position.brick ⟨settings.rootPath⟩ 0) b v := by
  obtain ⟨i, b', hi, hb⟩ := h
  cases i with
  | zero =>
    cases hi
    exact hb
  | succ i => simp at hi

/-- The path of a body under some root. -/
theorem path_of_body (root : String) :
    ((Position.brick ⟨root⟩ 0).nested ["config", bodyKey]).path =
      if root = "" then "0.config.body" else root ++ "." ++ "0.config.body" := by
  rw [Position.brick, Position.nested_nested]
  by_cases h : root = ""
  · subst h
    rfl
  · have hjoin : Position.join (["0"] ++ ["config", bodyKey]) = "0.config.body" := by decide
    rw [if_neg h, Position.nested, Position.join_cons h]
    change (if Position.join (["0"] ++ ["config", bodyKey]) = "" then root
      else root ++ "." ++ Position.join (["0"] ++ ["config", bodyKey])) = _
    rw [hjoin, if_neg (by decide)]

theorem Settings.seesAsCollected_of_reports {settings : Settings} (h : settings.ReportsViolations) :
    settings.SeesAsCollected := by
  have herror : ∀ {pipeline : Pipeline} {v : Violation}, pipeline.brickIds = .error v →
      ∃ rule, settings.Violates pipeline ⟨v.position, rule⟩ := fun hids =>
    (h (silentAnalyzer settings) _ rfl).2 _ (Analyzer.run_eq_error_iff.2 (.inl hids))
  obtain ⟨rule, hliteral⟩ := herror (brickIds_literalDocument .null)
  obtain ⟨hpos, hdoc⟩ := breaks_literalDocument (breaks_of_violates_singleton hliteral)
  have hroot : settings.rootPath = "" := by
    by_contra hne
    have hpath := congrArg Position.path hpos
    rw [path_of_body, if_neg hne] at hpath
    have hlen := congrArg String.length hpath
    simp only [String.length_append] at hlen
    have hdot : ".".length = 1 := rfl
    omega
  refine ⟨hroot, fun id => ⟨fun hid => ?_, ?_⟩⟩
  · by_contra hne
    obtain ⟨rule, hhiding⟩ := herror (brickIds_hidingDocument hne)
    have hpath := congrArg Position.path (breaks_hidingDocument hid (breaks_of_violates_singleton hhiding))
    rw [path_of_body, if_pos hroot] at hpath
    simp at hpath
  · rintro rfl
    exact hdoc rfl

/-- **Errors of a run.**  There is a report exactly if no node breaks a rule, neither by what the walk that collects ids
goes by nor by the settings.  Else the run gives a fault that the first walk finds, or, if there is none, one that the
settings say; each with the position that it has in its walk.  That is what the settings say for every pipeline exactly
if they have an empty root and the documents of the first walk. -/
theorem Analyzer.errors_exact (a : Analyzer) :
    (∀ pipeline : Pipeline,
      ((∃ r, (a.run pipeline).outcome = .ok r) ↔
        (∀ v, ¬Settings.collecting.Violates pipeline v) ∧ ∀ v, ¬a.settings.Violates pipeline v) ∧
      ∀ v, (a.run pipeline).outcome = .error v →
        Settings.collecting.Violates pipeline v ∨
          (∀ u, ¬Settings.collecting.Violates pipeline u) ∧ a.settings.Violates pipeline v) ∧
    (a.settings.ReportsViolations ↔ a.settings.SeesAsCollected) :=
  ⟨fun _ => ⟨run_ok_iff_not_violates, fun _ => violates_of_run_error⟩,
    Settings.seesAsCollected_of_reports, Settings.SeesAsCollected.reports⟩

/-- By default, a document whose body is a text ends a run with a position that is not that of the body. -/
theorem literalDocument_misplaced : ∃ v,
    (plainAnalyzer.run [literalDocument (.string "x")]).outcome = .error v ∧ v.position.path = "0.config.body" ∧
    plainAnalyzer.settings.Violates [literalDocument (.string "x")] ⟨⟨"pipeline.0.config.body"⟩, .bodyIsList⟩ ∧
    ∀ u, plainAnalyzer.settings.Violates [literalDocument (.string "x")] u →
      u.position.path = "pipeline.0.config.body" := by
  refine ⟨_, Analyzer.run_eq_error_iff.2 (.inl (brickIds_literalDocument _)), rfl, ?_, fun u hu => ?_⟩
  · have hdoc : plainAnalyzer.settings.isDocument defaultDocumentId = true := by decide
    exact ⟨0, _, rfl, .body (.document List.mem_cons_self hdoc) (by simp)⟩
  · rw [(breaks_literalDocument (Settings.breaks_of_violates_singleton hu)).1, path_of_body]
    rfl

end BrickScope
