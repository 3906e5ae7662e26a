import BrickScope.Proofs.Analysis.Injection
import BrickScope.Proofs.Existence.Evidence

/-!
# What was seen when a brick last ran

If a brick has run before, what it saw then is added to what it sees.  Bricks inside of it may have seen other values of
the same variables, which are recorded in the same tree.  This never takes a variable or a member away, but it may take
away an index into what was a list.

* `Scope.Traced`: what was seen is evidence, on all levels of a run (`Session.inward_traced`);
* `Context.rootScope_keeps`: what is kept where variables are added holds of what the root knows;
* `Session.untraced`: what a brick sees apart from what it saw when it last ran;
* `Analyzer.source?_trace_untraced_iff`: whether anything was seen around it;
* `Analyzer.rank_le_of_unseen_around`: if not, nothing is taken away;
* `Analyzer.trace_loss_iff`: when a brick is less sure of a reference for what it saw.
-/

namespace BrickScope

open Position (Below)
open Existence (rank)

/-! ## what was seen is evidence -/

/-- Each source has one tree, and what was seen is evidence. -/
structure Scope.Traced (m : Scope) : Prop where
  distinct : m.Distinct
  evidence : ∀ t, m.source? "trace" = some t → t.IsEvidence

namespace Scope

variable {m m' : Scope}

theorem Changes.distinct {S : String → Prop} (h : m.Changes S m') (hm : m.Distinct) : m'.Distinct := by
  induction h with
  | refl => exact hm
  | write _ _ path e f ih => exact ih.write _ path e f

theorem Changes.traced {S : String → Prop} (h : m.Changes S m') (hS : ¬S "trace") (hm : m.Traced) : m'.Traced := by
  refine ⟨h.distinct hm.distinct, fun t ht => hm.evidence t ?_⟩
  rw [← h.source?_eq hS]
  exact ht

end Scope

/-! ## what the root knows -/

/-- A property of scopes that is kept where something is said of a variable, other than that it was seen. -/
def Scope.KeptByVariables (Q : Scope → Prop) : Prop :=
  ∀ {m : Scope} {source x : String}, source ≠ "trace" → x.toList.head? = some Reference.sigil → Q m →
    ∀ e f, Q (m.write source [x] e f)

section

variable {Q : Scope → Prop} (hQ : Scope.KeptByVariables Q) {m : Scope} (h : Q m)

include hQ h

theorem Scope.KeptByVariables.describe {source x : String} (hs : source ≠ "trace")
    (hx : x.toList.head? = some Reference.sigil) (schema : Schema) (override : Option Existence) :
    Q (m.describe source schema [x] override) := by
  unfold Scope.describe
  dsimp only
  split
  · exact hQ hs hx h _ _
  · exact h

theorem Scope.KeptByVariables.observe {source x : String} (hs : source ≠ "trace")
    (hx : x.toList.head? = some Reference.sigil) (v : Json) : Q (m.observe source v [x]) := hQ hs hx h _ _

theorem Context.addOptions_keeps (c : Context) (schema : Schema) : Q (c.addOptions schema m) := by
  have hschema : Q (m.describe "options" schema ["@options"] none) := hQ.describe h (by decide) rfl schema none
  unfold addOptions
  dsimp only
  split
  · exact hQ.observe hschema (by decide) rfl _
  · exact hschema

theorem Context.addMod_keeps (c : Context) : Q (c.addMod m) := by
  have hset : Q (m.set "mod" ["@mod"] .definitely c.modIsUnknown false) := hQ (by decide) rfl h _ _
  unfold addMod
  cases c.modState with
  | none =>
    cases c.modVariablesSchema with
    | none => exact hset
    | some schema => exact hQ.describe hset (by decide) rfl _ _
  | some state =>
    have hstate : Q ((m.set "mod" ["@mod"] .definitely c.modIsUnknown false).observe "mod" state ["@mod"]) :=
      hQ.observe hset (by decide) rfl state
    cases c.modVariablesSchema with
    | none => exact hstate
    | some schema => exact hQ.describe hstate (by decide) rfl _ _

theorem Integration.addTo_keeps (i : Integration) : Q (i.addTo m) := by
  have hne : "integration:" ++ i.key ≠ "trace" := by
    intro he
    have hhead := congrArg (fun s : String => s.toList.head?) he
    simp at hhead
  unfold addTo
  split
  · exact h
  · exact hQ.describe h hne (by simp [Reference.sigil]) _ _

end

/-- What the root knows is said of variables, and under other names than what was seen. -/
theorem Context.rootScope_keeps {Q : Scope → Prop} (hQ : Scope.KeptByVariables Q) (hempty : Q .empty) (c : Context)
    (mods : Option (Registry Schema)) (bricks : Definitions) : Q (c.rootScope mods bricks) := by
  have hmod := c.addMod_keeps hQ (c.addOptions_keeps hQ hempty (c.options mods).1)
  have hintegrations := List.foldlRecOn (motive := Q) c.integrations (fun m i => i.addTo m) hmod
    fun _ hm i _ => i.addTo_keeps hQ hm
  exact hQ.describe hintegrations (by decide) rfl _ _

namespace Scope

variable {m m' : Scope}

theorem traced_rootScope (c : Context) (mods : Option (Registry Schema)) (bricks : Definitions) :
    (c.rootScope mods bricks).Traced := by
  refine c.rootScope_keeps ?_ ⟨List.nodup_nil, fun t ht => ?_⟩ mods bricks
  · intro m source x hs _ h e f
    have hwrite := Changes.write (S := (· ≠ "trace")) (.refl m) hs [x] e f
    exact hwrite.traced (by simp) h
  · cases ht

/-- The root has seen nothing. -/
theorem source?_trace_rootScope (c : Context) (mods : Option (Registry Schema)) (bricks : Definitions) :
    (c.rootScope mods bricks).source? "trace" = none := by
  refine c.rootScope_keeps (Q := fun m => m.source? "trace" = none) ?_ rfl mods bricks
  intro m source x hs _ h e f
  exact (source?_write_of_ne hs.symm e f).trans h

theorem source?_observe_self {source : String} {v : Json} (h : v.hasMembers = true) :
    (m.observe source v []).source? source = some (((m.source? source).getD {}).withSeen v) := by
  unfold observe
  rw [h]
  exact Table.get?_insert_self _ _ _

theorem observe_of_noMembers {source : String} {v : Json} (h : v.hasMembers = false) : m.observe source v [] = m := by
  unfold observe
  rw [h]
  rfl

/-- What is seen goes on top of what was seen around. -/
theorem Traced.seesMore (h : m.Traced) (v : Json) : m.SeesMore "trace" (m.observe "trace" v []) := by
  cases hv : v.hasMembers with
  | false =>
    rw [observe_of_noMembers hv]
    exact ⟨h.distinct, h.distinct, rfl, fun t ht => ⟨h.evidence t ht, t, ht, h.evidence t ht, .refl t⟩⟩
  | true =>
    have hchange : m.Changes (fun _ => True) (m.observe "trace" v []) := changes_observe m trivial v []
    refine ⟨h.distinct, hchange.distinct h.distinct, ?_, fun t ht => ⟨h.evidence t ht, t.withSeen v, ?_, ?_, ?_⟩⟩
    · unfold observe
      rw [hv]
      exact others_write m _ _ _ _
    · rw [source?_observe_self hv, ht]
      rfl
    · exact (h.evidence t ht).withSeen v
    · exact t.keeps_withSeen v

theorem SeesMore.rank_le_of_none {source : String} (h : m.SeesMore source m') (hnone : m.source? source = none)
    {reference : String} : rank (m.existence? reference) ≤ rank (m'.existence? reference) := by
  by_contra hlt
  obtain ⟨t, t', ht, -⟩ := h.rank_lt_iff.1 (Nat.not_le.1 hlt)
  rw [hnone] at ht
  cases ht

theorem Traced.observe (h : m.Traced) (v : Json) : (m.observe "trace" v []).Traced := by
  refine ⟨(h.seesMore v).distinct', fun t ht => ?_⟩
  cases hv : v.hasMembers with
  | false =>
    rw [observe_of_noMembers hv] at ht
    exact h.evidence t ht
  | true =>
    rw [source?_observe_self hv] at ht
    cases ht
    cases hm : m.source? "trace" with
    | none => exact Node.isEvidence_empty.withSeen v
    | some u => exact (h.evidence u hm).withSeen v

end Scope

namespace Session

variable (s : Session)

/-- What a brick sees in the level at `p`, apart from what was seen when it last ran. -/
def untraced (inherited : Scope) (p : Position) (earlier : List Brick) : Scope :=
  ⟨Table.insertAll inherited.sources (s.outputTrees p earlier)⟩

variable {s} {inherited : Scope} {p : Position}

theorem visible_eq (s : Session) (inherited : Scope) (p : Position) (earlier : List Brick) (b : Brick) :
    s.visible inherited p earlier b = match s.lastSeen? b with
      | some seen => (s.untraced inherited p earlier).observe "trace" seen []
      | none => s.untraced inherited p earlier := rfl

/-- The outputs of bricks are not recorded as seen. -/
theorem source?_trace_untraced (earlier : List Brick) :
    (s.untraced inherited p earlier).source? "trace" = inherited.source? "trace" := by
  refine Table.get?_insertAll_of_ne (fun k hk he => ?_) _
  obtain ⟨j, -, hj⟩ := s.mem_outputTrees hk
  exact Position.path_brick_ne (by simp) (hj.symm.trans he.symm)

theorem traced_untraced (h : inherited.Traced) (earlier : List Brick) : (s.untraced inherited p earlier).Traced := by
  refine ⟨Table.nodup_keys_insertAll h.distinct _, fun t ht => h.evidence t ?_⟩
  rw [← ht]
  exact (source?_trace_untraced earlier).symm

theorem traced_visible (h : inherited.Traced) (earlier : List Brick) (b : Brick) :
    (s.visible inherited p earlier b).Traced := by
  rw [visible_eq]
  split
  · exact (traced_untraced h earlier).observe _
  · exact traced_untraced h earlier

/-- Nothing on the way to a nested pipeline is recorded as seen. -/
theorem changes_levelScope {p₀ : Position} {b : Brick} {rows : List Row} {q : Position} {reach : Reach}
    {inner : List Brick} {i : Nat}
    (hh : Holds s.settings.isDocument (p₀.brick i) b rows (.value q reach (.pipeline inner))) (m : Scope) :
    m.Changes (· ≠ "trace")
      (s.levelScope (q.nested ["__value__"]) (some (reach.owner b)) (scopeIn rows m)) := by
  have hne : ∀ {r : Position}, Below (p₀.brick i) r → r.path ≠ "trace" := fun hr =>
    Position.path_ne_of_below_brick hr (by simp)
  rw [levelScope_eq_inherited]
  refine (changes_scopeIn (fun r hr => hne (hh.stands_below.2 r hr)) m).trans ?_
  exact s.settings.changes_inherited (S := (· ≠ "trace")) b (hne (hh.stands_below.1.nested _)) _ reach

theorem inward_traced : s.Inward fun _ inherited => inherited.Traced := by
  intro p inherited h earlier b rows q reach inner hh
  exact (changes_levelScope hh _).traced (by simp) (traced_visible h earlier b)

/-! ## bricks around -/

/-- Nothing was seen when the brick last ran. -/
def Unseen (s : Session) (b : Brick) : Prop := ∀ seen, s.lastSeen? b = some seen → seen.hasMembers = false

/-- What was seen around a brick is still there when the brick is entered, and what the brick saw is added. -/
theorem source?_trace_visible (earlier : List Brick) (b : Brick) :
    (s.visible inherited p earlier b).source? "trace" = none ↔ inherited.source? "trace" = none ∧ s.Unseen b := by
  have huntraced : (s.untraced inherited p earlier).source? "trace" = inherited.source? "trace" :=
    source?_trace_untraced earlier
  rw [visible_eq, Unseen]
  cases hseen : s.lastSeen? b with
  | none => simp [huntraced]
  | some seen =>
    cases hm : seen.hasMembers with
    | false => simp [Scope.observe_of_noMembers hm, huntraced, hm]
    | true => simp [Scope.source?_observe_self hm, hm]

/-- Nothing was seen around a level exactly if nothing was seen when the open bricks of the levels around it last
ran. -/
theorem Stacked.source?_trace {p₀ : Position} {root : Scope} (hroot : root.source? "trace" = none) {l : OpenLevel}
    {outer : List OpenLevel} (h : s.Stacked p₀ root (l :: outer)) :
    l.inherited.source? "trace" = none ↔ ∀ l' ∈ outer, ∀ b ∈ l'.bricks.getLast?, s.Unseen b := by
  induction outer generalizing l with
  | nil =>
    cases h
    simpa using hroot
  | cons l' outer ih =>
    cases h with
    | nested _ h hl =>
      cases hl with
      | @holds p inherited earlier b rows q reach inner hh =>
        rw [(changes_levelScope hh _).source?_eq (by simp), source?_trace_visible, ih h, List.forall_mem_cons, and_comm]
        simp

end Session

/-! ## runs -/

namespace Analyzer

variable {a : Analyzer} {pipeline : Pipeline} {before after : List Step}

theorem traced_inherited (hs : a.steps pipeline = before ++ after) {l : OpenLevel} {outer : List OpenLevel}
    (hl : openLevels before = l :: outer) : l.inherited.Traced :=
  openLevels_of_inward (P := fun _ m => m.Traced) Session.inward_traced (Scope.traced_rootScope _ _ _) hs
    (hl ▸ List.mem_cons_self)

/-- At any point of a run, nothing was seen around the innermost open level exactly if nothing was seen when the bricks
around it last ran: those are the open bricks of the other levels. -/
theorem source?_trace_untraced_iff (hs : a.steps pipeline = before ++ after) {l : OpenLevel} {outer : List OpenLevel}
    (hl : openLevels before = l :: outer) :
    ((a.sessionFor pipeline).untraced l.inherited l.position l.bricks).source? "trace" = none ↔
      ∀ l' ∈ outer, ∀ b ∈ l'.bricks.getLast?, (a.sessionFor pipeline).Unseen b := by
  have hstacked := stacked_openLevels hs
  rw [hl] at hstacked
  rw [Session.source?_trace_untraced]
  exact hstacked.source?_trace (Scope.source?_trace_rootScope _ _ _)

/-- A brick that is entered sees more than without what it saw when it last ran. -/
theorem seesMore_untraced {p : Position} {b : Brick} {scope : Scope}
    (hs : a.steps pipeline = before ++ .enterBrick p b scope :: after) :
    ∃ (l : OpenLevel) (outer : List OpenLevel), openLevels before = l :: outer ∧
      ((a.sessionFor pipeline).untraced l.inherited l.position l.bricks).SeesMore "trace" scope := by
  obtain ⟨l, outer, hl, -, hscope⟩ := exists_level_of_enter hs
  have hm : ((a.sessionFor pipeline).untraced l.inherited l.position l.bricks).Traced :=
    Session.traced_untraced (traced_inherited hs hl) l.bricks
  refine ⟨l, outer, hl, ?_⟩
  rw [hscope, Session.visible_eq]
  split
  · exact hm.seesMore _
  · exact ⟨hm.distinct, hm.distinct, rfl, fun t ht => ⟨hm.evidence t ht, t, ht, hm.evidence t ht, .refl t⟩⟩

/-- What a brick saw takes nothing away where nothing was seen when the bricks around it last ran. -/
theorem rank_le_of_unseen_around {p : Position} {b : Brick} {scope : Scope}
    (hs : a.steps pipeline = before ++ .enterBrick p b scope :: after) {l : OpenLevel} {outer : List OpenLevel}
    (hl : openLevels before = l :: outer)
    (hunseen : ∀ l' ∈ outer, ∀ b' ∈ l'.bricks.getLast?, (a.sessionFor pipeline).Unseen b') (reference : String) :
    rank (((a.sessionFor pipeline).untraced l.inherited l.position l.bricks).existence? reference) ≤
      rank (scope.existence? reference) := by
  obtain ⟨l', outer', hl', hmore⟩ := seesMore_untraced hs
  obtain ⟨rfl, rfl⟩ := List.cons.inj (hl.symm.trans hl')
  exact hmore.rank_le_of_none ((source?_trace_untraced_iff hs hl).2 hunseen)

end Analyzer

/-- **What was seen takes nothing away but indices.**  When a brick is entered in the innermost open level `l`, it is
less sure of a reference than without what it saw when it last ran exactly if what was seen around it was the only sure
source, and the reference got lost there: it passes over an index of a list that is no list any more, or that has got a
member of that name.  A reference without an index is never less sure, nor is any if nothing was seen around. -/
theorem Analyzer.trace_loss_iff {a : Analyzer} {pipeline : Pipeline} (before after : List Step) (p : Position)
    (b : Brick) (scope : Scope) (h : a.steps pipeline = before ++ .enterBrick p b scope :: after) :
    ∃ (l : OpenLevel) (outer : List OpenLevel) (m : Scope), openLevels before = l :: outer ∧
      m = (a.sessionFor pipeline).untraced l.inherited l.position l.bricks ∧
      ∀ reference : String,
        (rank (scope.existence? reference) < rank (m.existence? reference) ↔
          ∃ t t', m.source? "trace" = some t ∧ scope.source? "trace" = some t' ∧
            t.lookup (Reference.segments reference) = some .definitely ∧
            Node.Lost t t' (Reference.segments reference) ∧
            (m.others "trace").existence? reference ≠ some .definitely) ∧
        ((∀ s ∈ Reference.segments reference, Reference.isIndex s = false) →
          rank (m.existence? reference) ≤ rank (scope.existence? reference)) ∧
        (m.source? "trace" = none → rank (m.existence? reference) ≤ rank (scope.existence? reference)) := by
  obtain ⟨l, outer, hl, hmore⟩ := seesMore_untraced h
  refine ⟨l, outer, _, hl, rfl, fun reference => ⟨hmore.rank_lt_iff, fun hindex => ?_, fun hnone =>
    hmore.rank_le_of_none hnone⟩⟩
  by_contra hlt
  obtain ⟨t, t', -, -, -, hlost, -⟩ := hmore.rank_lt_iff.1 (Nat.not_le.1 hlt)
  obtain ⟨s, hs, hi⟩ := hlost.exists_isIndex
  rw [hindex s hs] at hi
  cases hi

/-! ## a list that was a number inside -/

/-- A brick saw a list, and a brick inside of it saw a number in its place. -/
def tracedAnalyzer : Analyzer :=
  { plainAnalyzer with context := { trace := [⟨"outer", .object [("@x", .array [.count 1])]⟩,
      ⟨"inner", .object [("@x", .count 1)]⟩] } }

def tracedPipeline : Pipeline :=
  [{ id := "loop", instanceId := some "outer",
     config := [("body", .pipeline [{ id := "print" }, { id := "send", instanceId := some "inner" }])] }]

theorem run_tracedPipeline : (tracedAnalyzer.run tracedPipeline).outcome =
    .ok (Report.ofSteps {} (tracedAnalyzer.steps tracedPipeline)) :=
  Analyzer.run_eq_ok_iff.2 ⟨⟨["loop", "print", "send"], rfl⟩, rfl, rfl⟩

/-- The inner brick knows the variable as surely as before, but the index got lost. -/
theorem trace_loss_inner : ∃ before after p b scope l outer m t t',
    tracedAnalyzer.steps tracedPipeline = before ++ .enterBrick p b scope :: after ∧ b.instanceId = some "inner" ∧
    openLevels before = l :: outer ∧
    m = (tracedAnalyzer.sessionFor tracedPipeline).untraced l.inherited l.position l.bricks ∧
    rank (m.existence? "@x") ≤ rank (scope.existence? "@x") ∧
    m.source? "trace" = some t ∧ scope.source? "trace" = some t' ∧ Node.Lost t t' ["@x", "0"] := by
  obtain ⟨l, outer, m, hl, rfl, hreference⟩ := Analyzer.trace_loss_iff ((tracedAnalyzer.steps tracedPipeline).take 5)
    ((tracedAnalyzer.steps tracedPipeline).drop 6) _ _ _ rfl
  obtain ⟨rfl, rfl⟩ : _ = l ∧ _ = outer := List.cons.inj hl
  obtain ⟨t, t', ht, ht', -, hlost, -⟩ := (hreference "@x[0]").1.1 (by decide +kernel)
  exact ⟨(tracedAnalyzer.steps tracedPipeline).take 5, (tracedAnalyzer.steps tracedPipeline).drop 6, _, _, _, _, _, _, t,
    t', rfl, rfl, hl, rfl, (hreference "@x").2.1 (by decide), ht, ht', hlost⟩

/-- Inside of the brick that saw the list, the first element of the list is known; the brick that saw the number does
not know it. -/
theorem trace_takes_index_away : ∃ r before after p b scope l outer,
    (tracedAnalyzer.run tracedPipeline).outcome = .ok r ∧
    tracedAnalyzer.steps tracedPipeline = before ++ .enterBrick p b scope :: after ∧ openLevels before = l :: outer ∧
    ((tracedAnalyzer.sessionFor tracedPipeline).untraced l.inherited l.position l.bricks).existence? "@x[0]" =
      some .definitely ∧
    scope.existence? "@x[0]" = none :=
  ⟨_, (tracedAnalyzer.steps tracedPipeline).take 5, (tracedAnalyzer.steps tracedPipeline).drop 6, _, _, _, _, _,
    run_tracedPipeline, rfl, rfl, by decide +kernel, by decide +kernel⟩

end BrickScope
