import BrickScope.Proofs.Analysis.Run
import BrickScope.Proofs.Pipeline.Coverage

/-!
# Bricks that are looked up beforehand

The bricks of a run are looked up before the walk, by the ids that a first walk collects.  The first walk knows one kind
of document brick, the walk of the analysis those of the settings.  Only parts of a document are looked at, so a brick
in another part is met by the analysis alone if the settings leave that kind out.  Such a brick is taken to have any
output, whatever the registry says of it.

* `Definitions.get_resolve`: what has been looked up;
* `Analyzer.id_mem_of_minds`: settings under which no id is missed;
* `complete_run_hidingBrick`: under all other settings one is;
* `Settings.resolution_exact`: the condition is exact.
-/

namespace BrickScope

/-! ## what has been looked up -/

theorem Definitions.get_resolve (registry : Registry Definition) (ids : List String) (id : String) :
    (resolve registry ids).get id = if id ∈ ids then registry id else .error (.notFound id) := by
  unfold get resolve Table.ofList
  dsimp only
  rw [Table.get?_insertAll_map]
  by_cases h : id ∈ ids <;> simp [h, Table.get?]

/-- The output of a brick as a registry has it; whatever is not declared may be anything. -/
def Registry.outputSchema (registry : Registry Definition) (b : Brick) : Schema :=
  match registry b.id with
  | .ok definition => (definition.outputSchema b).getD .permissive
  | .error _ => .permissive

theorem Definitions.schema_output {d : Definitions} {registry : Registry Definition} {b : Brick}
    (h : d.get b.id = registry b.id) : (d.output b).schema = registry.outputSchema b := by
  unfold output Registry.outputSchema
  rw [h]
  cases registry b.id with
  | error e => rfl
  | ok definition =>
    dsimp only
    cases definition.outputSchema b <;> rfl

theorem Definitions.schema_output_of_unavailable {d : Definitions} {b : Brick} {e : LookupError}
    (h : d.get b.id = .error e) : (d.output b).schema = .permissive := by
  rw [output, h]
  rfl

/-! ## bricks that are met -/

/-- A brick is entered on the way. -/
def Enters (steps : List Step) (b : Brick) : Prop := ∃ p scope, Step.enterBrick p b scope ∈ steps

theorem Enters.mono {steps steps' : List Step} {b : Brick} (h : Enters steps b) (hs : steps ⊆ steps') :
    Enters steps' b := by
  obtain ⟨p, scope, hb⟩ := h
  exact ⟨p, scope, hs hb⟩

theorem enters_iff_met {steps : List Step} {b : Brick} :
    Enters steps b ↔ ∃ p, .brick p b ∈ steps.filterMap Step.met? := by
  simp only [List.mem_filterMap]
  constructor
  · rintro ⟨p, scope, h⟩
    exact ⟨p, _, h, rfl⟩
  · rintro ⟨p, step, h, hm⟩
    cases step with
    | enterBrick p' b' scope =>
      cases hm
      exact ⟨p, scope, h⟩
    | check => cases hm
    | _ => cases hm

/-- The ids are those of the bricks that the first walk visits. -/
theorem Pipeline.brickIds_eq_ok {pipeline : Pipeline} {ids : List String} (h : pipeline.brickIds = .ok ids) :
    (pipeline.outline (· = defaultDocumentId) ⟨""⟩).allVisits.Complete ∧
      ∀ b, (pipeline.outline (· = defaultDocumentId) ⟨""⟩).allVisits.Visits b → b.id ∈ ids := by
  unfold brickIds at h
  dsimp only at h
  split at h
  · cases h
  · rename_i hc
    cases h
    refine ⟨hc, ?_⟩
    rintro b ⟨p, isDocument, hb⟩
    rw [mem_distinct]
    exact List.mem_map.2 ⟨b, List.mem_filterMap.2 ⟨_, hb, rfl⟩, rfl⟩

namespace Analyzer

variable {a : Analyzer} {pipeline : Pipeline}

theorem enters_iff_visits (h : (a.walk pipeline).Complete) {b : Brick} :
    Enters (a.steps pipeline) b ↔ (a.outline pipeline).allVisits.Visits b := by
  have hmet := ((a.sessionFor pipeline).levelSteps_met 0 (a.rootScope _) (a.outline pipeline) h).2.1
  rw [enters_iff_met, Walk.visits_iff_met, hmet]
  rfl

theorem violation?_of_visits (h : (a.walk pipeline).Complete) {b : Brick}
    (hb : (a.outline pipeline).allVisits.Visits b) : ∃ p, (a.sessionFor pipeline).violation? p b = none := by
  obtain ⟨-, hmet, hall⟩ := (a.sessionFor pipeline).levelSteps_met 0 (a.rootScope _) (a.outline pipeline) h
  obtain ⟨p, hp⟩ := Walk.visits_iff_met.1 hb
  exact ⟨p, hall p b (hmet ▸ hp)⟩

end Analyzer

/-! ## settings that mind documents -/

/-- The settings know the document brick that every platform has, or their rule for it lets it have no document. -/
def Settings.MindsDocuments (settings : Settings) : Prop :=
  settings.isDocument defaultDocumentId = true ∨
    ∃ c, settings.construct? defaultDocumentId = some c ∧ bodyKey ∈ c.pipelineProps

/-- A property that must hold a pipeline does not hold a list. -/
theorem Construct.get?_ne_array {c : Construct} {b : Brick} {p : Position} (h : c.violation? b p = none)
    {property : String} (hp : property ∈ c.pipelineProps) (items : List ConfigValue) :
    Table.get? b.config property ≠ some (.array items) := by
  intro hg
  rw [violation?, Option.map_eq_none_iff, List.find?_eq_none] at h
  have := h property hp
  rw [hg] at this
  exact this rfl

theorem Settings.MindsDocuments.unhidden {settings : Settings} (h : settings.MindsDocuments) {s : Session}
    (hs : s.settings = settings) :
    Unhidden (· = defaultDocumentId) settings.isDocument fun b => ∃ p, s.violation? p b = none := by
  rintro b ⟨p, hv⟩ hc hd items
  have hid : b.id = defaultDocumentId := of_decide_eq_true hc
  rcases h with h | ⟨c, h, hbody⟩
  · rw [hid, h] at hd
    cases hd
  · rw [Session.violation?, hs, hid, h] at hv
    exact Construct.get?_ne_array hv hbody items

theorem Analyzer.id_mem_of_minds {a : Analyzer} {pipeline : Pipeline} {r : Report}
    (hm : a.settings.MindsDocuments) (h : (a.run pipeline).outcome = .ok r) {ids : List String}
    (hids : pipeline.brickIds = .ok ids) {b : Brick} (hb : Enters (a.steps pipeline) b) : b.id ∈ ids := by
  obtain ⟨-, hwalk, -⟩ := run_eq_ok_iff.1 h
  obtain ⟨hcollected, hmem⟩ := Pipeline.brickIds_eq_ok hids
  obtain ⟨hvisited, -, -⟩ := (a.sessionFor pipeline).levelSteps_met 0 (a.rootScope _) (a.outline pipeline) hwalk
  have hcovers := outline_covers (hm.unhidden (s := a.sessionFor pipeline) rfl) ⟨""⟩ ⟨a.settings.rootPath⟩ pipeline
  refine hmem b (hcovers hcollected hvisited (fun b' hb' => violation?_of_visits hwalk hb') b ?_)
  exact (enters_iff_visits hwalk).1 hb

theorem Analyzer.get_of_mem {a : Analyzer} {pipeline : Pipeline} {ids : List String}
    (hids : pipeline.brickIds = .ok ids) {id : String} (h : id ∈ ids) :
    (a.sessionFor pipeline).bricks.get id = a.bricks id := by
  rw [sessionFor_eq hids, session, Definitions.get_resolve, if_pos (List.mem_append_left _ h)]

/-! ## settings that do not -/

/-- A brick that stands where no walk through a document looks. -/
def hiddenBrick : Brick := { id := "hidden", outputKey := some "out" }

/-- A document whose only element has a pipeline besides its configuration and its children. -/
def hidingBrick : Brick where
  id := defaultDocumentId
  config := [(bodyKey, .array [.object
    [("type", .literal (.string "text")), ("extra", .pipeline [hiddenBrick])]])]

theorem brickIds_hidingBrick : Pipeline.brickIds [hidingBrick] = .ok [defaultDocumentId] := rfl

/-- An analyzer that knows every brick; none of them has an output. -/
def silentAnalyzer (settings : Settings) : Analyzer where
  bricks id := .ok (.fixed id none (some (.bool false)))
  settings := settings

/-- Without documents the element is a plain value, through which the walk goes completely. -/
theorem outline_hidingBrick {settings : Settings} (h : settings.isDocument defaultDocumentId = false) :
    ∃ root p q q' q'' owner value isDocument, (silentAnalyzer settings).outline [hidingBrick] =
      ⟨root, none, [⟨p, hidingBrick, false, [.literal q value,
        .level ⟨q', owner, [⟨q'', hiddenBrick, isDocument, []⟩]⟩]⟩]⟩ := by
  unfold Analyzer.outline hidingBrick Pipeline.outline silentAnalyzer
  simp only [brickSites, brickSite, h, configSites, guardSites, valueSites, itemSites, memberSites, hiddenBrick,
    Bool.false_and, Bool.false_eq_true, if_false, List.nil_append, List.append_nil, List.cons_append]
  exact ⟨_, _, _, _, _, _, _, _, rfl⟩

theorem violation?_hidingBrick {settings : Settings} (h : ¬settings.MindsDocuments) {s : Session}
    (hs : s.settings = settings) (p : Position) : s.violation? p hidingBrick = none := by
  rw [Session.violation?, hs]
  cases hc : settings.construct? defaultDocumentId with
  | none => rw [show settings.construct? hidingBrick.id = none from hc]; rfl
  | some c =>
    rw [show settings.construct? hidingBrick.id = some c from hc, Option.bind_some, Construct.violation?,
      Option.map_eq_none_iff, List.find?_eq_none]
    intro property hp
    have hne : bodyKey ≠ property := fun he => h (.inr ⟨c, hc, he ▸ hp⟩)
    simp [hidingBrick, Table.get?, hne, Construct.allows]

theorem violation?_hiddenBrick (s : Session) (p : Position) : s.violation? p hiddenBrick = none := by
  unfold Session.violation? Construct.violation?
  cases s.settings.construct? hiddenBrick.id with
  | none => rfl
  | some c =>
    rw [Option.bind_some, Option.map_eq_none_iff, List.find?_eq_none]
    intro property hp
    simp [hiddenBrick, Table.get?, Construct.allows]

/-- Under settings that do not mind documents the analysis meets a brick that has not been looked up. -/
theorem complete_run_hidingBrick {settings : Settings} (h : ¬settings.MindsDocuments) :
    (∃ r, ((silentAnalyzer settings).run [hidingBrick]).outcome = .ok r) ∧
      Enters ((silentAnalyzer settings).steps [hidingBrick]) hiddenBrick := by
  have hd : settings.isDocument defaultDocumentId = false := by
    cases hd : settings.isDocument defaultDocumentId with
    | true => exact absurd (.inl hd) h
    | false => rfl
  obtain ⟨root, p, q, q', q'', owner, value, isDocument, ho⟩ := outline_hidingBrick hd
  have hw : ((silentAnalyzer settings).walk [hidingBrick]).Complete := by
    have hv := violation?_hidingBrick h (s := (silentAnalyzer settings).sessionFor [hidingBrick]) rfl p
    rw [Analyzer.walk_eq, ho]
    simp [Session.levelSteps, Session.bricksSteps, Session.brickSteps, Session.sitesSteps, Session.siteSteps, hv,
      violation?_hiddenBrick]
  refine ⟨⟨_, Analyzer.run_eq_ok_iff.2 ⟨⟨_, brickIds_hidingBrick⟩, hw, rfl⟩⟩, ?_⟩
  rw [Analyzer.enters_iff_visits hw, ho]
  refine ⟨q'', isDocument, ?_⟩
  simp [Level.visits, bricksVisits, BrickSite.visits, sitesVisits, Site.visits, Walk.append_def, Walk.append, Walk.cons]

/-! ## the exact condition -/

namespace Settings

/-- Whatever the analysis meets has been collected. -/
def CollectsAll (settings : Settings) : Prop :=
  ∀ (a : Analyzer) (pipeline : Pipeline) (r : Report) (ids : List String), a.settings = settings →
    (a.run pipeline).outcome = .ok r → pipeline.brickIds = .ok ids →
    ∀ b, Enters (a.steps pipeline) b → b.id ∈ ids

/-- Whatever the analysis meets has the output that the registry gives it. -/
def ResolvesAll (settings : Settings) : Prop :=
  ∀ (a : Analyzer) (pipeline : Pipeline) (r : Report), a.settings = settings →
    (a.run pipeline).outcome = .ok r →
    ∀ b, Enters (a.steps pipeline) b →
      ((a.sessionFor pipeline).bricks.output b).schema = a.bricks.outputSchema b

/-- The hidden brick has no output, and is taken to have any. -/
theorem output_hiddenBrick_ne (settings : Settings) :
    (((silentAnalyzer settings).sessionFor [hidingBrick]).bricks.output hiddenBrick).schema ≠
      (silentAnalyzer settings).bricks.outputSchema hiddenBrick := by
  rw [Analyzer.sessionFor_eq brickIds_hidingBrick, Definitions.schema_output_of_unavailable (e := .notFound "hidden")]
  · exact fun h => by cases h
  · have hn : hiddenBrick.id ∉ [defaultDocumentId] ++ (silentAnalyzer settings).context.readerIds :=
      show hiddenBrick.id ∉ [defaultDocumentId] ++ [] by decide
    rw [Analyzer.session, Definitions.get_resolve, if_neg hn]
    rfl

/-- **Looking up beforehand is enough exactly if documents are minded.** -/
theorem resolution_exact (settings : Settings) :
    (settings.CollectsAll ↔ settings.MindsDocuments) ∧ (settings.ResolvesAll ↔ settings.MindsDocuments) := by
  refine ⟨⟨fun h => ?_, ?_⟩, ⟨fun h => ?_, ?_⟩⟩
  · by_contra hm
    obtain ⟨⟨r, hr⟩, hb⟩ := complete_run_hidingBrick hm
    have hmem := h _ _ r _ rfl hr brickIds_hidingBrick _ hb
    exact absurd hmem (by decide)
  · rintro hm a pipeline r ids rfl hr hids b hb
    exact a.id_mem_of_minds hm hr hids hb
  · by_contra hm
    obtain ⟨⟨r, hr⟩, hb⟩ := complete_run_hidingBrick hm
    exact output_hiddenBrick_ne settings (h _ _ r rfl hr _ hb)
  · rintro hm a pipeline r rfl hr b hb
    obtain ⟨⟨ids, hids⟩, -, -⟩ := Analyzer.run_eq_ok_iff.1 hr
    exact Definitions.schema_output (Analyzer.get_of_mem hids (Analyzer.id_mem_of_minds hm hr hids hb))

/-- With documents of another kind only, the hidden brick is met although it has not been collected, and its output is
not what the registry says. -/
theorem otherDocuments_miss_hiddenBrick : ∃ r,
    ((silentAnalyzer { documentBrickIds := ["other"] }).run [hidingBrick]).outcome = .ok r ∧
    Enters ((silentAnalyzer { documentBrickIds := ["other"] }).steps [hidingBrick]) hiddenBrick ∧
    Pipeline.brickIds [hidingBrick] = .ok [defaultDocumentId] ∧ hiddenBrick.id ∉ [defaultDocumentId] ∧
    (((silentAnalyzer { documentBrickIds := ["other"] }).sessionFor [hidingBrick]).bricks.output hiddenBrick).schema ≠
      (silentAnalyzer { documentBrickIds := ["other"] }).bricks.outputSchema hiddenBrick := by
  have hm : ¬MindsDocuments { documentBrickIds := ["other"] } := by
    rintro (h | ⟨c, h, -⟩)
    · exact absurd h (by decide)
    · exact absurd h (by simp [construct?, Construct.builtin, Construct.binding, defaultDocumentId])
  obtain ⟨⟨r, hr⟩, hb⟩ := complete_run_hidingBrick hm
  exact ⟨r, hr, hb, brickIds_hidingBrick, by decide, output_hiddenBrick_ne _⟩

end Settings

end BrickScope
