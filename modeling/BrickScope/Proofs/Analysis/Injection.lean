import BrickScope.Proofs.Analysis.Descent

/-!
# What nested pipelines inherit

A brick hands its scope down to the pipelines that it holds.  A construct adds the variables that its rule injects into
the pipelines of a property, each under the position of the pipeline; the rows of a list add a variable under their own
position.  Nothing of this is seen by the brick itself, by its siblings, or in its other pipelines.

* `Settings.inject`, `Settings.inherited`: what a pipeline inherits, by the way it is reached;
* `Session.levelScope_eq_inherited`: the walk does so;
* `Session.inward_rootOnly`: below its bricks, a level knows only what the root knows;
* `Analyzer.injection_exact`: what is handed down on a run.
-/

namespace BrickScope

open Position (Below)

/-! ## injected variables -/

namespace Injection

/-- The name that a brick writes for an injected variable: a literal text, blanks at its ends aside, if it is not
blank. -/
def written? (i : Injection) (b : Brick) : Option String :=
  match i.variableKeyProp with
  | none => none
  | some property =>
    match Table.get? b.config property with
    | some (.literal (.string text)) => if Text.trim text = "" then none else some (Text.trim text)
    | _ => none

/-- The injected variable with its sigil. -/
def boundName (i : Injection) (b : Brick) : String := Reference.withSigil ((i.written? b).getD i.defaultVariable)

/-- Add the injected variable to what the pipeline at `p` inherits: it has the shape of its schema, or else it is there
and may have any child. -/
def addTo (i : Injection) (b : Brick) (p : Position) (m : Scope) : Scope :=
  match i.schema with
  | some schema => m.describe p.path schema [i.boundName b] none
  | none => m.setVariable p.path (i.boundName b) .definitely true

theorem name_eq (i : Injection) (b : Brick) : i.name b = (i.written? b).getD i.defaultVariable := by
  unfold name written? nameOr Brick.literalText?
  cases i.variableKeyProp with
  | none => rfl
  | some property =>
    dsimp only [Option.bind_some]
    cases Table.get? b.config property with
    | none => rfl
    | some v =>
      cases v with
      | literal value =>
        cases value with
        | string text =>
          by_cases h : Text.trim text = ""
          · simp [ConfigValue.text?, h]
          · simp [ConfigValue.text?, h]
        | _ => rfl
      | _ => rfl

end Injection

namespace Settings

/-- The injections of the first rule for a brick into the pipelines of a property. -/
def injections (s : Settings) (brickId property : String) : List Injection :=
  match s.constructs.find? fun c => c.brickId = brickId with
  | some c => c.injections.filter fun i => i.pipelineProp = property
  | none => []

/-- The scope `m` with the variables that are injected into the pipeline at `p`, which a property of `b` holds. -/
def inject (s : Settings) (b : Brick) (property : String) (p : Position) (m : Scope) : Scope :=
  (s.injections b.id property).foldl (fun m i => i.addTo b p m) m

/-- What the pipeline at `p` inherits where `m` is seen.  Variables are injected only on a way through objects and lists
from a property that has a name. -/
def inherited (s : Settings) (b : Brick) (p : Position) (m : Scope) : Reach → Scope
  | .plain property => if property = "" then m else s.inject b property p m
  | .deferred => m
  | .element _ _ => m

end Settings

namespace Session

variable (s : Session)

theorem bind_eq_addTo (i : Injection) (b : Brick) (p : Position) (m : Scope) :
    bind p m ⟨Reference.withSigil (i.name b), i.schema⟩ = i.addTo b p m := by
  rw [Injection.name_eq]
  rfl

theorem levelScope_eq_inherited (b : Brick) (reach : Reach) (p : Position) (m : Scope) :
    s.levelScope p (some (reach.owner b)) m = s.settings.inherited b p m reach := by
  cases reach with
  | deferred => rfl
  | element type property =>
    have : s.ownerBindings ((Reach.element type property).owner b) = [] := by
      unfold Reach.owner ownerBindings
      dsimp only
      split
      · rename_i he
        cases he
      · rfl
    simp [levelScope, this, Settings.inherited]
  | plain property =>
    unfold Reach.owner Settings.inherited
    by_cases hp : property = ""
    · subst hp
      rfl
    · have hnamed : named property = some property := by simp [named, hp]
      simp only [levelScope, ownerBindings, hnamed, hp, if_false, Settings.inject, Settings.injections,
        Option.map_some, Option.getD_some, Settings.construct?]
      cases s.settings.constructs.find? fun c => c.brickId = b.id with
      | some c => simp only [Construct.bindings, Construct.injectionsFor, List.foldl_map, bind_eq_addTo]
      | none => rfl

/-! ## the scopes on the way -/

section

variable {s} {depth : Nat} {scope : Scope} {p₀ : Position} {b : Brick} {rows : List Row}

/-- The walk through a nested pipeline is a stretch of the walk through its brick. -/
theorem nestedSteps_within {p : Position} {reach : Reach} {inner : List Brick}
    (hc : (s.sitesSteps depth scope (brickSite s.settings.isDocument p₀ b).inside).Complete)
    (h : Holds s.settings.isDocument p₀ b rows (.value p reach (.pipeline inner))) :
    s.nestedSteps (p.nested ["__value__"]) (depth + 1)
      (s.settings.inherited b (p.nested ["__value__"]) (scopeIn rows scope) reach) inner <:+:
        (s.sitesSteps depth scope (brickSite s.settings.isDocument p₀ b).inside).events := by
  have hsite := h.occurs _ (List.mem_singleton.2 rfl)
  have hin := (sitesSteps_within hsite hc).2
  rw [siteSteps, levelSteps, levelScope_eq_inherited] at hin
  exact hin

/-- The bodies of rows and the other deferred bodies are entered with what is seen there. -/
theorem enterBody_of_row {p : Position} {e : Element} {body : ConfigValue}
    (hc : (s.sitesSteps depth scope (brickSite s.settings.isDocument p₀ b).inside).Complete)
    (h : Holds s.settings.isDocument p₀ b rows (.row p e body)) :
    .enterBody p true (Row.addTo ⟨p, e⟩ (scopeIn rows scope)) ∈
      (s.sitesSteps depth scope (brickSite s.settings.isDocument p₀ b).inside).events := by
  have hsite := h.occurs _ (List.mem_singleton.2 rfl)
  refine (sitesSteps_within hsite hc).2.subset ?_
  rw [siteSteps]
  exact List.mem_cons_self

theorem enterBody_of_deferred {p : Position} {reach : Reach} {body : ConfigValue}
    (hc : (s.sitesSteps depth scope (brickSite s.settings.isDocument p₀ b).inside).Complete)
    (h : Holds s.settings.isDocument p₀ b rows (.value p reach (.deferred body))) :
    .enterBody (p.nested ["__value__"]) false (scopeIn rows scope) ∈
      (s.sitesSteps depth scope (brickSite s.settings.isDocument p₀ b).inside).events := by
  have hsite := h.occurs _ (List.mem_singleton.2 rfl)
  refine (sitesSteps_within hsite hc).2.subset ?_
  rw [siteSteps]
  exact List.mem_cons_self

end

end Session

/-! ## what is not seen -/

theorem Injection.changes_addTo {S : String → Prop} (i : Injection) (b : Brick) {p : Position} (h : S p.path)
    (m : Scope) : m.Changes S (i.addTo b p m) := by
  unfold addTo
  split
  · exact Scope.changes_describe m h _ _ _
  · exact Scope.changes_setVariable m h _ _ _

/-- A pipeline adds to what it inherits under its own position only. -/
theorem Settings.changes_inherited {S : String → Prop} (s : Settings) (b : Brick) {p : Position} (h : S p.path)
    (m : Scope) (reach : Reach) : m.Changes S (s.inherited b p m reach) := by
  cases reach with
  | plain property =>
    rw [inherited]
    split
    · exact .refl m
    · exact Scope.changes_foldl (fun i _ m => i.changes_addTo b h m) m
  | deferred => exact .refl m
  | element type property => exact .refl m

theorem changes_scopeIn {S : String → Prop} {rows : List Row} (h : ∀ r ∈ rows, S r.position.path) (m : Scope) :
    m.Changes S (scopeIn rows m) := by
  induction rows with
  | nil => exact .refl m
  | cons r rows ih =>
    have hrest := ih fun r' hr' => h r' (List.mem_cons_of_mem _ hr')
    exact hrest.trans (Scope.changes_setVariable _ (h r List.mem_cons_self) _ _ _)

/-- What is added on the way from a brick to a nested pipeline. -/
theorem changes_inherited_scopeIn (s : Settings) (b : Brick) (p : Position) (rows : List Row) (m : Scope)
    (reach : Reach) :
    m.Changes (fun k => k = p.path ∨ ∃ r ∈ rows, k = r.position.path) (s.inherited b p (scopeIn rows m) reach) :=
  (changes_scopeIn (fun r hr => .inr ⟨r, hr, rfl⟩) m).trans (s.changes_inherited b (.inl rfl) _ reach)

theorem source?_inherited_scopeIn (s : Settings) (b : Brick) {p : Position} {rows : List Row} (m : Scope)
    (reach : Reach) {k : String} (hp : k ≠ p.path) (hrows : ∀ r ∈ rows, k ≠ r.position.path) :
    (s.inherited b p (scopeIn rows m) reach).source? k = m.source? k := by
  refine (changes_inherited_scopeIn s b p rows m reach).source?_eq ?_
  rintro (he | ⟨r, hr, he⟩)
  · exact hp he
  · exact hrows r hr he

namespace Session

variable (s : Session)

/-- Below the bricks of a level, the level knows what the root knows and nothing else. -/
def RootOnly (root : Scope) (p : Position) (inherited : Scope) : Prop :=
  ∀ i q, Below (p.brick i) q → inherited.source? q.path = root.source? q.path

variable {s}

theorem RootOnly.visible {root inherited : Scope} {p : Position} (h : RootOnly root p inherited)
    (earlier : List Brick) (b : Brick) : RootOnly root p (s.visible inherited p earlier b) := by
  intro i q hq
  have hbricks : ∀ j < earlier.length, q.path ≠ (p.brick j).path := fun j _ => Position.path_ne_of_below hq
  rw [s.source?_visible_of_ne hbricks (Position.path_ne_of_below_brick hq (by simp))]
  exact h i q hq

/-- What is added on the way to a nested pipeline stands under positions above its bricks. -/
theorem inward_rootOnly (root : Scope) : s.Inward (RootOnly root) := by
  intro p inherited hp earlier b rows q reach inner hh i r hr
  have hlevel : Below (p.brick earlier.length) (q.nested ["__value__"]) := hh.stands_below.1.nested _
  have hin : Below (q.nested ["__value__"]) r :=
    (Position.below_nested (Position.toString_ne_empty i) []).trans hr
  have hne : r.path ≠ (q.nested ["__value__"]).path :=
    Position.path_ne_of_below_self (Position.path_ne_empty_of_below hlevel) hin
  have hrows : ∀ row ∈ rows, r.path ≠ row.position.path := by
    intro row hrow
    obtain ⟨steps, hsteps⟩ := hh.stands_in_rows row hrow
    have hrow' := Position.path_ne_empty_of_below (hh.stands_below.2 row hrow)
    have hbelow : Below row.position (q.nested ["__value__"]) := by
      rw [show q = row.position.nested steps from hsteps, Position.nested_nested]
      exact Position.below_nested_concat (by decide) steps
    exact Position.path_ne_of_below_self hrow' (hbelow.trans hin)
  rw [levelScope_eq_inherited, source?_inherited_scopeIn _ _ _ _ hne hrows]
  exact hp.visible earlier b _ r (hlevel.trans hin)

/-- What a brick at `p₀` hands down that sees `scope`, stands in the level `l`, and inside of which the steps `inside`
are taken. -/
structure HandsDown (s : Session) (root : Scope) (l : OpenLevel) (p₀ : Position) (b : Brick) (scope : Scope)
    (depth : Nat) (inside : List Step) : Prop where
  /-- Its pipelines inherit what is seen around them, with what is injected into them. -/
  pipeline {rows : List Row} {p : Position} {reach : Reach} {inner : List Brick} :
    Holds s.settings.isDocument p₀ b rows (.value p reach (.pipeline inner)) →
    s.nestedSteps (p.nested ["__value__"]) (depth + 1)
      (s.settings.inherited b (p.nested ["__value__"]) (scopeIn rows scope) reach) inner <:+: inside
  /-- Around a pipeline that is reached through objects and lists, that is what the brick sees. -/
  plain {rows : List Row} {p : Position} {property : String} {inner : List Brick} :
    Holds s.settings.isDocument p₀ b rows (.value p (.plain property) (.pipeline inner)) → scopeIn rows scope = scope
  /-- The body of a row sees what is seen around it, and the variable of the row. -/
  row {rows : List Row} {p : Position} {e : Element} {body : ConfigValue} :
    Holds s.settings.isDocument p₀ b rows (.row p e body) →
    .enterBody p true ((scopeIn rows scope).setVariable p.path e.rowName .definitely true) ∈ inside
  /-- Any other deferred body sees what is seen around it. -/
  body {rows : List Row} {p : Position} {reach : Reach} {body : ConfigValue} :
    Holds s.settings.isDocument p₀ b rows (.value p reach (.deferred body)) →
    .enterBody (p.nested ["__value__"]) false (scopeIn rows scope) ∈ inside
  /-- The brick sees nothing of what it or a sibling hands down: all of that stands below a brick of the level. -/
  alone {i : Nat} {q : Position} : Below (l.position.brick i) q → scope.source? q.path = root.source? q.path
  /-- Nor is it seen in a pipeline of the brick, if it is not handed down there. -/
  apart {rows : List Row} {p : Position} {reach : Reach} {inner : List Brick} {i : Nat} {q : Position} :
    Holds s.settings.isDocument p₀ b rows (.value p reach (.pipeline inner)) → Below (l.position.brick i) q →
    q.path ≠ (p.nested ["__value__"]).path → (∀ r ∈ rows, q.path ≠ r.position.path) →
    (s.settings.inherited b (p.nested ["__value__"]) (scopeIn rows scope) reach).source? q.path = root.source? q.path

end Session

/-! ## runs -/

theorem Analyzer.rootOnly_inherited {a : Analyzer} {pipeline : Pipeline} {before after : List Step}
    (hs : a.steps pipeline = before ++ after) {l : OpenLevel} {outer : List OpenLevel}
    (hl : openLevels before = l :: outer) :
    Session.RootOnly (a.rootScope (a.sessionFor pipeline)) l.position l.inherited :=
  openLevels_of_inward (Session.inward_rootOnly _) (fun _ _ _ => rfl) hs (hl ▸ List.mem_cons_self)

/-- **What is handed down.**  On a run with a report, behind each brick that is entered come the steps inside of it, and
the brick hands its scope down as its construct says: to each pipeline in the properties of its configuration with the
variables that are injected there, to each pipeline in a deferred body or a document element without any, to each row of
a list with the variable of the row.  Nothing of this is seen by the brick itself, by a sibling, or in another pipeline
of the brick. -/
theorem Analyzer.injection_exact {a : Analyzer} {pipeline : Pipeline} {r : Report}
    (h : (a.run pipeline).outcome = .ok r) (before after : List Step) (p₀ : Position) (b : Brick) (scope : Scope)
    (hs : a.steps pipeline = before ++ .enterBrick p₀ b scope :: after) :
    ∃ (depth : Nat) (inside rest : List Step) (product : Option Product) (l : OpenLevel) (outer : List OpenLevel),
      after = inside ++ .leaveBrick p₀ product :: rest ∧
      inside = ((a.sessionFor pipeline).sitesSteps depth scope (brickSite a.settings.isDocument p₀ b).inside).events ∧
      openLevels before = l :: outer ∧ p₀ = l.position.brick l.bricks.length ∧
      (a.sessionFor pipeline).HandsDown (a.rootScope (a.sessionFor pipeline)) l p₀ b scope depth inside := by
  obtain ⟨-, hcomplete, -⟩ := Analyzer.run_eq_ok_iff.1 h
  obtain ⟨depth, product, rest, hc, hafter⟩ := a.looksInto_walk pipeline hcomplete _ _ _ _ _ hs
  obtain ⟨l, outer, hl, hp, hscope⟩ := exists_level_of_enter hs
  have halone : Session.RootOnly (a.rootScope (a.sessionFor pipeline)) l.position scope := by
    rw [hscope]
    exact (rootOnly_inherited hs hl).visible l.bricks b
  refine ⟨depth, _, rest, product, l, outer, hafter, rfl, hl, hp, ?_⟩
  refine ⟨Session.nestedSteps_within hc, ?_, Session.enterBody_of_row hc, Session.enterBody_of_deferred hc,
    fun hq => halone _ _ hq, ?_⟩
  · intro rows p property inner hh
    rw [hh.rows_of_plain, scopeIn_nil]
  · intro rows p reach inner i q _ hq hne hrows
    rw [source?_inherited_scopeIn _ _ _ _ hne hrows]
    exact halone i q hq

/-- The body of the loop inherits what the loop sees, and its element. -/
theorem injection_exact_loop : ∃ r before after p b scope depth inside l,
    (plainAnalyzer.run loopPipeline).outcome = .ok r ∧
    plainAnalyzer.steps loopPipeline = before ++ .enterBrick p b scope :: after ∧ b.id = "@pixiebrix/for-each" ∧
    inside <+: after ∧
    (plainAnalyzer.sessionFor loopPipeline).HandsDown (plainAnalyzer.rootScope (plainAnalyzer.sessionFor loopPipeline)) l
      p b scope depth inside ∧
    (plainAnalyzer.sessionFor loopPipeline).nestedSteps (p.nested ["config", "body", "__value__"]) (depth + 1)
      (scope.setVariable (p.nested ["config", "body", "__value__"]).path "@element" .definitely true)
      [{ id := "print", outputKey := some "line" }] <:+: inside := by
  obtain ⟨depth, inside, rest, product, l, outer, hafter, -, -, -, hdown⟩ :=
    Analyzer.injection_exact run_loopPipeline ((plainAnalyzer.steps loopPipeline).take 3)
      ((plainAnalyzer.steps loopPipeline).drop 4) _ _ _ rfl
  refine ⟨_, (plainAnalyzer.steps loopPipeline).take 3, (plainAnalyzer.steps loopPipeline).drop 4, _, _, _, depth,
    inside, l, run_loopPipeline, rfl, rfl, ⟨_, hafter.symm⟩, hdown, ?_⟩
  have hbody := hdown.pipeline (.config List.mem_cons_self (by decide))
  rw [Position.nested_nested] at hbody
  exact hbody

/-! ## the property without a name -/

/-- A rule that would inject a variable into the pipeline of the property without a name. -/
def unnamedAnalyzer : Analyzer :=
  { plainAnalyzer with settings := { constructs := [⟨"loop", [], [⟨"", none, "element", none⟩]⟩] } }

def unnamedLoop : Brick := { id := "loop", config := [("", .pipeline [{ id := "print" }])] }

theorem steps_unnamedLoop {s : Session} (h : s.settings = unnamedAnalyzer.settings) (root : Scope) :
    s.steps root [unnamedLoop] = ⟨[.openLevel ⟨"pipeline"⟩ 1 root, .enterBrick ⟨"pipeline.0"⟩ unnamedLoop root,
      .openLevel ⟨"pipeline.0.config.__value__"⟩ 2 root,
      .enterBrick ⟨"pipeline.0.config.__value__.0"⟩ { id := "print" } root,
      .leaveBrick ⟨"pipeline.0.config.__value__.0"⟩ none, .closeLevel ⟨"pipeline.0.config.__value__"⟩ 2,
      .leaveBrick ⟨"pipeline.0"⟩ none, .closeLevel ⟨"pipeline"⟩ 1], none⟩ := by
  obtain ⟨context, settings, bricks⟩ := s
  obtain rfl : settings = unnamedAnalyzer.settings := h
  rfl

/-- A run on which the pipeline of the property without a name inherits what the loop sees, and not the variable that
the rule injects for the property. -/
theorem unnamed_property_gets_no_injection : ∃ r scope inner,
    (unnamedAnalyzer.run [unnamedLoop]).outcome = .ok r ∧
    Holds unnamedAnalyzer.settings.isDocument ⟨"pipeline.0"⟩ unnamedLoop []
      (.value ⟨"pipeline.0.config"⟩ (.plain "") (.pipeline inner)) ∧
    .enterBrick ⟨"pipeline.0"⟩ unnamedLoop scope ∈ unnamedAnalyzer.steps [unnamedLoop] ∧
    (∀ q m, .openLevel q 2 m ∈ unnamedAnalyzer.steps [unnamedLoop] →
      q = ⟨"pipeline.0.config.__value__"⟩ ∧ m = scope ∧ m.defines "@element" = false) ∧
    (unnamedAnalyzer.settings.inject unnamedLoop "" ⟨"pipeline.0.config.__value__"⟩ scope).defines "@element" =
      true := by
  set root := unnamedAnalyzer.rootScope (unnamedAnalyzer.sessionFor [unnamedLoop])
  have hwalk : unnamedAnalyzer.walk [unnamedLoop] = _ := steps_unnamedLoop rfl root
  have hdefines : root.defines "@element" = false := by decide +kernel
  have hinjected : (unnamedAnalyzer.settings.inject unnamedLoop "" ⟨"pipeline.0.config.__value__"⟩ root).defines
      "@element" = true := by decide +kernel
  have hholds : Holds unnamedAnalyzer.settings.isDocument ⟨"pipeline.0"⟩ unnamedLoop []
      (.value (Position.nested ⟨"pipeline.0"⟩ ["config", ""]) (.plain "") (.pipeline [{ id := "print" }])) :=
    .config List.mem_cons_self (by decide)
  refine ⟨_, root, _, Analyzer.run_eq_ok_iff.2 ⟨⟨["loop", "print"], rfl⟩, by rw [hwalk]; rfl, rfl⟩, hholds, ?_, ?_,
    hinjected⟩
  · rw [Analyzer.steps, hwalk]
    simp
  · intro q m hm
    rw [Analyzer.steps, hwalk] at hm
    simp only [List.mem_cons, Step.openLevel.injEq, reduceCtorEq, OfNat.ofNat_ne_one, false_and, and_false, false_or,
      List.not_mem_nil, or_false, true_and] at hm
    obtain ⟨rfl, rfl⟩ := hm
    exact ⟨rfl, rfl, hdefines⟩

end BrickScope
