import BrickScope.Proofs.Analysis.Resolution
import BrickScope.Proofs.Pipeline.Swap

/-!
# Nested pipelines do not leak

Two runs whose pipelines differ only in the bricks of a nested pipeline take the same steps outside of it: the same
scopes are seen there, and the author is told the same.

* `SameOutside`: the steps of two runs, compared outside of a nested pipeline;
* `TwoRuns.brickSites_agree`: two runs through bricks that differ only there;
* `Analyzer.isolated`: nothing gets out of a nested pipeline.
-/

namespace BrickScope

/-! ## steps outside of a nested pipeline -/

namespace Step

/-- A step with nothing of a brick but its id. -/
def view : Step → Step
  | enterBrick p b scope => enterBrick p { id := b.id } scope
  | step => step

/-- The same happens at the same position and with the same scope, and the author is told the same. -/
def Same (settings : Settings) (x y : Step) : Prop :=
  x.view = y.view ∧ x.annotations settings = y.annotations settings

theorem Same.refl (settings : Settings) (x : Step) : x.Same settings x := ⟨rfl, rfl⟩

theorem same_enterBrick (settings : Settings) (p : Position) {b b' : Brick} (h : b.id = b'.id) (scope : Scope) :
    (enterBrick p b scope).Same settings (enterBrick p b' scope) := by
  refine ⟨?_, rfl⟩
  rw [view, view, h]

end Step

/-- The steps of a nested pipeline that inherits the given scope. -/
def Session.nestedSteps (s : Session) (p : Position) (depth : Nat) (inherited : Scope) (bricks : List Brick) :
    List Step :=
  .openLevel p depth inherited ::
    (s.bricksSteps depth inherited .empty (brickSites s.settings.isDocument p 0 bricks)).events ++ [.closeLevel p depth]

/-- The steps of two sessions are the same, except that the second goes through `others` where the first goes through
`bricks`: at the same position, and inheriting the same scope. -/
inductive SameOutside (s s' : Session) (bricks others : List Brick) : List Step → List Step → Prop
  | nil : SameOutside s s' bricks others [] []
  | step {x y : Step} {xs ys : List Step} (hxy : x.Same s.settings y) (h : SameOutside s s' bricks others xs ys) :
    SameOutside s s' bricks others (x :: xs) (y :: ys)
  | nested (p : Position) (depth : Nat) (inherited : Scope) {xs ys : List Step}
    (h : SameOutside s s' bricks others xs ys) :
    SameOutside s s' bricks others (s.nestedSteps p depth inherited bricks ++ xs)
      (s'.nestedSteps p depth inherited others ++ ys)

theorem SameOutside.append {s s' : Session} {bricks others : List Brick} {xs ys xs' ys' : List Step}
    (h : SameOutside s s' bricks others xs ys) (h' : SameOutside s s' bricks others xs' ys') :
    SameOutside s s' bricks others (xs ++ xs') (ys ++ ys') := by
  induction h with
  | nil => exact h'
  | step hxy _ ih => exact .step hxy ih
  | nested p depth inherited _ ih =>
    rw [List.append_assoc, List.append_assoc]
    exact .nested p depth inherited ih

/-! ## parts of a walk -/

theorem brickSite_position (documents : String → Bool) (p : Position) (b : Brick) :
    (brickSite documents p b).position = p := by
  cases b
  rfl

theorem brickSite_brick (documents : String → Bool) (p : Position) (b : Brick) :
    (brickSite documents p b).brick = b := by
  cases b
  rfl

namespace Session

variable {s : Session} {depth : Nat} {active inherited outputs : Scope} {p : Position} {b : Brick} {isDocument : Bool}
  {inside : List Site}

theorem sitesSteps_append (xs ys : List Site) :
    s.sitesSteps depth active (xs ++ ys) = s.sitesSteps depth active xs ++ s.sitesSteps depth active ys := by
  induction xs with
  | nil => exact (Walk.empty_append _).symm
  | cons x xs ih => rw [List.cons_append, sitesSteps, sitesSteps, ih, Walk.append_assoc]

theorem sitesSteps_singleton (site : Site) : s.sitesSteps depth active [site] = s.siteSteps depth active site := by
  rw [sitesSteps]
  exact Walk.append_empty _

theorem enters_brickSteps : Enters (s.brickSteps depth inherited outputs ⟨p, b, isDocument, inside⟩).events b := by
  rw [brickSteps]
  exact ⟨_, _, List.mem_cons_self⟩

theorem brickSteps_of_complete (h : (s.brickSteps depth inherited outputs ⟨p, b, isDocument, inside⟩).Complete) :
    s.brickSteps depth inherited outputs ⟨p, b, isDocument, inside⟩ =
      .bracket (.enterBrick p b (s.brickScope inherited outputs b))
        (s.sitesSteps depth (s.brickScope inherited outputs b) inside) (.leaveBrick p (s.product? b)) := by
  rw [brickSteps] at h ⊢
  cases hv : s.violation? p b with
  | some v =>
    rw [hv] at h
    cases h
  | none =>
    rw [hv] at h
    have hf : (s.sitesSteps depth (s.brickScope inherited outputs b) inside).failure = none := h
    simp only [hf, Option.isNone_none, if_true]

end Session

/-! ## walks that agree -/

/-- Two sessions that differ only in what has been looked up.  In both, a brick whose output is known has one that
depends only on its id. -/
structure TwoRuns where
  left : Session
  right : Session
  /-- The bricks of a nested pipeline on the left, and those that take their place on the right. -/
  bricks : List Brick
  others : List Brick
  output : Brick → Output
  context_eq : left.context = right.context
  settings_eq : left.settings = right.settings
  output_eq : ∀ {b b' : Brick}, b.id = b'.id → output b = output b'

namespace TwoRuns

variable (t : TwoRuns)

def documents : String → Bool := t.left.settings.isDocument

/-- If two walks come to their ends, and the outputs of the bricks on the way are known, then their steps are the same
outside of the nested pipeline. -/
def Agree (w w' : Walk Step) : Prop :=
  w.Complete → w'.Complete → (∀ b, Enters w.events b → t.left.bricks.output b = t.output b) →
    (∀ b, Enters w'.events b → t.right.bricks.output b = t.output b) →
    SameOutside t.left t.right t.bricks t.others w.events w'.events

section

variable {t} {w w' v v' : Walk Step}

theorem agree_empty : t.Agree {} {} := fun _ _ _ _ => .nil

theorem agree_of_not_complete (h : ¬w.Complete) : t.Agree w w' := fun hw => absurd hw h

theorem Agree.append (h : t.Agree w w') (h' : t.Agree v v') : t.Agree (w ++ v) (w' ++ v') := by
  intro hc hc' ho ho'
  obtain ⟨hw, hv⟩ := Walk.complete_append.1 hc
  obtain ⟨hw', hv'⟩ := Walk.complete_append.1 hc'
  rw [Walk.events_append hw] at ho ⊢
  rw [Walk.events_append hw'] at ho' ⊢
  refine (h hw hw' ?_ ?_).append (h' hv hv' ?_ ?_)
  · exact fun b hb => ho b (hb.mono (List.subset_append_left _ _))
  · exact fun b hb => ho' b (hb.mono (List.subset_append_left _ _))
  · exact fun b hb => ho b (hb.mono (List.subset_append_right _ _))
  · exact fun b hb => ho' b (hb.mono (List.subset_append_right _ _))

theorem Agree.bracket {first first' last last' : Step} (h : t.Agree w w') (hf : first.Same t.left.settings first')
    (hl : last.Same t.left.settings last') : t.Agree (.bracket first w last) (.bracket first' w' last') := by
  intro hc hc' ho ho'
  rw [Walk.events_bracket] at ho ho' ⊢
  refine .step hf ((h hc hc' ?_ ?_).append (.step hl .nil))
  · exact fun b hb => ho b (hb.mono (List.subset_cons_of_subset _ (List.subset_append_left _ _)))
  · exact fun b hb => ho' b (hb.mono (List.subset_cons_of_subset _ (List.subset_append_left _ _)))

theorem agree_check (p : Position) (e : Expression) (scope : Scope) :
    t.Agree ⟨[.check p e scope], none⟩ ⟨[.check p e scope], none⟩ :=
  fun _ _ _ _ => .step (.refl _ _) .nil

theorem agree_violation {depth : Nat} {active : Scope} {x : Violation} :
    t.Agree (t.left.sitesSteps depth active [.violation x]) w' :=
  agree_of_not_complete fun h => by
    rw [Session.sitesSteps_singleton] at h
    cases h

end

/-! ## the same scopes -/

variable {t} {b b' : Brick}

theorem levelScope_eq (hb : b.Alike b') (p : Position) (property elementType : Option String) (active : Scope) :
    t.left.levelScope p (some ⟨b, property, elementType⟩) active =
      t.right.levelScope p (some ⟨b', property, elementType⟩) active := by
  have hname : ∀ i : Injection, i.name b = i.name b' := by
    intro i
    rw [Injection.name, Injection.name, funext hb.text]
  simp only [Session.levelScope, Session.ownerBindings, Construct.bindings, Option.map_some, Option.getD_some, hname,
    hb.id, t.settings_eq]

theorem bodyScope_eq {e e' : Element} (he : ElementSwap t.bricks t.others e e') (p : Position) (active : Scope) :
    Session.bodyScope p (some e) active = Session.bodyScope p (some e') active := by
  rw [Session.bodyScope, Session.bodyScope, he.rowName]

theorem brickScope_eq (hb : BrickSwap t.bricks t.others b b') (inherited outputs : Scope) :
    t.left.brickScope inherited outputs b = t.right.brickScope inherited outputs b' := by
  rw [Session.brickScope, Session.brickScope, hb.instanceId, t.context_eq]

theorem product?_eq (hb : BrickSwap t.bricks t.others b b') (h : t.left.bricks.output b = t.output b)
    (h' : t.right.bricks.output b' = t.output b') : t.left.product? b = t.right.product? b' := by
  rw [Session.product?, Session.product?, hb.outputVariable?, hb.isConditional, hb.alike.id, h, h',
    t.output_eq hb.alike.id]

/-! ## bricks and levels -/

section

variable {depth : Nat} {active inherited outputs : Scope} {p : Position} {isDocument isDocument' : Bool}
  {inside inside' : List Site}

theorem agree_brick (hb : BrickSwap t.bricks t.others b b')
    (h : ∀ scope, t.Agree (t.left.sitesSteps depth scope inside) (t.right.sitesSteps depth scope inside')) :
    t.Agree (t.left.brickSteps depth inherited outputs ⟨p, b, isDocument, inside⟩)
      (t.right.brickSteps depth inherited outputs ⟨p, b', isDocument', inside'⟩) := by
  intro hc hc' ho ho'
  have hproduct := product?_eq hb (ho b Session.enters_brickSteps) (ho' b' Session.enters_brickSteps)
  -- on the right, scope and product can be written as on the left
  have hright := Session.brickSteps_of_complete hc'
  rw [← brickScope_eq hb, ← hproduct] at hright
  have hwalk : t.Agree (t.left.brickSteps depth inherited outputs ⟨p, b, isDocument, inside⟩)
      (t.right.brickSteps depth inherited outputs ⟨p, b', isDocument', inside'⟩) := by
    rw [Session.brickSteps_of_complete hc, hright]
    exact (h _).bracket (Step.same_enterBrick _ _ hb.alike.id _) (.refl _ _)
  exact hwalk hc hc' ho ho'

theorem agree_bricks {site site' : BrickSite} {sites sites' : List BrickSite}
    (hp : site.position = site'.position) (hb : BrickSwap t.bricks t.others site.brick site'.brick)
    (h : t.Agree (t.left.brickSteps depth inherited outputs site) (t.right.brickSteps depth inherited outputs site'))
    (hs : ∀ outputs, t.Agree (t.left.bricksSteps depth inherited outputs sites)
      (t.right.bricksSteps depth inherited outputs sites')) :
    t.Agree (t.left.bricksSteps depth inherited outputs (site :: sites))
      (t.right.bricksSteps depth inherited outputs (site' :: sites')) := by
  obtain ⟨p, b, isDocument, inside⟩ := site
  obtain ⟨p', b', isDocument', inside'⟩ := site'
  intro hc hc' ho ho'
  rw [Session.bricksSteps] at hc hc' ho ho' ⊢
  rw [Session.bricksSteps]
  -- the outputs that the bricks behind see are the same
  have hproduct : t.left.product? b = t.right.product? b' := by
    have hw := (Walk.complete_append.1 hc).1
    have hw' := (Walk.complete_append.1 hc').1
    refine product?_eq hb (ho b ?_) (ho' b' ?_)
    · rw [Walk.events_append hw]
      exact Session.enters_brickSteps.mono (List.subset_append_left _ _)
    · rw [Walk.events_append hw']
      exact Session.enters_brickSteps.mono (List.subset_append_left _ _)
  have hadd : t.left.addProduct p b outputs = t.right.addProduct p' b' outputs := by
    rw [Session.addProduct, Session.addProduct, hproduct, show p = p' from hp]
  refine h.append ?_ hc hc' ho ho'
  rw [hadd]
  exact hs _

theorem agree_level {sites sites' : List BrickSite} (hb : b.Alike b') (property elementType : Option String)
    (h : ∀ inherited, t.Agree (t.left.bricksSteps (depth + 1) inherited .empty sites)
      (t.right.bricksSteps (depth + 1) inherited .empty sites')) :
    t.Agree (t.left.levelSteps depth active ⟨p, some ⟨b, property, elementType⟩, sites⟩)
      (t.right.levelSteps depth active ⟨p, some ⟨b', property, elementType⟩, sites'⟩) := by
  rw [Session.levelSteps, Session.levelSteps, levelScope_eq hb]
  exact (h _).bracket (.refl _ _) (.refl _ _)

/-- Here the bricks are not the same. -/
theorem agree_swap (hb : b.Alike b') (property elementType : Option String) :
    t.Agree
      (t.left.levelSteps depth active
        ⟨p, some ⟨b, property, elementType⟩, brickSites t.documents p 0 t.bricks⟩)
      (t.right.levelSteps depth active
        ⟨p, some ⟨b', property, elementType⟩, brickSites t.documents p 0 t.others⟩) := by
  intro hc hc' ho ho'
  have h : ∀ inherited, SameOutside t.left t.right t.bricks t.others
      (t.left.nestedSteps p (depth + 1) inherited t.bricks ++ [])
      (t.right.nestedSteps p (depth + 1) inherited t.others ++ []) := fun inherited => .nested p _ inherited .nil
  simp only [List.append_nil, Session.nestedSteps, ← t.settings_eq] at h
  rw [Session.levelSteps, Session.levelSteps, levelScope_eq hb]
  exact h _

end

/-! ## values, elements and bricks -/

mutual

theorem valueSites_agree {b b' : Brick} (hb : b.Alike b') (depth : Nat) (active : Scope) (p : Position)
    (property elementType : Option String) :
    ∀ v v', ValueSwap t.bricks t.others v v' →
      t.Agree (t.left.sitesSteps depth active (valueSites t.documents p ⟨b, property, elementType⟩ v))
        (t.right.sitesSteps depth active (valueSites t.documents p ⟨b', property, elementType⟩ v'))
  | .literal _, _, h => by
    cases h
    exact agree_empty
  | .object members, _, h => by
    cases h with
    | object h => exact memberSites_agree hb depth active p property elementType members _ h
  | .array items, _, h => by
    cases h with
    | array h => exact itemSites_agree hb depth active p property elementType 0 items _ h
  | .expression e, _, h => by
    cases h
    exact agree_check p e active
  | .pipeline bricks, _, h => by
    cases h with
    | swap =>
      rw [valueSites, valueSites, Session.sitesSteps_singleton, Session.sitesSteps_singleton, Session.siteSteps,
        Session.siteSteps]
      exact agree_swap hb property elementType
    | pipeline h =>
      rw [valueSites, valueSites, Session.sitesSteps_singleton, Session.sitesSteps_singleton, Session.siteSteps,
        Session.siteSteps]
      exact agree_level hb property elementType fun inherited =>
        brickSites_agree (depth + 1) inherited _ 0 .empty bricks _ h
  | .deferred body, _, h => by
    cases h with
    | deferred h =>
      rw [valueSites, valueSites, Session.sitesSteps_singleton, Session.sitesSteps_singleton, Session.siteSteps,
        Session.siteSteps]
      exact (valueSites_agree hb depth active _ none none body _ h).bracket (.refl _ _) (.refl _ _)
termination_by structural v => v

theorem memberSites_agree {b b' : Brick} (hb : b.Alike b') (depth : Nat) (active : Scope) (p : Position)
    (property elementType : Option String) :
    ∀ members members', MembersSwap t.bricks t.others members members' →
      t.Agree (t.left.sitesSteps depth active (memberSites t.documents p ⟨b, property, elementType⟩ members))
        (t.right.sitesSteps depth active (memberSites t.documents p ⟨b', property, elementType⟩ members'))
  | [], _, h => by
    cases h
    exact agree_empty
  | (_, v) :: members, _, h => by
    cases h with
    | cons hv h =>
      rw [memberSites, memberSites, Session.sitesSteps_append, Session.sitesSteps_append]
      exact (valueSites_agree hb depth active _ property elementType v _ hv).append
        (memberSites_agree hb depth active p property elementType members _ h)
termination_by structural v => v

theorem itemSites_agree {b b' : Brick} (hb : b.Alike b') (depth : Nat) (active : Scope) (p : Position)
    (property elementType : Option String) (index : Nat) :
    ∀ items items', ItemsSwap t.bricks t.others items items' →
      t.Agree (t.left.sitesSteps depth active (itemSites t.documents p ⟨b, property, elementType⟩ index items))
        (t.right.sitesSteps depth active (itemSites t.documents p ⟨b', property, elementType⟩ index items'))
  | [], _, h => by
    cases h
    exact agree_empty
  | v :: items, _, h => by
    cases h with
    | cons hv h =>
      rw [itemSites, itemSites, Session.sitesSteps_append, Session.sitesSteps_append]
      exact (valueSites_agree hb depth active _ property elementType v _ hv).append
        (itemSites_agree hb depth active p property elementType (index + 1) items _ h)
termination_by structural v => v

theorem brickSites_agree (depth : Nat) (inherited : Scope) (p : Position) (index : Nat) (outputs : Scope) :
    ∀ inner inner', BricksSwap t.bricks t.others inner inner' →
      t.Agree (t.left.bricksSteps depth inherited outputs (brickSites t.documents p index inner))
        (t.right.bricksSteps depth inherited outputs (brickSites t.documents p index inner'))
  | [], _, h => by
    cases h
    exact agree_empty
  | b :: inner, _, h => by
    cases h with
    | cons hb h =>
      rw [brickSites, brickSites]
      refine agree_bricks ?_ ?_ (brickSite_agree depth inherited outputs _ b _ hb) fun outputs =>
        brickSites_agree depth inherited p (index + 1) outputs inner _ h
      · rw [brickSite_position, brickSite_position]
      · rw [brickSite_brick, brickSite_brick]
        exact hb
termination_by structural v => v

theorem brickSite_agree (depth : Nat) (inherited outputs : Scope) (p : Position) :
    ∀ b b', BrickSwap t.bricks t.others b b' →
      t.Agree (t.left.brickSteps depth inherited outputs (brickSite t.documents p b))
        (t.right.brickSteps depth inherited outputs (brickSite t.documents p b'))
  | ⟨id, instanceId, label, config, outputKey, condition⟩, _, h => by
    cases h with
    | @mk _ _ _ _ _ config' _ condition' hc hg =>
      have hswap : BrickSwap t.bricks t.others ⟨id, instanceId, label, config, outputKey, condition⟩
        ⟨id, instanceId, label, config', outputKey, condition'⟩ := .mk hc hg
      rw [brickSite, brickSite]
      refine agree_brick hswap fun scope => ?_
      rw [Session.sitesSteps_append, Session.sitesSteps_append]
      exact (guardSites_agree hswap.alike depth scope p condition _ hg).append
        (configSites_agree hswap.alike depth scope p config _ hc)
termination_by structural v => v

theorem guardSites_agree {b b' : Brick} (hb : b.Alike b') (depth : Nat) (active : Scope) (p : Position) :
    ∀ condition condition', MaybeSwap t.bricks t.others condition condition' →
      t.Agree (t.left.sitesSteps depth active (guardSites t.documents p b condition))
        (t.right.sitesSteps depth active (guardSites t.documents p b' condition'))
  | none, _, h => by
    cases h
    exact agree_empty
  | some v, _, h => by
    cases h with
    | some h => exact valueSites_agree hb depth active _ _ none v _ h
termination_by structural v => v

theorem configSites_agree {b b' : Brick} (hb : b.Alike b') (depth : Nat) (active : Scope) (p : Position) :
    ∀ members members', MembersSwap t.bricks t.others members members' →
      t.Agree (t.left.sitesSteps depth active (configSites t.documents p b members))
        (t.right.sitesSteps depth active (configSites t.documents p b' members'))
  | [], _, h => by
    cases h
    exact agree_empty
  | (name, v) :: members, _, h => by
    cases h with
    | cons hv h =>
      rw [configSites, configSites, Session.sitesSteps_append, Session.sitesSteps_append, hb.id]
      refine Agree.append ?_ (configSites_agree hb depth active p members _ h)
      split
      · rw [Session.sitesSteps_singleton, Session.sitesSteps_singleton, Session.siteSteps, Session.siteSteps]
        exact bodySites_agree hb depth active p v _ hv
      · exact valueSites_agree hb depth active _ _ none v _ hv
termination_by structural v => v

theorem bodySites_agree {b b' : Brick} (hb : b.Alike b') (depth : Nat) (active : Scope) (p : Position) :
    ∀ v v', ValueSwap t.bricks t.others v v' →
      t.Agree (t.left.sitesSteps depth active (bodySites t.documents p b v))
        (t.right.sitesSteps depth active (bodySites t.documents p b' v'))
  | .array items, _, h => by
    cases h with
    | array h => exact elementSites_agree hb depth active _ 0 items _ h
  | .literal _, _, _ | .object _, _, _ | .expression _, _, _ | .pipeline _, _, _ | .deferred _, _, _ => agree_violation
termination_by structural v => v

theorem elementSites_agree {b b' : Brick} (hb : b.Alike b') (depth : Nat) (active : Scope) (p : Position)
    (index : Nat) :
    ∀ items items', ItemsSwap t.bricks t.others items items' →
      t.Agree (t.left.sitesSteps depth active (elementSites t.documents p b index items))
        (t.right.sitesSteps depth active (elementSites t.documents p b' index items'))
  | [], _, h => by
    cases h
    exact agree_empty
  | v :: items, _, h => by
    cases h with
    | cons hv h =>
      rw [elementSites, elementSites, Session.sitesSteps, Session.sitesSteps]
      exact (elementSite_agree hb depth active _ v _ hv).append
        (elementSites_agree hb depth active p (index + 1) items _ h)
termination_by structural v => v

theorem elementSite_agree {b b' : Brick} (hb : b.Alike b') (depth : Nat) (active : Scope) (p : Position) :
    ∀ v v', ValueSwap t.bricks t.others v v' →
      t.Agree (t.left.siteSteps depth active (elementSite t.documents p b v))
        (t.right.siteSteps depth active (elementSite t.documents p b' v'))
  | .object members, _, h => by
    cases h with
    | object h =>
      rw [elementSite, elementSite]
      rcases h.ofConfig with ⟨rule, he, he'⟩ | ⟨e, e', he, he', hs⟩
      · rw [he, he']
        exact agree_of_not_complete fun h => by cases h
      · rw [he, he']
        dsimp only
        rw [Session.siteSteps, Session.siteSteps, hs.lacksRow]
        split
        · exact agree_violation
        · rw [Session.sitesSteps_append, Session.sitesSteps_append]
          exact (elementConfigSites_agree hb hs depth active p members _ h).append
            (childSites_agree hb depth active p members _ h)
  | .array _, _, _ | .literal _, _, _ | .expression _, _, _ | .pipeline _, _, _ | .deferred _, _, _ =>
    agree_of_not_complete fun h => by cases h
termination_by structural v => v

theorem elementConfigSites_agree {b b' : Brick} (hb : b.Alike b') {e e' : Element}
    (he : ElementSwap t.bricks t.others e e') (depth : Nat) (active : Scope) (p : Position) :
    ∀ members members', MembersSwap t.bricks t.others members members' →
      t.Agree (t.left.sitesSteps depth active (elementConfigSites t.documents p b e members))
        (t.right.sitesSteps depth active (elementConfigSites t.documents p b' e' members'))
  | [], _, h => by
    cases h
    exact agree_empty
  | (_, v) :: members, _, h => by
    cases h with
    | cons hv h =>
      rw [elementConfigSites, elementConfigSites]
      split
      · exact settingSites_agree hb he depth active p v _ hv
      · exact elementConfigSites_agree hb he depth active p members _ h
termination_by structural v => v

theorem settingSites_agree {b b' : Brick} (hb : b.Alike b') {e e' : Element}
    (he : ElementSwap t.bricks t.others e e') (depth : Nat) (active : Scope) (p : Position) :
    ∀ v v', ValueSwap t.bricks t.others v v' →
      t.Agree (t.left.sitesSteps depth active (settingSites t.documents p b e v))
        (t.right.sitesSteps depth active (settingSites t.documents p b' e' v'))
  | .object config, _, h => by
    cases h with
    | object h => exact elementValueSites_agree hb he depth active p config _ h
  | .array _, _, h | .literal _, _, h | .expression _, _, h | .pipeline _, _, h | .deferred _, _, h => by
    cases h <;> exact agree_empty
termination_by structural v => v

theorem elementValueSites_agree {b b' : Brick} (hb : b.Alike b') {e e' : Element}
    (he : ElementSwap t.bricks t.others e e') (depth : Nat) (active : Scope) (p : Position) :
    ∀ members members', MembersSwap t.bricks t.others members members' →
      t.Agree (t.left.sitesSteps depth active (elementValueSites t.documents p b e members))
        (t.right.sitesSteps depth active (elementValueSites t.documents p b' e' members'))
  | [], _, h => by
    cases h
    exact agree_empty
  | (_, v) :: members, _, h => by
    cases h with
    | cons hv h =>
      rw [elementValueSites, elementValueSites, Session.sitesSteps_append, Session.sitesSteps_append, he.isList,
        he.type]
      refine Agree.append ?_ (elementValueSites_agree hb he depth active p members _ h)
      split
      · exact rowSites_agree hb he depth active _ v _ hv
      · exact valueSites_agree hb depth active _ _ _ v _ hv
termination_by structural v => v

theorem rowSites_agree {b b' : Brick} (hb : b.Alike b') {e e' : Element}
    (he : ElementSwap t.bricks t.others e e') (depth : Nat) (active : Scope) (p : Position) :
    ∀ v v', ValueSwap t.bricks t.others v v' →
      t.Agree (t.left.sitesSteps depth active (rowSites t.documents p b e v))
        (t.right.sitesSteps depth active (rowSites t.documents p b' e' v'))
  | .deferred body, _, h => by
    cases h with
    | deferred h =>
      rw [rowSites, rowSites, Session.sitesSteps_singleton, Session.sitesSteps_singleton, Session.siteSteps,
        Session.siteSteps, bodyScope_eq he, Session.sitesSteps_singleton, Session.sitesSteps_singleton]
      exact (elementSite_agree hb depth _ _ body _ h).bracket (.refl _ _) (.refl _ _)
  | .object _, _, h | .array _, _, h | .literal _, _, h | .expression _, _, h | .pipeline _, _, h => by
    cases h <;> exact agree_empty
termination_by structural v => v

theorem childSites_agree {b b' : Brick} (hb : b.Alike b') (depth : Nat) (active : Scope) (p : Position) :
    ∀ members members', MembersSwap t.bricks t.others members members' →
      t.Agree (t.left.sitesSteps depth active (childSites t.documents p b members))
        (t.right.sitesSteps depth active (childSites t.documents p b' members'))
  | [], _, h => by
    cases h
    exact agree_empty
  | (_, v) :: members, _, h => by
    cases h with
    | cons hv h =>
      rw [childSites, childSites]
      split
      · exact childrenSites_agree hb depth active p v _ hv
      · exact childSites_agree hb depth active p members _ h
termination_by structural v => v

theorem childrenSites_agree {b b' : Brick} (hb : b.Alike b') (depth : Nat) (active : Scope) (p : Position) :
    ∀ v v', ValueSwap t.bricks t.others v v' →
      t.Agree (t.left.sitesSteps depth active (childrenSites t.documents p b v))
        (t.right.sitesSteps depth active (childrenSites t.documents p b' v'))
  | .array items, _, h => by
    cases h with
    | array h => exact elementSites_agree hb depth active _ 0 items _ h
  | .object _, _, h | .literal _, _, h | .expression _, _, h | .pipeline _, _, h | .deferred _, _, h => by
    cases h <;> exact agree_empty
termination_by structural v => v

end

end TwoRuns

/-! ## two runs -/

/-- The output of a brick does not depend on how it is configured. -/
def Registry.Fixed (registry : Registry Definition) : Prop :=
  ∀ id definition, registry id = .ok definition → ∀ b b', definition.outputSchema b = definition.outputSchema b'

namespace Definitions

variable {d d' : Definitions}

theorem output_congr {b : Brick} (h : d.get b.id = d'.get b.id) : d.output b = d'.output b := by
  rw [output, output, h]

theorem readers_congr {ids : List String} (h : ∀ id ∈ ids, d.get id = d'.get id) : d.readers ids = d'.readers ids := by
  have hs : d.readerSchemas ids = d'.readerSchemas ids := by
    induction ids with
    | nil => rfl
    | cons id ids ih =>
      have ih := ih fun id' hid' => h id' (List.mem_cons_of_mem _ hid')
      unfold readerSchemas at ih ⊢
      rw [List.mapM_cons, List.mapM_cons, h id List.mem_cons_self, ih]
  rw [readers, readers, hs]

end Definitions

/-- The output that a brick has if it is looked up. -/
def Registry.output (registry : Registry Definition) (b : Brick) : Output :=
  (Definitions.resolve registry [b.id]).output b

theorem Registry.Fixed.output_eq {registry : Registry Definition} (h : registry.Fixed) {b b' : Brick}
    (hid : b.id = b'.id) : registry.output b = registry.output b' := by
  unfold Registry.output Definitions.output
  rw [hid]
  cases hg : (Definitions.resolve registry [b'.id]).get b'.id with
  | error e => rfl
  | ok definition =>
    rw [Definitions.get_resolve, if_pos List.mem_cons_self] at hg
    dsimp only
    rw [h _ _ hg b b']

namespace Analyzer

variable {a : Analyzer}

/-- The readers are looked up in every run. -/
theorem rootScope_eq (a : Analyzer) (pipeline pipeline' : Pipeline) :
    a.rootScope (a.sessionFor pipeline) = a.rootScope (a.sessionFor pipeline') := by
  have hreaders : (a.sessionFor pipeline).bricks.readers a.context.readerIds =
      (a.sessionFor pipeline').bricks.readers a.context.readerIds := by
    refine Definitions.readers_congr fun id hid => ?_
    rw [sessionFor, sessionFor, session, session, Definitions.get_resolve, Definitions.get_resolve,
      if_pos (List.mem_append_right _ hid), if_pos (List.mem_append_right _ hid)]
  rw [rootScope, rootScope, Context.rootScope, Context.rootScope, Context.input, Context.input, hreaders]

theorem output_of_enters (hs : a.settings.MindsDocuments) {pipeline : Pipeline} {r : Report}
    (h : (a.run pipeline).outcome = .ok r) {b : Brick} (hb : Enters (a.steps pipeline) b) :
    (a.sessionFor pipeline).bricks.output b = a.bricks.output b := by
  obtain ⟨⟨ids, hids⟩, -, -⟩ := run_eq_ok_iff.1 h
  refine Definitions.output_congr ?_
  rw [get_of_mem hids (id_mem_of_minds hs h hids hb), Definitions.get_resolve, if_pos List.mem_cons_self]

/-- **Nothing gets out of a nested pipeline.**  Let two pipelines differ only in the bricks of a nested pipeline, at any
depth, and let the settings mind documents, as those by default do.  Then two runs that give reports take the same
steps outside of the nested pipeline: the scopes at bricks and at deferred bodies are the same, and so are the
annotations at each expression. -/
theorem isolated (hs : a.settings.MindsDocuments) (hf : a.bricks.Fixed) {bricks others : List Brick}
    {pipeline pipeline' : Pipeline} (hp : BricksSwap bricks others pipeline pipeline') {r r' : Report}
    (h : (a.run pipeline).outcome = .ok r) (h' : (a.run pipeline').outcome = .ok r') :
    r = Report.ofSteps a.settings (a.steps pipeline) ∧ r' = Report.ofSteps a.settings (a.steps pipeline') ∧
      SameOutside (a.sessionFor pipeline) (a.sessionFor pipeline') bricks others (a.steps pipeline)
        (a.steps pipeline') := by
  obtain ⟨-, hw, hr⟩ := run_eq_ok_iff.1 h
  obtain ⟨-, hw', hr'⟩ := run_eq_ok_iff.1 h'
  let t : TwoRuns := ⟨a.sessionFor pipeline, a.sessionFor pipeline', bricks, others, a.bricks.output, rfl, rfl,
    hf.output_eq⟩
  have hagree : t.Agree (a.walk pipeline) (a.walk pipeline') := by
    rw [walk_eq, walk_eq, rootScope_eq a pipeline' pipeline, outline, outline, Pipeline.outline, Pipeline.outline,
      Session.levelSteps, Session.levelSteps]
    exact (t.brickSites_agree 1 _ _ 0 .empty pipeline pipeline' hp).bracket (.refl _ _) (.refl _ _)
  exact ⟨hr, hr', hagree hw hw' (fun b hb => output_of_enters hs h hb) fun b hb => output_of_enters hs h' hb⟩

end Analyzer

theorem loopOver_swap (bricks others : List Brick) : BricksSwap bricks others (loopOver bricks) (loopOver others) :=
  .cons (.mk .nil .none) (.cons (.mk (.cons .swap .nil) (.some (.expression _)))
    (.cons (.mk (.cons (.expression _) .nil) .none) .nil))

/-- The bodies of two loops, one of which makes the variable that is asked for behind them.  The other gives a name that
is known outside to something else. -/
theorem isolated_loop : ∃ r r',
    (plainAnalyzer.run (loopOver [{ id := "print", outputKey := some "line" }])).outcome = .ok r ∧
    (plainAnalyzer.run (loopOver [{ id := "turn", outputKey := some "page" }])).outcome = .ok r' ∧
    SameOutside (plainAnalyzer.sessionFor (loopOver [{ id := "print", outputKey := some "line" }]))
      (plainAnalyzer.sessionFor (loopOver [{ id := "turn", outputKey := some "page" }]))
      [{ id := "print", outputKey := some "line" }] [{ id := "turn", outputKey := some "page" }]
      (plainAnalyzer.steps (loopOver [{ id := "print", outputKey := some "line" }]))
      (plainAnalyzer.steps (loopOver [{ id := "turn", outputKey := some "page" }])) := by
  have hr' : (plainAnalyzer.run (loopOver [{ id := "turn", outputKey := some "page" }])).outcome = .ok _ :=
    Analyzer.run_eq_ok_iff.2 ⟨⟨["read", "@pixiebrix/for-each", "turn", "send"], rfl⟩, rfl, rfl⟩
  have hfixed : plainAnalyzer.bricks.Fixed := by
    intro id definition h b b'
    cases h
    rfl
  exact ⟨_, _, run_loopPipeline, hr',
    (Analyzer.isolated (.inl rfl) hfixed (loopOver_swap _ _) run_loopPipeline hr').2.2⟩

end BrickScope
