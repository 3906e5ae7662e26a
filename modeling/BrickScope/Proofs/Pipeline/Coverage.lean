import BrickScope.Proofs.Analysis.Walk

/-!
# Two walks through one pipeline

Two walks may take different bricks for document bricks.  What one of them walks through as a document, the other may
walk through as a plain value; a plain value is walked through completely, whereas only parts of a document are looked
at.  So a walk that takes fewer bricks for documents meets at least the same bricks.

* `Covers`: a walk meets every brick that another meets;
* `valueSites_covers`: two plain walks; `elementSite_covered_by_value`: a plain walk covers that of an element;
* `outline_covers`: the walks through a whole pipeline.
-/

namespace BrickScope

/-! ## walks among some nodes -/

/-- All visits among some nodes. -/
abbrev tour (sites : List Site) : Walk Visit := sitesVisits (fun _ => true) sites

theorem tour_cons (site : Site) (sites : List Site) :
    tour (site :: sites) = (site.visits fun _ => true) ++ tour sites := by
  rw [tour, sitesVisits]

theorem tour_append (xs ys : List Site) : tour (xs ++ ys) = tour xs ++ tour ys := by
  induction xs with
  | nil => exact (Walk.empty_append _).symm
  | cons x xs ih =>
    rw [List.cons_append, tour_cons, tour_cons, ih, Walk.append_assoc]

theorem tour_singleton (site : Site) : tour [site] = site.visits fun _ => true := by
  rw [tour_cons]
  exact Walk.append_empty _

theorem brick_tour (p : Position) (b : Brick) (isDocument : Bool) (inside : List Site) :
    (BrickSite.mk p b isDocument inside).visits (fun _ => true) = (tour inside).cons (.brick p b isDocument) := by
  rw [BrickSite.visits, if_pos rfl]

/-! ## covering -/

/-- If both walks come to their ends, `w` meets every brick that `v` meets.  What is known of the bricks that `v` meets
may be used. -/
def Covers (Known : Brick → Prop) (w v : Walk Visit) : Prop :=
  w.Complete → v.Complete → (∀ b, v.Visits b → Known b) → ∀ b, v.Visits b → w.Visits b

section

variable {Known : Brick → Prop} {w w' v v' : Walk Visit}

theorem covers_of_not_visits (h : ∀ b, ¬v.Visits b) : Covers Known w v :=
  fun _ _ _ b hb => absurd hb (h b)

theorem covers_of_not_complete (h : ¬v.Complete) : Covers Known w v := fun _ hv => absurd hv h

theorem Covers.append (h : Covers Known w v) (h' : Covers Known w' v') : Covers Known (w ++ w') (v ++ v') := by
  intro hw hv hk b hb
  obtain ⟨hw₁, hw₂⟩ := Walk.complete_append.1 hw
  obtain ⟨hv₁, hv₂⟩ := Walk.complete_append.1 hv
  rw [Walk.visits_append hw₁]
  rcases (Walk.visits_append hv₁).1 hb with hb | hb
  · exact .inl (h hw₁ hv₁ (fun b' hb' => hk b' ((Walk.visits_append hv₁).2 (.inl hb'))) b hb)
  · exact .inr (h' hw₂ hv₂ (fun b' hb' => hk b' ((Walk.visits_append hv₁).2 (.inr hb'))) b hb)

theorem Covers.append_right (h : Covers Known w v) : Covers Known (w ++ w') v := by
  intro hw hv hk b hb
  have hw₁ := (Walk.complete_append.1 hw).1
  exact (Walk.visits_append hw₁).2 (.inl (h hw₁ hv hk b hb))

theorem Covers.append_left (h : Covers Known w' v) : Covers Known (w ++ w') v := by
  intro hw hv hk b hb
  obtain ⟨hw₁, hw₂⟩ := Walk.complete_append.1 hw
  exact (Walk.visits_append hw₁).2 (.inr (h hw₂ hv hk b hb))

/-- Visits in front change nothing, unless the second walk visits a brick that the first does not. -/
theorem Covers.cons (h : Covers Known w v) {x y : Visit} (hxy : y.brick? = none ∨ y.brick? = x.brick?) :
    Covers Known (w.cons x) (v.cons y) := by
  intro hw hv hk b hb
  rw [Walk.visits_cons]
  rcases Walk.visits_cons.1 hb with hy | hb
  · rcases hxy with hn | hx
    · rw [hn] at hy
      cases hy
    · exact .inl (hx ▸ hy)
  · exact .inr (h hw hv (fun b' hb' => hk b' (Walk.visits_cons.2 (.inr hb'))) b hb)

theorem Covers.cons_right (h : Covers Known w v) {y : Visit} (hy : y.brick? = none) : Covers Known w (v.cons y) := by
  intro hw hv hk b hb
  rcases Walk.visits_cons.1 hb with hb | hb
  · rw [hy] at hb
    cases hb
  · exact h hw hv (fun b' hb' => hk b' (Walk.visits_cons.2 (.inr hb'))) b hb

/-- One walk may cover two. -/
theorem Covers.both (h : Covers Known w v) (h' : Covers Known w v') : Covers Known w (v ++ v') := by
  intro hw hv hk b hb
  obtain ⟨hv₁, hv₂⟩ := Walk.complete_append.1 hv
  rcases (Walk.visits_append hv₁).1 hb with hb | hb
  · exact h hw hv₁ (fun b' hb' => hk b' ((Walk.visits_append hv₁).2 (.inl hb'))) b hb
  · exact h' hw hv₂ (fun b' hb' => hk b' ((Walk.visits_append hv₁).2 (.inr hb'))) b hb

theorem covers_nil : Covers Known w (tour []) := covers_of_not_visits fun b hb => by
  obtain ⟨_, _, hb⟩ := hb
  cases hb

theorem covers_literal {p : Position} {value : Scalar} : Covers Known w (tour [.literal p value]) :=
  covers_of_not_visits fun b hb => by
    obtain ⟨_, _, hb⟩ := hb
    simp [tour_singleton, Site.visits] at hb

theorem covers_expression {p : Position} {e : Expression} : Covers Known w (tour [.expression p e]) :=
  covers_of_not_visits fun b hb => by
    obtain ⟨_, _, hb⟩ := hb
    simp [tour_singleton, Site.visits] at hb

theorem covers_violation {x : Violation} : Covers Known w (tour [.violation x]) :=
  covers_of_not_complete fun h => by
    rw [tour_singleton] at h
    cases h

end

/-! ## one pipeline, two walks -/

/-- In a walk that comes to its end, the body of a document brick is a list. -/
theorem bodies_are_arrays {documents : String → Bool} {p : Position} {brick : Brick} (hd : documents brick.id = true)
    {members : List (String × ConfigValue)} (h : (tour (configSites documents p brick members)).Complete)
    {v : ConfigValue} (hm : (bodyKey, v) ∈ members) : ∃ items, v = .array items := by
  induction members with
  | nil => cases hm
  | cons m members ih =>
    obtain ⟨name, w⟩ := m
    rw [configSites, tour_append, Walk.complete_append] at h
    rcases List.mem_cons.1 hm with he | hm
    · obtain ⟨rfl, rfl⟩ := Prod.mk.inj he
      have hbody := h.1
      simp only [hd, Bool.true_and, decide_true, if_true, tour_singleton, Site.visits, Walk.complete_cons] at hbody
      cases v with
      | array items => exact ⟨items, rfl⟩
      | _ => cases hbody
    · exact ih h.2 hm

/-- What only the first walk takes for a document brick has no list for a body. -/
def Unhidden (collects documents : String → Bool) (Known : Brick → Prop) : Prop :=
  ∀ b, Known b → collects b.id = true → documents b.id = false →
    ∀ items, Table.get? b.config bodyKey ≠ some (.array items)

/-- Since the first walk comes to its end, there is no body at all. -/
theorem Unhidden.no_body {collects documents : String → Bool} {Known : Brick → Prop}
    (h : Unhidden collects documents Known) {p : Position} {b : Brick} (hb : Known b)
    (hc : (tour (configSites collects p b b.config)).Complete) :
    ∀ m ∈ b.config, collects b.id = true → documents b.id = false → m.1 ≠ bodyKey := by
  rintro ⟨name, v⟩ hm hcollects hdocuments rfl
  obtain ⟨v', hg, hm'⟩ := Table.exists_get?_of_mem hm
  obtain ⟨items, rfl⟩ := bodies_are_arrays hcollects hc hm'
  exact h b hb hcollects hdocuments items hg

section

-- `collects` says what the first walk takes for a document brick, `documents` what the second does.
variable {collects documents : String → Bool} {Known : Brick → Prop}

mutual

theorem valueSites_covers (hk : Unhidden collects documents Known) (p p' : Position) (o o' : Owner) :
    ∀ v, Covers Known (tour (valueSites collects p o v)) (tour (valueSites documents p' o' v))
  | .literal _ => covers_literal
  | .object members => memberSites_covers hk p p' o o' members
  | .array items => itemSites_covers hk p p' o o' 0 items
  | .expression _ => covers_expression
  | .pipeline bricks => by
    rw [valueSites, valueSites, tour_singleton, tour_singleton, Site.visits, Site.visits, Level.visits, Level.visits]
    exact (brickSites_covers hk _ _ 0 bricks).cons (.inl rfl)
  | .deferred body => by
    rw [valueSites, valueSites, tour_singleton, tour_singleton, Site.visits, Site.visits]
    exact (valueSites_covers hk _ _ _ _ body).cons (.inl rfl)
termination_by structural v => v

theorem memberSites_covers (hk : Unhidden collects documents Known) (p p' : Position) (o o' : Owner) :
    ∀ members, Covers Known (tour (memberSites collects p o members)) (tour (memberSites documents p' o' members))
  | [] => covers_nil
  | (_, v) :: members => by
    rw [memberSites, memberSites, tour_append, tour_append]
    exact (valueSites_covers hk _ _ o o' v).append (memberSites_covers hk p p' o o' members)
termination_by structural v => v

theorem itemSites_covers (hk : Unhidden collects documents Known) (p p' : Position) (o o' : Owner) (index : Nat) :
    ∀ items, Covers Known (tour (itemSites collects p o index items)) (tour (itemSites documents p' o' index items))
  | [] => covers_nil
  | v :: items => by
    rw [itemSites, itemSites, tour_append, tour_append]
    exact (valueSites_covers hk _ _ o o' v).append (itemSites_covers hk p p' o o' (index + 1) items)
termination_by structural v => v

theorem brickSites_covers (hk : Unhidden collects documents Known) (p p' : Position) (index : Nat) :
    ∀ bricks, Covers Known (bricksVisits (fun _ => true) (brickSites collects p index bricks))
      (bricksVisits (fun _ => true) (brickSites documents p' index bricks))
  | [] => covers_nil
  | b :: bricks => by
    rw [brickSites, brickSites, bricksVisits, bricksVisits]
    exact (brickSite_covers hk _ _ b).append (brickSites_covers hk p p' (index + 1) bricks)
termination_by structural v => v

-- Here it is used what is known of the brick: its body is not hidden from the first walk.
theorem brickSite_covers (hk : Unhidden collects documents Known) (p p' : Position) :
    ∀ b, Covers Known ((brickSite collects p b).visits fun _ => true) ((brickSite documents p' b).visits fun _ => true)
  | ⟨id, instanceId, label, config, outputKey, condition⟩ => by
    rw [brickSite, brickSite, brick_tour, brick_tour, tour_append, tour_append]
    intro hw hv hknown
    have hbrick := hknown _ (Walk.visits_cons.2 (.inl rfl))
    have hcollects := (Walk.complete_append.1 (Walk.complete_cons.1 hw)).2
    have hbody := hk.no_body hbrick hcollects
    refine Covers.cons (Covers.append ?_ ?_) (.inr rfl) hw hv hknown
    · exact guardSites_covers hk p p' _ condition
    · exact configSites_covers hk p p' _ config hbody
termination_by structural v => v

theorem guardSites_covers (hk : Unhidden collects documents Known) (p p' : Position) (brick : Brick) :
    ∀ condition, Covers Known (tour (guardSites collects p brick condition))
      (tour (guardSites documents p' brick condition))
  | none => covers_nil
  | some v => valueSites_covers hk _ _ _ _ v
termination_by structural v => v

theorem configSites_covers (hk : Unhidden collects documents Known) (p p' : Position) (brick : Brick) :
    ∀ members, (∀ m ∈ members, collects brick.id = true → documents brick.id = false → m.1 ≠ bodyKey) →
      Covers Known (tour (configSites collects p brick members)) (tour (configSites documents p' brick members))
  | [], _ => covers_nil
  | (name, v) :: members, hbody => by
    rw [configSites, configSites, tour_append, tour_append]
    refine Covers.append ?_ (configSites_covers hk p p' brick members fun m hm => hbody m (List.mem_cons_of_mem _ hm))
    by_cases hn : name = bodyKey
    · cases hc : collects brick.id <;> cases hd : documents brick.id
      · simpa using valueSites_covers hk _ _ _ _ v
      · -- only the second walk takes the brick for a document
        simp only [hn, decide_true, Bool.and_true, Bool.false_eq_true, if_false, if_true, tour_singleton, Site.visits]
        exact (bodySites_covered_by_value hk _ _ _ brick v).cons_right rfl
      · exact absurd hn (hbody _ List.mem_cons_self hc hd)
      · simp only [hn, decide_true, Bool.and_true, if_true, tour_singleton, Site.visits]
        exact (bodySites_covers hk p p' brick v).cons (.inl rfl)
    · simpa [hn] using valueSites_covers hk _ _ _ _ v
termination_by structural v => v

theorem bodySites_covers (hk : Unhidden collects documents Known) (p p' : Position) (brick : Brick) :
    ∀ v, Covers Known (tour (bodySites collects p brick v)) (tour (bodySites documents p' brick v))
  | .array items => elementSites_covers hk _ _ brick 0 items
  | .literal _ | .object _ | .expression _ | .pipeline _ | .deferred _ => covers_violation
termination_by structural v => v

theorem elementSites_covers (hk : Unhidden collects documents Known) (p p' : Position) (brick : Brick) (index : Nat) :
    ∀ items, Covers Known (tour (elementSites collects p brick index items))
      (tour (elementSites documents p' brick index items))
  | [] => covers_nil
  | v :: items => by
    rw [elementSites, elementSites, tour_cons, tour_cons]
    exact (elementSite_covers hk _ _ brick v).append (elementSites_covers hk p p' brick (index + 1) items)
termination_by structural v => v

theorem elementSite_covers (hk : Unhidden collects documents Known) (p p' : Position) (brick : Brick) :
    ∀ v, Covers Known ((elementSite collects p brick v).visits fun _ => true)
      ((elementSite documents p' brick v).visits fun _ => true)
  | .object members => by
    rw [elementSite, elementSite]
    cases Element.ofConfig (.object members) with
    | error rule => exact covers_of_not_complete fun h => by cases h
    | ok e =>
      dsimp only
      rw [Site.visits, Site.visits]
      refine Covers.cons ?_ (.inl rfl)
      split
      · exact covers_violation
      · rw [← tour, ← tour, tour_append, tour_append]
        exact (elementConfigSites_covers hk p p' brick e members).append (childSites_covers hk p p' brick members)
  | .array _ | .literal _ | .expression _ | .pipeline _ | .deferred _ => covers_of_not_complete fun h => by cases h
termination_by structural v => v

theorem elementConfigSites_covers (hk : Unhidden collects documents Known) (p p' : Position) (brick : Brick)
    (e : Element) :
    ∀ members, Covers Known (tour (elementConfigSites collects p brick e members))
      (tour (elementConfigSites documents p' brick e members))
  | [] => covers_nil
  | (_, v) :: members => by
    rw [elementConfigSites, elementConfigSites]
    split
    · exact settingSites_covers hk p p' brick e v
    · exact elementConfigSites_covers hk p p' brick e members
termination_by structural v => v

theorem settingSites_covers (hk : Unhidden collects documents Known) (p p' : Position) (brick : Brick) (e : Element) :
    ∀ v, Covers Known (tour (settingSites collects p brick e v)) (tour (settingSites documents p' brick e v))
  | .object config => elementValueSites_covers hk p p' brick e config
  | .array _ | .literal _ | .expression _ | .pipeline _ | .deferred _ => covers_nil
termination_by structural v => v

theorem elementValueSites_covers (hk : Unhidden collects documents Known) (p p' : Position) (brick : Brick)
    (e : Element) :
    ∀ members, Covers Known (tour (elementValueSites collects p brick e members))
      (tour (elementValueSites documents p' brick e members))
  | [] => covers_nil
  | (_, v) :: members => by
    rw [elementValueSites, elementValueSites, tour_append, tour_append]
    refine Covers.append ?_ (elementValueSites_covers hk p p' brick e members)
    split
    · exact rowSites_covers hk _ _ brick e v
    · exact valueSites_covers hk _ _ _ _ v
termination_by structural v => v

theorem rowSites_covers (hk : Unhidden collects documents Known) (p p' : Position) (brick : Brick) (e : Element) :
    ∀ v, Covers Known (tour (rowSites collects p brick e v)) (tour (rowSites documents p' brick e v))
  | .deferred body => by
    rw [rowSites, rowSites, tour_singleton, tour_singleton, Site.visits, Site.visits, ← tour, ← tour, tour_singleton,
      tour_singleton]
    exact (elementSite_covers hk _ _ brick body).cons (.inl rfl)
  | .object _ | .array _ | .literal _ | .expression _ | .pipeline _ => covers_nil
termination_by structural v => v

theorem childSites_covers (hk : Unhidden collects documents Known) (p p' : Position) (brick : Brick) :
    ∀ members, Covers Known (tour (childSites collects p brick members)) (tour (childSites documents p' brick members))
  | [] => covers_nil
  | (_, v) :: members => by
    rw [childSites, childSites]
    split
    · exact childrenSites_covers hk p p' brick v
    · exact childSites_covers hk p p' brick members
termination_by structural v => v

theorem childrenSites_covers (hk : Unhidden collects documents Known) (p p' : Position) (brick : Brick) :
    ∀ v, Covers Known (tour (childrenSites collects p brick v)) (tour (childrenSites documents p' brick v))
  | .array items => elementSites_covers hk _ _ brick 0 items
  | .object _ | .literal _ | .expression _ | .pipeline _ | .deferred _ => covers_nil
termination_by structural v => v

-- From here on the first walk goes through a plain value and the second through a part of a document.

theorem bodySites_covered_by_value (hk : Unhidden collects documents Known) (p p' : Position) (o : Owner)
    (brick : Brick) :
    ∀ v, Covers Known (tour (valueSites collects p o v)) (tour (bodySites documents p' brick v))
  | .array items => elementSites_covered_by_items hk _ _ o brick 0 items
  | .literal _ | .object _ | .expression _ | .pipeline _ | .deferred _ => covers_violation
termination_by structural v => v

theorem elementSites_covered_by_items (hk : Unhidden collects documents Known) (p p' : Position) (o : Owner)
    (brick : Brick) (index : Nat) :
    ∀ items, Covers Known (tour (itemSites collects p o index items))
      (tour (elementSites documents p' brick index items))
  | [] => covers_nil
  | v :: items => by
    rw [itemSites, elementSites, tour_append, tour_cons]
    exact (elementSite_covered_by_value hk _ _ o brick v).append
      (elementSites_covered_by_items hk p p' o brick (index + 1) items)
termination_by structural v => v

theorem elementSite_covered_by_value (hk : Unhidden collects documents Known) (p p' : Position) (o : Owner)
    (brick : Brick) :
    ∀ v, Covers Known (tour (valueSites collects p o v)) ((elementSite documents p' brick v).visits fun _ => true)
  | .object members => by
    rw [valueSites, elementSite]
    cases Element.ofConfig (.object members) with
    | error rule => exact covers_of_not_complete fun h => by cases h
    | ok e =>
      dsimp only
      rw [Site.visits]
      refine Covers.cons_right ?_ rfl
      split
      · exact covers_violation
      · rw [← tour, tour_append]
        exact (elementConfigSites_covered_by_members hk p p' o brick e members).both
          (childSites_covered_by_members hk p p' o brick members)
  | .array _ | .literal _ | .expression _ | .pipeline _ | .deferred _ => covers_of_not_complete fun h => by cases h
termination_by structural v => v

theorem elementConfigSites_covered_by_members (hk : Unhidden collects documents Known) (p p' : Position) (o : Owner)
    (brick : Brick) (e : Element) :
    ∀ members, Covers Known (tour (memberSites collects p o members))
      (tour (elementConfigSites documents p' brick e members))
  | [] => covers_nil
  | (_, v) :: members => by
    rw [memberSites, elementConfigSites, tour_append]
    split
    · exact (settingSites_covered_by_value hk _ p' o brick e v).append_right
    · exact (elementConfigSites_covered_by_members hk p p' o brick e members).append_left
termination_by structural v => v

theorem settingSites_covered_by_value (hk : Unhidden collects documents Known) (p p' : Position) (o : Owner)
    (brick : Brick) (e : Element) :
    ∀ v, Covers Known (tour (valueSites collects p o v)) (tour (settingSites documents p' brick e v))
  | .object config => elementValueSites_covered_by_members hk p p' o brick e config
  | .array _ | .literal _ | .expression _ | .pipeline _ | .deferred _ => covers_nil
termination_by structural v => v

theorem elementValueSites_covered_by_members (hk : Unhidden collects documents Known) (p p' : Position) (o : Owner)
    (brick : Brick) (e : Element) :
    ∀ members, Covers Known (tour (memberSites collects p o members))
      (tour (elementValueSites documents p' brick e members))
  | [] => covers_nil
  | (_, v) :: members => by
    rw [memberSites, elementValueSites, tour_append, tour_append]
    refine Covers.append ?_ (elementValueSites_covered_by_members hk p p' o brick e members)
    split
    · exact rowSites_covered_by_value hk _ _ o brick e v
    · exact valueSites_covers hk _ _ _ _ v
termination_by structural v => v

theorem rowSites_covered_by_value (hk : Unhidden collects documents Known) (p p' : Position) (o : Owner)
    (brick : Brick) (e : Element) :
    ∀ v, Covers Known (tour (valueSites collects p o v)) (tour (rowSites documents p' brick e v))
  | .deferred body => by
    rw [valueSites, rowSites, tour_singleton, tour_singleton, Site.visits, Site.visits, ← tour, ← tour, tour_singleton]
    exact (elementSite_covered_by_value hk _ _ _ brick body).cons (.inl rfl)
  | .object _ | .array _ | .literal _ | .expression _ | .pipeline _ => covers_nil
termination_by structural v => v

theorem childSites_covered_by_members (hk : Unhidden collects documents Known) (p p' : Position) (o : Owner)
    (brick : Brick) :
    ∀ members, Covers Known (tour (memberSites collects p o members)) (tour (childSites documents p' brick members))
  | [] => covers_nil
  | (_, v) :: members => by
    rw [memberSites, childSites, tour_append]
    split
    · exact (childrenSites_covered_by_value hk _ p' o brick v).append_right
    · exact (childSites_covered_by_members hk p p' o brick members).append_left
termination_by structural v => v

theorem childrenSites_covered_by_value (hk : Unhidden collects documents Known) (p p' : Position) (o : Owner)
    (brick : Brick) :
    ∀ v, Covers Known (tour (valueSites collects p o v)) (tour (childrenSites documents p' brick v))
  | .array items => elementSites_covered_by_items hk _ _ o brick 0 items
  | .object _ | .literal _ | .expression _ | .pipeline _ | .deferred _ => covers_nil
termination_by structural v => v

end

/-- Every brick that the second walk meets is met by the first, if both come to their ends. -/
theorem outline_covers (hk : Unhidden collects documents Known) (root root' : Position) (pipeline : Pipeline) :
    Covers Known (pipeline.outline collects root).allVisits (pipeline.outline documents root').allVisits := by
  unfold Level.allVisits Pipeline.outline
  rw [Level.visits, Level.visits]
  exact (brickSites_covers hk root root' 0 pipeline).cons (.inl rfl)

end

end BrickScope
