import BrickScope.Pipeline.Outline
import BrickScope.Proofs.Pipeline.Position

/-!
# What a brick holds

A brick holds values in its guard and its configuration, elements in its document, and rows in the lists among them.  The
relation `Holds` says so on the tree itself, without the order of a walk: each node with its position, the way it is
reached, and the rows of lists around it.  The bricks of a nested pipeline have contents of their own.

* `Holds`: the contents of a brick;
* `Holds.stands_below`, `Holds.stands_in_rows`: where they stand; `Holds.size_lt`: they are smaller than the brick;
* `bricks_induction`: induction over nested pipelines;
* `Holds.shown_or_inside`: what is met at a content, one step inwards;
* `Holds.occurs`, `shown_of_occurs`: the outline of a brick shows its contents and nothing else.
-/

namespace BrickScope

open Position (Below)

/-- How a value inside a brick is reached. -/
inductive Reach where
  /-- In a property of the brick, through objects and lists only.  The guard counts as the property `if`. -/
  | plain (property : String)
  /-- In a deferred body. -/
  | deferred
  /-- In a property of a document element, through objects and lists only. -/
  | element (type property : String)

/-- The owner of a pipeline that is reached in this way. -/
def Reach.owner (b : Brick) : Reach → Owner
  | plain property => ⟨b, named property, none⟩
  | deferred => ⟨b, none, none⟩
  | element type property => ⟨b, named property, some type⟩

@[simp] theorem Reach.brick_owner (b : Brick) (reach : Reach) : (reach.owner b).brick = b := by
  cases reach <;> rfl

/-- The row of a list: where its body stands, and the list. -/
structure Row where
  position : Position
  list : Element

inductive Content where
  | value (position : Position) (reach : Reach) (v : ConfigValue)
  /-- The body of a document brick. -/
  | document (v : ConfigValue)
  /-- What stands in the place of an element. -/
  | element (position : Position) (v : ConfigValue)
  /-- The body of the rows of a list. -/
  | row (position : Position) (list : Element) (body : ConfigValue)

/-- What the brick `b` at `p₀` holds, with the rows around it, the innermost first.  A list without a body for its rows
is not looked into. -/
inductive Holds (documents : String → Bool) (p₀ : Position) (b : Brick) : List Row → Content → Prop
  | guard {v : ConfigValue} (h : b.condition = some v) :
    Holds documents p₀ b [] (.value (p₀.nested ["if"]) (.plain "if") v)
  | config {name : String} {v : ConfigValue} (hm : (name, v) ∈ b.config)
    (hd : ¬(documents b.id = true ∧ name = bodyKey)) :
    Holds documents p₀ b [] (.value (p₀.nested ["config", name]) (.plain name) v)
  | document {v : ConfigValue} (hm : (bodyKey, v) ∈ b.config) (hd : documents b.id = true) :
    Holds documents p₀ b [] (.document v)
  | member {rows : List Row} {p : Position} {reach : Reach} {members : List (String × ConfigValue)} {name : String}
    {v : ConfigValue} (h : Holds documents p₀ b rows (.value p reach (.object members))) (hm : (name, v) ∈ members) :
    Holds documents p₀ b rows (.value (p.nested [name]) reach v)
  | item {rows : List Row} {p : Position} {reach : Reach} {items : List ConfigValue} {i : Nat} {v : ConfigValue}
    (h : Holds documents p₀ b rows (.value p reach (.array items))) (hi : items[i]? = some v) :
    Holds documents p₀ b rows (.value (p.nested [toString i]) reach v)
  | deferred {rows : List Row} {p : Position} {reach : Reach} {body : ConfigValue}
    (h : Holds documents p₀ b rows (.value p reach (.deferred body))) :
    Holds documents p₀ b rows (.value (p.nested ["__value__"]) .deferred body)
  | top {rows : List Row} {items : List ConfigValue} {i : Nat} {v : ConfigValue}
    (h : Holds documents p₀ b rows (.document (.array items))) (hi : items[i]? = some v) :
    Holds documents p₀ b rows (.element ((p₀.nested ["config", bodyKey]).nested [toString i]) v)
  | setting {rows : List Row} {p : Position} {v w : ConfigValue} {e : Element} {config : List (String × ConfigValue)}
    {name : String} (h : Holds documents p₀ b rows (.element p v)) (he : Element.ofConfig v = .ok e)
    (hr : e.lacksRow = false) (hc : e.config = some config) (hm : (name, w) ∈ config)
    (hn : ¬(e.isList = true ∧ name = Element.rowKey)) :
    Holds documents p₀ b rows (.value (p.nested ["config", name]) (.element e.type name) w)
  | row {rows : List Row} {p : Position} {v body : ConfigValue} {e : Element} {config : List (String × ConfigValue)}
    (h : Holds documents p₀ b rows (.element p v)) (he : Element.ofConfig v = .ok e) (hr : e.lacksRow = false)
    (hl : e.isList = true) (hc : e.config = some config) (hm : (Element.rowKey, .deferred body) ∈ config) :
    Holds documents p₀ b rows (.row ((p.nested ["config", Element.rowKey]).nested ["__value__"]) e body)
  | inRow {rows : List Row} {p : Position} {e : Element} {body : ConfigValue}
    (h : Holds documents p₀ b rows (.row p e body)) : Holds documents p₀ b (⟨p, e⟩ :: rows) (.element p body)
  | child {rows : List Row} {p : Position} {v w : ConfigValue} {e : Element} {i : Nat}
    (h : Holds documents p₀ b rows (.element p v)) (he : Element.ofConfig v = .ok e) (hr : e.lacksRow = false)
    (hi : e.children[i]? = some w) :
    Holds documents p₀ b rows (.element ((p.nested ["children"]).nested [toString i]) w)

/-! ## positions -/

/-- Where a content stands. -/
def Content.position (p₀ : Position) : Content → Position
  | value p _ _ => p
  | document _ => p₀.nested ["config", bodyKey]
  | element p _ => p
  | row p _ _ => p

section

variable {documents : String → Bool} {p₀ : Position} {b : Brick}

/-- Whatever a brick holds stands below it, and so do the rows around it. -/
theorem Holds.stands_below {rows : List Row} {c : Content} (h : Holds documents p₀ b rows c) :
    Below p₀ (c.position p₀) ∧ ∀ r ∈ rows, Below p₀ r.position := by
  induction h with
  | guard => exact ⟨Position.below_nested (by decide) [], by simp⟩
  | config => exact ⟨Position.below_nested (by decide) _, by simp⟩
  | document => exact ⟨Position.below_nested (by decide) _, by simp⟩
  | member _ _ ih => exact ⟨ih.1.nested _, ih.2⟩
  | item _ _ ih => exact ⟨ih.1.nested _, ih.2⟩
  | deferred _ ih => exact ⟨ih.1.nested _, ih.2⟩
  | top _ _ ih => exact ⟨ih.1.nested _, ih.2⟩
  | setting _ _ _ _ _ _ ih => exact ⟨ih.1.nested _, ih.2⟩
  | row _ _ _ _ _ _ ih => exact ⟨(ih.1.nested _).nested _, ih.2⟩
  | inRow _ ih =>
    refine ⟨ih.1, fun r hr => ?_⟩
    rcases List.mem_cons.1 hr with rfl | hr
    · exact ih.1
    · exact ih.2 r hr
  | child _ _ _ _ ih => exact ⟨(ih.1.nested _).nested _, ih.2⟩

/-- Whatever stands in a row stands at its body or below. -/
theorem Holds.stands_in_rows {rows : List Row} {c : Content} (h : Holds documents p₀ b rows c) :
    ∀ r ∈ rows, ∃ steps, c.position p₀ = r.position.nested steps := by
  have hnested : ∀ {p q : Position} (way : List String), (∃ steps, q = p.nested steps) →
      ∃ steps, q.nested way = p.nested steps := by
    rintro p q way ⟨steps, rfl⟩
    exact ⟨steps ++ way, Position.nested_nested _ _ _⟩
  induction h with
  | guard => simp
  | config => simp
  | document => simp
  | member _ _ ih => exact fun r hr => hnested _ (ih r hr)
  | item _ _ ih => exact fun r hr => hnested _ (ih r hr)
  | deferred _ ih => exact fun r hr => hnested _ (ih r hr)
  | top _ _ ih => exact fun r hr => hnested _ (ih r hr)
  | setting _ _ _ _ _ _ ih => exact fun r hr => hnested _ (ih r hr)
  | row _ _ _ _ _ _ ih => exact fun r hr => hnested _ (hnested _ (ih r hr))
  | inRow _ ih =>
    intro r hr
    rcases List.mem_cons.1 hr with rfl | hr
    · exact ⟨[], (Position.nested_nil _).symm⟩
    · exact ih r hr
  | child _ _ _ _ ih => exact fun r hr => hnested _ (hnested _ (ih r hr))

/-- There are no rows on a way through objects and lists only. -/
theorem Holds.rows_of_plain {rows : List Row} {p : Position} {property : String} {v : ConfigValue}
    (h : Holds documents p₀ b rows (.value p (.plain property) v)) : rows = [] := by
  generalize hc : Content.value p (.plain property) v = c at h
  induction h generalizing p v with
  | guard => rfl
  | config => rfl
  | member _ _ ih =>
    cases hc
    exact ih rfl
  | item _ _ ih =>
    cases hc
    exact ih rfl
  | _ => cases hc

/-! ## sizes -/

theorem sizeOf_lt_of_member {name : String} {v : ConfigValue} {members : List (String × ConfigValue)}
    (h : (name, v) ∈ members) : sizeOf v < sizeOf members := by
  have := List.sizeOf_lt_of_mem h
  simp only [Prod.mk.sizeOf_spec] at this
  omega

theorem sizeOf_lt_of_item {v : ConfigValue} {items : List ConfigValue} {i : Nat} (h : items[i]? = some v) :
    sizeOf v < sizeOf items := List.sizeOf_lt_of_mem (List.mem_of_getElem? h)

theorem Element.sizeOf_config_lt {v : ConfigValue} {e : Element} {config : List (String × ConfigValue)}
    (he : ofConfig v = .ok e) (hc : e.config = some config) : sizeOf config < sizeOf v := by
  cases v with
  | object members =>
    rw [ofConfig] at he
    split at he
    · cases he
      obtain ⟨w, hw, hm⟩ := Option.bind_eq_some_iff.1 hc
      have hsize := sizeOf_lt_of_member (Table.mem_of_get? hw)
      cases w with
      | object config' =>
        cases hm
        simp only [ConfigValue.object.sizeOf_spec] at hsize ⊢
        omega
      | _ => cases hm
    · cases he
  | _ => cases he

theorem Element.sizeOf_child_lt {v w : ConfigValue} {e : Element} {i : Nat} (he : ofConfig v = .ok e)
    (hi : e.children[i]? = some w) : sizeOf w < sizeOf v := by
  cases v with
  | object members =>
    rw [ofConfig] at he
    split at he
    · cases he
      cases hg : Table.get? members "children" with
      | none => simp [hg] at hi
      | some u =>
        have hsize := sizeOf_lt_of_member (Table.mem_of_get? hg)
        cases u with
        | array items =>
          simp only [hg, Option.bind_some, ConfigValue.items?, Option.getD_some] at hi
          have := sizeOf_lt_of_item hi
          simp only [ConfigValue.array.sizeOf_spec, ConfigValue.object.sizeOf_spec] at hsize ⊢
          omega
        | _ => simp [hg, ConfigValue.items?] at hi
    · cases he
  | _ => cases he

/-- The size of what is left to look into. -/
noncomputable def Content.size : Content → Nat
  | value _ _ v => sizeOf v
  | document v => sizeOf v
  | element _ v => sizeOf v
  | row _ _ body => sizeOf body + 1

theorem Holds.size_lt {rows : List Row} {c : Content} (h : Holds documents p₀ b rows c) : c.size < sizeOf b := by
  have hbrick : sizeOf b.config < sizeOf b ∧ sizeOf b.condition < sizeOf b := by
    cases b
    simp only [Brick.mk.sizeOf_spec]
    omega
  induction h with
  | guard h =>
    have := hbrick.2
    rw [h, Option.some.sizeOf_spec] at this
    simp only [Content.size]
    omega
  | config hm =>
    have := sizeOf_lt_of_member hm
    simp only [Content.size]
    omega
  | document hm =>
    have := sizeOf_lt_of_member hm
    simp only [Content.size]
    omega
  | member _ hm ih =>
    have := sizeOf_lt_of_member hm
    simp only [Content.size, ConfigValue.object.sizeOf_spec] at ih ⊢
    omega
  | item _ hi ih =>
    have := sizeOf_lt_of_item hi
    simp only [Content.size, ConfigValue.array.sizeOf_spec] at ih ⊢
    omega
  | deferred _ ih =>
    simp only [Content.size, ConfigValue.deferred.sizeOf_spec] at ih ⊢
    omega
  | top _ hi ih =>
    have := sizeOf_lt_of_item hi
    simp only [Content.size, ConfigValue.array.sizeOf_spec] at ih ⊢
    omega
  | setting _ he _ hc hm _ ih =>
    have := sizeOf_lt_of_member hm
    have := Element.sizeOf_config_lt he hc
    simp only [Content.size] at ih ⊢
    omega
  | row _ he _ _ hc hm ih =>
    have := sizeOf_lt_of_member hm
    have := Element.sizeOf_config_lt he hc
    simp only [Content.size, ConfigValue.deferred.sizeOf_spec] at *
    omega
  | inRow _ ih =>
    simp only [Content.size] at ih ⊢
    omega
  | child _ he _ hi ih =>
    have := Element.sizeOf_child_lt he hi
    simp only [Content.size] at ih ⊢
    omega

/-- Induction over nested pipelines: a property of all pipelines may be assumed of those that the bricks of a pipeline
hold. -/
theorem bricks_induction {Motive : List Brick → Prop}
    (step : ∀ bricks : List Brick, (∀ b ∈ bricks, ∀ {p₀ rows p reach inner},
      Holds documents p₀ b rows (.value p reach (.pipeline inner)) → Motive inner) → Motive bricks)
    (bricks : List Brick) : Motive bricks := by
  induction hn : sizeOf bricks using Nat.strong_induction_on generalizing bricks with
  | _ n ih =>
    refine step bricks fun b hb p₀ rows p reach inner h => ih (sizeOf inner) ?_ inner rfl
    have hsize := h.size_lt
    have hmem := List.sizeOf_lt_of_mem hb
    simp only [Content.size, ConfigValue.pipeline.sizeOf_spec] at hsize
    omega

/-! ## the nodes of an outline -/

/-- `site` occurs at or inside another one; rows are collected on the way. -/
inductive Occurs : List Row → Site → List Row → Site → Prop
  | here {rows : List Row} {site : Site} : Occurs rows site rows site
  | document {outer rows : List Row} {p : Position} {b : Brick} {inside : List Site} {s site : Site} (hs : s ∈ inside)
    (h : Occurs outer s rows site) : Occurs outer (.document p b inside) rows site
  | element {outer rows : List Row} {p : Position} {e : Element} {b : Brick} {inside : List Site} {s site : Site}
    (hs : s ∈ inside) (h : Occurs outer s rows site) : Occurs outer (.element p e b inside) rows site
  | deferred {outer rows : List Row} {p : Position} {b : Brick} {inside : List Site} {s site : Site} (hs : s ∈ inside)
    (h : Occurs outer s rows site) : Occurs outer (.deferred p b none inside) rows site
  | row {outer rows : List Row} {p : Position} {b : Brick} {e : Element} {inside : List Site} {s site : Site}
    (hs : s ∈ inside) (h : Occurs (⟨p, e⟩ :: outer) s rows site) :
    Occurs outer (.deferred p b (some e) inside) rows site

theorem Occurs.trans {outer mid rows : List Row} {s t site : Site} (h : Occurs outer s mid t)
    (h' : Occurs mid t rows site) : Occurs outer s rows site := by
  induction h with
  | here => exact h'
  | document hs _ ih => exact .document hs (ih h')
  | element hs _ ih => exact .element hs (ih h')
  | deferred hs _ ih => exact .deferred hs (ih h')
  | row hs _ ih => exact .row hs (ih h')

/-- `site` occurs among some sites of a brick. -/
def OccursIn (sites : List Site) (rows : List Row) (site : Site) : Prop := ∃ s ∈ sites, Occurs [] s rows site

/-! ## lists of nodes -/

theorem brickSite_inside (p : Position) (b : Brick) :
    (brickSite documents p b).inside = guardSites documents p b b.condition ++ configSites documents p b b.config := by
  cases b
  rfl

theorem mem_memberSites {p : Position} {o : Owner} {members : List (String × ConfigValue)} {s : Site} :
    s ∈ memberSites documents p o members ↔ ∃ m ∈ members, s ∈ valueSites documents (p.nested [m.1]) o m.2 := by
  induction members with
  | nil => simp [memberSites]
  | cons m members ih =>
    rw [memberSites, List.mem_append, ih]
    simp

theorem mem_itemSites {p : Position} {o : Owner} {k : Nat} {items : List ConfigValue} {s : Site} :
    s ∈ itemSites documents p o k items ↔
      ∃ i v, items[i]? = some v ∧ s ∈ valueSites documents (p.nested [toString (k + i)]) o v := by
  induction items generalizing k with
  | nil => simp [itemSites]
  | cons v items ih =>
    rw [itemSites, List.mem_append, ih]
    constructor
    · rintro (h | ⟨i, w, hi, h⟩)
      · exact ⟨0, v, rfl, h⟩
      · exact ⟨i + 1, w, hi, by rwa [Nat.add_right_comm, Nat.add_assoc] at h⟩
    · rintro ⟨i, w, hi, h⟩
      cases i with
      | zero =>
        cases hi
        exact .inl h
      | succ i => exact .inr ⟨i, w, hi, by rwa [Nat.add_right_comm, Nat.add_assoc]⟩

theorem mem_elementSites {p : Position} {k : Nat} {items : List ConfigValue} {s : Site} :
    s ∈ elementSites documents p b k items ↔
      ∃ i v, items[i]? = some v ∧ s = elementSite documents (p.nested [toString (k + i)]) b v := by
  induction items generalizing k with
  | nil => simp [elementSites]
  | cons v items ih =>
    rw [elementSites, List.mem_cons, ih]
    constructor
    · rintro (h | ⟨i, w, hi, h⟩)
      · exact ⟨0, v, rfl, h⟩
      · exact ⟨i + 1, w, hi, by rwa [Nat.add_right_comm, Nat.add_assoc] at h⟩
    · rintro ⟨i, w, hi, h⟩
      cases i with
      | zero =>
        cases hi
        exact .inl h
      | succ i => exact .inr ⟨i, w, hi, by rwa [Nat.add_right_comm, Nat.add_assoc]⟩

theorem mem_configSites {members : List (String × ConfigValue)} {s : Site} :
    s ∈ configSites documents p₀ b members ↔ ∃ m ∈ members,
      if documents b.id = true ∧ m.1 = bodyKey then s = .document p₀ b (bodySites documents p₀ b m.2)
      else s ∈ valueSites documents (p₀.nested ["config", m.1]) ((Reach.plain m.1).owner b) m.2 := by
  induction members with
  | nil => simp [configSites]
  | cons m members ih =>
    rw [configSites, List.mem_append, ih]
    by_cases h : documents b.id = true ∧ m.1 = bodyKey
    · simp [h.1, h.2]
    · have h' : (documents b.id && decide (m.1 = bodyKey)) = false := by
        simpa using h
      simp [h, h', Reach.owner]

theorem mem_elementValueSites {p : Position} {e : Element} {members : List (String × ConfigValue)} {s : Site} :
    s ∈ elementValueSites documents p b e members ↔ ∃ m ∈ members,
      if e.isList = true ∧ m.1 = Element.rowKey then s ∈ rowSites documents (p.nested ["config", m.1]) b e m.2
      else s ∈ valueSites documents (p.nested ["config", m.1]) ((Reach.element e.type m.1).owner b) m.2 := by
  induction members with
  | nil => simp [elementValueSites]
  | cons m members ih =>
    rw [elementValueSites, List.mem_append, ih]
    by_cases h : e.isList = true ∧ m.1 = Element.rowKey
    · simp [h.1, h.2]
    · have h' : (e.isList && decide (m.1 = Element.rowKey)) = false := by
        simpa using h
      simp [h, h', Reach.owner]

/-! ## elements -/

theorem elementSite_of_error {p : Position} {v : ConfigValue} {rule : Rule} (h : Element.ofConfig v = .error rule) :
    elementSite documents p b v = .violation ⟨p, rule⟩ := by
  cases v with
  | object members => rw [elementSite, h]
  | _ =>
    cases h
    rfl

theorem elementConfigSites_eq {p : Position} {e : Element} (members : List (String × ConfigValue)) :
    elementConfigSites documents p b e members =
      elementValueSites documents p b e (((Table.get? members "config").bind ConfigValue.members?).getD []) := by
  induction members with
  | nil => simp [elementConfigSites, Table.get?, elementValueSites]
  | cons m members ih =>
    rw [elementConfigSites, Table.get?]
    split
    · cases m.2 <;> simp [settingSites, ConfigValue.members?, elementValueSites]
    · exact ih

theorem childSites_eq {p : Position} (members : List (String × ConfigValue)) :
    childSites documents p b members = elementSites documents (p.nested ["children"]) b 0
      (((Table.get? members "children").bind ConfigValue.items?).getD []) := by
  induction members with
  | nil => simp [childSites, Table.get?, elementSites]
  | cons m members ih =>
    rw [childSites, Table.get?]
    split
    · cases m.2 <;> simp [childrenSites, ConfigValue.items?, elementSites]
    · exact ih

/-- What is met inside an element, if it does not lack the body of its rows. -/
theorem elementSite_of_ok {p : Position} {v : ConfigValue} {e : Element} (h : Element.ofConfig v = .ok e) :
    elementSite documents p b v = .element p e b (if e.lacksRow then [.violation ⟨p, .rowIsDeferred⟩]
      else elementValueSites documents p b e (e.config.getD []) ++
        elementSites documents (p.nested ["children"]) b 0 e.children) := by
  cases v with
  | object members =>
    rw [elementSite, h]
    dsimp only
    rw [elementConfigSites_eq, childSites_eq]
    rw [Element.ofConfig] at h
    split at h
    · cases h
      rfl
    · cases h
  | _ => cases h

/-! ## every content is shown -/

/-- The nodes of an outline for a content. -/
def Content.sites (documents : String → Bool) (p₀ : Position) (b : Brick) : Content → List Site
  | value p reach v => valueSites documents p (reach.owner b) v
  | document v => bodySites documents p₀ b v
  | element p v => [elementSite documents p b v]
  | row p e body => [.deferred p b (some e) [elementSite documents p b body]]

theorem Holds.occurs {rows : List Row} {c : Content} (h : Holds documents p₀ b rows c) :
    ∀ s ∈ c.sites documents p₀ b, OccursIn (brickSite documents p₀ b).inside rows s := by
  rw [brickSite_inside]
  induction h with
  | guard h =>
    intro s hs
    refine ⟨s, List.mem_append_left _ ?_, .here⟩
    rw [h]
    exact hs
  | config hm hd =>
    intro s hs
    refine ⟨s, List.mem_append_right _ (mem_configSites.2 ⟨_, hm, ?_⟩), .here⟩
    rw [if_neg hd]
    exact hs
  | document hm hd =>
    intro s hs
    have hsite : Site.document p₀ b _ ∈ configSites documents p₀ b b.config :=
      mem_configSites.2 ⟨_, hm, by rw [if_pos ⟨hd, rfl⟩]⟩
    exact ⟨_, List.mem_append_right _ hsite, .document hs .here⟩
  | member _ hm ih => exact fun s hs => ih s (mem_memberSites.2 ⟨_, hm, hs⟩)
  | item _ hi ih => exact fun s hs => ih s (mem_itemSites.2 ⟨_, _, hi, by rwa [Nat.zero_add]⟩)
  | @deferred rows p reach body _ ih =>
    intro s hs
    have hmem : Site.deferred (p.nested ["__value__"]) b none
        (valueSites documents (p.nested ["__value__"]) (Reach.deferred.owner b) body) ∈
          valueSites documents p (reach.owner b) (.deferred body) := by
      rw [valueSites, Reach.brick_owner]
      exact List.mem_singleton.2 rfl
    obtain ⟨t, ht, ho⟩ := ih _ hmem
    exact ⟨t, ht, ho.trans (.deferred hs .here)⟩
  | top _ hi ih =>
    intro s hs
    refine ih s (mem_elementSites.2 ⟨_, _, hi, ?_⟩)
    rw [Nat.zero_add]
    exact List.mem_singleton.1 hs
  | setting _ he hr hc hm hn ih =>
    intro s hs
    obtain ⟨t, ht, ho⟩ := ih _ (List.mem_singleton.2 rfl)
    rw [elementSite_of_ok he, hr] at ho
    refine ⟨t, ht, ho.trans (.element (List.mem_append_left _ ?_) .here)⟩
    rw [hc]
    refine mem_elementValueSites.2 ⟨_, hm, ?_⟩
    rw [if_neg hn]
    exact hs
  | row _ he hr hl hc hm ih =>
    intro s hs
    obtain ⟨t, ht, ho⟩ := ih _ (List.mem_singleton.2 rfl)
    rw [elementSite_of_ok he, hr] at ho
    refine ⟨t, ht, ho.trans (.element (List.mem_append_left _ ?_) .here)⟩
    rw [hc]
    refine mem_elementValueSites.2 ⟨_, hm, ?_⟩
    rw [if_pos ⟨hl, rfl⟩]
    exact hs
  | inRow _ ih =>
    intro s hs
    obtain ⟨t, ht, ho⟩ := ih _ (List.mem_singleton.2 rfl)
    exact ⟨t, ht, ho.trans (.row hs .here)⟩
  | child _ he hr hi ih =>
    intro s hs
    obtain ⟨t, ht, ho⟩ := ih _ (List.mem_singleton.2 rfl)
    rw [elementSite_of_ok he, hr] at ho
    refine ⟨t, ht, ho.trans (.element (List.mem_append_right _ ?_) .here)⟩
    refine mem_elementSites.2 ⟨_, _, hi, ?_⟩
    rw [Nat.zero_add]
    exact List.mem_singleton.1 hs

/-! ## nothing else is shown -/

/-- Why a node is met inside the brick `b` at `p₀`. -/
inductive Shown (documents : String → Bool) (p₀ : Position) (b : Brick) : List Row → Site → Prop
  | literal {rows : List Row} {p : Position} {reach : Reach} {value : Scalar}
    (h : Holds documents p₀ b rows (.value p reach (.literal value))) : Shown documents p₀ b rows (.literal p value)
  | expression {rows : List Row} {p : Position} {reach : Reach} {e : Expression}
    (h : Holds documents p₀ b rows (.value p reach (.expression e))) : Shown documents p₀ b rows (.expression p e)
  | level {rows : List Row} {p : Position} {reach : Reach} {inner : List Brick}
    (h : Holds documents p₀ b rows (.value p reach (.pipeline inner))) :
    Shown documents p₀ b rows (.level ⟨p.nested ["__value__"], some (reach.owner b),
      brickSites documents (p.nested ["__value__"]) 0 inner⟩)
  | deferred {rows : List Row} {p : Position} {reach : Reach} {body : ConfigValue} {inside : List Site}
    (h : Holds documents p₀ b rows (.value p reach (.deferred body))) :
    Shown documents p₀ b rows (.deferred (p.nested ["__value__"]) b none inside)
  | row {rows : List Row} {p : Position} {e : Element} {body : ConfigValue} {inside : List Site}
    (h : Holds documents p₀ b rows (.row p e body)) : Shown documents p₀ b rows (.deferred p b (some e) inside)
  | document {rows : List Row} {v : ConfigValue} {inside : List Site} (h : Holds documents p₀ b rows (.document v)) :
    Shown documents p₀ b rows (.document p₀ b inside)
  | element {rows : List Row} {p : Position} {v : ConfigValue} {e : Element} {inside : List Site}
    (h : Holds documents p₀ b rows (.element p v)) : Shown documents p₀ b rows (.element p e b inside)
  | noList {rows : List Row} {v : ConfigValue} (h : Holds documents p₀ b rows (.document v))
    (hv : ∀ items, v ≠ .array items) :
    Shown documents p₀ b rows (.violation ⟨p₀.nested ["config", bodyKey], .bodyIsList⟩)
  | noElement {rows : List Row} {p : Position} {v : ConfigValue} {rule : Rule}
    (h : Holds documents p₀ b rows (.element p v)) (he : Element.ofConfig v = .error rule) :
    Shown documents p₀ b rows (.violation ⟨p, rule⟩)
  | noRow {rows : List Row} {p : Position} {v : ConfigValue} {e : Element}
    (h : Holds documents p₀ b rows (.element p v)) (he : Element.ofConfig v = .ok e) (hr : e.lacksRow = true) :
    Shown documents p₀ b rows (.violation ⟨p, .rowIsDeferred⟩)

/-- A node is met as a content of the brick, or it occurs further inside, at a node of a content smaller than `n`. -/
def ShownOrInside (documents : String → Bool) (p₀ : Position) (b : Brick) (n : Nat) (rows : List Row) (site : Site) :
    Prop :=
  Shown documents p₀ b rows site ∨ ∃ outer c s, Holds documents p₀ b outer c ∧ c.size < n ∧
    s ∈ c.sites documents p₀ b ∧ Occurs outer s rows site

section

variable {outer rows : List Row} {p : Position} {s site : Site}

theorem Holds.inside {n : Nat} {c : Content} (h : Holds documents p₀ b outer c) (hn : c.size < n)
    (hs : s ∈ c.sites documents p₀ b) (ho : Occurs outer s rows site) : ShownOrInside documents p₀ b n rows site :=
  .inr ⟨outer, c, s, h, hn, hs, ho⟩

theorem Holds.shown_value {reach : Reach} {v : ConfigValue} (h : Holds documents p₀ b outer (.value p reach v))
    (hs : s ∈ valueSites documents p (reach.owner b) v) (ho : Occurs outer s rows site) :
    ShownOrInside documents p₀ b (sizeOf v) rows site := by
  cases v with
  | literal value =>
    obtain rfl : s = .literal p value := List.mem_singleton.1 hs
    cases ho
    exact .inl (.literal h)
  | expression e =>
    obtain rfl : s = .expression p e := List.mem_singleton.1 hs
    cases ho
    exact .inl (.expression h)
  | object members =>
    obtain ⟨⟨name, v⟩, hm, hs⟩ := mem_memberSites.1 hs
    refine (h.member hm).inside ?_ hs ho
    have := sizeOf_lt_of_member hm
    simp only [Content.size, ConfigValue.object.sizeOf_spec]
    omega
  | array items =>
    obtain ⟨i, v, hi, hs⟩ := mem_itemSites.1 hs
    rw [Nat.zero_add] at hs
    refine (h.item hi).inside ?_ hs ho
    have := sizeOf_lt_of_item hi
    simp only [Content.size, ConfigValue.array.sizeOf_spec]
    omega
  | pipeline inner =>
    obtain rfl := List.mem_singleton.1 hs
    cases ho
    exact .inl (.level h)
  | deferred body =>
    obtain rfl := List.mem_singleton.1 hs
    rw [Reach.brick_owner] at ho
    cases ho with
    | here => exact .inl (.deferred h)
    | deferred hs ho =>
      refine h.deferred.inside ?_ hs ho
      simp only [Content.size, ConfigValue.deferred.sizeOf_spec]
      omega

theorem Holds.shown_document {v : ConfigValue} (h : Holds documents p₀ b outer (.document v))
    (hs : s ∈ bodySites documents p₀ b v) (ho : Occurs outer s rows site) :
    ShownOrInside documents p₀ b (sizeOf v) rows site := by
  cases v with
  | array items =>
    obtain ⟨i, v, hi, rfl⟩ := mem_elementSites.1 hs
    rw [Nat.zero_add] at ho
    refine (h.top hi).inside ?_ (List.mem_singleton.2 rfl) ho
    have := sizeOf_lt_of_item hi
    simp only [Content.size, ConfigValue.array.sizeOf_spec]
    omega
  | _ =>
    obtain rfl := List.mem_singleton.1 hs
    cases ho
    exact .inl (.noList h (by simp))

/-- In the configuration of an element there are values, and the body of the rows of a list. -/
theorem Holds.shown_setting {v : ConfigValue} {e : Element} (h : Holds documents p₀ b outer (.element p v))
    (he : Element.ofConfig v = .ok e) (hr : e.lacksRow = false)
    (hs : s ∈ elementValueSites documents p b e (e.config.getD [])) (ho : Occurs outer s rows site) :
    ShownOrInside documents p₀ b (sizeOf v) rows site := by
  cases hc : e.config with
  | none => simp [hc, elementValueSites] at hs
  | some config =>
    rw [hc, Option.getD_some] at hs
    obtain ⟨⟨name, w⟩, hm, hs⟩ := mem_elementValueSites.1 hs
    have hw := sizeOf_lt_of_member hm
    have hconfig := Element.sizeOf_config_lt he hc
    split at hs
    · rename_i hrow
      obtain ⟨hl, rfl⟩ := hrow
      cases w with
      | deferred body =>
        refine (h.row he hr hl hc hm).inside ?_ hs ho
        simp only [Content.size, ConfigValue.deferred.sizeOf_spec] at hw ⊢
        omega
      | _ => cases hs
    · rename_i hn
      refine (h.setting he hr hc hm hn).inside ?_ hs ho
      simp only [Content.size]
      omega

theorem Holds.shown_element {v : ConfigValue} (h : Holds documents p₀ b outer (.element p v))
    (ho : Occurs outer (elementSite documents p b v) rows site) :
    ShownOrInside documents p₀ b (sizeOf v) rows site := by
  cases he : Element.ofConfig v with
  | error rule =>
    rw [elementSite_of_error he] at ho
    cases ho
    exact .inl (.noElement h he)
  | ok e =>
    rw [elementSite_of_ok he] at ho
    cases ho with
    | here => exact .inl (.element h)
    | element hs ho =>
      cases hr : e.lacksRow with
      | true =>
        rw [hr, if_pos rfl] at hs
        obtain rfl := List.mem_singleton.1 hs
        cases ho
        exact .inl (.noRow h he hr)
      | false =>
        rw [hr, if_neg (by simp)] at hs
        rcases List.mem_append.1 hs with hs | hs
        · exact h.shown_setting he hr hs ho
        · obtain ⟨i, w, hi, rfl⟩ := mem_elementSites.1 hs
          rw [Nat.zero_add] at ho
          exact (h.child he hr hi).inside (Element.sizeOf_child_lt he hi) (List.mem_singleton.2 rfl) ho

theorem Holds.shown_row {e : Element} {body : ConfigValue} (h : Holds documents p₀ b outer (.row p e body))
    (ho : Occurs outer (.deferred p b (some e) [elementSite documents p b body]) rows site) :
    ShownOrInside documents p₀ b (sizeOf body + 1) rows site := by
  cases ho with
  | here => exact .inl (.row h)
  | row hs ho => exact h.inRow.inside (Nat.lt_succ_self _) hs ho

/-- One step inwards: what occurs at a node of a content is shown, or it occurs at a node of a smaller content. -/
theorem Holds.shown_or_inside {c : Content} (h : Holds documents p₀ b outer c) (hs : s ∈ c.sites documents p₀ b)
    (ho : Occurs outer s rows site) : ShownOrInside documents p₀ b c.size rows site := by
  cases c with
  | value p reach v => exact h.shown_value hs ho
  | document v => exact h.shown_document hs ho
  | element p v =>
    obtain rfl := List.mem_singleton.1 hs
    exact h.shown_element ho
  | row p e body =>
    obtain rfl := List.mem_singleton.1 hs
    exact h.shown_row ho

/-- What occurs at a node of a content is shown. -/
theorem Holds.shown {c : Content} (h : Holds documents p₀ b outer c) (hs : s ∈ c.sites documents p₀ b)
    (ho : Occurs outer s rows site) : Shown documents p₀ b rows site := by
  induction hn : c.size using Nat.strong_induction_on generalizing c outer s with
  | _ n ih =>
    subst hn
    rcases h.shown_or_inside hs ho with hshown | ⟨outer', c', s', hc', hlt, hs', ho'⟩
    · exact hshown
    · exact ih _ hlt hc' hs' ho' rfl

end

/-- The outline of a brick shows nothing but its contents. -/
theorem shown_of_occurs {rows : List Row} {site : Site} (h : OccursIn (brickSite documents p₀ b).inside rows site) :
    Shown documents p₀ b rows site := by
  obtain ⟨s, hs, ho⟩ := h
  rw [brickSite_inside] at hs
  rcases List.mem_append.1 hs with hs | hs
  · cases hc : b.condition with
    | none => simp [hc, guardSites] at hs
    | some v =>
      rw [hc] at hs
      exact (Holds.guard hc).shown hs ho
  · obtain ⟨⟨name, v⟩, hm, hs⟩ := mem_configSites.1 hs
    split at hs
    · rename_i hd
      obtain ⟨hd, rfl⟩ := hd
      subst hs
      cases ho with
      | here => exact .document (Holds.document hm hd)
      | document hs ho => exact (Holds.document hm hd).shown hs ho
    · rename_i hd
      exact (Holds.config hm hd).shown hs ho

end

end BrickScope
