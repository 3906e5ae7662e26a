import BrickScope.Proofs.Pipeline.VisitOrder

/-!
# The spots of a pipeline

An analysis records a scope at every brick and every deferred body, and it checks every expression.  Here these spots are
enumerated on the tree itself, each with the steps that lead to it from the root, in the order in which they are met.
What a walk does not look into has no spots: members of an element other than its configuration and its children, and
values that do not fit their place.

* `Pipeline.spots`: the enumeration;
* `Pipeline.marks_outline`: the outline has just these spots, at the positions that their steps lead to;
* `Pipeline.Distinct`: no two members of an object have one name;
* `Pipeline.nodup_spots`: then no two spots have the same steps, but for an expression that is a deferred body.
-/

namespace BrickScope

/-- What is done at a spot. -/
inductive SpotKind where
  /-- The scope of a brick or of a deferred body is recorded. -/
  | recorded
  /-- An expression is checked. -/
  | checked
  deriving DecidableEq

/-- A place in a pipeline where something is recorded or checked, by the steps that lead to it. -/
structure Spot where
  steps : List String
  kind : SpotKind
  deriving DecidableEq

/-- The spots behind a step. -/
def under (step : String) (spots : List Spot) : List Spot := spots.map fun n => { n with steps := step :: n.steps }

/-- The members are those of an element that can be looked into. -/
def isOpenElement (members : List (String × ConfigValue)) : Bool :=
  match Element.ofConfig (.object members) with
  | .ok e => !e.lacksRow
  | .error _ => false

/-! ## the enumeration -/

section

variable (documents : String → Bool)

mutual

/-- The spots in a value that has some role. -/
def ConfigValue.spots (role : Role) : ConfigValue → List Spot
  | .literal _ => []
  | .object members =>
    match role with
    | .element =>
      if isOpenElement members then
        firstSpots "config" (.settings (isListElement members)) members ++ firstSpots "children" .elements members
      else []
    | .value | .settings _ => memberSpots (role.member false ·) members
    | .elements | .row => []
  | .array items =>
    match role with
    | .value | .elements => itemSpots role.item 0 items
    | _ => []
  | .expression _ => if role = .value then [⟨[], .checked⟩] else []
  | .pipeline bricks => if role = .value then under contentKey (brickSpots 0 bricks) else []
  | .deferred body =>
    match role with
    | .value | .row => under contentKey (⟨[], .recorded⟩ :: body.spots role.body)
    | _ => []
termination_by structural v => v

def memberSpots (role : String → Role) : List (String × ConfigValue) → List Spot
  | [] => []
  | (name, v) :: members => under name (v.spots (role name)) ++ memberSpots role members
termination_by structural v => v

/-- The spots in the first member with a name. -/
def firstSpots (name : String) (role : Role) : List (String × ConfigValue) → List Spot
  | [] => []
  | (name', v) :: members => if name' = name then under name (v.spots role) else firstSpots name role members
termination_by structural v => v

def itemSpots (role : Role) (index : Nat) : List ConfigValue → List Spot
  | [] => []
  | v :: items => under (toString index) (v.spots role) ++ itemSpots role (index + 1) items
termination_by structural v => v

def brickSpots (index : Nat) : List Brick → List Spot
  | [] => []
  | b :: bricks => under (toString index) b.spots ++ brickSpots (index + 1) bricks
termination_by structural v => v

def Brick.spots : Brick → List Spot
  | ⟨id, _, _, config, _, condition⟩ =>
    ⟨[], .recorded⟩ :: (under "if" (guardSpots condition) ++
      under "config" (memberSpots (Role.config (documents id)) config))
termination_by structural v => v

def guardSpots : Option ConfigValue → List Spot
  | none => []
  | some v => v.spots .value
termination_by structural v => v

end

/-- The spots of a pipeline whose document bricks have the ids `documents`. -/
def Pipeline.spots (p : Pipeline) : List Spot := brickSpots documents 0 p

end

/-! ## the spots of an outline -/

mutual

/-- The positions at which something is recorded or checked, in order. -/
def Site.marks : Site → List (Position × SpotKind)
  | .expression p _ => [(p, .checked)]
  | .level level => level.marks
  | .document _ _ inside => sitesMarks inside
  | .element _ _ _ inside => sitesMarks inside
  | .deferred p _ _ inside => (p, .recorded) :: sitesMarks inside
  | .literal _ _ | .violation _ => []
termination_by structural site => site

def sitesMarks : List Site → List (Position × SpotKind)
  | [] => []
  | site :: sites => site.marks ++ sitesMarks sites
termination_by structural sites => sites

def Level.marks : Level → List (Position × SpotKind)
  | ⟨_, _, bricks⟩ => bricksMarks bricks
termination_by structural level => level

def bricksMarks : List BrickSite → List (Position × SpotKind)
  | [] => []
  | b :: bricks => b.marks ++ bricksMarks bricks
termination_by structural bricks => bricks

def BrickSite.marks : BrickSite → List (Position × SpotKind)
  | ⟨p, _, _, inside⟩ => (p, .recorded) :: sitesMarks inside
termination_by structural b => b

end

theorem sitesMarks_append (xs ys : List Site) : sitesMarks (xs ++ ys) = sitesMarks xs ++ sitesMarks ys := by
  induction xs with
  | nil => rfl
  | cons x xs ih => rw [List.cons_append, sitesMarks, sitesMarks, ih, List.append_assoc]

theorem sitesMarks_singleton (site : Site) : sitesMarks [site] = site.marks := by
  rw [sitesMarks, sitesMarks, List.append_nil]

/-- A spot in a tree that stands at `p`. -/
def Spot.mark (p : Position) (n : Spot) : Position × SpotKind := (p.nested n.steps, n.kind)

theorem map_mark_under (p : Position) (step : String) (spots : List Spot) :
    (under step spots).map (Spot.mark p) = spots.map (Spot.mark (p.nested [step])) := by
  rw [under, List.map_map]
  refine List.map_congr_left fun n _ => ?_
  rw [Spot.mark, Position.nested_nested]
  rfl

theorem mark_here (p : Position) (kind : SpotKind) : Spot.mark p ⟨[], kind⟩ = (p, kind) := by
  rw [Spot.mark, Position.nested_nil]

section

variable (documents : String → Bool)

mutual

theorem marks_valueSites (p : Position) (owner : Owner) :
    ∀ v, sitesMarks (valueSites documents p owner v) = (v.spots documents .value).map (Spot.mark p)
  | .literal _ => rfl
  | .object members => marks_memberSites p owner members
  | .array items => marks_itemSites p owner 0 items
  | .expression _ => congrArg (· :: []) (mark_here p .checked).symm
  | .pipeline bricks => by
    rw [valueSites, sitesMarks_singleton, Site.marks, Level.marks, marks_brickSites (p.nested ["__value__"]) 0 bricks,
      ConfigValue.spots, if_pos rfl, map_mark_under]
    rfl
  | .deferred body => by
    rw [valueSites, sitesMarks_singleton, Site.marks, marks_valueSites (p.nested ["__value__"]) _ body,
      ConfigValue.spots, map_mark_under, List.map_cons, mark_here]
    rfl
termination_by structural v => v

theorem marks_memberSites (p : Position) (owner : Owner) :
    ∀ members, sitesMarks (memberSites documents p owner members) =
      (memberSpots documents (fun _ => .value) members).map (Spot.mark p)
  | [] => rfl
  | (name, v) :: members => by
    rw [memberSites, sitesMarks_append, memberSpots, List.map_append, map_mark_under,
      marks_valueSites (p.nested [name]) owner v, marks_memberSites p owner members]
termination_by structural v => v

theorem marks_itemSites (p : Position) (owner : Owner) (index : Nat) :
    ∀ items, sitesMarks (itemSites documents p owner index items) =
      (itemSpots documents .value index items).map (Spot.mark p)
  | [] => rfl
  | v :: items => by
    rw [itemSites, sitesMarks_append, itemSpots, List.map_append, map_mark_under,
      marks_valueSites (p.nested [toString index]) owner v, marks_itemSites p owner (index + 1) items]
termination_by structural v => v

theorem marks_brickSites (p : Position) (index : Nat) :
    ∀ bricks, bricksMarks (brickSites documents p index bricks) =
      (brickSpots documents index bricks).map (Spot.mark p)
  | [] => rfl
  | b :: bricks => by
    rw [brickSites, bricksMarks, brickSpots, List.map_append, map_mark_under,
      marks_brickSite (p.nested [toString index]) b, marks_brickSites p (index + 1) bricks]
termination_by structural v => v

theorem marks_brickSite (p : Position) :
    ∀ b, (brickSite documents p b).marks = (b.spots documents).map (Spot.mark p)
  | ⟨id, instanceId, label, config, outputKey, condition⟩ => by
    rw [brickSite, BrickSite.marks, sitesMarks_append, Brick.spots, List.map_cons, mark_here, List.map_append,
      map_mark_under, marks_guardSites p _ condition, marks_configSites p _ config]
termination_by structural v => v

theorem marks_guardSites (p : Position) (brick : Brick) :
    ∀ condition, sitesMarks (guardSites documents p brick condition) =
      (guardSpots documents condition).map (Spot.mark (p.nested ["if"]))
  | none => rfl
  | some v => marks_valueSites (p.nested ["if"]) _ v
termination_by structural v => v

theorem marks_configSites (p : Position) (brick : Brick) :
    ∀ members, sitesMarks (configSites documents p brick members) =
      (under "config" (memberSpots documents (Role.config (documents brick.id)) members)).map (Spot.mark p)
  | [] => rfl
  | (name, v) :: members => by
    rw [configSites, sitesMarks_append, marks_configSites p brick members, memberSpots, map_mark_under, map_mark_under,
      List.map_append, map_mark_under, Position.nested_nested]
    congr 1
    unfold Role.config
    by_cases hbody : (documents brick.id && name = bodyKey) = true
    · -- the outline puts a node of its own around the body of a document, which has no spot
      rw [if_pos hbody, if_pos hbody, sitesMarks_singleton, Site.marks, marks_bodySites p brick v]
      have hname : name = bodyKey := by simpa using (Bool.and_eq_true_iff.1 hbody).2
      rw [hname]
      rfl
    · rw [if_neg hbody, if_neg hbody]
      exact marks_valueSites (p.nested ["config", name]) _ v
termination_by structural v => v

theorem marks_bodySites (p : Position) (brick : Brick) :
    ∀ v, sitesMarks (bodySites documents p brick v) =
      (v.spots documents .elements).map (Spot.mark (p.nested ["config", bodyKey]))
  | .array items => marks_elementSites (p.nested ["config", bodyKey]) brick 0 items
  | .literal _ | .object _ | .expression _ | .pipeline _ | .deferred _ => rfl
termination_by structural v => v

theorem marks_elementSites (p : Position) (brick : Brick) (index : Nat) :
    ∀ items, sitesMarks (elementSites documents p brick index items) =
      (itemSpots documents .element index items).map (Spot.mark p)
  | [] => rfl
  | v :: items => by
    rw [elementSites, sitesMarks, itemSpots, List.map_append, map_mark_under,
      marks_elementSite (p.nested [toString index]) brick v, marks_elementSites p brick (index + 1) items]
termination_by structural v => v

theorem marks_elementSite (p : Position) (brick : Brick) :
    ∀ v, (elementSite documents p brick v).marks = (v.spots documents .element).map (Spot.mark p)
  | .object members => by
    have hconfig := fun e => marks_elementConfigSites p brick e members
    have hchildren := marks_childSites p brick members
    rw [elementSite, ConfigValue.spots, isOpenElement]
    cases he : Element.ofConfig (.object members) with
    | error rule => rfl
    | ok e =>
      dsimp only
      rw [Site.marks, isListElement_of_ofConfig he]
      by_cases hrow : e.lacksRow = true
      · rw [if_pos hrow, if_neg (by simp [hrow])]
        rfl
      · rw [if_neg hrow, if_pos (by simp [hrow]), sitesMarks_append, hconfig e, hchildren, List.map_append]
  | .array _ | .literal _ | .expression _ | .pipeline _ | .deferred _ => rfl
termination_by structural v => v

theorem marks_elementConfigSites (p : Position) (brick : Brick) (e : Element) :
    ∀ members, sitesMarks (elementConfigSites documents p brick e members) =
      (firstSpots documents "config" (.settings e.isList) members).map (Spot.mark p)
  | [] => rfl
  | (name, v) :: members => by
    rw [elementConfigSites, firstSpots]
    split
    · rw [map_mark_under]
      exact marks_settingSites p brick e v
    · exact marks_elementConfigSites p brick e members
termination_by structural v => v

theorem marks_settingSites (p : Position) (brick : Brick) (e : Element) :
    ∀ v, sitesMarks (settingSites documents p brick e v) =
      (v.spots documents (.settings e.isList)).map (Spot.mark (p.nested ["config"]))
  | .object config => marks_elementValueSites p brick e config
  | .array _ | .literal _ | .expression _ | .pipeline _ | .deferred _ => rfl
termination_by structural v => v

theorem marks_elementValueSites (p : Position) (brick : Brick) (e : Element) :
    ∀ members, sitesMarks (elementValueSites documents p brick e members) =
      (memberSpots documents (Role.member false · (.settings e.isList)) members).map (Spot.mark (p.nested ["config"]))
  | [] => rfl
  | (name, v) :: members => by
    rw [elementValueSites, sitesMarks_append, marks_elementValueSites p brick e members, memberSpots, List.map_append,
      map_mark_under, Position.nested_nested]
    congr 1
    rw [Role.member]
    by_cases hrow : (e.isList && name = Element.rowKey) = true
    · rw [if_pos hrow, if_pos hrow]
      exact marks_rowSites (p.nested ["config", name]) brick e v
    · rw [if_neg hrow, if_neg hrow]
      exact marks_valueSites (p.nested ["config", name]) _ v
termination_by structural v => v

theorem marks_rowSites (p : Position) (brick : Brick) (e : Element) :
    ∀ v, sitesMarks (rowSites documents p brick e v) = (v.spots documents .row).map (Spot.mark p)
  | .deferred body => by
    rw [rowSites, sitesMarks_singleton, Site.marks, sitesMarks_singleton,
      marks_elementSite (p.nested ["__value__"]) brick body, ConfigValue.spots, map_mark_under, List.map_cons, mark_here]
    rfl
  | .object _ | .array _ | .literal _ | .expression _ | .pipeline _ => rfl
termination_by structural v => v

theorem marks_childSites (p : Position) (brick : Brick) :
    ∀ members, sitesMarks (childSites documents p brick members) =
      (firstSpots documents "children" .elements members).map (Spot.mark p)
  | [] => rfl
  | (name, v) :: members => by
    rw [childSites, firstSpots]
    split
    · rw [map_mark_under]
      exact marks_childrenSites p brick v
    · exact marks_childSites p brick members
termination_by structural v => v

theorem marks_childrenSites (p : Position) (brick : Brick) :
    ∀ v, sitesMarks (childrenSites documents p brick v) =
      (v.spots documents .elements).map (Spot.mark (p.nested ["children"]))
  | .array items => marks_elementSites (p.nested ["children"]) brick 0 items
  | .object _ | .literal _ | .expression _ | .pipeline _ | .deferred _ => rfl
termination_by structural v => v

end

end

/-- The outline of a pipeline has its spots, each at the position that its steps lead to. -/
theorem Pipeline.marks_outline (documents : String → Bool) (root : Position) (p : Pipeline) :
    (Pipeline.outline documents root p).marks = (Pipeline.spots documents p).map (Spot.mark root) :=
  marks_brickSites documents root 0 p

/-! ## spots part by part -/

section

variable (documents : String → Bool)

theorem memberSpots_eq (role : String → Role) (members : List (String × ConfigValue)) :
    memberSpots documents role members = members.flatMap fun m => under m.1 (m.2.spots documents (role m.1)) := by
  induction members with
  | nil => rfl
  | cons m members ih => rw [memberSpots, List.flatMap_cons, ih]

theorem firstSpots_eq (name : String) (role : Role) (members : List (String × ConfigValue)) :
    firstSpots documents name role members =
      ((Table.get? members name).map fun v => under name (v.spots documents role)).getD [] := by
  induction members with
  | nil => rfl
  | cons m members ih =>
    rw [firstSpots, Table.get?, ih]
    split <;> rfl

theorem itemSpots_eq (role : Role) (index : Nat) (items : List ConfigValue) :
    itemSpots documents role index items =
      (items.zipIdx index).flatMap fun x => under (toString x.2) (x.1.spots documents role) := by
  induction items generalizing index with
  | nil => rfl
  | cons v items ih => rw [itemSpots, List.zipIdx_cons, List.flatMap_cons, ih]

theorem brickSpots_eq (index : Nat) (bricks : List Brick) :
    brickSpots documents index bricks =
      (bricks.zipIdx index).flatMap fun x => under (toString x.2) (x.1.spots documents) := by
  induction bricks generalizing index with
  | nil => rfl
  | cons b bricks ih => rw [brickSpots, List.zipIdx_cons, List.flatMap_cons, ih]

theorem Brick.spots_eq (b : Brick) :
    b.spots documents = ⟨[], .recorded⟩ :: (under "if" (guardSpots documents b.condition) ++
      under "config" (memberSpots documents (Role.config (documents b.id)) b.config)) := by
  obtain ⟨id, instanceId, label, config, outputKey, condition⟩ := b
  rw [Brick.spots]

/-- In an object nothing is looked at, or all members are, or it is an element. -/
theorem spots_object_cases (role : Role) (members : List (String × ConfigValue)) :
    (ConfigValue.object members).spots documents role = [] ∨
    (∃ roles, (ConfigValue.object members).spots documents role = memberSpots documents roles members) ∨
    ∃ list, (ConfigValue.object members).spots documents role =
      firstSpots documents "config" (.settings list) members ++ firstSpots documents "children" .elements members := by
  cases role with
  | value | settings _ => exact .inr (.inl ⟨_, rfl⟩)
  | elements | row => exact .inl rfl
  | element =>
    rw [ConfigValue.spots]
    split
    · exact .inr (.inr ⟨_, rfl⟩)
    · exact .inl rfl

theorem spots_array_cases (role : Role) (items : List ConfigValue) :
    (ConfigValue.array items).spots documents role = [] ∨
    ∃ role', (ConfigValue.array items).spots documents role = itemSpots documents role' 0 items := by
  cases role with
  | value | elements => exact .inr ⟨_, rfl⟩
  | element | settings _ | row => exact .inl rfl

theorem spots_deferred_cases (role : Role) (body : ConfigValue) :
    (ConfigValue.deferred body).spots documents role = [] ∨
    ∃ role', (ConfigValue.deferred body).spots documents role =
      under contentKey (⟨[], .recorded⟩ :: body.spots documents role') := by
  cases role with
  | value | row => exact .inr ⟨_, rfl⟩
  | element | settings _ | elements => exact .inl rfl

end

/-! ## spots told apart by their steps -/

theorem head?_of_mem_under {step : String} {spots : List Spot} {n : Spot} (h : n ∈ under step spots) :
    n.steps.head? = some step := by
  obtain ⟨m, -, rfl⟩ := List.mem_map.1 h
  rfl

theorem nodup_under {step : String} {spots : List Spot} (h : spots.Nodup) : (under step spots).Nodup := by
  refine h.map fun m n he => ?_
  obtain ⟨hs, hk⟩ := Spot.mk.inj he
  obtain ⟨ms, mk⟩ := m
  obtain ⟨ns, nk⟩ := n
  obtain rfl : ms = ns := (List.cons.inj hs).2
  obtain rfl : mk = nk := hk
  rfl

/-- Spots behind different steps are different. -/
theorem nodup_append_of_head? {step step' : String} (hne : step ≠ step') {spots spots' : List Spot} (h : spots.Nodup)
    (h' : spots'.Nodup) (hhead : ∀ n ∈ spots, n.steps.head? = some step)
    (hhead' : ∀ n ∈ spots', n.steps.head? = some step') : (spots ++ spots').Nodup := by
  refine List.Nodup.append h h' fun n hn hn' => hne ?_
  exact Option.some.inj ((hhead n hn).symm.trans (hhead' n hn'))

/-- Parts with different names have different spots. -/
theorem nodup_parts {α : Type} {l : List α} {name : α → String} {spots : α → List Spot} (hnames : (l.map name).Nodup)
    (h : ∀ a ∈ l, (spots a).Nodup) : (l.flatMap fun a => under (name a) (spots a)).Nodup := by
  induction l with
  | nil => exact .nil
  | cons a l ih =>
    obtain ⟨hnew, hnames⟩ := List.nodup_cons.1 hnames
    obtain ⟨ha, h⟩ := List.forall_mem_cons.1 h
    refine List.Nodup.append (nodup_under ha) (ih hnames h) fun n hn hn' => hnew ?_
    obtain ⟨a', ha', hn'⟩ := List.mem_flatMap.1 hn'
    have hname : name a = name a' := Option.some.inj ((head?_of_mem_under hn).symm.trans (head?_of_mem_under hn'))
    exact hname ▸ List.mem_map_of_mem ha'

mutual

/-- No two members of an object have one name, at any depth. -/
inductive ConfigValue.Distinct : ConfigValue → Prop
  | literal (value : Scalar) : ConfigValue.Distinct (.literal value)
  | object {members : List (String × ConfigValue)} (names : (Table.keys members).Nodup)
    (h : ∀ m ∈ members, m.2.Distinct) : ConfigValue.Distinct (.object members)
  | array {items : List ConfigValue} (h : ∀ v ∈ items, v.Distinct) : ConfigValue.Distinct (.array items)
  | expression (e : Expression) : ConfigValue.Distinct (.expression e)
  | pipeline {bricks : List Brick} (h : ∀ b ∈ bricks, b.Distinct) : ConfigValue.Distinct (.pipeline bricks)
  | deferred {body : ConfigValue} (h : body.Distinct) : ConfigValue.Distinct (.deferred body)

inductive Brick.Distinct : Brick → Prop
  | mk {b : Brick} (names : (Table.keys b.config).Nodup) (h : ∀ m ∈ b.config, m.2.Distinct)
    (guard : ∀ v, b.condition = some v → v.Distinct) : Brick.Distinct b

end

/-- No two members of an object or of a configuration in the pipeline have one name. -/
def Pipeline.Distinct (p : Pipeline) : Prop := ∀ b ∈ p, b.Distinct

theorem ascends_distinct : Ascends (fun v => v.Readable → v.Distinct) (fun b => b.Readable → b.Distinct) where
  literal value _ := .literal value
  object members h hr := .object hr.1 fun m hm => h m hm (membersReadable_iff.1 hr.2.2 m hm)
  array items h hr := .array fun v hv => h v hv (itemsReadable_iff.1 hr v hv)
  expression e _ := .expression e
  pipeline bricks h hr := .pipeline fun b hb => h b hb (bricksReadable_iff.1 hr b hb)
  deferred body h hr := .deferred (h hr)
  brick b hguard hconfig hr := by
    obtain ⟨names, hmembers, hg⟩ := Brick.readable_iff.1 hr
    refine .mk names (fun m hm => hconfig m hm (hmembers m hm)) fun v hv => hguard v hv ?_
    rw [hv] at hg
    exact hg.2

/-- So it is with all that can be read. -/
theorem Pipeline.distinct_of_readable {p : Pipeline} (h : BricksReadable p) : p.Distinct :=
  fun b hb => ascends_distinct.ofBrick b (bricksReadable_iff.1 h b hb)

section

variable {documents : String → Bool}

theorem not_here_under {step : String} {spots : List Spot} {kind : SpotKind} : ⟨[], kind⟩ ∉ under step spots :=
  fun h => nomatch head?_of_mem_under h

theorem not_here_parts {α : Type} {l : List α} {name : α → String} {spots : α → List Spot} {kind : SpotKind} :
    ⟨[], kind⟩ ∉ l.flatMap fun a => under (name a) (spots a) := by
  intro h
  obtain ⟨a, -, h⟩ := List.mem_flatMap.1 h
  exact not_here_under h

theorem head?_of_mem_firstSpots {name : String} {role : Role} {members : List (String × ConfigValue)} {n : Spot}
    (h : n ∈ firstSpots documents name role members) : n.steps.head? = some name := by
  rw [firstSpots_eq] at h
  cases hg : Table.get? members name with
  | none =>
    rw [hg] at h
    cases h
  | some v =>
    rw [hg] at h
    exact head?_of_mem_under h

/-- What is recorded in a value is recorded behind a step. -/
theorem ConfigValue.not_recorded_here (v : ConfigValue) (role : Role) :
    (⟨[], .recorded⟩ : Spot) ∉ v.spots documents role := by
  cases v with
  | literal value => exact List.not_mem_nil
  | object members =>
    obtain he | ⟨roles, he⟩ | ⟨list, he⟩ := spots_object_cases documents role members <;> rw [he]
    · exact List.not_mem_nil
    · rw [memberSpots_eq]
      exact not_here_parts
    · rw [List.mem_append]
      rintro (h | h) <;> cases head?_of_mem_firstSpots h
  | array items =>
    obtain he | ⟨role', he⟩ := spots_array_cases documents role items <;> rw [he]
    · exact List.not_mem_nil
    · rw [itemSpots_eq]
      exact not_here_parts
  | expression e =>
    rw [ConfigValue.spots]
    split <;> simp
  | pipeline bricks =>
    rw [ConfigValue.spots]
    split
    · exact not_here_under
    · exact List.not_mem_nil
  | deferred body =>
    obtain he | ⟨role', he⟩ := spots_deferred_cases documents role body <;> rw [he]
    · exact List.not_mem_nil
    · exact not_here_under

end

section

variable (documents : String → Bool)

theorem nodup_memberSpots {role : String → Role} {members : List (String × ConfigValue)}
    (names : (Table.keys members).Nodup) (h : ∀ m ∈ members, ∀ role, (m.2.spots documents role).Nodup) :
    (memberSpots documents role members).Nodup := by
  rw [memberSpots_eq]
  exact nodup_parts names fun m hm => h m hm _

theorem nodup_firstSpots {name : String} {role : Role} {members : List (String × ConfigValue)}
    (h : ∀ m ∈ members, ∀ role, (m.2.spots documents role).Nodup) :
    (firstSpots documents name role members).Nodup := by
  rw [firstSpots_eq]
  cases hg : Table.get? members name with
  | none => exact .nil
  | some v => exact nodup_under (h _ (Table.mem_of_get? hg) role)

theorem nodup_itemSpots {role : Role} {items : List ConfigValue} (h : ∀ v ∈ items, ∀ role, (v.spots documents role).Nodup)
    (index : Nat) : (itemSpots documents role index items).Nodup := by
  rw [itemSpots_eq]
  exact nodup_parts (areSteps_zipIdx items index).1 fun x hx => h x.1 (List.fst_mem_of_mem_zipIdx hx) role

theorem nodup_brickSpots {bricks : List Brick} (h : ∀ b ∈ bricks, (b.spots documents).Nodup) (index : Nat) :
    (brickSpots documents index bricks).Nodup := by
  rw [brickSpots_eq]
  exact nodup_parts (areSteps_zipIdx bricks index).1 fun x hx => h x.1 (List.fst_mem_of_mem_zipIdx hx)

theorem ascends_nodup_spots :
    Ascends (fun v => v.Distinct → ∀ role, (v.spots documents role).Nodup)
      (fun b => b.Distinct → (b.spots documents).Nodup) where
  literal _ _ _ := .nil
  object members h hd role := by
    cases hd with | object names hd =>
    have hmembers := fun m hm => h m hm (hd m hm)
    obtain he | ⟨roles, he⟩ | ⟨list, he⟩ := spots_object_cases documents role members <;> rw [he]
    · exact .nil
    · exact nodup_memberSpots documents names hmembers
    · exact nodup_append_of_head? (by decide) (nodup_firstSpots documents hmembers)
        (nodup_firstSpots documents hmembers) (fun _ => head?_of_mem_firstSpots) fun _ => head?_of_mem_firstSpots
  array items h hd role := by
    cases hd with | array hd =>
    obtain he | ⟨role', he⟩ := spots_array_cases documents role items <;> rw [he]
    · exact .nil
    · exact nodup_itemSpots documents (fun v hv => h v hv (hd v hv)) 0
  expression e _ role := by
    rw [ConfigValue.spots]
    split
    · exact List.nodup_singleton _
    · exact .nil
  pipeline bricks h hd role := by
    cases hd with | pipeline hd =>
    rw [ConfigValue.spots]
    split
    · exact nodup_under (nodup_brickSpots documents (fun b hb => h b hb (hd b hb)) 0)
    · exact .nil
  deferred body h hd role := by
    cases hd with | deferred hd =>
    obtain he | ⟨role', he⟩ := spots_deferred_cases documents role body <;> rw [he]
    · exact .nil
    · -- the body itself may be checked here as well, but that is a spot of another kind
      exact nodup_under (List.nodup_cons.2 ⟨body.not_recorded_here role', h hd role'⟩)
  brick b hguard hconfig hd := by
    cases hd with | mk names hmembers hg =>
    have hif : (guardSpots documents b.condition).Nodup := by
      cases hc : b.condition with
      | none => exact .nil
      | some v => exact hguard v hc (hg v hc) .value
    rw [Brick.spots_eq, List.nodup_cons, List.mem_append]
    refine ⟨not_or.2 ⟨not_here_under, not_here_under⟩, nodup_append_of_head? (by decide) (nodup_under hif)
      (nodup_under ?_) (fun _ => head?_of_mem_under) fun _ => head?_of_mem_under⟩
    exact nodup_memberSpots documents names fun m hm => hconfig m hm (hmembers m hm)

/-- No two spots of a pipeline have the same steps and the same kind. -/
theorem Pipeline.nodup_spots {p : Pipeline} (h : p.Distinct) : (p.spots documents).Nodup :=
  nodup_brickSpots documents (fun b hb => (ascends_nodup_spots documents).ofBrick b (h b hb)) 0

end

end BrickScope
