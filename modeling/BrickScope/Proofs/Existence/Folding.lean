import BrickScope.Proofs.Existence.Evidence
import BrickScope.Proofs.Pipeline.Position
import BrickScope.Proofs.Spelling

/-!
# Finding a value again

A value leaves a tree of its members, and the elements of a list share the node of the list.  So a node may see values of
different shapes, one after the other: it has a child for every name that one of them holds something under, but it is a
list only if the last of them is one.

* `Json.At`: the locations in a value;
* `Json.place`: the values that are seen at one node, in their order;
* `Node.child?_ofSeen`, `Node.isArray_ofSeen`: the tree of some values, by what they hold;
* `Json.lookup_ofSeen_iff`: look-up in that tree, without the tree;
* `Json.Missed`: the locations that are not found again, `Json.not_found_iff_missed`;
* `Scope.observed_locations`: which locations of a value are known, and when all of them are.
-/

namespace BrickScope

/-! ## locations and places -/

namespace Json

/-- One step into a value. -/
inductive Step where
  | key (name : String)
  | index (i : Nat)

/-- The location `l` of a value holds `w`. -/
inductive At : Json → List Step → Json → Prop
  | here (v : Json) : At v [] v
  | member {members : List (String × Json)} {name : String} {v w : Json} {l : List Step} (hm : (name, v) ∈ members)
    (h : At v l w) : At (.object members) (.key name :: l) w
  | element {items : List Json} {i : Nat} {v w : Json} {l : List Step} (hi : items[i]? = some v) (h : At v l w) :
    At (.array items) (.index i :: l) w

mutual

/-- What the objects in a value hold under a name, those inside of lists one after the other. -/
def under (name : String) : Json → List Json
  | .scalar _ => []
  | .array items => underAll name items
  | .object members => (members.filter fun m => m.1 = name).map Prod.snd

def underAll (name : String) : List Json → List Json
  | [] => []
  | v :: vs => v.under name ++ underAll name vs

end

/-- The values that are seen at the end of a path of names, in the order in which they are seen. -/
def place (vs : List Json) : List String → List Json
  | [] => vs
  | name :: names => place (underAll name vs) names

/-- The value that is seen last is a list. -/
def endsInList (vs : List Json) : Bool := (vs.getLast?.map isArray).getD false

end Json

/-! ## the tree of some values -/

namespace Node

theorem observeItems_append (n : Node) (vs ws : List Json) :
    n.observeItems (vs ++ ws) = (n.observeItems vs).observeItems ws := by
  induction vs generalizing n with
  | nil => rfl
  | cons v vs ih => exact ih (n.observe v)

/-- A child that may not be there, when some values have been seen there. -/
def seen (c : Option Node) : List Json → Option Node
  | [] => c
  | v :: vs => some ((c.getD {}).observeItems (v :: vs))

theorem seen_append (c : Option Node) (vs ws : List Json) : seen c (vs ++ ws) = seen (seen c vs) ws := by
  cases vs with
  | nil => rfl
  | cons v vs =>
    cases ws with
    | nil => rw [List.append_nil]; rfl
    | cons w ws => exact congrArg some (observeItems_append _ (v :: vs) (w :: ws))

mutual

theorem child?_observe (name : String) :
    ∀ (v : Json) (n : Node), (n.observe v).child? name = seen (n.child? name) (v.under name)
  | .scalar _, _ => rfl
  | .array items, n => child?_observeItems name items (n.stamp .definitely false true)
  | .object members, n => child?_observeMembers name members (n.stamp .definitely false false)

theorem child?_observeItems (name : String) : ∀ (vs : List Json) (n : Node),
    (n.observeItems vs).child? name = seen (n.child? name) (Json.underAll name vs)
  | [], _ => rfl
  | v :: vs, n => by
    rw [Json.underAll, seen_append, ← child?_observe name v n]
    exact child?_observeItems name vs (n.observe v)

theorem child?_observeMembers (name : String) : ∀ (members : List (String × Json)) (n : Node),
    (n.observeMembers members).child? name =
      seen (n.child? name) ((members.filter fun m => m.1 = name).map Prod.snd)
  | [], _ => rfl
  | (k, v) :: members, n => by
    have ih := child?_observeMembers name members (n.updateChild k fun c => c.observe v)
    rw [child?_updateChild] at ih
    by_cases h : name = k
    · subst h
      rw [if_pos rfl] at ih
      rw [List.filter_cons_of_pos (by simp), List.map_cons]
      exact ih.trans (seen_append _ [v] _).symm
    · rw [if_neg h] at ih
      rw [List.filter_cons_of_neg (by simpa using Ne.symm h)]
      exact ih

end

theorem isArray_observeMembers (n : Node) (members : List (String × Json)) :
    (n.observeMembers members).isArray = n.isArray := by
  induction members generalizing n with
  | nil => rfl
  | cons m members ih => exact ih _

theorem isArray_observe (n : Node) (v : Json) : (n.observe v).isArray = v.isArray := by
  cases v with
  | scalar => rfl
  | array => rfl
  | object members => exact isArray_observeMembers _ members

/-- The tree that some values leave, one after the other. -/
def ofSeen (vs : List Json) : Node := ({} : Node).observeItems vs

theorem isArray_ofSeen (vs : List Json) : (ofSeen vs).isArray = Json.endsInList vs := by
  rcases List.eq_nil_or_concat vs with rfl | ⟨ws, v, rfl⟩
  · rfl
  · rw [List.concat_eq_append, ofSeen, observeItems_append, Json.endsInList, List.getLast?_concat]
    exact isArray_observe _ v

theorem child?_ofSeen (vs : List Json) (name : String) :
    (ofSeen vs).child? name = if Json.underAll name vs = [] then none else some (ofSeen (Json.underAll name vs)) := by
  rw [ofSeen, child?_observeItems]
  cases Json.underAll name vs with
  | nil => rfl
  | cons w ws => rfl

theorem certain_ofSeen {vs : List Json} (h : vs ≠ []) : (ofSeen vs).Certain := by
  obtain ⟨v, vs, rfl⟩ := List.exists_cons_of_ne_nil h
  exact certain_observeItems vs _ (certain_observe v _ certainBelow_empty)

end Node

/-! ## look-up by values -/

namespace Json

/-- The segments lead from the values at a node to values at a node. -/
inductive Found : List Json → List String → Prop
  | here (vs : List Json) : Found vs []
  | member {vs : List Json} {s : String} {path : List String} (hm : underAll s vs ≠ [])
    (h : Found (underAll s vs) path) : Found vs (s :: path)
  | element {vs : List Json} {s : String} {path : List String} (hm : underAll s vs = []) (hl : endsInList vs = true)
    (hs : Reference.isIndex s = true) (h : Found vs path) : Found vs (s :: path)

section

variable {vs : List Json} {s : String} {path : List String}

theorem found_cons_of_member (hm : underAll s vs ≠ []) : Found vs (s :: path) ↔ Found (underAll s vs) path := by
  constructor
  · intro h
    cases h with
    | member _ h => exact h
    | element hm' => exact absurd hm' hm
  · exact .member hm

theorem found_cons_of_none (hm : underAll s vs = []) :
    Found vs (s :: path) ↔ (endsInList vs = true ∧ Reference.isIndex s = true) ∧ Found vs path := by
  constructor
  · intro h
    cases h with
    | member hm' => exact absurd hm hm'
    | element _ hl hs h => exact ⟨⟨hl, hs⟩, h⟩
  · rintro ⟨⟨hl, hs⟩, h⟩
    exact .element hm hl hs h

/-- Look-up in the tree of some values. -/
theorem lookup_ofSeen_iff (h : vs ≠ []) : (Node.ofSeen vs).lookup path = some .definitely ↔ Found vs path := by
  induction path generalizing vs with
  | nil =>
    obtain ⟨⟨he, ha⟩, -⟩ := Node.certain_iff.1 (Node.certain_ofSeen h)
    have hlook : (Node.ofSeen vs).lookup [] = some .definitely := by
      rw [Node.lookup, ha, he]
      rfl
    exact ⟨fun _ => .here vs, fun _ => hlook⟩
  | cons s path ih =>
    have hany := (Node.certain_ofSeen h).anyChild_eq
    have hc := Node.child?_ofSeen vs s
    by_cases hm : underAll s vs = []
    · rw [if_pos hm] at hc
      rw [Node.lookup_cons_of_none hany hc, found_cons_of_none hm, Node.isArray_ofSeen, ← ih h, ← Bool.and_eq_true]
      split
      · rename_i hb
        simp [hb]
      · rename_i hb
        simp [hb]
    · rw [if_neg hm] at hc
      rw [Node.lookup_cons_of_child hany hc, found_cons_of_member hm]
      exact ih hm

end

/-! ## locations that are missed -/

theorem At.trans {u v w : Json} {l l' : List Step} (h : u.At l v) (h' : v.At l' w) : u.At (l ++ l') w := by
  induction h with
  | here => exact h'
  | member hm _ ih => exact .member hm (ih h')
  | element hi _ ih => exact .element hi (ih h')

/-- A value is among those at a node: it is one of them, or an element of a list among them. -/
inductive Among (vs : List Json) : Json → Prop
  | one {v : Json} (h : v ∈ vs) : Among vs v
  | element {v : Json} {items : List Json} (h : Among vs (.array items)) (hv : v ∈ items) : Among vs v

theorem mem_underAll {name : String} {vs : List Json} {w : Json} :
    w ∈ underAll name vs ↔ ∃ v ∈ vs, w ∈ v.under name := by
  induction vs with
  | nil => simp [underAll]
  | cons v vs ih => simp [underAll, ih]

theorem Among.mem_underAll {vs : List Json} {v w : Json} {name : String} (h : Among vs v) (hw : w ∈ v.under name) :
    w ∈ underAll name vs := by
  induction h with
  | one hv => exact Json.mem_underAll.2 ⟨_, hv, hw⟩
  | element _ hv ih => exact ih (Json.mem_underAll.2 ⟨_, hv, hw⟩)

theorem mem_under_object {name : String} {members : List (String × Json)} {w : Json} :
    w ∈ under name (.object members) ↔ (name, w) ∈ members := by
  simp [under]

namespace Step

/-- The segment that stands for a step in a reference. -/
def segment : Step → String
  | key name => name
  | index i => toString i

/-- A member bears a name, an element does not. -/
def name? : Step → Option String
  | key name => some name
  | index _ => none

theorem isIndex_toString (i : Nat) : Reference.isIndex (toString i) = true := by
  have hne : (toString i).isEmpty = false := by
    simp
  have hall : (toString i).toList.all Text.isDecimal = true :=
    List.all_eq_true.2 fun c hc => Text.isDecimal_of_isDigit (Position.isDigit_of_mem_toString hc)
  rw [Reference.isIndex, hne, hall]
  rfl

end Step

/-- A location that is not found again, from the values that are seen at a node. -/
inductive Missed : List Json → List Step → Prop
  /-- The value that is seen last is no list, so that no index is passed over. -/
  | noList {vs : List Json} {i : Nat} {l : List Step} (hm : underAll (toString i) vs = [])
    (hl : endsInList vs = false) : Missed vs (.index i :: l)
  /-- The index is the name of a member, and the location does not go on there. -/
  | member {vs : List Json} {i : Nat} {l : List Step} (hm : underAll (toString i) vs ≠ [])
    (h : ¬Found (underAll (toString i) vs) (l.map Step.segment)) : Missed vs (.index i :: l)
  /-- The index is passed over, and the location is missed behind it. -/
  | behind {vs : List Json} {i : Nat} {l : List Step} (hm : underAll (toString i) vs = [])
    (hl : endsInList vs = true) (h : Missed vs l) : Missed vs (.index i :: l)
  /-- The location is missed below a member. -/
  | inside {vs : List Json} {name : String} {l : List Step} (h : Missed (underAll name vs) l) :
    Missed vs (.key name :: l)

theorem not_found_iff_missed {v w : Json} {l : List Step} (h : v.At l w) {vs : List Json} (hv : Among vs v) :
    ¬Found vs (l.map Step.segment) ↔ Missed vs l := by
  induction h generalizing vs with
  | here =>
    constructor
    · intro hf
      exact absurd (.here vs) hf
    · intro hf
      cases hf
  | @member members name v w l hm _ ih =>
    have hw : v ∈ underAll name vs := hv.mem_underAll (mem_under_object.2 hm)
    have hne : underAll name vs ≠ [] := List.ne_nil_of_mem hw
    rw [List.map_cons, Step.segment, found_cons_of_member hne, ih (.one hw)]
    constructor
    · exact .inside
    · intro hf
      cases hf with
      | inside hf => exact hf
  | @element items i v w l hi _ ih =>
    rw [List.map_cons, Step.segment]
    by_cases hm : underAll (toString i) vs = []
    · rw [found_cons_of_none hm, Step.isIndex_toString]
      have ih := ih (hv.element (List.mem_of_getElem? hi))
      constructor
      · intro hf
        cases hl : endsInList vs with
        | false => exact .noList hm hl
        | true => exact .behind hm hl (ih.1 fun hrest => hf ⟨⟨hl, rfl⟩, hrest⟩)
      · rintro hf ⟨⟨hl, -⟩, hrest⟩
        cases hf with
        | noList _ hl' => rw [hl] at hl'; cases hl'
        | member hm' => exact hm' hm
        | behind _ _ hf => exact ih.2 hf hrest
    · rw [found_cons_of_member hm]
      constructor
      · exact .member hm
      · intro hf
        cases hf with
        | noList hm' => exact absurd hm' hm
        | member _ hf => exact hf
        | behind hm' => exact absurd hm' hm

/-! ## values without numbers for names -/

/-- The names on the way to a location. -/
def names (l : List Step) : List String := l.filterMap Step.name?

mutual

/-- The names of all members in a value. -/
def memberNames : Json → List String
  | .scalar _ => []
  | .array items => itemNames items
  | .object members => objectNames members

def itemNames : List Json → List String
  | [] => []
  | v :: items => v.memberNames ++ itemNames items

def objectNames : List (String × Json) → List String
  | [] => []
  | (name, v) :: members => name :: (v.memberNames ++ objectNames members)

end

theorem memberNames_subset_item {items : List Json} {v : Json} (h : v ∈ items) : v.memberNames ⊆ itemNames items := by
  induction items with
  | nil => cases h
  | cons u items ih =>
    intro s hs
    rw [itemNames]
    rcases List.mem_cons.1 h with rfl | h
    · exact List.mem_append_left _ hs
    · exact List.mem_append_right _ (ih h hs)

theorem memberNames_subset_member {members : List (String × Json)} {name : String} {v : Json} (h : (name, v) ∈ members) :
    name :: v.memberNames ⊆ objectNames members := by
  induction members with
  | nil => cases h
  | cons m members ih =>
    obtain ⟨k, u⟩ := m
    rw [objectNames]
    rcases List.mem_cons.1 h with he | h
    · obtain ⟨rfl, rfl⟩ := Prod.mk.inj he
      exact List.cons_subset_cons _ (List.subset_append_left _ _)
    · exact fun s hs => List.mem_cons_of_mem _ (List.mem_append_right _ (ih h hs))

theorem At.names_subset {v w : Json} {l : List Step} (h : v.At l w) : names l ⊆ v.memberNames := by
  induction h with
  | here => exact List.nil_subset _
  | member hm _ ih => exact List.Subset.trans (List.cons_subset_cons _ ih) (memberNames_subset_member hm)
  | element hi _ ih => exact List.Subset.trans ih (memberNames_subset_item (List.mem_of_getElem? hi))

/-- No member is named like an index. -/
def Unnumbered (v : Json) : Prop := ∀ s ∈ v.memberNames, Reference.isIndex s = false

instance (v : Json) : Decidable v.Unnumbered := inferInstanceAs (Decidable (∀ s ∈ v.memberNames, _))

mutual

theorem exists_at_of_mem_under {name : String} {w : Json} :
    ∀ v : Json, w ∈ v.under name → ∃ l, v.At l w ∧ names l = [name]
  | .scalar _, h => by cases h
  | .array items, h => by
    obtain ⟨i, v, l, hi, hl, hn⟩ := exists_at_of_mem_underAll items h
    exact ⟨.index i :: l, .element hi hl, hn⟩
  | .object members, h => ⟨[.key name], .member (mem_under_object.1 h) (.here w), rfl⟩

theorem exists_at_of_mem_underAll {name : String} {w : Json} :
    ∀ vs : List Json, w ∈ underAll name vs →
      ∃ (i : Nat) (v : Json) (l : List Step), vs[i]? = some v ∧ v.At l w ∧ names l = [name]
  | [], h => by cases h
  | v :: vs, h => by
    rcases List.mem_append.1 h with h | h
    · obtain ⟨l, hl, hn⟩ := exists_at_of_mem_under v h
      exact ⟨0, v, l, rfl, hl, hn⟩
    · obtain ⟨i, u, l, hi, hl, hn⟩ := exists_at_of_mem_underAll vs h
      exact ⟨i + 1, u, l, hi, hl, hn⟩

end

theorem exists_at_of_mem_place {vs : List Json} {path : List String} {w : Json} (h : w ∈ place vs path) :
    ∃ v ∈ vs, ∃ l, v.At l w ∧ names l = path := by
  induction path generalizing vs with
  | nil => exact ⟨w, h, [], .here w, rfl⟩
  | cons name path ih =>
    obtain ⟨u, hu, l', hl', hn'⟩ := ih h
    obtain ⟨i, v, l, hi, hl, hn⟩ := exists_at_of_mem_underAll vs hu
    refine ⟨v, List.mem_of_getElem? hi, l ++ l', hl.trans hl', ?_⟩
    rw [names, List.filterMap_append]
    exact congrArg₂ (· ++ ·) hn hn'

theorem place_concat (vs : List Json) (path : List String) (name : String) :
    place vs (path ++ [name]) = underAll name (place vs path) := by
  induction path generalizing vs with
  | nil => rfl
  | cons s path ih => exact ih _

theorem Unnumbered.underAll_eq {v : Json} (h : v.Unnumbered) (path : List String) {s : String}
    (hs : Reference.isIndex s = true) : underAll s (place [v] path) = [] := by
  refine List.eq_nil_iff_forall_not_mem.2 fun w hw => ?_
  rw [← place_concat] at hw
  obtain ⟨u, hu, l, hl, hn⟩ := exists_at_of_mem_place hw
  obtain rfl := List.mem_singleton.1 hu
  have hfalse := h s (hl.names_subset (by rw [hn]; simp))
  rw [hs] at hfalse
  cases hfalse

/-- Where a list with elements is seen, a list is seen last. -/
def ListsLast (v : Json) : Prop :=
  ∀ (path : List String) (item : Json) (items : List Json), .array (item :: items) ∈ place [v] path →
    endsInList (place [v] path) = true

/-- A list with elements among the values at a node comes from one that is there itself. -/
theorem Among.exists_list {vs : List Json} {v item : Json} {items : List Json} (h : Among vs v)
    (hv : v = .array (item :: items)) : ∃ first rest, .array (first :: rest) ∈ vs := by
  induction h generalizing item items with
  | one h => exact ⟨item, items, hv ▸ h⟩
  | @element v items' _ hmem ih =>
    obtain ⟨first, rest, rfl⟩ := List.exists_cons_of_ne_nil (List.ne_nil_of_mem hmem)
    exact ih rfl

theorem ListsLast.not_missed {v : Json} (hlast : v.ListsLast) (hnum : v.Unnumbered) {u w : Json} {l : List Step}
    (h : u.At l w) {path : List String} (hu : Among (place [v] path) u) : ¬Missed (place [v] path) l := by
  induction h generalizing path with
  | here =>
    intro hf
    cases hf
  | @member members name u w l hm _ ih =>
    intro hf
    cases hf with
    | inside hf =>
      have hmem := hu.mem_underAll (mem_under_object.2 hm)
      rw [← place_concat] at hf hmem
      exact ih (.one hmem) hf
  | @element items i u w l hi _ ih =>
    have hnone := hnum.underAll_eq path (Step.isIndex_toString i)
    obtain ⟨first, rest, rfl⟩ := List.exists_cons_of_ne_nil (List.ne_nil_of_mem (List.mem_of_getElem? hi))
    obtain ⟨item, items, hmem⟩ := hu.exists_list rfl
    have hlist := hlast path item items hmem
    intro hf
    cases hf with
    | noList _ hl => rw [hlist] at hl; cases hl
    | member hm => exact hm hnone
    | behind _ _ hf => exact ih (hu.element (List.mem_of_getElem? hi)) hf

/-- What is found at the end of a location is found from the values at its place. -/
theorem Unnumbered.found_place {v : Json} (hnum : v.Unnumbered) {u w : Json} {l : List Step} (h : u.At l w)
    {path rest : List String} (hu : Among (place [v] path) u)
    (hf : Found (place [v] path) (l.map Step.segment ++ rest)) : Found (place [v] (path ++ names l)) rest := by
  induction h generalizing path with
  | here =>
    rw [names, List.filterMap_nil, List.append_nil]
    exact hf
  | @member members name u w l hm _ ih =>
    have hmem := hu.mem_underAll (mem_under_object.2 hm)
    rw [List.map_cons, Step.segment, List.cons_append, found_cons_of_member (List.ne_nil_of_mem hmem)] at hf
    rw [← place_concat] at hf hmem
    have hrest := ih (.one hmem) hf
    rw [List.append_assoc] at hrest
    exact hrest
  | @element items i u w l hi _ ih =>
    have hnone := hnum.underAll_eq path (Step.isIndex_toString i)
    rw [List.map_cons, Step.segment, List.cons_append, found_cons_of_none hnone] at hf
    exact ih (hu.element (List.mem_of_getElem? hi)) hf.2

theorem Unnumbered.found_iff_listsLast {v : Json} (hnum : v.Unnumbered) :
    (∀ l w, v.At l w → Found [v] (l.map Step.segment)) ↔ v.ListsLast := by
  have hv : Among (place [v] []) v := .one List.mem_cons_self
  constructor
  · intro hall path item items hmem
    obtain ⟨u, hu, l, hl, hn⟩ := exists_at_of_mem_place hmem
    obtain rfl := List.mem_singleton.1 hu
    have hfirst : u.At (l ++ [.index 0]) item := hl.trans (.element rfl (.here item))
    have hf := hall _ _ hfirst
    rw [List.map_append] at hf
    have hplace := hnum.found_place hl hv hf
    rw [List.nil_append, hn] at hplace
    exact ((found_cons_of_none (hnum.underAll_eq path (Step.isIndex_toString 0))).1 hplace).1.1
  · intro hlast l w hl
    by_contra hf
    exact hlast.not_missed hnum hl hv ((not_found_iff_missed hl hv).1 hf)

end Json

/-! ## references to locations -/

namespace Reference.Index

/-- The index for a number. -/
def ofNat (i : Nat) : Index where
  first := (toString i).toList.head (by simp)
  rest := (toString i).toList.tail
  isDigit_first := Position.isDigit_of_mem_toString (List.head_mem _)
  isDigit_rest := fun _ hc => Position.isDigit_of_mem_toString (List.mem_of_mem_tail hc)

theorem chars_ofNat (i : Nat) : (ofNat i).chars = (toString i).toList := List.cons_head_tail _

end Reference.Index

namespace Json

/-- A step as it is written: a key in quotes, an index as a number. -/
def Step.accessor (quote : Char) (h : Text.isQuote quote = true) : Step → Reference.Accessor
  | key name => ⟨false, .key (.quoting quote h name)⟩
  | index i => ⟨false, .index (.ofNat i)⟩

/-- The reference to a location in the variable `@x`. -/
def reference (quote : Char) (h : Text.isQuote quote = true) (l : List Step) : Reference.Path where
  name := ⟨'x', [], by decide, by simp⟩
  accessors := l.map (Step.accessor quote h)

theorem segments_reference (quote : Char) (h : Text.isQuote quote = true) (l : List Step) :
    Reference.segments (reference quote h l).text = "@x" :: l.map Step.segment := by
  have hstep : ∀ s : Step, String.ofList (s.accessor quote h).place.segment = s.segment := by
    intro s
    cases s with
    | key name => exact (congrArg String.ofList (Reference.Key.text_quoting quote h name)).trans String.ofList_toList
    | index i => exact (congrArg String.ofList (Reference.Index.chars_ofNat i)).trans String.ofList_toList
  rw [Reference.Path.segments_text, Reference.Path.segments, reference, List.map_map]
  exact congrArg _ (List.map_congr_left fun s _ => hstep s)

end Json

/-! ## what is known of a value -/

theorem Scope.existence?_observe (source : String) (v : Json) (quote : Char) (h : Text.isQuote quote = true)
    (l : List Json.Step) :
    (Scope.empty.observe source v ["@x"]).existence? (Json.reference quote h l).text =
      (Node.ofSeen [v]).lookup (l.map Json.Step.segment) := by
  rw [existence?, Json.segments_reference]
  exact lookup_empty_write source "@x" .definitely _ _

/-- **Which locations of a value are known.**  When a value has been seen, each of its locations is known for sure, or not
at all: exactly those are not that are missed, at an index, because the value that was seen there last is no list, or
because a member bears the index for a name.  If no member is named like an index, all locations are known exactly if
wherever a list with elements is seen, a list is seen last. -/
theorem Scope.observed_locations (source : String) (v : Json) (quote : Char) (hq : Text.isQuote quote = true) :
    (∀ l w, v.At l w →
      ((Scope.empty.observe source v ["@x"]).existence? (Json.reference quote hq l).text = some .definitely ↔
        ¬Json.Missed [v] l) ∧
      ((Scope.empty.observe source v ["@x"]).existence? (Json.reference quote hq l).text = none ↔
        Json.Missed [v] l)) ∧
    (v.Unnumbered →
      ((∀ l w, v.At l w →
        (Scope.empty.observe source v ["@x"]).existence? (Json.reference quote hq l).text = some .definitely) ↔
      v.ListsLast)) := by
  have hfound : ∀ l : List Json.Step,
      (Scope.empty.observe source v ["@x"]).existence? (Json.reference quote hq l).text = some .definitely ↔
        Json.Found [v] (l.map Json.Step.segment) := by
    intro l
    rw [Scope.existence?_observe]
    exact Json.lookup_ofSeen_iff (by simp)
  refine ⟨fun l w hl => ?_, fun hnum => ?_⟩
  · have hv : Json.Among [v] v := .one List.mem_cons_self
    have hcertain : (Node.ofSeen [v]).Certain := Node.certain_ofSeen (by simp)
    rw [← Json.not_found_iff_missed hl hv, hfound, not_not]
    refine ⟨Iff.rfl, ?_⟩
    rw [← hfound, Scope.existence?_observe]
    rcases hcertain.lookup_eq (l.map Json.Step.segment) with h | h <;> simp [h]
  · rw [← hnum.found_iff_listsLast]
    exact forall_congr' fun l => forall_congr' fun w => imp_congr_right fun _ => hfound l

/-! ## a list and a number under one name -/

/-- A list of objects, the first of which has a list where the second one has a number. -/
def mixedList : Json := .array [.object [("a", .array [.count 1])], .object [("a", .count 2)]]

theorem at_mixedList : mixedList.At [.index 0, .key "a", .index 0] (.count 1) :=
  .element rfl (.member List.mem_cons_self (.element rfl (.here _)))

/-- The list is known, but not its element, since the number was seen last. -/
theorem observed_locations_mixedList :
    Text.isQuote '"' = true ∧ mixedList.Unnumbered ∧ mixedList.At [.index 0, .key "a", .index 0] (.count 1) ∧
    (Scope.empty.observe "s" mixedList ["@x"]).existence? (Json.reference '"' rfl [.index 0, .key "a"]).text =
      some .definitely ∧
    (Scope.empty.observe "s" mixedList ["@x"]).existence? (Json.reference '"' rfl [.index 0, .key "a", .index 0]).text =
      none ∧
    ¬mixedList.ListsLast := by
  have hnum : mixedList.Unnumbered := by decide +kernel
  have hlist : mixedList.At [.index 0, .key "a"] (.array [.count 1]) :=
    .element rfl (.member List.mem_cons_self (.here _))
  obtain ⟨hlocation, hall⟩ := Scope.observed_locations "s" mixedList '"' rfl
  have hmissed : Json.Missed [mixedList] [.index 0, .key "a", .index 0] := .behind rfl rfl (.inside (.noList rfl rfl))
  have hkept : ¬Json.Missed [mixedList] [.index 0, .key "a"] := by
    intro h
    cases h with
    | noList _ hl => cases hl
    | member hm => exact hm rfl
    | behind _ _ h =>
      cases h with
      | inside h => cases h
  have hnone := (hlocation _ _ at_mixedList).2.2 hmissed
  refine ⟨rfl, hnum, at_mixedList, (hlocation _ _ hlist).1.2 hkept, hnone, fun hlast => ?_⟩
  have hsome := (hall hnum).2 hlast _ _ at_mixedList
  rw [hnone] at hsome
  cases hsome

/-- A value with a location that is not known when the value has been seen. -/
theorem element_of_mixedList_unknown :
    mixedList.At [.index 0, .key "a", .index 0] (.count 1) ∧
    (Json.reference '"' rfl [.index 0, .key "a", .index 0]).text = "@x[0][\"a\"][0]" ∧
    (Scope.empty.observe "s" mixedList ["@x"]).existence? "@x[0][\"a\"][0]" ≠ some .definitely :=
  ⟨at_mixedList, by decide +kernel, by decide +kernel⟩

end BrickScope
