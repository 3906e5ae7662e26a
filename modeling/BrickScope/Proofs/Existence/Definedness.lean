import BrickScope.Existence.Schema
import BrickScope.Proofs.Existence.Evidence
import BrickScope.Proofs.Schema.Distinct
import BrickScope.Proofs.Spelling

/-!
# Paths that a schema describes

A schema is recorded as a tree, and paths are looked up in the tree.  Where a path leads can be said of the schema alone:
a schema that leaves open what is below it leads everywhere, a closed one leads to its properties, and a list leads where
its elements lead, with indices in front.  An index is the name of a member only if the elements describe one of that
name.

* `ObjectSchema.form`: what an object schema says of the values below its own, `Node.describe_object`;
* `Schema.Leads`: where a path leads by a schema;
* `Node.isSome_lookup_describe`: the same in the tree;
* `Scope.described_paths`: the paths of a variable that are known from a schema.
-/

namespace BrickScope

/-! ## the forms of object schemas -/

/-- The one schema of all elements. -/
def Items.single? : Items → Option Schema
  | .tuple _ => none
  | .single t => some t

namespace ObjectSchema

/-- What an object schema says of the values below its own: anything may be there, nothing is, its properties are, or
elements of one kind are. -/
inductive Form where
  | free
  | leaf
  | closed
  | list (element : Schema)

def form (o : ObjectSchema) : Form :=
  if o.isArray then (o.items.bind Items.single?).elim .free fun t => if o.variesByIndex then .free else .list t
  else if o.isLeaf then .leaf
  else if o.isComposite || o.properties.isEmpty || o.allowsAdditional then .free
  else .closed

theorem items_of_form {o : ObjectSchema} {t : Schema} (h : o.form = .list t) : o.items = some (.single t) := by
  unfold form at h
  rcases hi : o.items with _ | _ | s <;> rw [hi] at h
  · simp only [Option.bind_none, Option.elim_none] at h
    split_ifs at h
  · simp only [Option.bind_some, Items.single?, Option.elim_none] at h
    split_ifs at h
  · simp only [Option.bind_some, Items.single?, Option.elim_some] at h
    split_ifs at h
    cases h
    rfl

/-- What is done with a schema, case by case, is done by its form. -/
theorem ite_eq_form {α : Type} (o : ObjectSchema) (array free leaf closed : α) (list : Schema → α) :
    (if o.isArray then (o.items.bind Items.single?).elim array fun t => if o.variesByIndex then array else list t
      else if o.isLeaf then leaf
      else if o.isComposite || o.properties.isEmpty || o.allowsAdditional then free
      else closed) = match o.form with
    | .free => if o.isArray then array else free
    | .leaf => leaf
    | .closed => closed
    | .list t => list t := by
  rw [form]
  rcases o.items.bind Items.single? with _ | t
  · simp only [Option.elim_none]
    split_ifs <;> simp_all
  · simp only [Option.elim_some]
    split_ifs <;> simp_all

/-- Only a list may say nothing, if its elements do. -/
theorem describes_eq (o : ObjectSchema) : (Schema.object o).describes = match o.form with
    | .free | .leaf | .closed => true
    | .list t => t.describes := by
  have hfields : (Schema.object o).describes =
      if o.isArray && !o.variesByIndex then (o.items.bind Items.single?).elim true Schema.describes else true := by
    obtain ⟨type, title, description, properties, required, additionalProperties, items, additionalItems, anyOf, oneOf,
      allOf⟩ := o
    rcases items with _ | _ | s <;> rfl
  rw [hfields, form]
  rcases o.items.bind Items.single? with _ | t
  · simp only [Option.elim_none, ite_self]
    split_ifs <;> rfl
  · simp only [Option.elim_some]
    split_ifs <;> simp_all

end ObjectSchema

/-- A schema is recorded as its form tells. -/
theorem Node.describe_object (override : Option Existence) (e : Existence) (isArray : Bool) (n : Node)
    (o : ObjectSchema) : n.describe override e isArray (.object o) = match o.form with
    | .free => n.stamp e true (isArray || o.isArray)
    | .leaf => n.stamp e false isArray
    | .closed => (n.stamp e false isArray).describeProperties override (memberExistence o override e) o.properties
    | .list t => n.describe override e true t := by
  have hfields : n.describe override e isArray (.object o) =
      if o.isArray then
        (o.items.bind Items.single?).elim (n.stamp e true true) fun t =>
          if o.variesByIndex then n.stamp e true true else n.describe override e true t
      else if o.isLeaf then n.stamp e false isArray
      else if o.isComposite || o.properties.isEmpty || o.allowsAdditional then n.stamp e true isArray
      else (n.stamp e false isArray).describeProperties override (memberExistence o override e) o.properties := by
    obtain ⟨type, title, description, properties, required, additionalProperties, items, additionalItems, anyOf, oneOf,
      allOf⟩ := o
    rcases items with _ | _ | s <;> rfl
  rw [hfields, ObjectSchema.ite_eq_form]
  cases o.form with
  | free => cases o.isArray <;> simp
  | leaf | closed | list => rfl

/-! ## closed nodes -/

namespace Node

theorem isSome_lookup_of_anyChild {n : Node} (h : n.anyChild = true) (path : List String) :
    (n.lookup path).isSome = true := by
  cases path with
  | nil => simp [lookup, h]
  | cons s path =>
    rw [lookup, if_pos h]
    cases n.child? s <;> simp

section

variable (override : Option Existence) (existence : String → Existence)

/-- Properties are recorded below a node. -/
theorem self_describeProperties (properties : List (String × Schema)) (n : Node) :
    (n.describeProperties override existence properties).anyChild = n.anyChild ∧
    (n.describeProperties override existence properties).existence = n.existence ∧
    (n.describeProperties override existence properties).isArray = n.isArray := by
  induction properties generalizing n with
  | nil => exact ⟨rfl, rfl, rfl⟩
  | cons p properties ih =>
    rw [describeProperties]
    split
    · exact ih _
    · exact ih n

theorem child?_describeProperties_of_notMem {properties : List (String × Schema)} {k : String}
    (hk : k ∉ Table.keys properties) (n : Node) :
    (n.describeProperties override existence properties).child? k = n.child? k := by
  induction properties generalizing n with
  | nil => rfl
  | cons p properties ih =>
    obtain ⟨hne, hk⟩ := not_or.1 (mt List.mem_cons.2 hk)
    rw [describeProperties, ih hk]
    split
    · rw [child?_updateChild, if_neg hne]
    · rfl

theorem child?_describeProperties_of_mem {properties : List (String × Schema)} (h : (Table.keys properties).Nodup)
    {k : String} {t : Schema} (hp : (k, t) ∈ properties) (n : Node) :
    (n.describeProperties override existence properties).child? k =
      if t.describes then some (((n.child? k).getD {}).describe override (existence k) false t) else n.child? k := by
  induction properties generalizing n with
  | nil => cases hp
  | cons p properties ih =>
    obtain ⟨hname, hnodup⟩ := List.nodup_cons.1 h
    rw [describeProperties]
    rcases List.mem_cons.1 hp with rfl | hp
    · rw [child?_describeProperties_of_notMem override existence hname]
      split
      · rw [child?_updateChild, if_pos rfl]
      · rfl
    · have hne : k ≠ p.1 := fun he => hname (he ▸ List.mem_map.2 ⟨_, hp, rfl⟩)
      have hone : k ∉ Table.keys [p] := mt List.mem_singleton.1 hne
      have hfirst := child?_describeProperties_of_notMem override existence hone n
      simp only [describeProperties] at hfirst
      rw [ih hnodup hp, hfirst]

/-- A child of a new node is one of the properties. -/
theorem exists_property_of_child? {properties : List (String × Schema)} (h : (Table.keys properties).Nodup)
    {e : Existence} {isArray : Bool} {k : String} {c : Node}
    (hc : ((({} : Node).stamp e false isArray).describeProperties override existence properties).child? k = some c) :
    ∃ t, (k, t) ∈ properties ∧ t.describes = true ∧ c = ({} : Node).describe override (existence k) false t := by
  have hk : k ∈ Table.keys properties := by
    by_contra hk
    rw [child?_describeProperties_of_notMem override existence hk] at hc
    cases hc
  obtain ⟨⟨k, t⟩, hp, rfl⟩ := List.mem_map.1 hk
  rw [child?_describeProperties_of_mem override existence h hp] at hc
  split at hc
  · rename_i ht
    exact ⟨t, hp, ht, (Option.some.inj hc).symm⟩
  · cases hc

end

end Node

/-! ## where a path leads -/

namespace Schema

/-- A name that a schema describes a member of: a property that says something, of the value or of its elements. -/
inductive Member : Schema → String → Prop
  | property {o : ObjectSchema} {name : String} {t : Schema} (ho : o.form = .closed)
    (hp : (name, t) ∈ o.properties) (ht : t.describes = true) : Member (.object o) name
  | element {o : ObjectSchema} {name : String} {t : Schema} (ho : o.form = .list t) (h : Member t name) :
    Member (.object o) name

/-- A path that leads from a value of a schema to one that may be there.  If the value is an element, as `inList` says,
indices may stand in front of the path, except those that are `taken` as names. -/
inductive Leads (taken : Schema → String → Prop) : Bool → Schema → List String → Prop
  -- `false` leads nowhere, so there is no case for it.
  | anything {inList : Bool} {path : List String} : Leads taken inList (.bool true) path
  | free {inList : Bool} {o : ObjectSchema} {path : List String} (ho : o.form = .free) :
    Leads taken inList (.object o) path
  | leaf {inList : Bool} {o : ObjectSchema} (ho : o.form = .leaf) : Leads taken inList (.object o) []
  | closed {inList : Bool} {o : ObjectSchema} (ho : o.form = .closed) : Leads taken inList (.object o) []
  | member {inList : Bool} {o : ObjectSchema} {name : String} {t : Schema} {path : List String}
    (ho : o.form = .closed) (hp : (name, t) ∈ o.properties) (h : Leads taken false t path) :
    Leads taken inList (.object o) (name :: path)
  | element {inList : Bool} {o : ObjectSchema} {t : Schema} {path : List String} (ho : o.form = .list t)
    (h : Leads taken true t path) : Leads taken inList (.object o) path
  | index {s : Schema} {i : String} {path : List String} (hi : Reference.isIndex i = true) (ht : ¬taken s i)
    (h : Leads taken true s path) : Leads taken true s (i :: path)

section

variable {taken : Schema → String → Prop} {inList : Bool} {s t : Schema} {o : ObjectSchema} {name : String}
  {path : List String}

/-- Only a schema that says something leads anywhere. -/
theorem Leads.describes (h : s.Leads taken inList path) : s.describes = true := by
  induction h with
  | anything => rfl
  | free ho | leaf ho | closed ho | member ho => rw [ObjectSchema.describes_eq, ho]
  | element ho _ ih =>
    rw [ObjectSchema.describes_eq, ho]
    exact ih
  | index _ _ _ ih => exact ih

/-- A list of lists is one list. -/
theorem leads_list_iff (ho : o.form = .list t) : Leads Member inList (.object o) path ↔ t.Leads Member true path := by
  constructor
  · intro h
    generalize hs : Schema.object o = s at h
    induction h with
    | anything => cases hs
    | free ho' | leaf ho' | closed ho' | member ho' =>
      cases hs
      cases ho.symm.trans ho'
    | element ho' h =>
      cases hs
      cases ho.symm.trans ho'
      exact h
    | index hi ht _ ih =>
      subst hs
      exact .index hi (fun hm => ht (.element ho hm)) (ih rfl)
  · exact .element ho

theorem leads_cons_of_member (hnames : (Table.keys o.properties).Nodup) (ho : o.form = .closed)
    (hp : (name, t) ∈ o.properties) (ht : t.describes = true) :
    Leads Member inList (.object o) (name :: path) ↔ t.Leads Member false path := by
  constructor
  · intro h
    cases h with
    | free ho' | element ho' => cases ho.symm.trans ho'
    | member _ hp' h =>
      cases List.inj_on_of_nodup_map hnames hp hp' rfl
      exact h
    | index _ hn => exact absurd (.property ho hp ht) hn
  · exact .member ho hp

theorem leads_cons_of_not_member (ho : o.form = .closed ∨ o.form = .leaf) (hn : ¬Member (.object o) name) :
    Leads Member inList (.object o) (name :: path) ↔
      (inList && Reference.isIndex name) = true ∧ Leads Member inList (.object o) path := by
  constructor
  · intro h
    cases h with
    | free ho' | element ho' => simp [ho'] at ho
    | member ho' hp h => exact absurd (.property ho' hp h.describes) hn
    | index hi _ h => exact ⟨hi, h⟩
  · rintro ⟨hi, h⟩
    obtain ⟨rfl, hi⟩ := Bool.and_eq_true_iff.1 hi
    exact .index hi hn h

end

end Schema

/-! ## what is known where a schema has been recorded -/

namespace Node

open Schema (Leads Member)

/-- Below a node that is not open, paths lead where its children say, and behind indices where the node itself says. -/
theorem isSome_lookup_iff {n : Node} {o : ObjectSchema} (ho : o.form = .closed ∨ o.form = .leaf)
    (hany : n.anyChild = false) (hself : n.existence.isSome = true)
    (hchild : ∀ k c path, n.child? k = some c →
      ((c.lookup path).isSome = true ↔ Leads Member n.isArray (.object o) (k :: path)))
    (hnone : ∀ k, n.child? k = none → ¬Member (.object o) k) (path : List String) :
    (n.lookup path).isSome = true ↔ Leads Member n.isArray (.object o) path := by
  induction path with
  | nil =>
    rw [lookup, hany]
    exact iff_of_true hself (ho.elim .closed .leaf)
  | cons k path ih =>
    cases hk : n.child? k with
    | some c =>
      rw [lookup_cons_of_child hany hk]
      exact hchild k c path hk
    | none =>
      rw [lookup_cons_of_none hany hk, Schema.leads_cons_of_not_member ho (hnone k hk), ← ih]
      split <;> simp [*]

/-- The properties of a closed schema, when they are recorded below a new node. -/
theorem isSome_lookup_describeProperties (override : Option Existence) (existence : String → Existence)
    {o : ObjectSchema} (ho : o.form = .closed) (names : (Table.keys o.properties).Nodup)
    (hproperty : ∀ p ∈ o.properties, p.2.describes = true → ∀ (e : Existence) (path : List String),
      ((({} : Node).describe override e false p.2).lookup path).isSome = true ↔ p.2.Leads Member false path)
    (e : Existence) (inList : Bool) (path : List String) :
    (((({} : Node).stamp e false inList).describeProperties override existence o.properties).lookup path).isSome = true ↔
      Leads Member inList (.object o) path := by
  obtain ⟨hany, hself, hlist⟩ :=
    self_describeProperties override existence o.properties (({} : Node).stamp e false inList)
  have hiff := isSome_lookup_iff (.inl ho) hany (hself ▸ rfl) ?child ?none path
  · rwa [hlist] at hiff
  case child =>
    intro k c path hc
    obtain ⟨t, hp, ht, rfl⟩ := exists_property_of_child? override existence names hc
    rw [Schema.leads_cons_of_member names ho hp ht]
    exact hproperty (k, t) hp ht (existence k) path
  case none =>
    intro k hk hm
    cases hm with
    | property _ hp ht =>
      rw [child?_describeProperties_of_mem override existence names hp, if_pos ht] at hk
      cases hk
    | element ho' => cases ho.symm.trans ho'

/-- A path is known below a new node exactly if it leads somewhere by the schema that is recorded there. -/
theorem isSome_lookup_describe (override : Option Existence) {s : Schema} (hs : s.Distinct) :
    s.describes = true → ∀ (e : Existence) (inList : Bool) (path : List String),
      ((({} : Node).describe override e inList s).lookup path).isSome = true ↔ s.Leads Member inList path := by
  induction hs with
  | bool allowed =>
    intro hd e inList path
    cases hd
    exact iff_of_true (isSome_lookup_of_anyChild rfl path) .anything
  | @object o names _ _ _ _ _ _ _ _ ihproperty _ _ ihelement =>
    intro hd e inList path
    rw [describe_object]
    cases hform : o.form with
    | free => exact iff_of_true (isSome_lookup_of_anyChild rfl path) (.free hform)
    | leaf =>
      refine isSome_lookup_iff (.inr hform) rfl rfl (fun k c path hc => ?_) (fun k _ hm => ?_) path
      · cases hc
      · cases hm with
        | property ho | element ho => cases hform.symm.trans ho
    | closed =>
      have hproperty := fun p hp hd e path => ihproperty p hp hd e false path
      exact isSome_lookup_describeProperties override _ hform names hproperty e inList path
    | list t =>
      rw [ObjectSchema.describes_eq, hform] at hd
      rw [Schema.leads_list_iff hform]
      exact ihelement t (ObjectSchema.items_of_form hform) hd e true path

end Node

/-- **The paths that are known from a schema.**  When a schema is all that is known of a variable, a path below the
variable is known exactly if it leads somewhere by the schema.  Every path can be spelled as a reference. -/
theorem Scope.described_paths (source x : String) (override : Option Existence) {s : Schema} (hs : s.Distinct)
    (path : List String) :
    (∃ reference, Reference.segments reference = x :: path) ∧
    ∀ reference, Reference.segments reference = x :: path →
      ((Scope.empty.describe source s [x] override).defines reference = true ↔ s.Leads Schema.Member false path) := by
  refine ⟨Reference.exists_segments_eq _, fun reference hr => ?_⟩
  rw [defines, existence?, hr, describe]
  by_cases hd : s.describes = true
  · rw [if_pos hd, lookup_empty_write]
    exact Node.isSome_lookup_describe override hs hd _ false path
  · rw [if_neg hd]
    exact iff_of_false (by simp [lookup, empty]) fun h => hd h.describes

/-! ## numbers as names -/

/-- A list of objects, with a member that must not be there and one that may. -/
def numberedList : Schema :=
  .array (.object { type := some (.one "object"), properties := [("0", .bool false), ("1", .typed "string")] })

def numberedListJson : Json :=
  .object [("type", .string "array"), ("items", .object [("type", .string "object"),
    ("properties", .object [("0", .bool false), ("1", .object [("type", .string "string")])])])]

/-- The number of a member that may be there is its name, any other number is an index. -/
theorem Scope.described_paths_numberedList :
    Schema.ofJson numberedListJson = .ok numberedList ∧ numberedList.Distinct ∧
    (Scope.empty.describe "s" numberedList ["@v"] none).defines "@v[0][1]" = true ∧
    numberedList.Leads Schema.Member false ["0", "1"] ∧
    (Scope.empty.describe "s" numberedList ["@v"] none).defines "@v[1][0]" = false ∧
    ¬numberedList.Leads Schema.Member false ["1", "0"] := by
  have hread : Schema.ofJson numberedListJson = .ok numberedList := rfl
  have hdistinct := Schema.distinct_of_ofJson hread
  have hknown : (Scope.empty.describe "s" numberedList ["@v"] none).defines "@v[0][1]" = true := by decide +kernel
  have hunknown : (Scope.empty.describe "s" numberedList ["@v"] none).defines "@v[1][0]" = false := by decide +kernel
  have hiff := (Scope.described_paths "s" "@v" none hdistinct ["0", "1"]).2 "@v[0][1]" (by decide +kernel)
  have hiff' := (Scope.described_paths "s" "@v" none hdistinct ["1", "0"]).2 "@v[1][0]" (by decide +kernel)
  refine ⟨hread, hdistinct, hknown, hiff.1 hknown, hunknown, fun h => ?_⟩
  rw [hiff'.2 h] at hunknown
  cases hunknown

/-- The name of a property. -/
def Schema.Declares : Schema → String → Prop
  | .bool _, _ => False
  | .object o, name => name ∈ Table.keys o.properties

/-- It is not enough for a name to be declared: nothing is known of a member that must not be there, so that its number
is an index. -/
theorem Scope.numberedList_declared_index :
    (Scope.empty.describe "s" numberedList ["@v"] none).defines "@v[0]" = true ∧
    ¬numberedList.Leads Schema.Declares false ["0"] := by
  refine ⟨by decide +kernel, fun h => ?_⟩
  cases h with
  | free ho => cases ho
  | member ho => cases ho
  | element ho h =>
    cases ho
    cases h with
    | free ho | element ho => cases ho
    | member _ hp h =>
      rcases List.mem_cons.1 hp with hp | hp
      · cases hp
        cases h
      · simp at hp
    | index _ hn => exact hn List.mem_cons_self

end BrickScope
