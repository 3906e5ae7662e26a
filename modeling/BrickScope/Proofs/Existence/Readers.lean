import BrickScope.Proofs.Decode.Record
import BrickScope.Proofs.Existence.Tags

/-!
# What several readers make sure of

Several readers may feed one value, each with a schema of its own.  A member of the value has the shape that the last
reader gives it, and must be there if any reader says so.  So the merged schema may be sure of something that no reader
is sure of: one says that a member is there, another what is in it.

* `Schema.Assures`: what a schema makes sure of, `Schema.assures_iff`;
* `ObjectSchema.IsPlain`: the schemas that can be merged, `Schema.mergeObjects_eq`;
* `Schema.Gathers`: what is in the merged schema, `Schema.Gathers.foldl`;
* `Schema.assures_of_mergeObjects`: what is sure by the merged schema is sure by one of the readers, if that is held to
  what all of them require.
-/

namespace BrickScope

open Scope (empty)

/-! ## what a schema makes sure of -/

namespace Schema

/-- A reference is there for sure, if a schema is all that is known of a variable. -/
def Assures (s : Schema) (source x reference : String) : Prop :=
  (empty.describe source s [x] none).existence? reference = some .definitely

theorem assures_iff {s : Schema} {source x reference : String} : s.Assures source x reference ↔
    s.describes = true ∧ ∃ path, Reference.segments reference = x :: path ∧
      (({} : Node).describe none .definitely false s).lookup path = some .definitely := by
  unfold Assures Scope.existence?
  cases hd : s.describes with
  | false =>
    have hnone : ∀ path, (empty.describe source s [x] none).lookup path = none := by
      intro path
      rw [Scope.describe, hd]
      cases path <;> rfl
    simp [hnone]
  | true =>
    cases hp : Reference.segments reference with
    | nil => simp [Scope.lookup]
    | cons k path =>
      by_cases hk : k = x
      · subst hk
        rw [Scope.lookup_describe source k none hd]
        simp
      · -- another variable
        have hroot := Scope.child?_write_singleton x .definitely
          (fun n => n.describe none .definitely false s) k
        rw [if_neg hk] at hroot
        have hnone : (empty.describe source s [x] none).lookup (k :: path) = none := by
          rw [Scope.describe, if_pos hd]
          exact (Existence.none_surer _).trans (Node.lookup_cons_of_none rfl hroot)
        simp [hnone, hk]

end Schema

/-! ## plain objects -/

namespace ObjectSchema

/-- An object schema as a reader has it: of objects and not of lists, not composed of others, and with properties, each
under a name of its own. -/
structure IsPlain (o : ObjectSchema) : Prop where
  not_list : o.isArray = false
  not_leaf : o.isLeaf = false
  whole : o.isComposite = false
  declares : o.properties ≠ []
  names : (Table.keys o.properties).Nodup

theorem isPlain_of_type {o : ObjectSchema} (ht : o.type = some (.one "object")) (whole : o.isComposite = false)
    (declares : o.properties ≠ []) (names : (Table.keys o.properties).Nodup) : o.IsPlain where
  not_list := by simp [isArray, ht, TypeNames.includes]
  not_leaf := by simp [isLeaf, ht, TypeNames.includes]
  whole := whole
  declares := declares
  names := names

/-- The same schema, which also requires other members. -/
def demanding (o : ObjectSchema) (names : List String) : ObjectSchema := { o with required := o.required ++ names }

theorem isRequired_demanding (o : ObjectSchema) (names : List String) (k : String) :
    (o.demanding names).isRequired k = true ↔ o.isRequired k = true ∨ k ∈ names := by
  simp [demanding, isRequired]

namespace IsPlain

variable {o : ObjectSchema}

theorem demanding (h : o.IsPlain) (names : List String) : (o.demanding names).IsPlain :=
  ⟨h.not_list, h.not_leaf, h.whole, h.declares, h.names⟩

theorem form_eq (h : o.IsPlain) : o.form = if o.allowsAdditional then .free else .closed := by
  simp [form, h.not_list, h.not_leaf, h.whole, h.declares]

theorem describes (h : o.IsPlain) : (Schema.object o).describes = true := by
  rw [describes_eq, h.form_eq]
  cases o.allowsAdditional <;> rfl

theorem plainObject?_eq (h : o.IsPlain) : Schema.plainObject? (.object o) = some o := by
  simp [Schema.plainObject?, h.whole, h.declares]

end IsPlain

end ObjectSchema

/-! ## the merged schema -/

namespace Schema

theorem mergeObjects_eq {readers : List ObjectSchema} (hne : readers ≠ []) (h : ∀ o ∈ readers, o.IsPlain) :
    mergeObjects (readers.map .object) = .object (readers.foldl addObject { type := some (.one "object") }) := by
  have hplain : (readers.map Schema.object).mapM plainObject? = some readers :=
    mapM_map_eq_pure fun o ho => (h o ho).plainObject?_eq
  obtain ⟨o, readers, rfl⟩ := List.exists_cons_of_ne_nil hne
  rw [mergeObjects, hplain]

/-- What an object schema has of those that were added to it: each property of one of them, and the requirements and
the openness of all. -/
structure Gathers (merged : ObjectSchema) (readers : List ObjectSchema) : Prop where
  type : merged.type = some (.one "object")
  whole : merged.isComposite = false
  names : (Table.keys merged.properties).Nodup
  declares : readers ≠ [] → merged.properties ≠ []
  property : ∀ p ∈ merged.properties, ∃ o ∈ readers, p ∈ o.properties
  required : ∀ k, merged.isRequired k = true ↔ ∃ o ∈ readers, o.isRequired k = true
  additional : merged.allowsAdditional = true ↔ ∃ o ∈ readers, o.allowsAdditional = true

theorem gathers_nil : Gathers { type := some (.one "object") } [] where
  type := rfl
  whole := rfl
  names := List.nodup_nil
  declares := fun h => absurd rfl h
  property := by simp
  required := by simp [ObjectSchema.isRequired]
  additional := by simp [ObjectSchema.allowsAdditional]

theorem allowsAdditional_addObject (merged o : ObjectSchema) :
    (addObject merged o).allowsAdditional = (o.allowsAdditional || merged.allowsAdditional) := by
  have hfield : (addObject merged o).additionalProperties =
      if o.allowsAdditional then some (.bool true) else merged.additionalProperties := rfl
  rw [ObjectSchema.allowsAdditional, hfield]
  cases o.allowsAdditional <;> rfl

theorem Gathers.addObject {merged o : ObjectSchema} {readers : List ObjectSchema} (h : Gathers merged readers)
    (ho : o.IsPlain) : Gathers (addObject merged o) (readers ++ [o]) where
  type := h.type
  whole := h.whole
  names := Table.nodup_keys_insertAll h.names o.properties
  declares := by
    intro _ hnil
    obtain ⟨⟨k, s⟩, hp⟩ := List.exists_mem_of_ne_nil _ ho.declares
    have hget := Table.get?_insertAll_of_mem hp
      (fun w hw => congrArg Prod.snd (List.inj_on_of_nodup_map ho.names hw hp rfl)) merged.properties
    have hempty : Table.insertAll merged.properties o.properties = [] := hnil
    rw [hempty] at hget
    cases hget
  property := by
    intro p hp
    rcases Table.mem_insertAll hp with hp | hp
    · exact ⟨o, by simp, hp⟩
    · obtain ⟨o', ho', hp'⟩ := h.property p hp
      exact ⟨o', List.mem_append_left _ ho', hp'⟩
  required := by
    intro k
    have hk := h.required k
    simp only [ObjectSchema.isRequired, List.contains_iff_mem] at hk
    simp [Schema.addObject, ObjectSchema.isRequired, hk, or_and_right, exists_or]
  additional := by simp [allowsAdditional_addObject, h.additional, or_and_right, exists_or, or_comm]

theorem Gathers.foldl {readers : List ObjectSchema} (hplain : ∀ o ∈ readers, o.IsPlain) {merged : ObjectSchema}
    {before : List ObjectSchema} (h : Gathers merged before) :
    Gathers (readers.foldl Schema.addObject merged) (before ++ readers) := by
  induction readers generalizing merged before with
  | nil => simpa using h
  | cons o readers ih =>
    obtain ⟨ho, hplain⟩ := List.forall_mem_cons.1 hplain
    simpa using ih hplain (h.addObject ho)

theorem Gathers.isPlain {merged : ObjectSchema} {readers : List ObjectSchema} (h : Gathers merged readers)
    (hne : readers ≠ []) : merged.IsPlain :=
  ObjectSchema.isPlain_of_type h.type h.whole (h.declares hne) h.names

end Schema

/-! ## members of plain objects -/

namespace Node

section

variable {o : ObjectSchema} (h : o.IsPlain) {e : Existence} {k : String}

include h

/-- Below a closed plain object, a member is as its own schema says. -/
theorem lookup_describe_member (hclosed : o.allowsAdditional = false) {t : Schema} (hp : (k, t) ∈ o.properties)
    (ht : t.describes = true) (path : List String) :
    (({} : Node).describe none e false (.object o)).lookup (k :: path) =
      (({} : Node).describe none (memberExistence o none e k) false t).lookup path := by
  have hform : o.form = .closed := by simp [h.form_eq, hclosed]
  have hchild := child?_describeProperties_of_mem none (memberExistence o none e) h.names hp
    (({} : Node).stamp e false false)
  rw [if_pos ht] at hchild
  rw [describe_object, hform]
  exact lookup_cons_of_child (self_describeProperties _ _ _ _).1 hchild

/-- Nothing is sure below a plain object but in the members it declares. -/
theorem exists_member_of_definitely {path : List String}
    (hsure : (({} : Node).describe none e false (.object o)).lookup (k :: path) = some .definitely) :
    o.allowsAdditional = false ∧ ∃ t, (k, t) ∈ o.properties ∧ t.describes = true := by
  cases hopen : o.allowsAdditional with
  | true =>
    have hform : o.form = .free := by simp [h.form_eq, hopen]
    rw [describe_object, hform] at hsure
    cases hsure
  | false =>
    have hform : o.form = .closed := by simp [h.form_eq, hopen]
    obtain ⟨hany, -, hlist⟩ := self_describeProperties none (memberExistence o none e) o.properties
      (({} : Node).stamp e false false)
    rw [describe_object, hform] at hsure
    cases hk : ((({} : Node).stamp e false false).describeProperties none (memberExistence o none e)
        o.properties).child? k with
    | none =>
      rw [lookup_cons_of_none hany hk, hlist] at hsure
      cases hsure
    | some c =>
      obtain ⟨t, hp, ht, -⟩ := exists_property_of_child? none _ h.names hk
      exact ⟨rfl, t, hp, ht⟩

end

end Node

/-! ## certainty -/

namespace Schema

section

variable {o : ObjectSchema} {source x reference : String}

theorem assures_self (h : o.IsPlain) (hpath : Reference.segments reference = [x]) :
    (Schema.object o).Assures source x reference := by
  refine assures_iff.2 ⟨h.describes, [], hpath, Node.lookup_nil_eq_definitely_iff.2 ?_⟩
  exact Node.existence_describe none _ h.describes _ _ _

/-- Two plain objects that declare a member alike and agree on whether it must be there make sure of the same in it. -/
theorem assures_member {merged : ObjectSchema} (h : o.IsPlain) (hclosed : o.allowsAdditional = false) {k : String}
    {t : Schema} (hp : (k, t) ∈ o.properties) (ht : t.describes = true)
    (hrequired : o.isRequired k = merged.isRequired k) {path : List String}
    (hpath : Reference.segments reference = x :: k :: path)
    (hsure : (({} : Node).describe none (memberExistence merged none .definitely k) false t).lookup path =
      some .definitely) : (Schema.object o).Assures source x reference := by
  refine assures_iff.2 ⟨h.describes, k :: path, hpath, ?_⟩
  rw [Node.lookup_describe_member h hclosed hp ht]
  simp only [memberExistence, hrequired] at hsure ⊢
  exact hsure

end

/-- **What several readers make sure of together.**  One of them makes sure of it if it is held to what all of them
require.  It makes sure of it alone, unless it leaves open whether a member is there that another reader requires. -/
theorem assures_of_mergeObjects (source x : String) {readers : List ObjectSchema} (hne : readers ≠ [])
    (hplain : ∀ o ∈ readers, o.IsPlain) {reference : String}
    (h : (mergeObjects (readers.map .object)).Assures source x reference) :
    ∃ o ∈ readers,
      (Schema.object (o.demanding (readers.flatMap (·.required)))).Assures source x reference ∧
      ((Schema.object o).Assures source x reference ∨
        ∃ k path, Reference.segments reference = x :: k :: path ∧ k ∈ Table.keys o.properties ∧
          o.isRequired k = false ∧ ∃ o' ∈ readers, o'.isRequired k = true) := by
  have hgathers := gathers_nil.foldl hplain
  rw [List.nil_append] at hgathers
  have hmerged := hgathers.isPlain hne
  rw [mergeObjects_eq hne hplain] at h
  obtain ⟨-, path, hpath, hsure⟩ := assures_iff.1 h
  generalize readers.foldl addObject { type := some (.one "object") } = merged at hgathers hmerged hsure
  cases path with
  | nil =>
    obtain ⟨o, ho⟩ := List.exists_mem_of_ne_nil _ hne
    exact ⟨o, ho, assures_self ((hplain o ho).demanding _) hpath, .inl (assures_self (hplain o ho) hpath)⟩
  | cons k path =>
    obtain ⟨hclosed, t, hp, ht⟩ := Node.exists_member_of_definitely hmerged hsure
    rw [Node.lookup_describe_member hmerged hclosed hp ht] at hsure
    -- the reader whose shape the member has; whether the member is there may be known from another one
    obtain ⟨o, ho, hdeclares⟩ := hgathers.property _ hp
    have hclosed' : o.allowsAdditional = false := by
      by_contra hopen
      have := hgathers.additional.2 ⟨o, ho, by simpa using hopen⟩
      simp [hclosed] at this
    have hdemanding : (o.demanding (readers.flatMap (·.required))).isRequired k = merged.isRequired k := by
      rw [Bool.eq_iff_iff, ObjectSchema.isRequired_demanding, hgathers.required]
      simp only [List.mem_flatMap, ObjectSchema.isRequired, List.contains_iff_mem]
      exact or_iff_right_of_imp fun hk => ⟨o, ho, hk⟩
    refine ⟨o, ho, assures_member ((hplain o ho).demanding _) hclosed' hdeclares ht hdemanding hpath hsure, ?_⟩
    cases hk : o.isRequired k with
    | true =>
      have hall := (hgathers.required k).2 ⟨o, ho, hk⟩
      exact .inl (assures_member (hplain o ho) hclosed' hdeclares ht (hk.trans hall.symm) hpath hsure)
    | false =>
      cases hall : merged.isRequired k with
      | true => exact .inr ⟨k, path, hpath, List.mem_map_of_mem hdeclares, hk, (hgathers.required k).1 hall⟩
      | false => exact .inl (assures_member (hplain o ho) hclosed' hdeclares ht (hk.trans hall.symm) hpath hsure)

/-- One reader knows that there is a member `a`. -/
def shallowReader : ObjectSchema :=
  { type := some (.one "object"), properties := [("a", .typed "string")], required := ["a"] }

/-- Another one knows what is in it. -/
def deepReader : ObjectSchema :=
  { type := some (.one "object"), properties := [("a", .ofProperties [("b", .typed "string")] ["b"])] }

theorem isPlain_shallow_deep : ∀ o ∈ [shallowReader, deepReader], o.IsPlain := by
  simp only [List.forall_mem_cons, List.not_mem_nil, false_imp_iff, implies_true, and_true]
  exact ⟨ObjectSchema.isPlain_of_type rfl rfl (by simp [shallowReader]) (by simp [shallowReader, Table.keys]),
    ObjectSchema.isPlain_of_type rfl rfl (by simp [deepReader]) (by simp [deepReader, Table.keys])⟩

/-- Neither reader alone makes sure of what they make sure of together. -/
theorem assures_only_together :
    (∀ o ∈ [shallowReader, deepReader], o.IsPlain) ∧
    (mergeObjects ([shallowReader, deepReader].map .object)).Assures "input" "@input" "@input.a.b" ∧
    ∀ o ∈ [shallowReader, deepReader], ¬(Schema.object o).Assures "input" "@input" "@input.a.b" := by
  refine ⟨isPlain_shallow_deep, ?_⟩
  unfold Assures
  decide +kernel

theorem assures_of_mergeObjects_shallow_deep :
    (mergeObjects ([shallowReader, deepReader].map .object)).Assures "input" "@input" "@input.a.b" ∧
    ∃ o ∈ [shallowReader, deepReader],
      (Schema.object (o.demanding ["a"])).Assures "input" "@input" "@input.a.b" ∧
      ((Schema.object o).Assures "input" "@input" "@input.a.b" ∨
        ∃ k path, Reference.segments "@input.a.b" = "@input" :: k :: path ∧ k ∈ Table.keys o.properties ∧
          o.isRequired k = false ∧ ∃ o' ∈ [shallowReader, deepReader], o'.isRequired k = true) := by
  have h : (mergeObjects ([shallowReader, deepReader].map .object)).Assures "input" "@input" "@input.a.b" := by
    unfold Assures
    decide +kernel
  exact ⟨h, assures_of_mergeObjects "input" "@input" (List.cons_ne_nil _ _) isPlain_shallow_deep h⟩

end Schema

end BrickScope
