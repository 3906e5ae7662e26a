import BrickScope.Proofs.Existence.Definedness

/-!
# The schema `true` and the permissive schema

`true` allows every value, the permissive schema every object.  Of the paths below a variable both say the same:
anything may be there.  So one may be put in the place of the other, wherever it stands in a schema.

* `Schema.Alike`: two schemas that no keyword around them tells apart;
* `ObjectSchema.Alike`, `ObjectSchema.Alike.object`: object schemas whose parts are alike are alike;
* `Schema.Replaces`: one occurrence of a schema in another is replaced, `Schema.Replaces.alike`;
* `Scope.describe_permissive`: `true` and the permissive schema.
-/

namespace BrickScope

/-! ## schemas that are not told apart -/

namespace Schema

/-- As the schema for further members, it lets there be some. -/
def admitsMembers : Schema → Bool
  | .bool allowed => allowed
  | .object o => !o.isEmpty

/-- As the schema for further elements, it lets there be some. -/
def admitsElements : Schema → Bool
  | .bool allowed => allowed
  | .object _ => true

/-- Two schemas that come to the same under every keyword: they are recorded alike, and the tests that are made of a
schema without recording it give the same answers. -/
structure Alike (s s' : Schema) : Prop where
  recorded : ∀ override e isArray (n : Node), n.describe override e isArray s = n.describe override e isArray s'
  describes : s.describes = s'.describes
  members : s.admitsMembers = s'.admitsMembers
  elements : s.admitsElements = s'.admitsElements

theorem Alike.refl (s : Schema) : s.Alike s := ⟨fun _ _ _ _ => rfl, rfl, rfl, rfl⟩

/-- Properties of one name that are alike. -/
def PropertyAlike (p p' : String × Schema) : Prop := p.1 = p'.1 ∧ p.2.Alike p'.2

theorem forall₂_propertyAlike (properties : List (String × Schema)) :
    List.Forall₂ PropertyAlike properties properties :=
  List.forall₂_same.2 fun p _ => ⟨rfl, .refl p.2⟩

end Schema

/-- Items that are alike: those that are told apart by their places are not looked at. -/
inductive Items.Alike : Items → Items → Prop
  | tuple (schemas schemas' : List Schema) : Items.Alike (.tuple schemas) (.tuple schemas')
  | single {s s' : Schema} (h : s.Alike s') : Items.Alike (.single s) (.single s')

theorem Items.Alike.single? {items items' : Items} (h : items.Alike items') :
    Option.Rel Schema.Alike items.single? items'.single? := by
  cases h with
  | tuple schemas schemas' => exact .none
  | single hs => exact .some hs

theorem Items.Alike.refl : ∀ items : Items, items.Alike items
  | .tuple schemas => .tuple schemas schemas
  | .single s => .single (.refl s)

/-! ## parts that may be missing -/

section

variable {α β : Type} {r : α → β → Prop} {a : Option α} {b : Option β}

theorem rel_refl {r : α → α → Prop} (hr : ∀ x, r x x) : ∀ a : Option α, Option.Rel r a a
  | none => .none
  | some x => .some (hr x)

theorem isSome_eq_of_rel (h : Option.Rel r a b) : a.isSome = b.isSome := by
  cases h <;> rfl

theorem elim_eq_of_rel {γ : Type} (h : Option.Rel r a b) {c : γ} {f : α → γ} {g : β → γ}
    (hfg : ∀ x y, r x y → f x = g y) : a.elim c f = b.elim c g := by
  cases h with
  | none => rfl
  | some hr => exact hfg _ _ hr

theorem rel_bind {α' β' : Type} {r' : α' → β' → Prop} (h : Option.Rel r a b) {f : α → Option α'} {g : β → Option β'}
    (hfg : ∀ x y, r x y → Option.Rel r' (f x) (g y)) : Option.Rel r' (a.bind f) (b.bind g) := by
  cases h with
  | none => exact .none
  | some hr => exact hfg _ _ hr

end

/-! ## object schemas -/

/-- Two forms with schemas that are alike. -/
inductive ObjectSchema.Form.Alike : ObjectSchema.Form → ObjectSchema.Form → Prop
  | refl (form : ObjectSchema.Form) : Form.Alike form form
  | list {s s' : Schema} (h : s.Alike s') : Form.Alike (.list s) (.list s')

/-- Object schemas with the same keywords, and schemas under them that are alike. -/
structure ObjectSchema.Alike (o o' : ObjectSchema) : Prop where
  type : o.type = o'.type
  properties : List.Forall₂ Schema.PropertyAlike o.properties o'.properties
  required : o.required = o'.required
  additionalProperties : Option.Rel Schema.Alike o.additionalProperties o'.additionalProperties
  items : Option.Rel Items.Alike o.items o'.items
  additionalItems : Option.Rel Schema.Alike o.additionalItems o'.additionalItems
  composite : o.isComposite = o'.isComposite

theorem ObjectSchema.Alike.refl (o : ObjectSchema) : o.Alike o where
  type := rfl
  properties := Schema.forall₂_propertyAlike _
  required := rfl
  additionalProperties := rel_refl Schema.Alike.refl _
  items := rel_refl Items.Alike.refl _
  additionalItems := rel_refl Schema.Alike.refl _
  composite := rfl

namespace ObjectSchema

theorem allowsAdditional_eq (o : ObjectSchema) :
    o.allowsAdditional = o.additionalProperties.elim false Schema.admitsMembers := by
  unfold allowsAdditional
  rcases o.additionalProperties with _ | _ | _ <;> rfl

theorem variesByIndex_eq (o : ObjectSchema) :
    o.variesByIndex = o.additionalItems.elim false Schema.admitsElements := by
  unfold variesByIndex
  rcases o.additionalItems with _ | _ | _ <;> rfl

namespace Alike

variable {o o' : ObjectSchema} (h : o.Alike o')

include h

theorem isArray_eq : o.isArray = o'.isArray := by
  rw [isArray, isArray, h.type, isSome_eq_of_rel h.items, isSome_eq_of_rel h.additionalItems]

theorem isLeaf_eq : o.isLeaf = o'.isLeaf := by
  rw [isLeaf, isLeaf, h.type]

theorem allowsAdditional_eq : o.allowsAdditional = o'.allowsAdditional := by
  rw [o.allowsAdditional_eq, o'.allowsAdditional_eq]
  exact elim_eq_of_rel h.additionalProperties fun _ _ hs => hs.members

theorem variesByIndex_eq : o.variesByIndex = o'.variesByIndex := by
  rw [o.variesByIndex_eq, o'.variesByIndex_eq]
  exact elim_eq_of_rel h.additionalItems fun _ _ hs => hs.elements

theorem isEmpty_properties_eq : o.properties.isEmpty = o'.properties.isEmpty := by
  rw [Bool.eq_iff_iff, List.isEmpty_iff_length_eq_zero, List.isEmpty_iff_length_eq_zero, h.properties.length_eq]

theorem isEmpty_eq : o.isEmpty = o'.isEmpty := by
  simp only [isEmpty, ← Option.not_isSome, h.type, h.isEmpty_properties_eq, h.required,
    isSome_eq_of_rel h.additionalProperties, isSome_eq_of_rel h.items, isSome_eq_of_rel h.additionalItems, h.composite]

theorem memberExistence_eq (override : Option Existence) (e : Existence) :
    memberExistence o override e = memberExistence o' override e := by
  funext name
  unfold memberExistence
  rw [isRequired, isRequired, h.required]

theorem form : o.form.Alike o'.form := by
  simp only [ObjectSchema.form, h.isArray_eq, h.isLeaf_eq, h.composite, h.isEmpty_properties_eq, h.allowsAdditional_eq,
    h.variesByIndex_eq]
  -- only the schema of the elements can differ
  have hsingle := rel_bind h.items fun _ _ => Items.Alike.single?
  generalize o.items.bind Items.single? = s, o'.items.bind Items.single? = s' at hsingle ⊢
  cases hsingle with
  | none => exact .refl _
  | some hs =>
    simp only [Option.elim_some]
    split_ifs
    · exact .refl _
    · exact .list hs
    all_goals exact .refl _

end Alike

end ObjectSchema

/-- Properties that are alike are recorded alike. -/
theorem Node.describeProperties_alike {properties properties' : List (String × Schema)}
    (h : List.Forall₂ Schema.PropertyAlike properties properties') (override : Option Existence)
    (existence : String → Existence) (n : Node) :
    n.describeProperties override existence properties = n.describeProperties override existence properties' := by
  induction h generalizing n with
  | nil => rfl
  | @cons p p' properties properties' hp _ ih =>
    obtain ⟨hname, hs⟩ := hp
    rw [describeProperties, describeProperties, hname, hs.describes, ih]
    simp only [hs.recorded]

/-- Object schemas whose parts are alike are alike. -/
theorem ObjectSchema.Alike.object {o o' : ObjectSchema} (h : o.Alike o') :
    (Schema.object o).Alike (Schema.object o') where
  recorded := by
    intro override e isArray n
    rw [Node.describe_object, Node.describe_object, h.isArray_eq, h.memberExistence_eq]
    have hform := h.form
    generalize o.form = form, o'.form = form' at hform
    cases hform with
    | refl =>
      cases form with
      | closed => exact Node.describeProperties_alike h.properties override _ _
      | free | leaf | list => rfl
    | list hs => exact hs.recorded override e true n
  describes := by
    rw [describes_eq, describes_eq]
    have hform := h.form
    generalize o.form = form, o'.form = form' at hform
    cases hform with
    | refl => rfl
    | list hs => exact hs.describes
  members := congrArg not h.isEmpty_eq
  elements := rfl

/-! ## one schema in place of another -/

namespace Schema

/-- `Replaces t t' s s'`: one occurrence of `t` in `s` is replaced by `t'`, which gives `s'`.  It may stand under any
keyword that takes schemas, at any depth. -/
inductive Replaces (t t' : Schema) : Schema → Schema → Prop
  | here : Replaces t t' t t'
  | property {s s' : Schema} (o : ObjectSchema) (before : List (String × Schema)) (name : String)
    (after : List (String × Schema)) (h : Replaces t t' s s') :
    Replaces t t' (.object { o with properties := before ++ (name, s) :: after })
      (.object { o with properties := before ++ (name, s') :: after })
  | additionalProperties {s s' : Schema} (o : ObjectSchema) (h : Replaces t t' s s') :
    Replaces t t' (.object { o with additionalProperties := some s })
      (.object { o with additionalProperties := some s' })
  | items {s s' : Schema} (o : ObjectSchema) (h : Replaces t t' s s') :
    Replaces t t' (.object { o with items := some (.single s) }) (.object { o with items := some (.single s') })
  | tupleItem {s s' : Schema} (o : ObjectSchema) (before after : List Schema) (h : Replaces t t' s s') :
    Replaces t t' (.object { o with items := some (.tuple (before ++ s :: after)) })
      (.object { o with items := some (.tuple (before ++ s' :: after)) })
  | additionalItems {s s' : Schema} (o : ObjectSchema) (h : Replaces t t' s s') :
    Replaces t t' (.object { o with additionalItems := some s }) (.object { o with additionalItems := some s' })
  | anyOf {s s' : Schema} (o : ObjectSchema) (before after : List Schema) (h : Replaces t t' s s') :
    Replaces t t' (.object { o with anyOf := before ++ s :: after }) (.object { o with anyOf := before ++ s' :: after })
  | oneOf {s s' : Schema} (o : ObjectSchema) (before after : List Schema) (h : Replaces t t' s s') :
    Replaces t t' (.object { o with oneOf := before ++ s :: after }) (.object { o with oneOf := before ++ s' :: after })
  | allOf {s s' : Schema} (o : ObjectSchema) (before after : List Schema) (h : Replaces t t' s s') :
    Replaces t t' (.object { o with allOf := before ++ s :: after }) (.object { o with allOf := before ++ s' :: after })

theorem isEmpty_append_cons {α : Type} (before : List α) (x : α) (after : List α) :
    (before ++ x :: after).isEmpty = false := by
  cases before <;> rfl

/-- Schemas that are alike may be put in place of one another. -/
theorem Replaces.alike {t t' s s' : Schema} (h : Replaces t t' s s') (ht : t.Alike t') : s.Alike s' := by
  induction h with
  | here => exact ht
  | @property s s' o before name after _ ih =>
    have hproperty : PropertyAlike (name, s) (name, s') := ⟨rfl, ih⟩
    have hproperties := List.rel_append (forall₂_propertyAlike before) (.cons hproperty (forall₂_propertyAlike after))
    exact ObjectSchema.Alike.object { ObjectSchema.Alike.refl o with properties := hproperties }
  | additionalProperties o _ ih =>
    exact ObjectSchema.Alike.object { ObjectSchema.Alike.refl o with additionalProperties := .some ih }
  | items o _ ih => exact ObjectSchema.Alike.object { ObjectSchema.Alike.refl o with items := .some (.single ih) }
  | tupleItem o before after _ _ =>
    exact ObjectSchema.Alike.object { ObjectSchema.Alike.refl o with items := .some (.tuple _ _) }
  | additionalItems o _ ih =>
    exact ObjectSchema.Alike.object { ObjectSchema.Alike.refl o with additionalItems := .some ih }
  | anyOf o before after _ _ =>
    exact ObjectSchema.Alike.object { ObjectSchema.Alike.refl o with
      composite := by simp [ObjectSchema.isComposite, isEmpty_append_cons] }
  | oneOf o before after _ _ =>
    exact ObjectSchema.Alike.object { ObjectSchema.Alike.refl o with
      composite := by simp [ObjectSchema.isComposite, isEmpty_append_cons] }
  | allOf o before after _ _ =>
    exact ObjectSchema.Alike.object { ObjectSchema.Alike.refl o with
      composite := by simp [ObjectSchema.isComposite, isEmpty_append_cons] }

/-- Under every keyword, `true` comes to the same as the permissive schema: a node with any child, further members,
further elements. -/
theorem alike_permissive : (Schema.bool true).Alike .permissive where
  recorded := by
    intro override e isArray n
    have hform : ({ type := some (.one "object") } : ObjectSchema).form = .free := rfl
    have harray : ({ type := some (.one "object") } : ObjectSchema).isArray = false := rfl
    rw [permissive, typed, Node.describe_object, hform, harray, Bool.or_false]
    rfl
  describes := rfl
  members := rfl
  elements := rfl

end Schema

/-- **`true` and the permissive schema.**  One occurrence of `true` in a schema may be replaced by the permissive
schema, wherever it stands: in every scope, for every source, path and override, the same is recorded. -/
theorem Scope.describe_permissive {s s' : Schema} (h : Schema.Replaces (.bool true) .permissive s s') (m : Scope)
    (source : String) (path : List String) (override : Option Existence) :
    m.describe source s path override = m.describe source s' path override := by
  have halike := h.alike Schema.alike_permissive
  simp only [describe, halike.describes, halike.recorded]

/-- Records in a list, each with a member that has further members by the schema `t`. -/
def openRecords (t : Schema) : Schema :=
  .object {
    type := some (.one "array")
    items := some (.single (.object {
      type := some (.one "object")
      properties := [("b", .typed "string")] ++ ("a", .object {
        type := some (.one "object")
        properties := [("c", .bool false)]
        additionalProperties := some t }) :: []
      required := ["a"] })) }

/-- The members of the member are not closed, by `true` as by the permissive schema. -/
theorem Scope.describe_permissive_openRecords :
    Schema.Replaces (.bool true) .permissive (openRecords (.bool true)) (openRecords .permissive) ∧
    Scope.empty.describe "s" (openRecords (.bool true)) ["@v"] (some .maybe) =
      Scope.empty.describe "s" (openRecords .permissive) ["@v"] (some .maybe) ∧
    (Scope.empty.describe "s" (openRecords (.bool true)) ["@v"] (some .maybe)).defines "@v[0].a.z" = true ∧
    (Scope.empty.describe "s" (openRecords (.bool false)) ["@v"] (some .maybe)).defines "@v[0].a.z" = false := by
  have h : Schema.Replaces (.bool true) .permissive (openRecords (.bool true)) (openRecords .permissive) :=
    .items { type := some (.one "array") } (.property { type := some (.one "object"), required := ["a"] } _ _ _
      (.additionalProperties { type := some (.one "object"), properties := [("c", .bool false)] } .here))
  exact ⟨h, Scope.describe_permissive h _ _ _ _, by decide +kernel, by decide +kernel⟩

end BrickScope
