import BrickScope.Schema.Json
import Mathlib

/-!
# Schemas with distinct names

The properties of a schema are a table, so no name stands in it twice.  Every schema that is read is of this kind, at any
depth.

* `Schema.Distinct`: no object schema in a schema has two properties of one name;
* `Record.ofMembers_keeps`, `Record.ofSlots_keeps`: what every field keeps, the record keeps;
* `Schema.distinct_of_ofJson`: schemas that are read.
-/

namespace BrickScope

/-! ## lists -/

theorem exists_of_mem_mapM {α β : Type} {f : α → Option β} {l : List α} {l' : List β} (h : l.mapM f = some l') {b : β}
    (hb : b ∈ l') : ∃ a ∈ l, f a = some b := by
  induction l generalizing l' with
  | nil =>
    cases h
    cases hb
  | cons a l ih =>
    rw [List.mapM_cons] at h
    obtain ⟨b', hb', h⟩ := Option.bind_eq_some_iff.1 h
    obtain ⟨bs, hbs, h⟩ := Option.bind_eq_some_iff.1 h
    cases h
    rcases List.mem_cons.1 hb with rfl | hb
    · exact ⟨a, List.mem_cons_self, hb'⟩
    · obtain ⟨a', ha', hf⟩ := ih hbs hb
      exact ⟨a', List.mem_cons_of_mem _ ha', hf⟩

/-! ## records -/

section

variable {ν σ : Type}

/-- What a reader of a field keeps of a record, as long as the values it reads are good. -/
def Reader.Keeps (good : ν → Prop) (kept : σ → Prop) (f : Reader ν σ) : Prop :=
  ∀ v s s', good v → kept s → f.read v s = .ok s' → kept s'

variable {good : ν → Prop} {kept : σ → Prop} {fields : List (Reader ν σ)} {s s' : σ}

theorem Record.ofMembers_keeps (hf : ∀ f ∈ fields, f.Keeps good kept) {seen : List String} {members : List (String × ν)}
    (hm : ∀ m ∈ members, good m.2) (hs : kept s) (h : ofMembers fields s seen members = .ok s') : kept s' := by
  induction members generalizing s seen with
  | nil =>
    rw [ofMembers] at h
    split at h
    · cases h
    · cases h
      exact hs
  | cons m members ih =>
    obtain ⟨name, v⟩ := m
    obtain ⟨hv, hm⟩ := List.forall_mem_cons.1 hm
    rw [ofMembers] at h
    split at h
    · exact ih hm hs h
    · rename_i f hfind
      split at h
      · cases h
      · split at h
        · rename_i s₁ hread
          exact ih hm (hf f (List.mem_of_find?_eq_some hfind) v s s₁ hv hs hread) h
        · cases h

theorem Record.ofSlots_keeps (hf : ∀ f ∈ fields, f.Keeps good kept) {items : List ν} (hi : ∀ v ∈ items, good v)
    (hs : kept s) (h : ofSlots s fields items = .ok s') : kept s' := by
  induction fields generalizing s items with
  | nil =>
    cases items with
    | nil =>
      cases h
      exact hs
    | cons v items => cases h
  | cons f fields ih =>
    obtain ⟨hhead, hf⟩ := List.forall_mem_cons.1 hf
    cases items with
    | nil =>
      rw [ofSlots] at h
      split at h
      · cases h
      · exact ih hf hi hs h
    | cons v items =>
      obtain ⟨hv, hi⟩ := List.forall_mem_cons.1 hi
      rw [ofSlots] at h
      split at h
      · rename_i s₁ hread
        exact ih hf hi (hhead v s s₁ hv hs hread) h
      · cases h

end

/-! ## schemas -/

/-- No object schema has two properties of one name, at any depth. -/
inductive Schema.Distinct : Schema → Prop
  | bool (allowed : Bool) : Distinct (.bool allowed)
  | object {o : ObjectSchema} (names : (Table.keys o.properties).Nodup)
    (properties : ∀ p ∈ o.properties, Distinct p.2)
    (additionalProperties : ∀ t, o.additionalProperties = some t → Distinct t)
    (places : ∀ ts, o.items = some (.tuple ts) → ∀ t ∈ ts, Distinct t)
    (element : ∀ t, o.items = some (.single t) → Distinct t)
    (additionalItems : ∀ t, o.additionalItems = some t → Distinct t)
    (anyOf : ∀ t ∈ o.anyOf, Distinct t) (oneOf : ∀ t ∈ o.oneOf, Distinct t) (allOf : ∀ t ∈ o.allOf, Distinct t) :
    Distinct (.object o)

def ObjectSchema.Distinct (o : ObjectSchema) : Prop := Schema.Distinct (.object o)

namespace SchemaView

/-- Whatever schemas are seen in a value have distinct names. -/
structure Distinct (v : SchemaView) : Prop where
  schema : ∀ s, v.schema? = some s → s.Distinct
  schemas : ∀ ss, v.schemas? = some ss → ∀ s ∈ ss, s.Distinct
  properties : ∀ ps, v.properties? = some ps → (Table.keys ps).Nodup ∧ ∀ p ∈ ps, p.2.Distinct

theorem of_optional {α : Type} {f : SchemaView → Option α} {v : SchemaView} {a : α}
    (h : optional f v = some (some a)) : f v = some a := by
  rw [optional] at h
  split at h
  · cases h
  · simpa using h

theorem schemas?_of_items? {v : SchemaView} {ts : List Schema} (h : v.items? = some (.tuple ts)) :
    v.schemas? = some ts := by
  rw [items?] at h
  cases hs : v.schemas? with
  | none => simp [hs] at h
  | some ss => simpa [hs] using h

theorem schema?_of_items? {v : SchemaView} {t : Schema} (h : v.items? = some (.single t)) : v.schema? = some t := by
  rw [items?] at h
  cases hs : v.schemas? with
  | none => simpa [hs] using h
  | some ss => simp [hs] at h

theorem keyword_keeps {α : Type} {name : String} {f : SchemaView → Option α} {set : α → ObjectSchema → ObjectSchema}
    {good : SchemaView → Prop} {kept : ObjectSchema → Prop}
    (h : ∀ v a o, good v → f v = some a → kept o → kept (set a o)) : (keyword name f set).Keeps good kept := by
  intro v o o' hv ho hread
  simp only [keyword] at hread
  split at hread
  · rename_i a ha
    cases hread
    exact h v a o hv ha ho
  · cases hread

/-- Each keyword keeps the names of a schema distinct. -/
theorem keywords_keep : ∀ f ∈ keywords, f.Keeps Distinct ObjectSchema.Distinct := by
  simp only [keywords, List.forall_mem_cons]
  refine ⟨?type, ?title, ?description, ?properties, ?required, ?additionalProperties, ?items, ?additionalItems, ?anyOf,
    ?oneOf, ?allOf, List.forall_mem_nil _⟩
  all_goals
    refine keyword_keeps fun v a o hv ha ho => ?_
    obtain _ | ⟨names, properties, additionalProperties, places, element, additionalItems, anyOf, oneOf, allOf⟩ := ho
  case type | title | description | required =>
    exact .object names properties additionalProperties places element additionalItems anyOf oneOf allOf
  case properties =>
    obtain ⟨hnames, hproperties⟩ := hv.properties a ha
    exact .object hnames hproperties additionalProperties places element additionalItems anyOf oneOf allOf
  case additionalProperties =>
    have ha' : ∀ t, a = some t → t.Distinct := fun t ht => hv.schema t (of_optional (ht ▸ ha))
    exact .object names properties ha' places element additionalItems anyOf oneOf allOf
  case items =>
    have hplaces : ∀ ts, a = some (.tuple ts) → ∀ t ∈ ts, t.Distinct := fun ts ht =>
      hv.schemas ts (schemas?_of_items? (of_optional (ht ▸ ha)))
    have helement : ∀ t, a = some (.single t) → t.Distinct := fun t ht =>
      hv.schema t (schema?_of_items? (of_optional (ht ▸ ha)))
    exact .object names properties additionalProperties hplaces helement additionalItems anyOf oneOf allOf
  case additionalItems =>
    have ha' : ∀ t, a = some t → t.Distinct := fun t ht => hv.schema t (of_optional (ht ▸ ha))
    exact .object names properties additionalProperties places element ha' anyOf oneOf allOf
  case anyOf =>
    exact .object names properties additionalProperties places element additionalItems (hv.schemas a ha) oneOf allOf
  case oneOf =>
    exact .object names properties additionalProperties places element additionalItems anyOf (hv.schemas a ha) allOf
  case allOf =>
    exact .object names properties additionalProperties places element additionalItems anyOf oneOf (hv.schemas a ha)

/-- Without keywords there are no names. -/
theorem distinct_empty : ObjectSchema.Distinct {} := by
  refine .object ?_ ?_ ?_ ?_ ?_ ?_ ?_ ?_ ?_ <;> simp [Table.keys]

theorem distinct_ofScalar (s : Scalar) : (ofScalar s).Distinct := by
  refine ⟨fun t ht => ?_, fun ts hts => ?_, fun ps hps => ?_⟩
  · cases s with
    | bool b =>
      cases ht
      exact .bool b
    | null | number | string => cases ht
  · cases s <;> cases hts
  · cases s <;> cases hps

theorem distinct_ofItems {items : List SchemaView} (h : ∀ v ∈ items, v.Distinct) : (ofItems items).Distinct := by
  refine ⟨fun s hs => ?_, fun ss hss s hs => ?_, fun ps hps => (nomatch hps)⟩
  · obtain ⟨o, ho, rfl⟩ := Option.map_eq_some_iff.1 hs
    cases hread : Record.ofSlots {} keywords items with
    | error e => simp [hread, Except.toOption] at ho
    | ok o' =>
      rw [hread] at ho
      cases ho
      have ho : ObjectSchema.Distinct o := Record.ofSlots_keeps keywords_keep h distinct_empty hread
      exact ho
  · obtain ⟨v, hv, hvs⟩ := exists_of_mem_mapM hss hs
    exact (h v hv).schema s hvs

theorem distinct_ofMembers {members : List (String × SchemaView)} (h : ∀ m ∈ members, m.2.Distinct) :
    (ofMembers members).Distinct := by
  refine ⟨fun s hs => ?_, fun ss hss => (nomatch hss), fun ps hps => ?_⟩
  · obtain ⟨o, ho, rfl⟩ := Option.map_eq_some_iff.1 hs
    cases hread : Record.ofMembers keywords {} [] members with
    | error e => simp [hread, Except.toOption] at ho
    | ok o' =>
      rw [hread] at ho
      cases ho
      have ho : ObjectSchema.Distinct o := Record.ofMembers_keeps keywords_keep h distinct_empty hread
      exact ho
  · obtain ⟨bindings, hbindings, rfl⟩ := Option.map_eq_some_iff.1 hps
    refine ⟨Table.nodup_keys_ofList bindings, fun p hp => ?_⟩
    obtain ⟨m, hm, hmp⟩ := exists_of_mem_mapM hbindings (Table.mem_ofList hp)
    obtain ⟨s, hs, rfl⟩ := Option.map_eq_some_iff.1 hmp
    exact (h m hm).schema s hs

end SchemaView

mutual

theorem Json.distinct_schemaView : ∀ v : Json, v.schemaView.Distinct
  | .scalar s => SchemaView.distinct_ofScalar s
  | .array items => SchemaView.distinct_ofItems (distinct_viewItems items)
  | .object members => SchemaView.distinct_ofMembers (distinct_viewMembers members)

theorem Json.distinct_viewItems : ∀ (items : List Json),
    ∀ v ∈ foldItems SchemaView.ofScalar SchemaView.ofItems SchemaView.ofMembers items, v.Distinct
  | [] => List.forall_mem_nil _
  | v :: items => List.forall_mem_cons.2 ⟨distinct_schemaView v, distinct_viewItems items⟩

theorem Json.distinct_viewMembers : ∀ (members : List (String × Json)),
    ∀ m ∈ foldMembers SchemaView.ofScalar SchemaView.ofItems SchemaView.ofMembers members, m.2.Distinct
  | [] => List.forall_mem_nil _
  | (_, v) :: members => List.forall_mem_cons.2 ⟨distinct_schemaView v, distinct_viewMembers members⟩

end

/-- A schema that has been read has distinct names. -/
theorem Schema.distinct_of_ofJson {v : Json} {s : Schema} (h : ofJson v = .ok s) : s.Distinct := by
  rw [ofJson] at h
  split at h
  · rename_i t ht
    cases h
    exact v.distinct_schemaView.schema _ ht
  · cases h

end BrickScope
