import BrickScope.Proofs.Pipeline.RoundTrip
import BrickScope.Schema.Json

/-!
# Schemas that are read back

A schema is written without anything that tells its forms apart: one type name or a list of them, one schema for all
items or one for each place, a Boolean or keywords.  Keywords that are absent or empty are not written at all.  Still
each form is found again, since no form is written like one that is tried before it.

* `SchemaView.Shows`: what is seen in the JSON of a schema;
* `written_keyword`: a keyword is read back, or was not there;
* `Schema.shows_toJson`: a schema with distinct names is seen in its own JSON;
* `Schema.decode_encode_iff`: just these schemas are read back.
-/

namespace BrickScope

namespace Json

theorem schemaView_array (items : List Json) :
    (Json.array items).schemaView = .ofItems (items.map schemaView) := by
  rw [schemaView, fold, foldItems_eq]

theorem schemaView_object (members : List (String × Json)) :
    (Json.object members).schemaView = .ofMembers (members.map fun m => (m.1, m.2.schemaView)) := by
  rw [schemaView, fold, foldMembers_eq]

end Json

theorem schemasToJson_eq (schemas : List Schema) : schemasToJson schemas = schemas.map Schema.toJson := by
  induction schemas with
  | nil => rfl
  | cons s schemas ih => simp [schemasToJson, ih]

theorem propertiesToJson_eq (properties : List (String × Schema)) :
    propertiesToJson properties = properties.map fun p => (p.1, p.2.toJson) := by
  induction properties with
  | nil => rfl
  | cons p properties ih => simp [propertiesToJson, ih]

/-! ## what is seen in what is written -/

namespace SchemaView

/-- The schema `s` is seen, and neither `null` nor a list of schemas. -/
structure Shows (v : SchemaView) (s : Schema) : Prop where
  schema : v.schema? = some s
  notNull : v.isNull = false
  notList : v.schemas? = none

/-! ### the value of a keyword -/

theorem optional_eq {α : Type} {f : SchemaView → Option α} {v : SchemaView} {a : α} (hn : v.isNull = false)
    (h : f v = some a) : optional f v = some (some a) := by
  rw [optional, hn, h]
  rfl

theorem texts?_strings (texts : List String) :
    (Json.array (texts.map .string)).schemaView.texts? = some texts := by
  rw [Json.schemaView_array, List.map_map]
  exact mapM_map_eq_pure fun _ _ => rfl

/-- One name is no list of names, and a list of names is not one name. -/
theorem typeNames?_toJson (t : TypeNames) : optional typeNames? t.toJson.schemaView = some (some t) := by
  cases t with
  | one name => rfl
  | many names =>
    have htexts : (TypeNames.many names).toJson.schemaView.texts? = some names := texts?_strings names
    refine optional_eq rfl ?_
    rw [typeNames?, htexts]
    rfl

theorem schemas?_toJson {schemas : List Schema} (h : ∀ s ∈ schemas, s.toJson.schemaView.Shows s) :
    (Json.array (schemasToJson schemas)).schemaView.schemas? = some schemas := by
  rw [Json.schemaView_array, schemasToJson_eq, List.map_map]
  exact mapM_map_eq_pure fun s hs => (h s hs).schema

theorem schema?_toJson {o : Option Schema} (h : ∀ s, o = some s → s.toJson.schemaView.Shows s) {v : Json}
    (hv : schemaToJson? o = some v) : optional schema? v.schemaView = some o := by
  cases o with
  | none => cases hv
  | some s =>
    cases hv
    exact optional_eq (h s rfl).notNull (h s rfl).schema

/-- A list of schemas is tried first; a single schema is never written as a list. -/
theorem items?_toJson {o : Option Items} (hplaces : ∀ ts, o = some (.tuple ts) → ∀ t ∈ ts, t.toJson.schemaView.Shows t)
    (helement : ∀ t, o = some (.single t) → t.toJson.schemaView.Shows t) {v : Json} (hv : itemsToJson? o = some v) :
    optional items? v.schemaView = some o := by
  rcases o with _ | _ | t
  · cases hv
  · rename_i ts
    cases hv
    have hschemas := schemas?_toJson (hplaces ts rfl)
    refine optional_eq rfl ?_
    rw [items?, hschemas]
    rfl
  · cases hv
    have ht := helement t rfl
    refine optional_eq ht.notNull ?_
    rw [items?, ht.notList, ht.schema]
    rfl

/-- The properties keep their order. -/
theorem properties?_toJson {properties : List (String × Schema)} (hn : (Table.keys properties).Nodup)
    (h : ∀ p ∈ properties, p.2.toJson.schemaView.Shows p.2) :
    (Json.object (propertiesToJson properties)).schemaView.properties? = some properties := by
  rw [Json.schemaView_object, propertiesToJson_eq, List.map_map]
  have hread : (properties.map fun p => (p.1, p.2.toJson.schemaView)).mapM
      (fun (m : String × SchemaView) => m.2.schema?.map fun s => (m.1, s)) = some properties := by
    refine mapM_map_eq_pure fun p hp => ?_
    rw [(h p hp).schema]
    rfl
  exact (congrArg (Option.map Table.ofList) hread).trans (congrArg some (Table.ofList_eq_self hn))

/-! ### keywords -/

section

variable {α : Type} {name : String} {fields : List (Reader SchemaView ObjectSchema)} {o o' : ObjectSchema}
  {members : List (String × SchemaView)}

/-- A keyword that is written is read back; one that is not written has the default `d`. -/
theorem written_keyword {f : SchemaView → Option α} {set : α → ObjectSchema → ObjectSchema} {j : Option Json} {a d : α}
    (hdefault : o = set d o) (hnone : j = none → a = d) (hsome : ∀ v, j = some v → f v.schemaView = some a)
    (h : Record.Written fields (set a o) members o') :
    Record.Written (keyword name f set :: fields) o
      ((optionalMember name j).map (fun m => (m.1, m.2.schemaView)) ++ members) o' := by
  have hmembers : (optionalMember name j).map (fun m => (m.1, m.2.schemaView)) =
      ((j.map Json.schemaView).map fun v => (name, v)).toList := by
    cases j <;> rfl
  rw [hmembers]
  refine .optional (f := keyword name f set) (set a o) rfl (fun hj => ?_) (fun v hv => ?_) h
  · rw [hnone (Option.map_eq_none_iff.1 hj)]
    exact hdefault
  · obtain ⟨w, hw, rfl⟩ := Option.map_eq_some_iff.1 hv
    simp only [keyword, hsome w hw]

/-- The same for a list, which is written if it has members. -/
theorem written_list {f : SchemaView → Option (List α)} {set : List α → ObjectSchema → ObjectSchema}
    {write : List α → List Json} {l : List α} (hlength : (write l).length = l.length) (hdefault : o = set [] o)
    (hread : f (Json.array (write l)).schemaView = some l) (h : Record.Written fields (set l o) members o') :
    Record.Written (keyword name f set :: fields) o
      ((listMember name (write l)).map (fun m => (m.1, m.2.schemaView)) ++ members) o' := by
  have hmember : listMember name (write l) =
      optionalMember name (if (write l).isEmpty then none else some (.array (write l))) := by
    unfold listMember
    split <;> rfl
  rw [hmember]
  refine written_keyword hdefault (fun hnone => ?_) (fun v hv => ?_) h
  · have hwrite : write l = [] := by simpa using hnone
    rw [hwrite] at hlength
    exact List.length_eq_zero_iff.1 hlength.symm
  · obtain ⟨-, rfl⟩ : write l ≠ [] ∧ Json.array (write l) = v := by simpa using hv
    exact hread

end

end SchemaView

open SchemaView in
/-- The members that are written for an object schema. -/
theorem ObjectSchema.written {o : ObjectSchema} (names : (Table.keys o.properties).Nodup)
    (properties : ∀ p ∈ o.properties, p.2.toJson.schemaView.Shows p.2)
    (additionalProperties : ∀ t, o.additionalProperties = some t → t.toJson.schemaView.Shows t)
    (places : ∀ ts, o.items = some (.tuple ts) → ∀ t ∈ ts, t.toJson.schemaView.Shows t)
    (element : ∀ t, o.items = some (.single t) → t.toJson.schemaView.Shows t)
    (additionalItems : ∀ t, o.additionalItems = some t → t.toJson.schemaView.Shows t)
    (anyOf : ∀ t ∈ o.anyOf, t.toJson.schemaView.Shows t) (oneOf : ∀ t ∈ o.oneOf, t.toJson.schemaView.Shows t)
    (allOf : ∀ t ∈ o.allOf, t.toJson.schemaView.Shows t) :
    ∃ members, o.toJson = .object members ∧
      Record.Written keywords {} (members.map fun m => (m.1, m.2.schemaView)) o := by
  obtain ⟨type, title, description, props, required, extra, items, extraItems, any, one, all⟩ := o
  have hlength : ∀ schemas : List Schema, (schemasToJson schemas).length = schemas.length := fun schemas => by
    rw [schemasToJson_eq, List.length_map]
  have hproperties : (if props.isEmpty then [] else [("properties", Json.object (propertiesToJson props))]) =
      optionalMember "properties" (if props.isEmpty then none else some (.object (propertiesToJson props))) := by
    split <;> rfl
  have htext : ∀ (text : Option String) (v : Json), text.map Json.string = some v →
      optional text? v.schemaView = some text := by
    intro text v hv
    obtain ⟨s, rfl, rfl⟩ := Option.map_eq_some_iff.1 hv
    rfl
  have hschema : ∀ s : Option Schema, schemaToJson? s = none → s = none := by
    intro s hs
    cases s with
    | none => rfl
    | some s => cases hs
  refine ⟨_, rfl, ?_⟩
  rw [hproperties, ← List.append_nil (_ ++ listMember "allOf" _)]
  simp only [List.map_append, List.append_assoc, List.map_nil]
  -- one keyword after the other, from the empty schema to the whole
  refine written_keyword (a := type) (d := none) rfl (by simp) (fun v hv => ?_) ?_
  · obtain ⟨t, rfl, rfl⟩ := Option.map_eq_some_iff.1 hv
    exact typeNames?_toJson t
  refine written_keyword (a := title) (d := none) rfl (by simp) (htext title) ?_
  refine written_keyword (a := description) (d := none) rfl (by simp) (htext description) ?_
  refine written_keyword (a := props) (d := []) rfl (by simp) (fun v hv => ?_) ?_
  · obtain ⟨-, rfl⟩ : props ≠ [] ∧ Json.object (propertiesToJson props) = v := by simpa using hv
    exact properties?_toJson names properties
  refine written_list (l := required) (List.length_map _) rfl (texts?_strings required) ?_
  refine written_keyword (a := extra) (d := none) rfl (hschema extra)
    (fun v => schema?_toJson additionalProperties) ?_
  refine written_keyword (a := items) (d := none) rfl (fun hnone => ?_) (fun v => items?_toJson places element) ?_
  · rcases items with _ | _ | _
    · rfl
    · cases hnone
    · cases hnone
  refine written_keyword (a := extraItems) (d := none) rfl (hschema extraItems)
    (fun v => schema?_toJson additionalItems) ?_
  refine written_list (hlength any) rfl (schemas?_toJson anyOf) ?_
  refine written_list (hlength one) rfl (schemas?_toJson oneOf) ?_
  exact written_list (hlength all) rfl (schemas?_toJson allOf) (.done _)

/-! ## schemas -/

namespace Schema

/-- A schema with distinct names is seen in what is written for it. -/
theorem shows_toJson {s : Schema} (h : s.Distinct) : s.toJson.schemaView.Shows s := by
  induction h with
  | bool allowed => exact ⟨rfl, rfl, rfl⟩
  | object names _ _ _ _ _ _ _ _ properties additionalProperties places element additionalItems anyOf oneOf allOf =>
    rename_i o
    obtain ⟨members, hjson, hwritten⟩ := ObjectSchema.written names properties additionalProperties places element
      additionalItems anyOf oneOf allOf
    have hnames : (SchemaView.keywords.map Reader.name).Nodup := by decide
    have hread := Record.ofMembers_of_written hnames hwritten
    rw [toJson, hjson, Json.schemaView_object]
    refine ⟨?_, rfl, rfl⟩
    rw [SchemaView.ofMembers, hread]
    rfl

theorem ofJson_toJson {s : Schema} (h : s.Distinct) : ofJson s.toJson = .ok s := by
  rw [ofJson, (shows_toJson h).schema]

/-- **Reading undoes writing.**  A schema is read back from what is written for it, with its properties in their order,
exactly if no two properties in it have one name.  So every schema that is read from some JSON value is read again from
what is written for it. -/
theorem decode_encode_iff :
    (∀ s : Schema, Format.decode (Format.encode s) = .ok s ↔ s.Distinct) ∧
    ∀ (v : Json) (s : Schema), Format.decode v = .ok s →
      Format.decode (Format.encode s) = .ok s ∧
      (Format.decode (α := Schema) (Format.encode s)).map Format.encode = .ok (Format.encode s) := by
  refine ⟨fun s => ⟨distinct_of_ofJson, ofJson_toJson⟩, fun v s h => ?_⟩
  have hback : Format.decode (Format.encode s) = .ok s := ofJson_toJson (distinct_of_ofJson h)
  exact ⟨hback, congrArg (Except.map Format.encode) hback⟩

/-- A schema spelled in other ways than it is written: the element by position, keywords that are `null` or empty, and
an unknown one. -/
def oddlySpelled : Json :=
  .object [("items", .array []), ("note", .null), ("title", .null), ("anyOf", .array []),
    ("properties", .object [
      ("tags", .object [("items", .array [.string "string"]), ("type", .array [.string "array"])]),
      ("pair", .object [("items", .array [.bool true, .object [("type", .string "number")]])]),
      ("any", .bool true)]),
    ("type", .array [.string "array", .string "object"]), ("additionalItems", .array [])]

/-- What it is read as: both forms of types and of items, and Booleans among the properties. -/
def plainlyRead : Schema :=
  .object {
    type := some (.many ["array", "object"])
    properties := [
      ("tags", .object { type := some (.many ["array"]), items := some (.single (.typed "string")) }),
      ("pair", .object { items := some (.tuple [.bool true, .typed "number"]) }),
      ("any", .bool true)]
    items := some (.tuple [])
    additionalItems := some (.object {}) }

theorem decode_encode_iff_oddlySpelled : Format.decode oddlySpelled = .ok plainlyRead ∧
    Format.decode (Format.encode plainlyRead) = .ok plainlyRead :=
  ⟨rfl, (decode_encode_iff.2 oddlySpelled plainlyRead rfl).1⟩

end Schema

end BrickScope
