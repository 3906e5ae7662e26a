import BrickScope.Proofs.Existence.SingleWrites

/-!
# Tags that come from a schema

A node of a tree that comes from a schema lies at the end of a way through the schema: from property to property, with
the elements of a list in the place of the list.  How surely it exists can be read off the way: for sure if every
property on it is required, unless an override says it.  A schema without a node of its own is `false`, or a list of
such.

* `Schema.Way`, `Schema.tag`: the ways through a schema, and how surely their ends exist;
* `Schema.Void`: schemas that say nothing, `Schema.describes_iff`;
* `Node.at?_describe_of_way`, `Node.exists_way_of_at?`: nodes are the ends of ways;
* `Node.lookup_below_open`: below a node with any child, in a tree where such nodes have none;
* `Scope.described_tags`: the nodes that come from a schema and their tags;
* `Scope.described_unless_void`: the variables and properties that are defined by a schema.
-/

namespace BrickScope

/-! ## ways -/

namespace Schema

/-- A schema that says nothing: `false`, or a list of elements that nothing is said of. -/
inductive Void : Schema → Prop
  | nothing : Void (.bool false)
  | element {o : ObjectSchema} {t : Schema} (ho : o.form = .list t) (h : Void t) : Void (.object o)

/-- A schema that leaves open what is below its values, or below the elements of a list. -/
inductive Open : Schema → Prop
  | anything : Open (.bool true)
  | free {o : ObjectSchema} (ho : o.form = .free) : Open (.object o)
  | element {o : ObjectSchema} {t : Schema} (ho : o.form = .list t) (h : Open t) : Open (.object o)

/-- A way from a schema to one inside it: the names of properties, each with the object schema that it belongs to.  From
a list to its elements is no step. -/
inductive Way : Schema → List (ObjectSchema × String) → Schema → Prop
  | here (s : Schema) : Way s [] s
  | element {o : ObjectSchema} {t u : Schema} {steps : List (ObjectSchema × String)} (ho : o.form = .list t)
    (h : Way t steps u) : Way (.object o) steps u
  | property {o : ObjectSchema} {name : String} {t u : Schema} {steps : List (ObjectSchema × String)}
    (ho : o.form = .closed) (hp : (name, t) ∈ o.properties) (h : Way t steps u) :
    Way (.object o) ((o, name) :: steps) u

/-- How surely the end of a way exists: as an override says, and else for sure exactly if every step is required. -/
def tag (override : Option Existence) (steps : List (ObjectSchema × String)) : Existence :=
  override.getD (if ∀ step ∈ steps, step.1.isRequired step.2 = true then .definitely else .maybe)

/-- The same, from a node of existence `e` step by step. -/
def tagFrom (override : Option Existence) : Existence → List (ObjectSchema × String) → Existence
  | e, [] => e
  | e, (o, name) :: steps => tagFrom override (memberExistence o override e name) steps

section

variable {s t : Schema} {steps : List (ObjectSchema × String)}

theorem describes_iff (s : Schema) : s.describes = true ↔ ¬s.Void := by
  induction s using parts_induction with
  | bool allowed =>
    cases allowed with
    | false => exact iff_of_false Bool.false_ne_true (not_not_intro .nothing)
    | true => exact iff_of_true rfl fun h => by cases h
  | object o _ hitems =>
    rw [ObjectSchema.describes_eq]
    cases hform : o.form with
    | free | leaf | closed =>
      refine iff_of_true rfl fun h => ?_
      cases h with
      | element ho => cases hform.symm.trans ho
    | list t =>
      refine (hitems t (ObjectSchema.items_of_form hform)).trans (not_congr ⟨.element hform, fun h => ?_⟩)
      cases h with
      | element ho h =>
        cases hform.symm.trans ho
        exact h

/-- There is a way to something only from something. -/
theorem Way.describes (h : s.Way steps t) (ht : t.describes = true) : s.describes = true := by
  induction h with
  | here => exact ht
  | element ho _ ih =>
    rw [ObjectSchema.describes_eq, ho]
    exact ih ht
  | property ho => rw [ObjectSchema.describes_eq, ho]

theorem Way.distinct (h : s.Way steps t) (hs : s.Distinct) : t.Distinct := by
  induction h with
  | here => exact hs
  | element ho _ ih =>
    cases hs with
    | object _ _ _ _ element => exact ih (element _ (ObjectSchema.items_of_form ho))
  | property _ hp _ ih =>
    cases hs with
    | object _ properties => exact ih (properties _ hp)

theorem tagFrom_some (e : Existence) (steps : List (ObjectSchema × String)) : tagFrom (some e) e steps = e := by
  induction steps with
  | nil => rfl
  | cons step steps ih => exact ih

theorem tagFrom_maybe (steps : List (ObjectSchema × String)) : tagFrom none .maybe steps = .maybe := by
  induction steps with
  | nil => rfl
  | cons step steps ih => exact ih

theorem tagFrom_definitely (steps : List (ObjectSchema × String)) :
    tagFrom none .definitely steps = tag none steps := by
  induction steps with
  | nil => simp [tagFrom, tag]
  | cons step steps ih =>
    rw [tagFrom]
    -- one step that is not required settles the tag
    cases hstep : step.1.isRequired step.2 with
    | false => simp [memberExistence, hstep, tagFrom_maybe, tag]
    | true =>
      have hall : (∀ step' ∈ step :: steps, step'.1.isRequired step'.2 = true) ↔
          ∀ step' ∈ steps, step'.1.isRequired step'.2 = true := by simp [hstep]
      have hmember : memberExistence step.1 none .definitely step.2 = .definitely := by simp [memberExistence, hstep]
      rw [hmember, ih]
      simp only [tag, hall]

theorem tagFrom_eq (override : Option Existence) (steps : List (ObjectSchema × String)) :
    tagFrom override (override.getD .definitely) steps = tag override steps := by
  cases override with
  | none => exact tagFrom_definitely steps
  | some e => exact tagFrom_some e steps

end

end Schema

/-! ## nodes at the ends of ways -/

namespace Node

/-- At the end of a way lies what the schema there gives by itself, and look-up goes on from there. -/
theorem at?_describe_of_way (override : Option Existence) {s t : Schema} {steps : List (ObjectSchema × String)}
    (h : s.Way steps t) (hs : s.Distinct) (ht : t.describes = true) : ∀ e isArray, ∃ isArray',
      (({} : Node).describe override e isArray s).at? (steps.map Prod.snd) =
        some (({} : Node).describe override (Schema.tagFrom override e steps) isArray' t) ∧
      ∀ path, (({} : Node).describe override e isArray s).lookup (steps.map Prod.snd ++ path) =
        (({} : Node).describe override (Schema.tagFrom override e steps) isArray' t).lookup path := by
  induction h with
  | here => exact fun e isArray => ⟨isArray, rfl, fun _ => rfl⟩
  | element ho _ ih =>
    intro e isArray
    rw [describe_object, ho]
    cases hs with
    | object _ _ _ _ element => exact ih (element _ (ObjectSchema.items_of_form ho)) ht e true
  | @property o name t u steps ho hp hway ih =>
    intro e isArray
    cases hs with
    | object names properties =>
      obtain ⟨isArray', hat, hlook⟩ := ih (properties _ hp) ht (memberExistence o override e name) false
      have hchild := child?_describeProperties_of_mem override (memberExistence o override e) names hp
        (({} : Node).stamp e false isArray)
      rw [if_pos (hway.describes ht)] at hchild
      have hany := (self_describeProperties override (memberExistence o override e) o.properties
        (({} : Node).stamp e false isArray)).1
      refine ⟨isArray', ?_, fun path => ?_⟩ <;> rw [describe_object, ho]
      · rw [List.map_cons, at?, hchild]
        exact hat
      · rw [List.map_cons, List.cons_append, lookup_cons_of_child hany hchild]
        exact hlook path

/-- Every node that comes from a schema lies at the end of a way. -/
theorem exists_way_of_at? (override : Option Existence) {s : Schema} (hs : s.Distinct) :
    s.describes = true → ∀ e isArray path n, (({} : Node).describe override e isArray s).at? path = some n →
      ∃ steps t, s.Way steps t ∧ t.describes = true ∧ steps.map Prod.snd = path := by
  induction hs with
  | bool allowed =>
    intro hd e isArray path n hn
    cases hd
    cases path with
    | nil => exact ⟨[], _, .here _, rfl, rfl⟩
    | cons k path => cases hn
  | @object o names _ _ _ _ _ _ _ _ ihproperty _ _ ihelement =>
    intro hd e isArray path n hn
    cases path with
    | nil => exact ⟨[], _, .here _, hd, rfl⟩
    | cons k path =>
      rw [describe_object] at hn
      cases hform : o.form with
      | free | leaf =>
        rw [hform] at hn
        cases hn
      | closed =>
        rw [hform] at hn
        obtain ⟨c, hc, hn⟩ := Option.bind_eq_some_iff.1 hn
        obtain ⟨t, hp, ht, rfl⟩ := exists_property_of_child? override _ names hc
        obtain ⟨steps, u, hway, hu, rfl⟩ := ihproperty (k, t) hp ht _ _ path n hn
        exact ⟨(o, k) :: steps, u, .property hform hp hway, hu, rfl⟩
      | list t =>
        rw [hform] at hn
        rw [ObjectSchema.describes_eq, hform] at hd
        obtain ⟨steps, u, hway, hu, hpath⟩ := ihelement t (ObjectSchema.items_of_form hform) hd e true _ n hn
        exact ⟨steps, u, .element hform hway, hu, hpath⟩

/-- A node has any child if the schema leaves open what is below it, and then no child is known. -/
theorem anyChild_describe (override : Option Existence) (s : Schema) : s.describes = true → ∀ e isArray,
    ((({} : Node).describe override e isArray s).anyChild = true ↔ s.Open) ∧
    (s.Open → ∀ k, (({} : Node).describe override e isArray s).child? k = none) := by
  induction s using Schema.parts_induction with
  | bool allowed =>
    intro hd e isArray
    cases hd
    exact ⟨iff_of_true rfl .anything, fun _ _ => rfl⟩
  | object o _ hitems =>
    intro hd e isArray
    rw [describe_object]
    cases hform : o.form with
    | free => exact ⟨iff_of_true rfl (.free hform), fun _ _ => rfl⟩
    | leaf | closed =>
      have hopen : ¬(Schema.object o).Open := by
        intro h
        cases h with
        | free ho | element ho => cases hform.symm.trans ho
      refine ⟨iff_of_false ?_ hopen, fun h => absurd h hopen⟩
      simp [self_describeProperties, stamp]
    | list t =>
      rw [ObjectSchema.describes_eq, hform] at hd
      have hiff : (Schema.object o).Open ↔ t.Open := by
        refine ⟨fun h => ?_, .element hform⟩
        cases h with
        | free ho => cases hform.symm.trans ho
        | element ho h =>
          cases hform.symm.trans ho
          exact h
      rw [hiff]
      exact hitems t (ObjectSchema.items_of_form hform) hd e true

/-! ## properties of closed objects -/

theorem isSome_lookup_nil_describe (override : Option Existence) {s : Schema} (hd : s.describes = true) (e : Existence)
    (isArray : Bool) : ((({} : Node).describe override e isArray s).lookup []).isSome = true := by
  rw [lookup, existence_describe override s hd]
  split <;> rfl

/-- A property that says nothing has no node, so that its name can only be an index. -/
theorem isSome_lookup_property (override : Option Existence) {o : ObjectSchema} (ho : o.form = .closed)
    (names : (Table.keys o.properties).Nodup) {name : String} {t : Schema} (hp : (name, t) ∈ o.properties)
    (e : Existence) (isArray : Bool) :
    ((({} : Node).describe override e isArray (.object o)).lookup [name]).isSome = true ↔
      t.describes = true ∨
        ((({} : Node).describe override e isArray (.object o)).isArray && Reference.isIndex name) = true := by
  have hd : (Schema.object o).describes = true := by rw [ObjectSchema.describes_eq, ho]
  have hself := isSome_lookup_nil_describe override hd e isArray
  rw [describe_object, ho] at hself ⊢
  have hany := (self_describeProperties override (memberExistence o override e) o.properties
    (({} : Node).stamp e false isArray)).1
  have hchild := child?_describeProperties_of_mem override (memberExistence o override e) names hp
    (({} : Node).stamp e false isArray)
  cases ht : t.describes with
  | true =>
    rw [if_pos ht] at hchild
    rw [lookup_cons_of_child hany hchild]
    exact iff_of_true (isSome_lookup_nil_describe override ht _ false) (.inl rfl)
  | false =>
    rw [if_neg (by simp [ht])] at hchild
    rw [lookup_cons_of_none hany hchild]
    split <;> simp [*]

/-! ## below a node with any child -/

/-- Below a node with any child, no child is known. -/
def OpenlyBare (n : Node) : Prop := ∀ path c, n.at? path = some c → c.anyChild = true → ∀ k, c.child? k = none

theorem exists_at?_of_reach? {n o : Node} {path : List String} (h : n.reach? path = some o) :
    ∃ path', n.at? path' = some o := by
  induction path generalizing n with
  | nil => exact ⟨[], h⟩
  | cons s path ih =>
    obtain ⟨c, hc, ho⟩ := Option.bind_eq_some_iff.1 h
    obtain ⟨path', hpath⟩ := ih ho
    rcases Option.or_eq_some_iff.1 hc with hc | ⟨-, hc⟩
    · refine ⟨s :: path', ?_⟩
      rw [at?, hc]
      exact hpath
    · split at hc
      · cases hc
        exact ⟨path', hpath⟩
      · cases hc

theorem lookup_below_open {n o : Node} (hn : n.OpenlyBare) {p : List String} (ho : n.reach? p = some o)
    (hany : o.anyChild = true) (k : String) (q : List String) : n.lookup (p ++ k :: q) = some .maybe := by
  -- look-up stops at the first open node, which may come before `o`
  rcases n.closedBefore_or_exists_firstOpen (p ++ k :: q) with hclosed | ⟨p', k', q', o', hpath, ho'⟩
  · have hfalse := hclosed p (k :: q) o rfl (List.cons_ne_nil _ _) ho
    rw [hany] at hfalse
    cases hfalse
  · obtain ⟨path', hat⟩ := exists_at?_of_reach? ho'.reach
    rw [hpath, ho'.lookup_eq, hn path' o' hat ho'.anyChild k']
    rfl

theorem openlyBare_describe (override : Option Existence) {s : Schema} (hs : s.Distinct) (hd : s.describes = true)
    (e : Existence) (isArray : Bool) : (({} : Node).describe override e isArray s).OpenlyBare := by
  intro path c hc hany
  obtain ⟨steps, t, hway, ht, rfl⟩ := exists_way_of_at? override hs hd e isArray path c hc
  obtain ⟨isArray', hat, -⟩ := at?_describe_of_way override hway hs ht e isArray
  cases hc.symm.trans hat
  obtain ⟨hiff, hnone⟩ := anyChild_describe override t ht (Schema.tagFrom override e steps) isArray'
  exact hnone (hiff.1 hany)

end Node

/-! ## a variable that a schema describes -/

namespace Scope

/-- The node at a path of a source. -/
def node? (m : Scope) (source : String) (path : List String) : Option Node :=
  (m.source? source).bind fun root => root.at? path

section

variable {s : Schema} (source x : String) (override : Option Existence)

theorem source?_describe (hd : s.describes = true) : (empty.describe source s [x] override).source? source =
    some (({} : Node).write (override.getD .definitely)
      (fun n => n.describe override (override.getD .definitely) false s) [x]) := by
  rw [describe, if_pos hd, source?_write_self]
  rfl

theorem child?_write_singleton (e : Existence) (f : Node → Node) (k : String) :
    (({} : Node).write e f [x]).child? k = if k = x then some (f {}) else none := by
  rw [Node.write, Node.child?_updateChild]
  rfl

theorem node?_describe (path : List String) : (empty.describe source s [x] override).node? source (x :: path) =
    if s.describes then (({} : Node).describe override (override.getD .definitely) false s).at? path else none := by
  cases hd : s.describes with
  | true =>
    rw [node?, source?_describe source x override hd, Option.bind_some, Node.at?, child?_write_singleton, if_pos rfl,
      if_pos rfl]
    rfl
  | false =>
    rw [describe, hd]
    rfl

theorem lookup_describe (hd : s.describes = true) (path : List String) :
    (empty.describe source s [x] override).lookup (x :: path) =
      (({} : Node).describe override (override.getD .definitely) false s).lookup path := by
  rw [describe, if_pos hd, lookup_empty_write]

/-- The node at the end of a way. -/
theorem node?_describe_of_way (hs : s.Distinct) {steps : List (ObjectSchema × String)} {t : Schema}
    (h : s.Way steps t) (ht : t.describes = true) : ∃ isArray,
      (empty.describe source s [x] override).node? source (x :: steps.map Prod.snd) =
        some (({} : Node).describe override (Schema.tag override steps) isArray t) ∧
      ∀ path, (empty.describe source s [x] override).lookup (x :: (steps.map Prod.snd ++ path)) =
        (({} : Node).describe override (Schema.tag override steps) isArray t).lookup path := by
  have hd := h.describes ht
  obtain ⟨isArray, hat, hlook⟩ := Node.at?_describe_of_way override h hs ht (override.getD .definitely) false
  rw [Schema.tagFrom_eq] at hat hlook
  refine ⟨isArray, ?_, fun path => ?_⟩
  · rw [node?_describe, if_pos hd, hat]
  · rw [lookup_describe source x override hd, hlook path]

theorem existence?_below_open (hs : s.Distinct) {root o : Node} {reference k : String} {p q : List String}
    (hroot : (empty.describe source s [x] override).source? source = some root)
    (hr : Reference.segments reference = p ++ k :: q) (ho : root.reach? p = some o) (hany : o.anyChild = true) :
    (empty.describe source s [x] override).existence? reference = some .maybe := by
  cases hd : s.describes with
  | false =>
    rw [describe, hd] at hroot
    cases hroot
  | true =>
    rw [source?_describe source x override hd] at hroot
    cases hroot
    have hbare : Node.OpenlyBare (({} : Node).write (override.getD .definitely)
        (fun n => n.describe override (override.getD .definitely) false s) [x]) := by
      intro path c hc hopen
      cases path with
      | nil =>
        cases hc
        cases hopen
      | cons k' path =>
        rw [Node.at?, child?_write_singleton] at hc
        split at hc
        · exact Node.openlyBare_describe override hs hd _ false path c hc hopen
        · cases hc
    have hlook := Node.lookup_below_open hbare ho hany k q
    rw [existence?, hr, describe, if_pos hd, lookup, if_neg (by simp)]
    exact (Existence.none_surer _).trans hlook

end

/-- **The tags that come from a schema.**  Let a schema be all that is known of a variable.  The paths may be recorded one
by one, each write raising what is above it.  The nodes at and below the variable are the ends of the ways through the
schema; each is as sure as an override says, and without one it is there for sure exactly if every step of its way is
required.  A reference that goes on below a node with any child is perhaps there. -/
theorem described_tags (source x : String) (override : Option Existence) {s : Schema} (hs : s.Distinct) :
    -- the tree is the one that is written path by path, each write raising what is above it
    empty.describe source s [x] override =
      (s.entries override (override.getD .definitely) false).foldl (record source [x]) empty ∧
    -- every node lies at the end of a way
    (∀ path n, (empty.describe source s [x] override).node? source (x :: path) = some n →
      ∃ steps t, s.Way steps t ∧ ¬t.Void ∧ steps.map Prod.snd = path) ∧
    -- and is tagged by the way
    (∀ steps t, s.Way steps t → ¬t.Void →
      ∃ n, (empty.describe source s [x] override).node? source (x :: steps.map Prod.snd) = some n ∧
        n.existence = some (Schema.tag override steps) ∧ (n.anyChild = true ↔ t.Open)) ∧
    -- below a node with any child
    ∀ root, (empty.describe source s [x] override).source? source = some root →
      ∀ reference p k q o, Reference.segments reference = p ++ k :: q → root.reach? p = some o → o.anyChild = true →
        (empty.describe source s [x] override).existence? reference = some .maybe := by
  refine ⟨describe_eq_foldl empty source x [] override s, fun path n hn => ?_, fun steps t hway ht => ?_,
    fun root hroot reference p k q o hr ho hany => existence?_below_open source x override hs hroot hr ho hany⟩
  · rw [node?_describe] at hn
    split at hn
    · rename_i hd
      obtain ⟨steps, t, hway, ht, hpath⟩ := Node.exists_way_of_at? override hs hd _ false path n hn
      exact ⟨steps, t, hway, (Schema.describes_iff t).1 ht, hpath⟩
    · cases hn
  · have hd := (Schema.describes_iff t).2 ht
    obtain ⟨isArray, hnode, -⟩ := node?_describe_of_way source x override hs hway hd
    exact ⟨_, hnode, Node.existence_describe override t hd _ isArray {},
      (Node.anyChild_describe override t hd _ isArray).1⟩

/-! ### required and optional properties -/

/-- A required list of objects and an optional object, each with a member that is required and one that is not. -/
def nestedJson : Json :=
  .object [("type", .string "object"), ("required", .array [.string "rows"]), ("properties", .object [
    ("rows", .object [("type", .string "array"), ("items", rowJson)]), ("row", rowJson)])]
where
  rowJson : Json := .object [("required", .array [.string "id"]), ("properties", .object [
    ("id", .object [("type", .string "string")]), ("note", .bool true)])]

def rowObject : ObjectSchema :=
  { required := ["id"], properties := [("id", .typed "string"), ("note", .bool true)] }

def nestedObject : ObjectSchema :=
  { type := some (.one "object"), required := ["rows"],
    properties := [("rows", .array (.object rowObject)), ("row", .object rowObject)] }

/-- The elements of a required list are there for sure, and so are their required members; a required member of an
optional object is not.  Nothing is for sure if an override says so. -/
theorem described_tags_nested :
    Schema.ofJson nestedJson = .ok (.object nestedObject) ∧ (Schema.object nestedObject).Distinct ∧
    (∃ n, (empty.describe "s" (.object nestedObject) ["@v"] none).node? "s" ["@v", "rows", "id"] = some n ∧
      n.existence = some .definitely) ∧
    (∃ n, (empty.describe "s" (.object nestedObject) ["@v"] none).node? "s" ["@v", "row", "id"] = some n ∧
      n.existence = some .maybe) ∧
    (∃ n, (empty.describe "s" (.object nestedObject) ["@v"] (some .maybe)).node? "s" ["@v", "rows", "id"] = some n ∧
      n.existence = some .maybe) ∧
    (empty.describe "s" (.object nestedObject) ["@v"] none).existence? "@v.rows[0].note.text" = some .maybe := by
  have hread : Schema.ofJson nestedJson = .ok (.object nestedObject) := rfl
  have hdistinct := Schema.distinct_of_ofJson hread
  have hid : (Schema.object rowObject).Way [(rowObject, "id")] (.typed "string") :=
    .property rfl List.mem_cons_self (.here _)
  have hrows : (Schema.object nestedObject).Way [(nestedObject, "rows"), (rowObject, "id")] (.typed "string") :=
    .property rfl List.mem_cons_self (.element rfl hid)
  have hrow : (Schema.object nestedObject).Way [(nestedObject, "row"), (rowObject, "id")] (.typed "string") :=
    .property rfl (List.mem_cons_of_mem _ List.mem_cons_self) hid
  have hvoid : ¬(Schema.typed "string").Void := by
    intro h
    cases h with
    | element ho => cases ho
  obtain ⟨-, -, htag, hopen⟩ := described_tags "s" "@v" none hdistinct
  obtain ⟨-, -, htag', -⟩ := described_tags "s" "@v" (some .maybe) hdistinct
  obtain ⟨n, hn, he, -⟩ := htag _ _ hrows hvoid
  obtain ⟨n', hn', he', -⟩ := htag _ _ hrow hvoid
  obtain ⟨n'', hn'', he'', -⟩ := htag' _ _ hrows hvoid
  refine ⟨hread, hdistinct, ⟨n, hn, he⟩, ⟨n', hn', he'⟩, ⟨n'', hn'', he''⟩, ?_⟩
  exact hopen _ rfl _ ["@v", "rows", "0", "note"] "text" [] _ (by decide +kernel) rfl rfl

/-! ## schemas that define their variables -/

/-- **The variables and properties that a schema defines.**  When a schema is all that is known of a variable, the
variable is known exactly if the schema is not void: neither `false`, nor a list of elements with a void schema.  A
property of a closed object is known, wherever the object is, exactly if its own schema is not void; where the object is
an element, a property that is not known may still be an index by its name. -/
theorem described_unless_void (source x : String) (override : Option Existence) {s : Schema} (hs : s.Distinct) :
    (∀ reference, Reference.segments reference = [x] →
      ((empty.describe source s [x] override).defines reference = true ↔ ¬s.Void)) ∧
    ∀ steps o name t, s.Way steps (.object o) → o.form = .closed → (name, t) ∈ o.properties →
      ∃ n, (empty.describe source s [x] override).node? source (x :: steps.map Prod.snd) = some n ∧
        ∀ reference, Reference.segments reference = x :: (steps.map Prod.snd ++ [name]) →
          ((empty.describe source s [x] override).defines reference = true ↔
            ¬t.Void ∨ (n.isArray && Reference.isIndex name) = true) := by
  refine ⟨fun reference hr => ?_, fun steps o name t hway ho hp => ?_⟩
  · rw [defines, existence?, hr, ← Schema.describes_iff]
    cases hd : s.describes with
    | true =>
      rw [lookup_describe source x override hd]
      exact iff_of_true (Node.isSome_lookup_nil_describe override hd _ false) rfl
    | false =>
      rw [describe, hd]
      exact iff_of_false Bool.false_ne_true Bool.false_ne_true
  · have hd : (Schema.object o).describes = true := by rw [ObjectSchema.describes_eq, ho]
    obtain ⟨isArray, hnode, hlook⟩ := node?_describe_of_way source x override hs hway hd
    refine ⟨_, hnode, fun reference hr => ?_⟩
    rw [defines, existence?, hr, hlook, ← Schema.describes_iff]
    cases hway.distinct hs with
    | object names => exact Node.isSome_lookup_property override ho names hp _ isArray

/-- A list that must be empty. -/
def emptyListJson : Json := .object [("type", .string "array"), ("items", .bool false)]

/-- A closed object that must have such a list. -/
def emptyListOwner : ObjectSchema :=
  { type := some (.one "object"), required := ["list"], properties := [("list", .array (.bool false))] }

def emptyListOwnerJson : Json :=
  .object [("type", .string "object"), ("required", .array [.string "list"]),
    ("properties", .object [("list", emptyListJson)])]

/-- It is not enough for a schema not to be `false`: a list of which nothing is said but that it has no elements is not
known, though it must be there. -/
theorem emptyList_undefined :
    Schema.ofJson emptyListJson = .ok (.array (.bool false)) ∧ Schema.array (.bool false) ≠ .bool false ∧
    (∀ override, (empty.describe "s" (.array (.bool false)) ["@v"] override).defines "@v" = false) ∧
    Schema.ofJson emptyListOwnerJson = .ok (.object emptyListOwner) ∧ emptyListOwner.form = .closed ∧
    emptyListOwner.isRequired "list" = true ∧
    ∀ override, (empty.describe "s" (.object emptyListOwner) ["@v"] override).defines "@v.list" = false := by
  refine ⟨rfl, (fun h => by cases h), fun override => ?_, rfl, rfl, rfl, fun override => ?_⟩
  · rcases override with _ | _ | _ <;> decide +kernel
  · rcases override with _ | _ | _ <;> decide +kernel

/-- Elements with a list of lists that must be empty, a member that must not be there and one that may. -/
def sparseElement : ObjectSchema :=
  { type := some (.one "object"),
    properties := [("lists", .array (.array (.bool false))), ("0", .bool false), ("id", .typed "string")] }

def sparseListJson : Json :=
  .object [("type", .string "array"), ("items", .object [("type", .string "object"), ("properties", .object [
    ("lists", .object [("type", .string "array"), ("items", emptyListJson)]), ("0", .bool false),
    ("id", .object [("type", .string "string")])])])]

theorem described_unless_void_sparseList :
    Schema.ofJson sparseListJson = .ok (.array (.object sparseElement)) ∧
    (Schema.array (.object sparseElement)).Distinct ∧
    ∀ override, (empty.describe "s" (.array (.object sparseElement)) ["@v"] override).defines "@v" = true ∧
      (empty.describe "s" (.array (.object sparseElement)) ["@v"] override).defines "@v.id" = true ∧
      (empty.describe "s" (.array (.object sparseElement)) ["@v"] override).defines "@v.lists" = false ∧
      (empty.describe "s" (.array (.object sparseElement)) ["@v"] override).defines "@v[0]" = true := by
  have hread : Schema.ofJson sparseListJson = .ok (.array (.object sparseElement)) := rfl
  have hdistinct := Schema.distinct_of_ofJson hread
  have hway : (Schema.array (.object sparseElement)).Way [] (.object sparseElement) := .element rfl (.here _)
  have hvoid : (Schema.array (.array (.bool false))).Void := .element rfl (.element rfl .nothing)
  refine ⟨hread, hdistinct, fun override => ?_⟩
  obtain ⟨hvariable, hproperty⟩ := described_unless_void "s" "@v" override hdistinct
  refine ⟨?_, ?_, ?_, ?_⟩
  · exact (hvariable "@v" (by decide +kernel)).2 ((Schema.describes_iff _).1 rfl)
  · obtain ⟨n, -, hiff⟩ := hproperty [] sparseElement "id" (.typed "string") hway rfl (by simp [sparseElement])
    exact (hiff "@v.id" (by decide +kernel)).2 (.inl ((Schema.describes_iff _).1 rfl))
  · obtain ⟨n, -, hiff⟩ := hproperty [] sparseElement "lists" _ hway rfl List.mem_cons_self
    have hindex : Reference.isIndex "lists" = false := by decide +kernel
    have hnot := not_congr (hiff "@v.lists" (by decide +kernel))
    rw [hindex, Bool.and_false] at hnot
    exact Bool.eq_false_iff.2 (hnot.2 (not_or.2 ⟨not_not_intro hvoid, Bool.false_ne_true⟩))
  · obtain ⟨n, hn, hiff⟩ := hproperty [] sparseElement "0" (.bool false) hway rfl (by simp [sparseElement])
    have harray : n.isArray = true := by
      cases hn
      rfl
    have hindex : Reference.isIndex "0" = true := by decide +kernel
    refine (hiff "@v[0]" (by decide +kernel)).2 (.inr ?_)
    rw [harray, hindex]
    rfl

end Scope

end BrickScope
