import BrickScope.Proofs.Existence.Naming

/-!
# Schemas, one path at a time

A schema is recorded in one go, from its own node downwards.  It could as well be recorded path by path, each by a write
from the root that lets the nodes before it exist at least as surely.  Both come to the same: no path is surer than those
before it, so a write never changes what was said above it.

* `Schema.entries`: what is recorded of each path, in the order of a walk;
* `Schema.covers_of_mem_entries`: nothing is surer than what is above it;
* `Node.describe_eq_foldl`, `Scope.describe_eq_foldl`: the walk, write by write.
-/

namespace BrickScope

/-! ## surer than all below -/

namespace Existence

/-- Something of existence `e` need not be raised for something of existence `e'`. -/
def Covers (e e' : Existence) : Prop := surer (some e) (some e') = some e

variable {e e' : Existence}

theorem Covers.refl (e : Existence) : e.Covers e := by
  cases e <;> rfl

theorem Covers.trans {e'' : Existence} (h : e.Covers e') (h' : e'.Covers e'') : e.Covers e'' := by
  cases e
  · cases e'
    · exact h'
    · cases h
  · rfl

/-- Once raised to `e`, a node stays as it is. -/
theorem Covers.surer_surer (h : e.Covers e') (x : Option Existence) :
    surer (surer x (some e)) (some e') = surer x (some e) := by
  cases e
  · cases e'
    · rcases x with _ | _ | _ <;> rfl
    · cases h
  · rcases x with _ | _ | _ <;> rfl

end Existence

theorem covers_memberExistence (o : ObjectSchema) {override : Option Existence} {e : Existence}
    (he : override.getD e = e) (name : String) : e.Covers (memberExistence o override e name) := by
  cases override with
  | some e' =>
    have hmember : memberExistence o (some e') e name = e := he
    rw [hmember]
    exact .refl e
  | none =>
    cases e with
    | definitely => rfl
    | maybe => exact .refl _

theorem getD_memberExistence (o : ObjectSchema) (override : Option Existence) (e : Existence) (name : String) :
    override.getD (memberExistence o override e name) = memberExistence o override e name := by
  cases override <;> rfl

/-! ## the entries of a schema -/

/-- What is recorded of one path. -/
structure Entry where
  path : List String
  existence : Existence
  anyChild : Bool
  isArray : Bool

/-- The same, of a child of that name. -/
def Entry.below (name : String) (w : Entry) : Entry := { w with path := name :: w.path }

mutual

/-- What a schema has recorded of each path below a node that exists as surely as `e`, in the order of a walk. -/
def Schema.entries (override : Option Existence) (e : Existence) (isArray : Bool) : Schema → List Entry
  | .bool allowed => if allowed then [⟨[], e, true, isArray⟩] else []
  | .object o => o.entries override e isArray

def ObjectSchema.entries (override : Option Existence) (e : Existence) (isArray : Bool) : ObjectSchema → List Entry
  | o@⟨_, _, _, properties, _, _, items, _, _, _, _⟩ =>
    if o.isArray then
      match items with
      | some (.single s) => if o.variesByIndex then [⟨[], e, true, true⟩] else s.entries override e true
      | _ => [⟨[], e, true, true⟩]
    else if o.isLeaf then [⟨[], e, false, isArray⟩]
    else if o.isComposite || properties.isEmpty || o.allowsAdditional then [⟨[], e, true, isArray⟩]
    else ⟨[], e, false, isArray⟩ :: Schema.propertyEntries override (memberExistence o override e) properties

def Schema.propertyEntries (override : Option Existence) (existence : String → Existence) :
    List (String × Schema) → List Entry
  | [] => []
  | (name, s) :: properties =>
    (s.entries override (existence name) false).map (Entry.below name) ++
      Schema.propertyEntries override existence properties

end

namespace Schema

section

variable (override : Option Existence) (e : Existence) (isArray : Bool)

/-- The entries of a schema are as its form tells. -/
theorem entries_object (o : ObjectSchema) : (Schema.object o).entries override e isArray = match o.form with
    | .free => [⟨[], e, true, isArray || o.isArray⟩]
    | .leaf => [⟨[], e, false, isArray⟩]
    | .closed => ⟨[], e, false, isArray⟩ :: propertyEntries override (memberExistence o override e) o.properties
    | .list t => t.entries override e true := by
  have hfields : (Schema.object o).entries override e isArray =
      if o.isArray then
        (o.items.bind Items.single?).elim [⟨[], e, true, true⟩] fun t =>
          if o.variesByIndex then [⟨[], e, true, true⟩] else t.entries override e true
      else if o.isLeaf then [⟨[], e, false, isArray⟩]
      else if o.isComposite || o.properties.isEmpty || o.allowsAdditional then [⟨[], e, true, isArray⟩]
      else ⟨[], e, false, isArray⟩ :: propertyEntries override (memberExistence o override e) o.properties := by
    obtain ⟨type, title, description, properties, required, additionalProperties, items, additionalItems, anyOf, oneOf,
      allOf⟩ := o
    rcases items with _ | _ | s <;> rfl
  rw [hfields, ObjectSchema.ite_eq_form]
  cases o.form with
  | free => cases o.isArray <;> simp
  | leaf | closed | list => rfl

end

/-- The first entry is the one of the node itself. -/
theorem exists_entries_eq (override : Option Existence) (s : Schema) : s.describes = true →
    ∀ e isArray, ∃ anyChild isArray' ws, s.entries override e isArray = ⟨[], e, anyChild, isArray'⟩ :: ws := by
  induction s using parts_induction with
  | bool allowed =>
    intro hd e isArray
    cases hd
    exact ⟨true, isArray, [], rfl⟩
  | object o _ hitems =>
    intro hd e isArray
    rw [ObjectSchema.describes_eq] at hd
    rw [entries_object]
    cases hform : o.form with
    | free | leaf | closed => exact ⟨_, _, _, rfl⟩
    | list t =>
      rw [hform] at hd
      exact hitems t (ObjectSchema.items_of_form hform) hd e true

theorem entries_eq_nil (override : Option Existence) (s : Schema) : s.describes = false →
    ∀ e isArray, s.entries override e isArray = [] := by
  induction s using parts_induction with
  | bool allowed =>
    intro hd e isArray
    cases hd
    rfl
  | object o _ hitems =>
    intro hd e isArray
    rw [ObjectSchema.describes_eq] at hd
    rw [entries_object]
    cases hform : o.form with
    | free | leaf | closed =>
      rw [hform] at hd
      cases hd
    | list t =>
      rw [hform] at hd
      exact hitems t (ObjectSchema.items_of_form hform) hd e true

theorem mem_propertyEntries {override : Option Existence} {existence : String → Existence}
    {properties : List (String × Schema)} {w : Entry} (h : w ∈ propertyEntries override existence properties) :
    ∃ p ∈ properties, ∃ w' ∈ p.2.entries override (existence p.1) false, w = w'.below p.1 := by
  induction properties with
  | nil => cases h
  | cons p properties ih =>
    rw [propertyEntries] at h
    rcases List.mem_append.1 h with h | h
    · obtain ⟨w', hw', rfl⟩ := List.mem_map.1 h
      exact ⟨p, List.mem_cons_self, w', hw', rfl⟩
    · obtain ⟨p', hp', hw'⟩ := ih h
      exact ⟨p', List.mem_cons_of_mem _ hp', hw'⟩

/-- No path is surer than the node above all of them. -/
theorem covers_of_mem_entries (override : Option Existence) (s : Schema) : ∀ e isArray, override.getD e = e →
    ∀ w ∈ s.entries override e isArray, e.Covers w.existence := by
  induction s using parts_induction with
  | bool allowed =>
    intro e isArray _ w hw
    cases allowed with
    | false => cases hw
    | true =>
      cases List.mem_singleton.1 hw
      exact .refl e
  | object o hproperties hitems =>
    intro e isArray he w hw
    rw [entries_object] at hw
    cases hform : o.form with
    | free | leaf =>
      rw [hform] at hw
      cases List.mem_singleton.1 hw
      exact .refl e
    | closed =>
      rw [hform] at hw
      rcases List.mem_cons.1 hw with rfl | hw
      · exact .refl e
      · obtain ⟨p, hp, w', hw', rfl⟩ := mem_propertyEntries hw
        have hmember := covers_memberExistence o he p.1
        exact hmember.trans (hproperties p hp _ false (getD_memberExistence o override e p.1) w' hw')
    | list t =>
      rw [hform] at hw
      exact hitems t (ObjectSchema.items_of_form hform) e true he w hw

end Schema

/-! ## writes that follow one another -/

namespace Node

theorem updateChild_updateChild (n : Node) (name : String) (f g : Node → Node) :
    (n.updateChild name f).updateChild name g = n.updateChild name fun c => g (f c) := by
  rw [updateChild, updateChild, updateChild, Table.update_update]
  rfl

theorem raise_of_covers {n : Node} {e e' : Existence} (hn : n.existence = some e) (h : e.Covers e') :
    n.raise e' = n := by
  obtain ⟨existence, anyChild, isArray, children⟩ := n
  cases hn
  exact congrArg (fun existence => Node.mk existence anyChild isArray children) h

theorem raise_raise {e e' : Existence} (h : e.Covers e') (n : Node) : (n.raise e).raise e' = n.raise e := by
  rw [raise, raise]
  simp only [h.surer_surer]

/-- A write further down the path of another one belongs to what that one does at its end. -/
theorem writeAt_append {e e' : Existence} (h : e.Covers e') (f g : Node → Node) (p q : List String) (n : Node) :
    writeAt e' g (p ++ q) (writeAt e f p n) = writeAt e (fun c => writeAt e' g q (f c)) p n := by
  induction p generalizing n with
  | nil => rfl
  | cons s p ih =>
    have hraise : ((n.raise e).updateChild s (writeAt e f p)).raise e' = (n.raise e).updateChild s (writeAt e f p) :=
      congrArg (fun n : Node => n.updateChild s (writeAt e f p)) (raise_raise h n)
    rw [List.cons_append, writeAt, writeAt, hraise, updateChild_updateChild, writeAt]
    exact congrArg _ (funext ih)

end Node

theorem Scope.write_write {e e' : Existence} (h : e.Covers e') (m : Scope) (source x : String) (p q : List String)
    (f g : Node → Node) :
    (m.write source (x :: p) e f).write source (x :: p ++ q) e' g =
      m.write source (x :: p) e fun c => (f c).writeAt e' g q := by
  have hroot : ∀ root : Node, (root.write e f (x :: p)).write e' g (x :: p ++ q) =
      root.write e (fun c => (f c).writeAt e' g q) (x :: p) := by
    intro root
    rw [List.cons_append, Node.write, Node.write, Node.updateChild_updateChild, Node.write]
    exact congrArg _ (funext fun c => Node.writeAt_append h f g p q c)
  rw [write, write, Table.update_update, write]
  exact congrArg _ (congrArg _ (funext fun root => hroot (root.getD {})))

/-! ## the walk -/

/-- Record an entry by a write from above. -/
def Entry.write (n : Node) (w : Entry) : Node :=
  n.writeAt w.existence (Node.stamp w.existence w.anyChild w.isArray) w.path

namespace Node

/-- Entries below a child, once the node itself is as sure as any of them. -/
theorem foldl_write_below {e : Existence} {ws : List Entry} (hws : ∀ w ∈ ws, e.Covers w.existence) {n : Node}
    (hn : n.existence = some e) (name : String) (hne : ws ≠ []) :
    (ws.map (Entry.below name)).foldl Entry.write n = n.updateChild name fun c => ws.foldl Entry.write c := by
  induction ws generalizing n with
  | nil => exact absurd rfl hne
  | cons w ws ih =>
    obtain ⟨hw, hws⟩ := List.forall_mem_cons.1 hws
    have hfirst : Entry.write n (w.below name) = n.updateChild name fun c => Entry.write c w :=
      congrArg (fun n : Node => n.updateChild name fun c => Entry.write c w) (raise_of_covers hn hw)
    rw [List.map_cons, List.foldl_cons, hfirst]
    by_cases hnil : ws = []
    · subst hnil
      rfl
    · rw [ih hws (by exact hn) hnil, updateChild_updateChild]
      rfl

theorem describeProperties_eq_foldl {override : Option Existence} {e : Existence} {existence : String → Existence}
    (hexistence : ∀ name, e.Covers (existence name) ∧ override.getD (existence name) = existence name)
    {properties : List (String × Schema)}
    (hproperties : ∀ p ∈ properties, ∀ e isArray, override.getD e = e →
      ∀ n : Node, n.describe override e isArray p.2 = (p.2.entries override e isArray).foldl Entry.write n)
    {n : Node} (hn : n.existence = some e) :
    n.describeProperties override existence properties =
      (Schema.propertyEntries override existence properties).foldl Entry.write n := by
  induction properties generalizing n with
  | nil => rfl
  | cons p properties ih =>
    obtain ⟨hp, hproperties⟩ := List.forall_mem_cons.1 hproperties
    obtain ⟨hcovers, hoverride⟩ := hexistence p.1
    rw [describeProperties, Schema.propertyEntries, List.foldl_append]
    cases hd : p.2.describes with
    | false =>
      rw [Schema.entries_eq_nil override p.2 hd]
      exact ih hproperties hn
    | true =>
      have hws : ∀ w ∈ p.2.entries override (existence p.1) false, e.Covers w.existence := fun w hw =>
        hcovers.trans (Schema.covers_of_mem_entries override p.2 _ false hoverride w hw)
      have hne : p.2.entries override (existence p.1) false ≠ [] := by
        obtain ⟨anyChild, isArray, ws, heq⟩ := Schema.exists_entries_eq override p.2 hd (existence p.1) false
        rw [heq]
        exact List.cons_ne_nil _ _
      rw [foldl_write_below hws hn p.1 hne, if_pos rfl]
      rw [funext (hp (existence p.1) false hoverride)]
      exact ih hproperties hn

/-- What a schema says of a node and those below it can be written path by path. -/
theorem describe_eq_foldl (override : Option Existence) (s : Schema) : ∀ e isArray, override.getD e = e →
    ∀ n : Node, n.describe override e isArray s = (s.entries override e isArray).foldl Entry.write n := by
  induction s using Schema.parts_induction with
  | bool allowed =>
    intro e isArray _ n
    cases allowed <;> rfl
  | object o hproperties hitems =>
    intro e isArray he n
    rw [describe_object, Schema.entries_object]
    cases hform : o.form with
    | free | leaf => rfl
    | closed =>
      have hexistence := fun name =>
        And.intro (covers_memberExistence o he name) (getD_memberExistence o override e name)
      exact describeProperties_eq_foldl hexistence hproperties rfl
    | list t => exact hitems t (ObjectSchema.items_of_form hform) e true he n

end Node

namespace Scope

/-- Record an entry below a path of a source. -/
def record (source : String) (path : List String) (m : Scope) (w : Entry) : Scope :=
  m.set source (path ++ w.path) w.existence w.anyChild w.isArray

theorem foldl_record {e : Existence} {ws : List Entry} (hws : ∀ w ∈ ws, e.Covers w.existence) (m : Scope)
    (source x : String) (p : List String) (f : Node → Node) :
    ws.foldl (record source (x :: p)) (m.write source (x :: p) e f) =
      m.write source (x :: p) e fun c => ws.foldl Entry.write (f c) := by
  induction ws generalizing f with
  | nil => rfl
  | cons w ws ih =>
    obtain ⟨hw, hws⟩ := List.forall_mem_cons.1 hws
    rw [List.foldl_cons, record, set, write_write hw]
    exact ih hws _

/-- A schema can be recorded path by path, each from the root. -/
theorem describe_eq_foldl (m : Scope) (source x : String) (p : List String) (override : Option Existence) (s : Schema) :
    m.describe source s (x :: p) override =
      (s.entries override (override.getD .definitely) false).foldl (record source (x :: p)) m := by
  have he : override.getD (override.getD .definitely) = override.getD .definitely := by
    cases override <;> rfl
  have hcovers := Schema.covers_of_mem_entries override s _ false he
  have hnode := Node.describe_eq_foldl override s _ false he
  rw [describe]
  cases hd : s.describes with
  | false =>
    rw [Schema.entries_eq_nil override s hd]
    rfl
  | true =>
    obtain ⟨anyChild, isArray, ws, heq⟩ := Schema.exists_entries_eq override s hd (override.getD .definitely) false
    rw [heq] at hcovers hnode ⊢
    rw [List.foldl_cons, record, List.append_nil, set, foldl_record (List.forall_mem_cons.1 hcovers).2, if_pos rfl]
    exact congrArg _ (funext hnode)

end Scope

end BrickScope
