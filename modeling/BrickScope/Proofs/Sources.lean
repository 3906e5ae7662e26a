import BrickScope.Existence.Evidence
import BrickScope.Existence.Schema
import Mathlib

/-!
# The sources of a scope

A scope is changed one source at a time: what is recorded under one name leaves the other sources alone.

* `Scope.source?_observe_of_ne`: other sources;
* `Scope.describe_new`: what is recorded under a new name goes behind the other sources and does not depend on them;
* `Scope.Changes`: the sources that a change may concern.
-/

namespace BrickScope

namespace Scope

variable {m : Scope} {source k : String} {path : List String}

theorem source?_write_of_ne (h : k ≠ source) (e : Existence) (f : Node → Node) :
    (m.write source path e f).source? k = m.source? k :=
  Table.get?_insert_of_ne h _ _

theorem source?_observe_of_ne (h : k ≠ source) (v : Json) : (m.observe source v path).source? k = m.source? k := by
  unfold observe
  split
  · rfl
  · exact source?_write_of_ne h _ _

/-- The tree that a schema gives by itself. -/
def treeOf (source : String) (schema : Schema) (path : List String) (override : Option Existence) : Option Node :=
  (empty.describe source schema path override).source? source

theorem describe_new (h : m.source? source = none) (schema : Schema) (path : List String)
    (override : Option Existence) :
    m.describe source schema path override =
      ⟨m.sources ++ (treeOf source schema path override).toList.map fun tree => (source, tree)⟩ := by
  unfold treeOf describe
  dsimp only
  split
  · have hn : Table.get? m.sources source = none := h
    unfold write Table.update
    rw [hn, Table.insert_of_get?_none hn]
    simp [empty, Table.get?, Table.insert, source?]
  · simp [empty, Table.get?, source?]

/-! ## changes of some sources -/

/-- `m'` comes from `m` by writing to some sources only. -/
inductive Changes (S : String → Prop) : Scope → Scope → Prop
  | refl (m : Scope) : Changes S m m
  | write {m m' : Scope} (h : Changes S m m') {source : String} (hs : S source) (path : List String) (e : Existence)
    (f : Node → Node) : Changes S m (m'.write source path e f)

section

variable {S : String → Prop} {m' m'' : Scope}

theorem Changes.trans (h : Changes S m m') (h' : Changes S m' m'') : Changes S m m'' := by
  induction h' with
  | refl => exact h
  | write _ hs path e f ih => exact ih.write hs path e f

theorem Changes.source?_eq (h : Changes S m m') (hk : ¬S k) : m'.source? k = m.source? k := by
  induction h with
  | refl => rfl
  | @write _ _ source hs path e f ih =>
    have hne : k ≠ source := by
      rintro rfl
      exact hk hs
    exact (source?_write_of_ne hne e f).trans ih

theorem changes_set (m : Scope) (hs : S source) (path : List String) (e : Existence) (anyChild isArray : Bool) :
    Changes S m (m.set source path e anyChild isArray) := (Changes.refl m).write hs path e _

theorem changes_setVariable (m : Scope) (hs : S source) (name : String) (e : Existence) (anyChild : Bool) :
    Changes S m (m.setVariable source name e anyChild) := changes_set m hs _ e anyChild false

theorem changes_describe (m : Scope) (hs : S source) (schema : Schema) (path : List String)
    (override : Option Existence) : Changes S m (m.describe source schema path override) := by
  unfold describe
  dsimp only
  split
  · exact (Changes.refl m).write hs path _ _
  · exact .refl m

theorem changes_observe (m : Scope) (hs : S source) (v : Json) (path : List String) :
    Changes S m (m.observe source v path) := by
  unfold observe
  split
  · exact .refl m
  · exact (Changes.refl m).write hs path _ _

theorem changes_foldl {α : Type} {xs : List α} {f : Scope → α → Scope} (h : ∀ x ∈ xs, ∀ m, Changes S m (f m x))
    (m : Scope) : Changes S m (xs.foldl f m) := by
  induction xs generalizing m with
  | nil => exact .refl m
  | cons x xs ih =>
    have hx := h x List.mem_cons_self m
    exact hx.trans (ih (fun y hy => h y (List.mem_cons_of_mem _ hy)) (f m x))

end

end Scope

end BrickScope
