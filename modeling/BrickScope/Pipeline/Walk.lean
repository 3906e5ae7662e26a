import BrickScope.Pipeline.Element

/-!
# Walks

A walk is the list of what happened on it, up to the violation that ended it.  Walks are put together one after the
other; behind one that has ended nothing happens.

* `complete_append`, `events_append`, `failure_append`: walks one after the other.
* `append_assoc`, `append_empty`: they can be put together in any grouping.
-/

namespace BrickScope

/-- What happened on a walk, up to the violation that ended it. -/
structure Walk (α : Type) where
  events : List α := []
  failure : Option Violation := none

namespace Walk

variable {α : Type}

/-- Go on, unless the walk has ended. -/
def append (w rest : Walk α) : Walk α :=
  match w.failure with
  | some _ => w
  | none => ⟨w.events ++ rest.events, rest.failure⟩

instance : Append (Walk α) := ⟨append⟩

/-- An event in front of a walk. -/
def cons (a : α) (w : Walk α) : Walk α := ⟨a :: w.events, w.failure⟩

/-- A walk between two events, of which the second happens also if the walk fails. -/
def bracket (first : α) (w : Walk α) (last : α) : Walk α := ⟨first :: w.events ++ [last], w.failure⟩

/-- The walk met no violation. -/
def Complete (w : Walk α) : Prop := w.failure = none

variable {w rest : Walk α}

theorem append_def (w rest : Walk α) : w ++ rest = w.append rest := rfl

theorem append_of_failure {v : Violation} (h : w.failure = some v) : w ++ rest = w := by
  rw [append_def, append, h]

theorem append_of_complete (h : w.Complete) : w ++ rest = ⟨w.events ++ rest.events, rest.failure⟩ := by
  have h' : w.failure = none := h
  rw [append_def, append, h']

@[simp] theorem complete_mk {events : List α} {failure : Option Violation} :
    (Walk.mk events failure).Complete ↔ failure = none := Iff.rfl

@[simp] theorem complete_append : (w ++ rest).Complete ↔ w.Complete ∧ rest.Complete := by
  cases h : w.failure with
  | some v =>
    rw [append_of_failure h]
    simp [Complete, h]
  | none =>
    rw [append_of_complete h]
    simp [Complete, h]

theorem failure_append (w rest : Walk α) : (w ++ rest).failure = w.failure.or rest.failure := by
  cases h : w.failure with
  | some v => rw [append_of_failure h, h, Option.some_or]
  | none => rw [append_of_complete h, Option.none_or]

theorem events_append (h : w.Complete) : (w ++ rest).events = w.events ++ rest.events := by
  rw [append_of_complete h]

/-- What comes up in a walk comes up if another one is put behind it. -/
theorem mem_events_append {a : α} (h : a ∈ w.events) : a ∈ (w ++ rest).events := by
  cases hw : w.failure with
  | some v =>
    rw [append_of_failure hw]
    exact h
  | none =>
    rw [events_append hw]
    exact List.mem_append_left _ h

theorem mem_or_mem_of_events_append {a : α} (h : a ∈ (w ++ rest).events) : a ∈ w.events ∨ a ∈ rest.events := by
  cases hw : w.failure with
  | some v =>
    rw [append_of_failure hw] at h
    exact .inl h
  | none =>
    rw [events_append hw] at h
    exact List.mem_append.1 h

theorem empty_append (w : Walk α) : {} ++ w = w := rfl

theorem append_empty (w : Walk α) : w ++ {} = w := by
  cases h : w.failure with
  | some v => exact append_of_failure h
  | none =>
    rw [append_of_complete h]
    obtain ⟨events, failure⟩ := w
    obtain rfl : failure = none := h
    simp

theorem append_assoc (u v w : Walk α) : u ++ v ++ w = u ++ (v ++ w) := by
  cases hu : u.failure with
  | some f => rw [append_of_failure hu, append_of_failure hu, append_of_failure hu]
  | none =>
    cases hv : v.failure with
    | some f =>
      have huv : (u ++ v).failure = some f := by rw [append_of_complete hu]; exact hv
      rw [append_of_failure huv, append_of_failure hv]
    | none =>
      have huv : (u ++ v).Complete := complete_append.2 ⟨hu, hv⟩
      rw [append_of_complete huv, append_of_complete hu, append_of_complete hu, append_of_complete hv,
        List.append_assoc]

@[simp] theorem complete_cons {a : α} : (w.cons a).Complete ↔ w.Complete := Iff.rfl

@[simp] theorem events_cons {a : α} : (w.cons a).events = a :: w.events := rfl

@[simp] theorem complete_bracket {first last : α} : (bracket first w last).Complete ↔ w.Complete := Iff.rfl

@[simp] theorem events_bracket {first last : α} : (bracket first w last).events = first :: w.events ++ [last] := rfl

end Walk

end BrickScope
