/-!
# First occurrences

Lists without repetitions, in the order in which their members first occur.

* `mem_addNew`, `nodup_addNew`: adding a member that is already there changes nothing.
* `mem_distinct`, `nodup_distinct`: `distinct` keeps each member once.
-/

namespace BrickScope

variable {α : Type} [DecidableEq α]

/-- Append `x` unless it is there already. -/
def addNew (seen : List α) (x : α) : List α := if x ∈ seen then seen else seen ++ [x]

/-- Append the members of `xs` one after the other. -/
def addAllNew (seen xs : List α) : List α := xs.foldl addNew seen

/-- The members of `xs`, each at its first occurrence. -/
def distinct (xs : List α) : List α := addAllNew [] xs

@[simp] theorem mem_addNew {seen : List α} {x y : α} : y ∈ addNew seen x ↔ y ∈ seen ∨ y = x := by
  by_cases h : x ∈ seen
  · simp only [addNew, h, if_true]
    exact ⟨.inl, fun h' => h'.elim id fun e => e ▸ h⟩
  · simp [addNew, h]

theorem nodup_addNew {seen : List α} (h : seen.Nodup) (x : α) : (addNew seen x).Nodup := by
  by_cases hx : x ∈ seen
  · simpa [addNew, hx] using h
  · simp only [addNew, hx, if_false]
    refine List.nodup_append.mpr ⟨h, by simp, ?_⟩
    rintro a ha b hb rfl
    exact hx (by simpa using List.mem_singleton.mp hb ▸ ha)

@[simp] theorem mem_addAllNew {xs seen : List α} {y : α} : y ∈ addAllNew seen xs ↔ y ∈ seen ∨ y ∈ xs := by
  induction xs generalizing seen with
  | nil => simp [addAllNew]
  | cons x xs ih =>
    have := @ih (addNew seen x)
    simp only [addAllNew, List.foldl_cons] at this ⊢
    rw [this, mem_addNew, List.mem_cons, or_assoc]

theorem nodup_addAllNew {seen : List α} (h : seen.Nodup) (xs : List α) : (addAllNew seen xs).Nodup := by
  induction xs generalizing seen with
  | nil => exact h
  | cons x xs ih => exact ih (nodup_addNew h x)

theorem mem_distinct {xs : List α} {y : α} : y ∈ distinct xs ↔ y ∈ xs := by simp [distinct]

theorem nodup_distinct (xs : List α) : (distinct xs).Nodup := nodup_addAllNew List.nodup_nil xs

end BrickScope
