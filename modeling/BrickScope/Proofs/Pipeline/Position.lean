import BrickScope.Pipeline.Position
import Mathlib

/-!
# Positions of bricks

Positions are texts, and the names in them may be any texts, so that a position does not give away the way to its node.
What can be told is this:

* `nested_nested`: two ways, one behind the other, are one way;
* `path_brick`: the bricks of a level have the same text before their index;
* `path_ne_of_below`: a node below a brick never has the position of a brick of the same level;
* `nested_eq_nested_iff`: two ways lead to one position just if they have the same pieces.
-/

namespace BrickScope

namespace Position

/-! ## joining -/

theorem join_cons_empty (parts : List String) : join ("" :: parts) = join parts := by
  simp [join]

theorem join_singleton (s : String) : join [s] = s := by
  by_cases h : s = ""
  · subst h; rfl
  · simp [join, h]

/-- A part that is not empty is set off by a dot from what is behind it. -/
theorem join_cons {s : String} (h : s ≠ "") (parts : List String) :
    join (s :: parts) = if join parts = "" then s else s ++ "." ++ join parts := by
  have hf : (s :: parts).filter (fun p => !p.isEmpty) = s :: parts.filter fun p => !p.isEmpty := by
    simp [h]
  unfold join
  rw [hf]
  cases hp : parts.filter (fun p => !p.isEmpty) with
  | nil => simp
  | cons t ts =>
    have ht : t ≠ "" := by
      have : t ∈ parts.filter fun p => !p.isEmpty := by rw [hp]; simp
      simpa using (List.mem_filter.1 this).2
    have hne : ".".intercalate (t :: ts) ≠ "" := by
      cases ts with
      | nil => simpa using ht
      | cons u us => rw [String.intercalate_cons_cons]; simp
    rw [if_neg hne, String.intercalate_cons_cons]

theorem join_join (xs ys : List String) : join (join xs :: ys) = join (xs ++ ys) := by
  induction xs with
  | nil => exact join_cons_empty ys
  | cons x xs ih =>
    by_cases hx : x = ""
    · subst hx
      rw [join_cons_empty, List.cons_append, join_cons_empty, ih]
    · rw [List.cons_append, join_cons hx (xs ++ ys), ← ih, join_cons hx xs]
      by_cases hj : join xs = ""
      · rw [if_pos hj, hj, join_cons_empty, join_cons hx ys]
      · have hne : x ++ "." ++ join xs ≠ "" := by simp [hx]
        rw [if_neg hj, join_cons hne ys, join_cons hj ys]
        by_cases hy : join ys = ""
        · rw [if_pos hy, if_pos hy, if_neg hj]
        · have hne' : join xs ++ "." ++ join ys ≠ "" := by simp [hj]
          rw [if_neg hy, if_neg hy, if_neg hne']
          simp only [String.append_assoc]

theorem nested_nested (p : Position) (xs ys : List String) : (p.nested xs).nested ys = p.nested (xs ++ ys) := by
  simp only [nested, join_join, List.cons_append]

/-! ## the bricks of a level -/

/-- What comes before the index in the positions of the bricks of a level. -/
def stem (p : Position) : String := if p.path = "" then "" else p.path ++ "."

/-- The position of the brick with index `i` in the level at `p`. -/
def brick (p : Position) (i : Nat) : Position := p.nested [toString i]

theorem toString_ne_empty (i : Nat) : toString i ≠ "" := Nat.repr_ne_empty

theorem path_brick (p : Position) (i : Nat) : (p.brick i).path = p.stem ++ toString i := by
  unfold brick nested stem
  by_cases h : p.path = ""
  · rw [h, join_cons_empty, join_singleton, if_pos rfl, String.empty_append]
  · rw [join_cons h, join_singleton, if_neg (toString_ne_empty i), if_neg h]

theorem isDigit_of_mem_toString {i : Nat} {c : Char} (h : c ∈ (toString i).toList) : c.isDigit = true := by
  have h' : c ∈ Nat.toDigits 10 i := by rw [← Nat.toList_repr]; exact h
  exact Nat.isDigit_of_mem_toDigits (by decide) (by decide) h'

theorem brick_injective {p : Position} {i j : Nat} (h : (p.brick i).path = (p.brick j).path) : i = j := by
  rw [path_brick, path_brick, String.append_right_inj] at h
  exact Nat.repr_injective h

/-- The position of a brick ends with a digit. -/
theorem path_brick_ne {p : Position} {i : Nat} {s : String} (h : ∀ c ∈ s.toList.getLast?, c.isDigit = false) :
    (p.brick i).path ≠ s := by
  rintro rfl
  obtain ⟨c, hc⟩ : ∃ c, (toString i).toList.getLast? = some c := by
    rw [← Option.isSome_iff_exists, List.getLast?_isSome]
    intro he
    exact toString_ne_empty i (String.toList_eq_nil_iff.1 he)
  have hl : (p.brick i).path.toList.getLast? = some c := by
    rw [path_brick, String.toList_append, List.getLast?_append, hc]
    rfl
  have hd := isDigit_of_mem_toString (List.mem_of_getLast? hc)
  rw [h c hl] at hd
  exact absurd hd (by decide)

/-! ## nodes below a brick -/

/-- `q` is the position of a node below the node at `p`. -/
def Below (p q : Position) : Prop := ∃ step steps, step ≠ "" ∧ q = p.nested (step :: steps)

theorem Below.nested {p q : Position} (h : Below p q) (steps : List String) : Below p (q.nested steps) := by
  obtain ⟨step, way, hs, rfl⟩ := h
  exact ⟨step, way ++ steps, hs, by rw [nested_nested, List.cons_append]⟩

theorem Below.trans {p q r : Position} (h : Below p q) (h' : Below q r) : Below p r := by
  obtain ⟨step, way, _, rfl⟩ := h'
  exact h.nested (step :: way)

theorem path_of_below {p q : Position} (hp : p.path ≠ "") (h : Below p q) : ∃ rest, q.path = p.path ++ "." ++ rest := by
  obtain ⟨step, steps, hs, rfl⟩ := h
  have hj : join (step :: steps) ≠ "" := by
    rw [join_cons hs]
    split
    · exact hs
    · simp [hs]
  refine ⟨join (step :: steps), ?_⟩
  unfold Position.nested
  rw [join_cons hp, if_neg hj]

/-- A node below a brick never has the position of a brick of the same level: an index has no dot in it. -/
theorem path_ne_of_below {p q : Position} {i j : Nat} (h : Below (p.brick i) q) : q.path ≠ (p.brick j).path := by
  have hne : (p.brick i).path ≠ "" := path_brick_ne (by simp)
  obtain ⟨rest, hq⟩ := path_of_below hne h
  rw [hq, path_brick, path_brick]
  simp only [String.append_assoc]
  intro he
  rw [String.append_right_inj] at he
  have hdot : '.' ∈ (toString j).toList := by rw [← he]; simp
  exact absurd (isDigit_of_mem_toString hdot) (by decide)

theorem path_ne_of_below_self {p q : Position} (hp : p.path ≠ "") (h : Below p q) : q.path ≠ p.path := by
  obtain ⟨rest, hq⟩ := path_of_below hp h
  intro he
  have hlen := congrArg String.length (he.symm.trans hq)
  have hdot : ".".length = 1 := rfl
  simp only [String.length_append] at hlen
  omega

/-- The position of a node below a brick has a dot in it. -/
theorem path_ne_of_below_brick {p q : Position} {i : Nat} (h : Below (p.brick i) q) {k : String}
    (hk : '.' ∉ k.toList) : q.path ≠ k := by
  obtain ⟨rest, hq⟩ := path_of_below (path_brick_ne (by simp)) h
  rintro rfl
  rw [hq] at hk
  simp at hk

theorem path_ne_empty_of_below {p q : Position} {i : Nat} (h : Below (p.brick i) q) : q.path ≠ "" :=
  path_ne_of_below_brick h (by simp)

theorem nested_nil (p : Position) : p.nested [] = p := by
  obtain ⟨path⟩ := p
  rw [nested, join_singleton]

theorem below_nested {p : Position} {step : String} (h : step ≠ "") (steps : List String) :
    Below p (p.nested (step :: steps)) := ⟨step, steps, h, rfl⟩

/-- A name at the end of a way is enough to get below a node, also if the names before it are empty. -/
theorem below_nested_concat {p : Position} {step : String} (h : step ≠ "") (steps : List String) :
    Below p (p.nested (steps ++ [step])) := by
  induction steps with
  | nil => exact below_nested h []
  | cons x steps ih =>
    by_cases hx : x = ""
    · subst hx
      have he : p.nested ("" :: (steps ++ [step])) = p.nested (steps ++ [step]) := by
        simp [nested, join, List.filter_cons]
      rw [List.cons_append, he]
      exact ih
    · exact below_nested hx _

/-! ## the pieces of a way -/

/-- The steps of a way taken apart at their dots, the empty ones left out. -/
def pieces : List String → List (List Char)
  | [] => []
  | step :: steps => (if step = "" then [] else step.toList.splitOn '.') ++ pieces steps

theorem pieces_cons {step : String} (h : step ≠ "") (steps : List String) :
    pieces (step :: steps) = step.toList.splitOn '.' ++ pieces steps := by
  rw [pieces, if_neg h]

theorem pieces_eq_nil_iff {steps : List String} : pieces steps = [] ↔ join steps = "" := by
  induction steps with
  | nil => exact ⟨fun _ => rfl, fun _ => rfl⟩
  | cons step steps ih =>
    by_cases h : step = ""
    · subst h
      rw [join_cons_empty, ← ih]
      rfl
    · rw [pieces_cons h, join_cons h]
      refine iff_of_false (by simp [List.splitOn_ne_nil]) ?_
      split <;> simp [h]

theorem splitOn_join {steps : List String} (h : join steps ≠ "") :
    (join steps).toList.splitOn '.' = pieces steps := by
  induction steps with
  | nil => exact absurd rfl h
  | cons step steps ih =>
    by_cases hs : step = ""
    · subst hs
      rw [join_cons_empty] at h ⊢
      exact ih h
    · rw [pieces_cons hs, join_cons hs]
      by_cases hj : join steps = ""
      · rw [if_pos hj, pieces_eq_nil_iff.2 hj, List.append_nil]
      · have hlist : (step ++ "." ++ join steps).toList = step.toList ++ '.' :: (join steps).toList := by
          simp [String.toList_append]
        rw [if_neg hj, hlist, List.splitOn_append_cons_self, ih hj]

theorem join_eq_join_iff {xs ys : List String} : join xs = join ys ↔ pieces xs = pieces ys := by
  by_cases hx : join xs = ""
  · rw [hx, pieces_eq_nil_iff.2 hx, eq_comm, eq_comm (a := []), pieces_eq_nil_iff]
  · constructor
    · intro h
      rw [← splitOn_join hx, h, splitOn_join (h ▸ hx)]
    · intro h
      have hy : join ys ≠ "" := fun he => hx (pieces_eq_nil_iff.1 (h.trans (pieces_eq_nil_iff.2 he)))
      refine String.toList_injective ?_
      calc (join xs).toList = ['.'].intercalate ((join xs).toList.splitOn '.') := (List.intercalate_splitOn '.').symm
        _ = ['.'].intercalate ((join ys).toList.splitOn '.') := by rw [splitOn_join hx, splitOn_join hy, h]
        _ = (join ys).toList := List.intercalate_splitOn '.'

/-- What tells two nodes apart are the pieces of the ways to them. -/
theorem nested_eq_nested_iff {p : Position} {xs ys : List String} :
    p.nested xs = p.nested ys ↔ pieces xs = pieces ys := by
  rw [nested, nested, Position.mk.injEq, join_eq_join_iff, pieces, pieces, List.append_cancel_left_eq]

end Position

end BrickScope
