/-!
# Byte offsets

Positions in a text count the bytes of its UTF-8 form, while scanners walk its characters.  `width` measures a stretch
of characters, `dropBytes?` finds the characters that start at an offset.

* `width_append`: widths add up.
* `dropBytes?_width`: the offset after `p` in `p ++ q` is where `q` starts.
-/

namespace BrickScope.Text

/-- The number of bytes of the UTF-8 form. -/
def width : List Char → Nat
  | [] => 0
  | c :: s => c.utf8Size + width s

@[simp] theorem width_nil : width [] = 0 := rfl

@[simp] theorem width_cons (c : Char) (s : List Char) : width (c :: s) = c.utf8Size + width s := rfl

@[simp] theorem width_append (p q : List Char) : width (p ++ q) = width p + width q := by
  induction p with
  | nil => simp
  | cons c p ih => rw [List.cons_append, width_cons, width_cons, ih, Nat.add_assoc]

/-- The characters from a byte offset on; `none` inside a character and behind the end. -/
def dropBytes? : Nat → List Char → Option (List Char)
  | 0, s => some s
  | _ + 1, [] => none
  | n + 1, c :: s => if c.utf8Size ≤ n + 1 then dropBytes? (n + 1 - c.utf8Size) s else none
termination_by _ s => s

@[simp] theorem dropBytes?_zero (s : List Char) : dropBytes? 0 s = some s := by
  cases s <;> simp [dropBytes?]

theorem dropBytes?_width (p q : List Char) : dropBytes? (width p) (p ++ q) = some q := by
  induction p with
  | nil => simp
  | cons c p ih =>
    obtain ⟨n, hn⟩ : ∃ n, width (c :: p) = n + 1 :=
      ⟨width (c :: p) - 1, by have := c.utf8Size_pos; simp only [width_cons]; omega⟩
    rw [hn, List.cons_append, dropBytes?]
    rw [width_cons] at hn
    rw [if_pos (by omega), show n + 1 - c.utf8Size = width p by omega, ih]

end BrickScope.Text
