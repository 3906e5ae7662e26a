import BrickScope.Text.Offset
import Mathlib

/-!
# Texts laid out in pieces

Tags are pieces of a template, tokens are pieces of the code in a tag.  Between the pieces there are gaps, of which a
piece knows nothing; its byte offsets tell where it stands.  A layout says all of it at once: the gaps and pieces, one
behind the other, are the text, and the offsets are right.

* `slice?`: the stretch of a text between two byte offsets;
* `Pieces`, `Layout`: a text as gaps and pieces;
* `Layout.pairwise`, `Layout.exists_piece`, `Layout.slice?_eq`: what follows for the offsets.
-/

namespace BrickScope

/-! ## slices -/

namespace Text

/-- The characters between two byte offsets; `none` if one of the offsets is inside a character or behind the end, or if
they are in the wrong order. -/
def slice? (i j : Nat) (s : List Char) : Option (List Char) :=
  if i ≤ j then
    (dropBytes? i s).bind fun front =>
      (dropBytes? (j - i) front).map fun rest => front.take (front.length - rest.length)
  else none

theorem slice?_append (before lexeme rest : List Char) :
    slice? (width before) (width before + width lexeme) (before ++ (lexeme ++ rest)) = some lexeme := by
  have hlength : (lexeme ++ rest).length - rest.length = lexeme.length := by
    rw [List.length_append]
    omega
  rw [slice?, if_pos (Nat.le_add_right _ _), Nat.add_sub_cancel_left, dropBytes?_width, Option.bind_some,
    dropBytes?_width, Option.map_some, hlength, List.take_left]

theorem width_pos {s : List Char} (h : s ≠ []) : 0 < width s := by
  obtain ⟨c, s, rfl⟩ := List.exists_cons_of_ne_nil h
  have := c.utf8Size_pos
  rw [width_cons]
  omega

end Text

namespace Template

open Text

/-! ## layouts -/

/-- A kind of pieces: their offsets, their spellings, and the gaps that may stand in front of a text. -/
structure Pieces (α : Type) where
  start : α → Nat
  stop : α → Nat
  Spells : α → List Char → Prop
  IsGap : List Char → List Char → Prop

variable {α : Type} {k : Pieces α}

/-- The text at byte `pos` is made of gaps and pieces: a gap, the first piece, a gap, the second one, and so on; the
last gap reaches to the end. -/
inductive Layout (k : Pieces α) : (pos : Nat) → (s : List Char) → (pieces : List α) → Prop
  | done {pos : Nat} {gap : List Char} (hgap : k.IsGap gap []) : Layout k pos gap []
  | piece {pos : Nat} {gap lexeme rest : List Char} {x : α} {xs : List α} (hgap : k.IsGap gap (lexeme ++ rest))
    (hspells : k.Spells x lexeme) (hstart : k.start x = pos + width gap) (hstop : k.stop x = k.start x + width lexeme)
    (h : Layout k (k.stop x) rest xs) : Layout k pos (gap ++ (lexeme ++ rest)) (x :: xs)

namespace Layout

variable {pos : Nat} {s : List Char} {x : α} {xs : List α}

/-- Every piece stands where its offsets say. -/
theorem exists_piece (h : Layout k pos s xs) (hx : x ∈ xs) :
    ∃ before lexeme rest, s = before ++ (lexeme ++ rest) ∧ k.Spells x lexeme ∧ k.start x = pos + width before ∧
      k.stop x = k.start x + width lexeme := by
  induction h with
  | done hgap => simp at hx
  | @piece pos gap lexeme rest y ys hgap hspells hstart hstop h ih =>
    rcases List.mem_cons.1 hx with rfl | hx
    · exact ⟨gap, lexeme, rest, rfl, hspells, hstart, hstop⟩
    · obtain ⟨before, lexeme', rest', rfl, hspells', hstart', hstop'⟩ := ih hx
      refine ⟨gap ++ (lexeme ++ before), lexeme', rest', by simp, hspells', ?_, hstop'⟩
      simp only [hstart', hstop, hstart, width_append]
      omega

/-- What the offsets of a piece cut out of the text is the spelling of the piece. -/
theorem slice?_eq (h : Layout k 0 s xs) (hx : x ∈ xs) :
    ∃ lexeme, slice? (k.start x) (k.stop x) s = some lexeme ∧ k.Spells x lexeme := by
  obtain ⟨before, lexeme, rest, rfl, hspells, hstart, hstop⟩ := h.exists_piece hx
  refine ⟨lexeme, ?_, hspells⟩
  rw [hstop, hstart, Nat.zero_add, slice?_append]

/-- Where every piece is spelled by at least one character, it ends behind its start. -/
theorem start_lt_stop (h : Layout k pos s xs) (hne : ∀ y lexeme, k.Spells y lexeme → lexeme ≠ []) (hx : x ∈ xs) :
    k.start x < k.stop x := by
  obtain ⟨before, lexeme, rest, -, hspells, -, hstop⟩ := h.exists_piece hx
  have := width_pos (hne x lexeme hspells)
  omega

/-- Every piece starts where the one before it stops, or behind that. -/
theorem pairwise (h : Layout k pos s xs) : xs.Pairwise fun y z => k.stop y ≤ k.start z := by
  induction h with
  | done hgap => exact .nil
  | @piece pos gap lexeme rest y ys hgap hspells hstart hstop h ih =>
    refine List.pairwise_cons.2 ⟨fun z hz => ?_, ih⟩
    obtain ⟨before, -, -, -, -, hz, -⟩ := h.exists_piece hz
    omega

end Layout

end Template

end BrickScope
