import BrickScope.Proofs.Template.Layout
import BrickScope.Proofs.Template.Tokens

/-!
# Scanning by byte offsets

The scan for tokens can be done with nothing but a byte offset into the code and the character there.  U+0000 then
stands for the end of the code, although it may be in it; the scanner looks ahead by a few bytes, jumps, and goes back
when an index turns out not to be static.  Reading inside a character fails, and so does a loop that takes too many
rounds.  Neither ever happens, and the tokens are the same.

* `charAt`, `Cursor`: reading at an offset;
* `Cursor.skip`, `Cursor.quoted`, `keyEnd`, `Cursor.index?`, `Cursor.accessors`, `Cursor.path`: its parts;
* `Cursor.step`, `Cursor.tokens`, `Cursor.tokenize`: one token, and all of them;
* `Cursor.tokenize_eq`: the tokens of a code.
-/

namespace BrickScope.Template

open Text Reference

/-! ## the scanner -/

section

variable (code : List Char)

/-- The character at a byte offset; U+0000 stands for the end.  `none` if the offset is inside a character. -/
def charAt (i : Nat) : Option Char :=
  if i < width code then (dropBytes? i code).map fun s => s.headD '\x00' else some '\x00'

/-- A byte offset and the character there. -/
structure Cursor where
  index : Nat
  peek : Char

/-- The end of a run of digits. -/
def digitsEnd : (limit i : Nat) → Option Nat
  | 0, _ => none
  | limit + 1, i => do
    if (← charAt code i).isDigit then digitsEnd limit (i + 1) else return i

/-- The closing quote of a key; `some none` if there is none before the end or before U+0000. -/
def keyEnd (quote : Char) : (limit i : Nat) → Option (Option Nat)
  | 0, _ => none
  | limit + 1, i => do
    let c ← charAt code i
    if c.toNat = 0 then return none
    else if c = '\\' then keyEnd quote limit (i + 1 + (← charAt code (i + 1)).utf8Size)
    else if c = quote then return some i
    else keyEnd quote limit (i + c.utf8Size)

namespace Cursor

/-- The cursor at an offset. -/
def place (i : Nat) : Option Cursor := (charAt code i).map fun c => ⟨i, c⟩

def advance (c : Cursor) : Option Cursor := place code (c.index + c.peek.utf8Size)

def jump (i : Nat) : Option Cursor := place code (min i (width code))

/-- Go over the characters of a class. -/
def skip (f : Char → Bool) : (limit : Nat) → Cursor → Option Cursor
  | 0, _ => none
  | limit + 1, c => if f c.peek then do skip f limit (← c.advance code) else some c

/-- Go over a quoted text behind its opening quote and collect its value; `some none` if it is left open. -/
def quoted (quote : Char) : (limit : Nat) → (value : List Char) → Cursor → Option (Option (List Char × Cursor))
  | 0, _, _ => none
  | limit + 1, value, c => do
    if width code ≤ c.index then return none
    let next ← c.advance code
    if c.peek = '\\' then
      if width code ≤ next.index then return none
      quoted quote limit (value ++ [next.peek]) (← next.advance code)
    else if c.peek = quote then return some (value, next)
    else quoted quote limit (value ++ [c.peek]) next

/-- Go to behind a closing bracket, which has to be at the offset. -/
def closing (i : Nat) : Option (Option Cursor) := do
  if (← charAt code i) = ']' then return some (← jump code (i + 1)) else return none

/-- Go over a static index, from its bracket on; `some none` if it is not static. -/
def index? (limit : Nat) (c : Cursor) : Option (Option Cursor) := do
  let next ← charAt code (c.index + 1)
  if next.isDigit then closing code (← digitsEnd code limit (c.index + 1))
  else if isQuote next then
    match ← keyEnd code next limit (c.index + 2) with
    | some i => closing code (i + 1)
    | none => return none
  else return none

/-- Go over a member, from its dot on. -/
def member (limit : Nat) (c : Cursor) : Option (Option Cursor) := do
  if isNameStart (← charAt code (c.index + 1)) then
    return some (← (← c.advance code).skip code isNamePart limit)
  else return none

/-- Go over an optional member or a static index, from the question mark on. -/
def optional (limit : Nat) (c : Cursor) : Option (Option Cursor) := do
  if (← charAt code (c.index + 1)) = '.' then
    let after ← charAt code (c.index + 2)
    if isNameStart after then
      return some (← (← (← c.advance code).advance code).skip code isNamePart limit)
    else if after = '[' then (← (← c.advance code).advance code).index? code limit
    else return none
  else return none

/-- Go over a member or a static index; `some none` if there is none at the cursor. -/
def accessor (limit : Nat) (c : Cursor) : Option (Option Cursor) :=
  if c.peek = '.' then c.member code limit
  else if c.peek = '?' then c.optional code limit
  else if c.peek = '[' then c.index? code limit
  else some none

/-- Go over all members and static indices; behind the last one the cursor goes back to where it was. -/
def accessors (limit : Nat) : (rounds : Nat) → Cursor → Option Cursor
  | 0, _ => none
  | rounds + 1, c => do
    match ← c.accessor code limit with
    | some next => accessors limit rounds next
    | none => jump code c.index

/-- Some tokens, and where the scan goes on, if it does. -/
structure Step where
  tokens : List Token
  next : Option Cursor

/-- The text from an offset up to a cursor. -/
def textFrom (start : Nat) (c : Cursor) : Option String := (slice? start c.index code).map String.ofList

/-- The error token for something that is left open. -/
def error (opening : Opening) (start : Nat) : Token := ⟨start, width code, .error, opening.message⟩

/-- A bracket that is not closed behind the cursor. -/
def opensBracket (c : Cursor) : Option Bool := (dropBytes? c.index code).map fun s => !closesBracket none s.tail

/-- A variable, from its sigil on. -/
def path (limit : Nat) (c : Cursor) : Option Step := do
  let next ← c.advance code
  if isNameStart next.peek then
    let stop ← (← next.skip code isNamePart limit).accessors code limit limit
    let token : Token := ⟨c.index, stop.index, .variable, ← stop.textFrom code c.index⟩
    if stop.peek = '[' && (← stop.opensBracket code) then
      return ⟨[token, error code .index stop.index], none⟩
    else return ⟨[token], some stop⟩
  else return ⟨[⟨c.index, next.index, .variable, "@"⟩], some next⟩

/-- A token made of characters of a class. -/
def run (kind : TokenKind) (f : Char → Bool) (limit : Nat) (c : Cursor) : Option Step := do
  let next ← c.skip code f limit
  return ⟨[⟨c.index, next.index, kind, ← next.textFrom code c.index⟩], some next⟩

/-- The token at a cursor that is not at white space, nor at the end. -/
def step (limit : Nat) (c : Cursor) : Option Step := do
  if c.peek = '@' then c.path code limit
  else if isNameStart c.peek then c.run code .identifier isNamePart limit
  else if c.peek.isDigit then c.run code .number (fun d => d.isDigit || d = '.') limit
  else if isQuote c.peek then
    match ← (← c.advance code).quoted code c.peek limit [] with
    | some (value, next) => return ⟨[⟨c.index, next.index, .string, String.ofList value⟩], some next⟩
    | none => return ⟨[error code .quote c.index], none⟩
  else
    let next ← c.advance code
    return ⟨[⟨c.index, next.index, .character, String.ofList [c.peek]⟩], some next⟩

/-- All tokens from a cursor on. -/
def tokens (limit : Nat) : (rounds : Nat) → Cursor → Option (List Token)
  | 0, _ => none
  | rounds + 1, c => do
    let c ← c.skip code isSpace limit
    if width code ≤ c.index then return []
    let step ← c.step code limit
    match step.next with
    | some next => return step.tokens ++ (← tokens limit rounds next)
    | none => return step.tokens

/-- The tokens of a code. -/
def tokenize (limit : Nat) : Option (List Token) := do
  tokens code limit limit (← place code 0)

/-- The cursor in front of the `n`-th character. -/
def nth (n : Nat) : Cursor := ⟨width (code.take n), (code.drop n).headD '\x00'⟩

end Cursor

end

/-! ## offsets and characters -/

section

variable {code s : List Char} {c : Char} {n : Nat}

theorem drop_succ_of_drop (h : code.drop n = c :: s) : code.drop (n + 1) = s := by
  rw [← List.drop_drop, h, List.drop_one, List.tail_cons]

theorem lt_length_of_drop (h : code.drop n = c :: s) : n < code.length := by
  by_contra hn
  rw [List.drop_eq_nil_of_le (Nat.le_of_not_lt hn)] at h
  cases h

theorem width_take_add (n m : Nat) :
    width (code.take (n + m)) = width (code.take n) + width ((code.drop n).take m) := by
  rw [List.take_add, width_append]

theorem width_take_succ (h : code.drop n = c :: s) : width (code.take (n + 1)) = width (code.take n) + c.utf8Size := by
  rw [width_take_add, h]
  simp

/-- A character of one byte. -/
theorem width_take_byte (h : code.drop n = c :: s) (hc : c.utf8Size = 1) :
    width (code.take n) + 1 = width (code.take (n + 1)) := by
  rw [width_take_succ h, hc]

theorem width_take_run (h : code.drop n = c :: s) (hc : c.utf8Size = 1) (m : Nat) :
    width (code.take n) + 1 + width (s.take m) = width (code.take (n + 1 + m)) := by
  rw [width_take_byte h hc, ← drop_succ_of_drop h, ← width_take_add]

theorem width_take_le (n : Nat) : width (code.take n) ≤ width code := by
  conv_rhs => rw [← List.take_append_drop n code, width_append]
  omega

theorem width_take_lt (h : code.drop n = c :: s) : width (code.take n) < width code := by
  have hle : width (code.take (n + 1)) ≤ width code := width_take_le (n + 1)
  have := c.utf8Size_pos
  rw [width_take_succ h] at hle
  omega

theorem width_take_of_nil (h : code.drop n = []) : width (code.take n) = width code := by
  rw [List.take_of_length_le (List.drop_eq_nil_iff.1 h)]

theorem dropBytes?_take (n : Nat) : dropBytes? (width (code.take n)) code = some (code.drop n) := by
  have h := dropBytes?_width (code.take n) (code.drop n)
  rwa [List.take_append_drop] at h

theorem charAt_take (n : Nat) : charAt code (width (code.take n)) = some ((code.drop n).headD '\x00') := by
  cases h : code.drop n with
  | nil =>
    rw [charAt, width_take_of_nil h, if_neg (Nat.lt_irrefl _)]
    rfl
  | cons c s => rw [charAt, if_pos (width_take_lt h), dropBytes?_take, h, Option.map_some]

theorem slice?_take (n m : Nat) :
    slice? (width (code.take n)) (width (code.take (n + m))) code = some ((code.drop n).take m) := by
  have h := slice?_append (code.take n) ((code.drop n).take m) ((code.drop n).drop m)
  rw [List.take_append_drop, List.take_append_drop, ← width_take_add] at h
  exact h

namespace Cursor

theorem place_take (n : Nat) : place code (width (code.take n)) = some (nth code n) := by
  rw [place, charAt_take]
  rfl

theorem jump_take (n : Nat) : jump code (width (code.take n)) = some (nth code n) := by
  rw [jump, Nat.min_eq_left (width_take_le n), place_take]

theorem peek_nth (h : code.drop n = c :: s) : (nth code n).peek = c := by
  rw [nth, h]
  rfl

theorem peek_end (h : code.drop n = []) : (nth code n).peek = '\x00' := by
  rw [nth, h]
  rfl

theorem not_at_end (h : code.drop n = c :: s) : ¬width code ≤ (nth code n).index := Nat.not_le.2 (width_take_lt h)

theorem at_end (h : code.drop n = []) : width code ≤ (nth code n).index := (width_take_of_nil h).ge

theorem advance_nth (h : code.drop n = c :: s) : (nth code n).advance code = some (nth code (n + 1)) := by
  rw [advance, peek_nth h, ← place_take, width_take_succ h]
  rfl

/-- The look-ahead over a character of one byte. -/
theorem charAt_nth_succ (h : code.drop n = c :: s) (hc : c.utf8Size = 1) :
    charAt code ((nth code n).index + 1) = some (s.headD '\x00') := by
  rw [nth, width_take_byte h hc, charAt_take, drop_succ_of_drop h]

theorem textFrom_nth (h : code.drop n = c :: s) (m : Nat) :
    (nth code (n + 1 + m)).textFrom code (nth code n).index = some (String.ofList (c :: s.take m)) := by
  rw [textFrom, nth, nth, Nat.add_assoc, Nat.add_comm 1, slice?_take, h, Option.map_some, List.take_succ_cons]

end Cursor

end

/-! ## the loops -/

section

variable {code : List Char} {limit : Nat}

namespace Cursor

theorem skip_nth {f : Char → Bool} (hf : f '\x00' = false) {n : Nat} (hlimit : code.length - n < limit) :
    (nth code n).skip code f limit = some (nth code (n + ((code.drop n).takeWhile f).length)) := by
  induction limit generalizing n with
  | zero => omega
  | succ limit ih =>
    rw [skip]
    cases h : code.drop n with
    | nil =>
      -- U+0000 is not in the class, so the end needs no test
      rw [peek_end h, if_neg (by simp [hf])]
      rfl
    | cons c s =>
      have hn := lt_length_of_drop h
      rw [peek_nth h, List.takeWhile_cons]
      by_cases hc : f c = true
      · rw [if_pos hc, if_pos hc, advance_nth h]
        simp only [Option.bind_eq_bind, Option.bind_some]
        rw [ih (by omega), drop_succ_of_drop h, List.length_cons, Nat.add_assoc, Nat.add_comm 1]
      · rw [if_neg hc, if_neg hc]
        rfl

theorem unescape_cons {c : Char} (hc : c ≠ '\\') (s : List Char) : unescape (c :: s) = c :: unescape s := by
  rw [unescape]
  intro _ _ h
  exact absurd h hc

theorem quoted_nth (quote : Char) (value : List Char) {n : Nat} (hlimit : code.length - n < limit) :
    (nth code n).quoted code quote limit value =
      some ((quotedLength? quote (fun _ => false) (code.drop n)).map fun m =>
        (value ++ unescape ((code.drop n).take (m - 1)), nth code (n + m))) := by
  induction limit generalizing n value with
  | zero => omega
  | succ limit ih =>
    rw [quoted]
    cases h : code.drop n with
    | nil =>
      rw [if_pos (at_end h)]
      rfl
    | cons c s =>
      have hn := lt_length_of_drop h
      have h1 := drop_succ_of_drop h
      rw [if_neg (not_at_end h), advance_nth h, peek_nth h, quotedLength?.eq_def]
      simp only [Option.bind_eq_bind, Option.bind_some, Bool.false_eq_true, if_false]
      by_cases hslash : c = '\\'
      · rw [if_pos hslash, if_pos hslash]
        cases s with
        | nil =>
          rw [if_pos (at_end h1)]
          rfl
        | cons d s =>
          rw [if_neg (not_at_end h1), advance_nth h1, peek_nth h1]
          simp only [Option.bind_some]
          rw [ih _ (by omega), drop_succ_of_drop h1, hslash]
          cases hm : quotedLength? quote (fun _ => false) s with
          | none => rfl
          | some m =>
            obtain ⟨-, -, -, rfl, -⟩ := exists_quoted hm
            simp [unescape, Nat.add_assoc, Nat.add_comm 2]
      · rw [if_neg hslash, if_neg hslash]
        by_cases hquote : c = quote
        · rw [if_pos hquote, if_pos hquote]
          simp [unescape]
        · rw [if_neg hquote, if_neg hquote, ih _ (by omega), h1]
          cases hm : quotedLength? quote (fun _ => false) s with
          | none => rfl
          | some m =>
            obtain ⟨-, -, -, rfl, -⟩ := exists_quoted hm
            simp [unescape_cons hslash, Nat.add_assoc, Nat.add_comm 1]

end Cursor

theorem digitsEnd_take {n : Nat} (hlimit : code.length - n < limit) :
    digitsEnd code limit (width (code.take n)) =
      some (width (code.take (n + ((code.drop n).takeWhile Char.isDigit).length))) := by
  induction limit generalizing n with
  | zero => omega
  | succ limit ih =>
    rw [digitsEnd, charAt_take]
    simp only [Option.bind_eq_bind, Option.bind_some]
    cases h : code.drop n with
    | nil => rfl
    | cons c s =>
      have hn := lt_length_of_drop h
      rw [List.headD_cons, List.takeWhile_cons]
      by_cases hc : c.isDigit = true
      · rw [if_pos hc, if_pos hc, width_take_byte h (utf8Size_of_isNamePart (isNamePart_of_isDigit hc)),
          ih (by omega), drop_succ_of_drop h, List.length_cons, Nat.add_assoc, Nat.add_comm 1]
      · rw [if_neg hc, if_neg hc]
        rfl

/-- Behind the end there is no closing quote. -/
theorem keyEnd_end (quote : Char) {i : Nat} (hi : width code ≤ i) (hlimit : limit ≠ 0) :
    keyEnd code quote limit i = some none := by
  obtain ⟨limit, rfl⟩ := Nat.exists_eq_succ_of_ne_zero hlimit
  rw [keyEnd, charAt, if_neg (Nat.not_lt.2 hi)]
  rfl

theorem keyEnd_take (quote : Char) {n : Nat} (hlimit : code.length - n < limit) :
    keyEnd code quote limit (width (code.take n)) =
      some ((quotedLength? quote (fun d => d.toNat = 0) (code.drop n)).map fun m => width (code.take (n + m - 1))) := by
  induction limit generalizing n with
  | zero => omega
  | succ limit ih =>
    rw [keyEnd, charAt_take]
    simp only [Option.bind_eq_bind, Option.bind_some]
    cases h : code.drop n with
    | nil => rfl
    | cons c s =>
      have hn := lt_length_of_drop h
      have h1 := drop_succ_of_drop h
      rw [List.headD_cons, quotedLength?.eq_def]
      simp only [decide_eq_true_eq]
      by_cases hnul : c.toNat = 0
      · rw [if_pos hnul, if_pos hnul]
        rfl
      · rw [if_neg hnul, if_neg hnul]
        by_cases hslash : c = '\\'
        · rw [if_pos hslash, if_pos hslash, width_take_byte h (by rw [hslash]; rfl), charAt_take, h1]
          simp only [Option.bind_some]
          cases s with
          | nil =>
            -- a last backslash takes the end along as if it were a character
            rw [width_take_of_nil h1]
            exact keyEnd_end quote (Nat.le_add_right _ _) (by omega)
          | cons d s =>
            rw [List.headD_cons, ← width_take_succ h1, ih (by omega), drop_succ_of_drop h1, Option.map_map]
            simp only [Function.comp_def, Nat.add_assoc, Nat.add_comm 2]
        · rw [if_neg hslash, if_neg hslash]
          by_cases hquote : c = quote
          · rw [if_pos hquote, if_pos hquote]
            rfl
          · rw [if_neg hquote, if_neg hquote, ← width_take_succ h, ih (by omega), h1, Option.map_map]
            simp only [Function.comp_def, Nat.add_assoc, Nat.add_comm 1]

/-! ## indices, members and paths -/

namespace Cursor

theorem headD_eq_iff {s : List Char} {c : Char} (hc : c ≠ '\x00') : s.headD '\x00' = c ↔ ∃ t, s = c :: t := by
  cases s with
  | nil => simp [hc.symm]
  | cons d s => simp

/-- An index is closed behind its inner part. -/
theorem closing_take {n : Nat} {s : List Char} (h : code.drop (n + 1 + 1) = s) (m : Nat) :
    closing code (width (code.take (n + 1 + 1 + m))) =
      some ((if (s.drop m).head? = some ']' then some (m + 3) else none).map fun k => nth code (n + k)) := by
  rw [closing, charAt_take, ← h, List.drop_drop]
  simp only [Option.bind_eq_bind, Option.bind_some]
  by_cases hc : (code.drop (n + 1 + 1 + m)).headD '\x00' = ']'
  · obtain ⟨t, ht⟩ := (headD_eq_iff (by decide)).1 hc
    rw [if_pos hc, if_pos (by rw [ht]; rfl), width_take_byte ht rfl, jump_take,
      show n + 1 + 1 + m + 1 = n + (m + 3) by omega]
    rfl
  · have hhead : (code.drop (n + 1 + 1 + m)).head? ≠ some ']' := by
      intro hhead
      exact hc ((headD_eq_iff (by decide)).2 (List.head?_eq_some_iff.1 hhead))
    rw [if_neg hc, if_neg hhead]
    rfl

theorem index?_nth {n : Nat} {s : List Char} (h : code.drop n = '[' :: s) (hlimit : code.length < limit) :
    (nth code n).index? code limit = some ((indexLength? ('[' :: s)).map fun m => nth code (n + m)) := by
  have h1 := drop_succ_of_drop h
  rw [index?, charAt_nth_succ h rfl]
  simp only [Option.bind_eq_bind, Option.bind_some]
  cases s with
  | nil => rfl
  | cons c s =>
    have h2 := drop_succ_of_drop h1
    rw [List.headD_cons, indexLength?]
    by_cases hdigit : c.isDigit = true
    · rw [if_pos hdigit, if_pos hdigit, nth, width_take_byte h rfl, digitsEnd_take (by omega), h1,
        List.takeWhile_cons_of_pos hdigit, List.length_cons]
      simp only [Option.bind_some]
      rw [Nat.add_comm (List.length _), ← Nat.add_assoc, closing_take h2]
    · rw [if_neg hdigit, if_neg hdigit]
      by_cases hquote : isQuote c = true
      · have hstart : (nth code n).index + 2 = width (code.take (n + 1 + 1)) := by
          rw [nth, ← width_take_byte h1 (utf8Size_of_isQuote hquote), ← width_take_byte h rfl]
        rw [if_pos hquote, if_pos hquote, hstart, keyEnd_take c (by omega), h2]
        cases hm : quotedLength? c (fun d => d.toNat = 0) s with
        | none => rfl
        | some m =>
          obtain ⟨cs, rest, rfl, rfl, -⟩ := exists_quoted hm
          have hend : code.drop (n + 1 + 1 + (cs.flatMap KeyChar.spelled).length) = c :: rest := by
            rw [← List.drop_drop, h2, List.drop_left]
          simp only [Option.map_some, Option.bind_some, Nat.add_succ_sub_one]
          rw [width_take_byte hend (utf8Size_of_isQuote hquote), Nat.add_assoc, closing_take h2]
      · rw [if_neg hquote, if_neg hquote]
        rfl

theorem nameLength_of_start {s : List Char} (h : isNameStart (s.headD '\x00') = true) :
    nameLength s = (s.takeWhile isNamePart).length ∧ nameLength s ≠ 0 := by
  cases s with
  | nil => cases h
  | cons c s =>
    have hc : isNameStart c = true := h
    rw [nameLength, if_pos hc, List.takeWhile_cons_of_pos (isNamePart_of_isNameStart hc), List.length_cons]
    exact ⟨rfl, Nat.succ_ne_zero _⟩

theorem nameLength_of_not_start {s : List Char} (h : ¬isNameStart (s.headD '\x00') = true) : nameLength s = 0 := by
  cases s with
  | nil => rfl
  | cons c s => exact if_neg h

theorem skip_name {n : Nat} (h : isNameStart ((code.drop n).headD '\x00') = true) (hlimit : code.length < limit) :
    (nth code n).skip code isNamePart limit = some (nth code (n + nameLength (code.drop n))) := by
  rw [skip_nth (by decide) (by omega), (nameLength_of_start h).1]

theorem indexLength?_of_ne {s : List Char} (h : s.headD '\x00' ≠ '[') : indexLength? s = none := by
  rw [indexLength?]
  rintro c t rfl
  exact h rfl

theorem member_nth {n : Nat} {s : List Char} (h : code.drop n = '.' :: s) (hlimit : code.length < limit) :
    (nth code n).member code limit = some ((accessorLength? ('.' :: s)).map fun m => nth code (n + m)) := by
  have h1 := drop_succ_of_drop h
  rw [member, charAt_nth_succ h rfl, advance_nth h, accessorLength?]
  simp only [Option.bind_eq_bind, Option.bind_some]
  by_cases hstart : isNameStart (s.headD '\x00') = true
  · rw [if_pos hstart, if_neg (nameLength_of_start hstart).2, skip_name (by rwa [h1]) hlimit, h1, Nat.add_assoc,
      Nat.add_comm 1]
    rfl
  · rw [if_neg hstart, if_pos (nameLength_of_not_start hstart)]
    rfl

theorem optional_nth {n : Nat} {s : List Char} (h : code.drop n = '?' :: s) (hlimit : code.length < limit) :
    (nth code n).optional code limit = some ((accessorLength? ('?' :: s)).map fun m => nth code (n + m)) := by
  have h1 := drop_succ_of_drop h
  rw [optional, charAt_nth_succ h rfl]
  simp only [Option.bind_eq_bind, Option.bind_some]
  by_cases hdot : s.headD '\x00' = '.'
  · obtain ⟨t, rfl⟩ := (headD_eq_iff (by decide)).1 hdot
    have h2 := drop_succ_of_drop h1
    have hafter : charAt code ((nth code n).index + 2) = some (t.headD '\x00') := by
      rw [← charAt_nth_succ h1 rfl]
      simp only [nth]
      rw [← width_take_byte h rfl]
    rw [if_pos hdot, hafter, advance_nth h, accessorLength?]
    simp only [Option.bind_some]
    rw [advance_nth h1]
    simp only [Option.bind_some]
    by_cases hstart : isNameStart (t.headD '\x00') = true
    · rw [if_pos hstart, if_neg (nameLength_of_start hstart).2, skip_name (by rwa [h2]) hlimit, h2,
        show n + 1 + 1 + nameLength t = n + (nameLength t + 2) by omega]
      rfl
    · rw [if_neg hstart, if_pos (nameLength_of_not_start hstart)]
      by_cases hindex : t.headD '\x00' = '['
      · obtain ⟨u, rfl⟩ := (headD_eq_iff (by decide)).1 hindex
        rw [if_pos hindex, index?_nth h2 hlimit, Option.map_map]
        simp only [Function.comp_def, Nat.add_assoc, Nat.add_comm 2]
      · rw [if_neg hindex, indexLength?_of_ne hindex]
        rfl
  · rw [if_neg hdot, accessorLength?, indexLength?_of_ne (by simp)]
    · rfl
    · simp
    · rintro t ⟨⟩
      exact hdot rfl

theorem accessor_nth (n : Nat) (hlimit : code.length < limit) :
    (nth code n).accessor code limit = some ((accessorLength? (code.drop n)).map fun m => nth code (n + m)) := by
  rw [accessor]
  by_cases hdot : (nth code n).peek = '.'
  · obtain ⟨s, hs⟩ := (headD_eq_iff (by decide)).1 hdot
    rw [if_pos hdot, member_nth hs hlimit, hs]
  · rw [if_neg hdot]
    by_cases hmark : (nth code n).peek = '?'
    · obtain ⟨s, hs⟩ := (headD_eq_iff (by decide)).1 hmark
      rw [if_pos hmark, optional_nth hs hlimit, hs]
    · have hlength : accessorLength? (code.drop n) = indexLength? (code.drop n) := by
        rw [accessorLength?]
        · intro s hs
          exact hdot (peek_nth hs)
        · intro s hs
          exact hmark (peek_nth hs)
      rw [if_neg hmark, hlength]
      by_cases hindex : (nth code n).peek = '['
      · obtain ⟨s, hs⟩ := (headD_eq_iff (by decide)).1 hindex
        rw [if_pos hindex, index?_nth hs hlimit, hs]
      · rw [if_neg hindex, indexLength?_of_ne hindex]
        rfl

theorem accessorsLength_of_some {s : List Char} {m : Nat} (h : accessorLength? s = some m) :
    m ≠ 0 ∧ accessorsLength s = m + accessorsLength (s.drop m) := by
  obtain ⟨a, rest, rfl, rfl, -⟩ := exists_accessor h
  rw [accessorsLength_append a.chars_ne_nil h, List.drop_left]
  exact ⟨by simp [a.chars_ne_nil], rfl⟩

theorem accessorsLength_of_none {s : List Char} (h : accessorLength? s = none) : accessorsLength s = 0 := by
  cases s with
  | nil => rw [accessorsLength]
  | cons c s => rw [accessorsLength, h]

theorem accessors_nth {rounds n : Nat} (hrounds : code.length - n < rounds) (hlimit : code.length < limit) :
    (nth code n).accessors code limit rounds = some (nth code (n + accessorsLength (code.drop n))) := by
  induction rounds generalizing n with
  | zero => omega
  | succ rounds ih =>
    rw [accessors, accessor_nth n hlimit]
    simp only [Option.bind_eq_bind, Option.bind_some]
    cases h : accessorLength? (code.drop n) with
    | none =>
      rw [accessorsLength_of_none h]
      exact jump_take n
    | some m =>
      obtain ⟨hm, hlength⟩ := accessorsLength_of_some h
      have hn : n < code.length := by
        by_contra hn
        rw [List.drop_eq_nil_of_le (Nat.le_of_not_lt hn)] at h
        simp [accessorLength?, indexLength?] at h
      simp only [Option.map_some]
      rw [ih (by omega), hlength, List.drop_drop, Nat.add_assoc]

end Cursor

end

/-! ## the tokens -/

/-- The tokens of a scan; what is left open becomes an error token that reaches to the end. -/
def Scan.toTokens (scan : Scan) (stop : Nat) : List Token :=
  scan.tokens ++ (scan.stop.map fun f => (⟨f.index, stop, .error, f.opening.message⟩ : Token)).toList

theorem Token.all_eq_toTokens (code : String) : Token.all code = (Scan.ofCode code).toTokens (width code.toList) := rfl

theorem opensIndex_eq (s : List Char) :
    (decide (s.headD '\x00' = '[') && !closesBracket none s.tail) = opensIndex s := by
  cases s with
  | nil => rfl
  | cons c s =>
    by_cases hc : c = '['
    · subst hc
      simp [opensIndex]
    · rw [opensIndex]
      · simp [hc]
      · rintro t ⟨⟩
        exact hc rfl

namespace Cursor

variable {code s : List Char} {limit n : Nat} {c : Char}

theorem opensBracket_nth (n : Nat) :
    (nth code n).opensBracket code = some (!closesBracket none (code.drop n).tail) := by
  rw [opensBracket, nth, dropBytes?_take, Option.map_some]

theorem path_nth (h : code.drop n = '@' :: s) (hlimit : code.length < limit) :
    (nth code n).path code limit =
      let stop := width (code.take (n + 1 + pathLength s))
      let token : Token := ⟨width (code.take n), stop, .variable, String.ofList ('@' :: s.take (pathLength s))⟩
      some (if pathLength s ≠ 0 && opensIndex (s.drop (pathLength s)) then ⟨[token, error code .index stop], none⟩
        else ⟨[token], some (nth code (n + 1 + pathLength s))⟩) := by
  have h1 := drop_succ_of_drop h
  rw [path, advance_nth h]
  simp only [Option.bind_eq_bind, Option.bind_some]
  by_cases hstart : isNameStart (s.headD '\x00') = true
  · obtain ⟨-, hname⟩ := nameLength_of_start hstart
    have hlength : pathLength s = nameLength s + accessorsLength (s.drop (nameLength s)) := by
      rw [pathLength, if_neg hname]
    rw [if_pos (by rwa [nth, h1]), skip_name (by rwa [h1]) hlimit]
    simp only [Option.bind_some]
    rw [accessors_nth (by omega) hlimit, h1, ← List.drop_drop, h1, Nat.add_assoc (n + 1), ← hlength]
    simp only [Option.bind_some]
    rw [textFrom_nth h, opensBracket_nth]
    simp only [Option.bind_some]
    have hopen : (decide ((nth code (n + 1 + pathLength s)).peek = '[') &&
        !closesBracket none (code.drop (n + 1 + pathLength s)).tail) = opensIndex (s.drop (pathLength s)) := by
      rw [← h1, List.drop_drop, ← opensIndex_eq]
      rfl
    have hpath : decide (pathLength s ≠ 0) = true := by simp [hlength, hname]
    rw [hopen, hpath, Bool.true_and]
    split <;> rfl
  · have hlength : pathLength s = 0 := by rw [pathLength, nameLength_of_not_start hstart]; rfl
    rw [if_neg (by rwa [nth, h1]), hlength]
    rfl

/-- What a step comes to: a token, behind which the scan goes on, or the last tokens. -/
def Step.Agrees (code : List Char) (n : Nat) (scan : Scan) (step : Step) : Prop :=
  (∃ t m, step = ⟨[t], some (nth code (n + 1 + m))⟩ ∧
    scan = (scanFrom (width (code.take (n + 1 + m))) (code.drop (n + 1 + m))).cons t) ∨
  step = ⟨scan.toTokens (width code), none⟩

theorem agrees_token (h : code.drop n = c :: s) (hc : c.utf8Size = 1) (m : Nat) (kind : TokenKind) (text : String) :
    let stop := width (code.take n) + 1 + width (s.take m)
    Step.Agrees code n ((scanFrom stop (s.drop m)).cons ⟨width (code.take n), stop, kind, text⟩)
      ⟨[⟨width (code.take n), width (code.take (n + 1 + m)), kind, text⟩], some (nth code (n + 1 + m))⟩ := by
  intro stop
  have hstop : stop = width (code.take (n + 1 + m)) := width_take_run h hc m
  rw [hstop, ← drop_succ_of_drop h, List.drop_drop]
  exact .inl ⟨_, m, rfl, rfl⟩

theorem run_nth (h : code.drop n = c :: s) {f : Char → Bool} (hf : f '\x00' = false) (hc : f c = true)
    (kind : TokenKind) (hlimit : code.length < limit) :
    let m := (s.takeWhile f).length
    (nth code n).run code kind f limit =
      some ⟨[⟨width (code.take n), width (code.take (n + 1 + m)), kind, String.ofList (c :: s.take m)⟩],
        some (nth code (n + 1 + m))⟩ := by
  intro m
  have hlength : n + ((c :: s).takeWhile f).length = n + 1 + m := by
    rw [List.takeWhile_cons_of_pos hc, List.length_cons, Nat.add_assoc, Nat.add_comm 1]
  rw [run, skip_nth hf (by omega), h, hlength]
  simp only [Option.bind_eq_bind, Option.bind_some]
  rw [textFrom_nth h]
  rfl

theorem exists_step (h : code.drop n = c :: s) (hspace : isSpace c = false) (hlimit : code.length < limit) :
    ∃ step, (nth code n).step code limit = some step ∧
      step.Agrees code n (scanFrom (width (code.take n)) (c :: s)) := by
  have h1 := drop_succ_of_drop h
  rw [step, peek_nth h, scanFrom, if_neg (show ¬isSpace c = true by simp [hspace])]
  by_cases hsigil : c = '@'
  · subst hsigil
    rw [if_pos rfl, if_pos rfl, path_nth h hlimit]
    refine ⟨_, rfl, ?_⟩
    by_cases hopen : (pathLength s ≠ 0 && opensIndex (s.drop (pathLength s))) = true
    · rw [if_pos hopen, if_pos hopen, width_take_run h rfl]
      exact .inr rfl
    · rw [if_neg hopen, if_neg hopen]
      exact agrees_token h rfl _ _ _
  · rw [if_neg hsigil, if_neg hsigil]
    by_cases hname : isNameStart c = true
    · have hpart := isNamePart_of_isNameStart hname
      rw [if_pos hname, if_pos hname, run_nth h (by decide) hpart _ hlimit]
      exact ⟨_, rfl, agrees_token h (utf8Size_of_isNamePart hpart) _ _ _⟩
    · rw [if_neg hname, if_neg hname]
      by_cases hdigit : c.isDigit = true
      · rw [if_pos hdigit, if_pos hdigit, run_nth h (by decide) (by simp [hdigit]) _ hlimit]
        exact ⟨_, rfl, agrees_token h (utf8Size_of_isNamePart (isNamePart_of_isDigit hdigit)) _ _ _⟩
      · rw [if_neg hdigit, if_neg hdigit]
        by_cases hquote : isQuote c = true
        · rw [if_pos hquote, if_pos hquote, advance_nth h]
          simp only [Option.bind_eq_bind, Option.bind_some]
          rw [quoted_nth c [] (by omega), h1]
          cases quotedLength? c (fun _ => false) s with
          | none => exact ⟨_, rfl, .inr rfl⟩
          | some m => exact ⟨_, rfl, agrees_token h (utf8Size_of_isQuote hquote) m _ _⟩
        · rw [if_neg hquote, if_neg hquote, advance_nth h, ← width_take_succ h, ← h1]
          exact ⟨_, rfl, .inl ⟨_, 0, rfl, rfl⟩⟩

theorem scanFrom_skip (pos : Nat) (s : List Char) {m : Nat} (hm : (s.takeWhile isSpace).length = m) :
    scanFrom pos s = scanFrom (pos + width (s.take m)) (s.drop m) := by
  subst hm
  induction s generalizing pos with
  | nil => rfl
  | cons c s ih =>
    by_cases hc : isSpace c = true
    · rw [scanFrom, if_pos hc, ih, List.takeWhile_cons_of_pos hc, List.length_cons, List.take_succ_cons, width_cons,
        List.drop_succ_cons, Nat.add_assoc]
    · rw [List.takeWhile_cons_of_neg hc]
      rfl

theorem isSpace_of_drop {m : Nat} (hm : ((code.drop n).takeWhile isSpace).length = m) (h : code.drop (n + m) = c :: s) :
    isSpace c = false := by
  obtain ⟨t, rest, ht, hspace, hrest⟩ := exists_run isSpace (code.drop n)
  rw [ht, takeWhile_append_eq hspace hrest] at hm
  rw [← List.drop_drop, ht, ← hm, List.drop_left] at h
  exact hrest c (by rw [h]; rfl)

theorem tokens_nth {rounds : Nat} (hrounds : code.length - n < rounds) (hlimit : code.length < limit) :
    (nth code n).tokens code limit rounds =
      some ((scanFrom (width (code.take n)) (code.drop n)).toTokens (width code)) := by
  induction rounds generalizing n with
  | zero => omega
  | succ rounds ih =>
    rw [tokens, skip_nth (by decide) (by omega)]
    generalize hm : ((code.drop n).takeWhile isSpace).length = m
    rw [scanFrom_skip _ _ hm, List.drop_drop, ← width_take_add]
    simp only [Option.bind_eq_bind, Option.bind_some]
    cases h : code.drop (n + m) with
    | nil =>
      rw [if_pos (at_end h), scanFrom]
      rfl
    | cons c s =>
      have hn := lt_length_of_drop h
      rw [if_neg (not_at_end h)]
      obtain ⟨step, hstep, hagrees⟩ := exists_step h (isSpace_of_drop hm h) hlimit
      rw [hstep]
      simp only [Option.bind_some]
      rcases hagrees with ⟨t, k, rfl, hscan⟩ | rfl
      · simp only
        rw [ih (by omega), hscan]
        rfl
      · rfl

/-- No round reads inside a character, and the rounds are as many as there are characters at most. -/
theorem tokenize_eq (hlimit : code.length < limit) :
    tokenize code limit = some ((scanFrom 0 code).toTokens (width code)) := by
  have hplace : place code 0 = some (nth code 0) := place_take 0
  rw [tokenize, hplace]
  simp only [Option.bind_eq_bind, Option.bind_some]
  exact tokens_nth (by omega) hlimit

end Cursor

end BrickScope.Template
