import BrickScope.Reference
import Mathlib

/-!
# Spelled references

A reference is written as a variable with its sigil and a way into it: members behind a dot, indices and quoted keys in
brackets, each of them optional with `?.` in front.  In a quoted key a backslash may stand before any character, and has
to stand before the quote, a backslash and U+0000.

* `Path`: a reference as it is written; `Path.text` is its text, `Path.segments` what it stands for;
* `Key.quoting`: every text can be written as a key;
* `Path.segments_text`: a text is split into just the segments it was written for;
* `exists_segments_eq`: every list of segments has a text.
-/

namespace BrickScope

open Text

/-! ## characters -/

/-- Characters of different classes are different. -/
theorem ne_of_class {c d : Char} (f : Char → Bool) (hc : f c = true) (hd : f d = false) : c ≠ d := by
  rintro rfl
  rw [hc] at hd
  cases hd

theorem Text.toNat_of_isNamePart {c : Char} (h : isNamePart c = true) :
    c.toNat = 36 ∨ c.toNat = 95 ∨ (48 ≤ c.toNat ∧ c.toNat ≤ 57) ∨ (65 ≤ c.toNat ∧ c.toNat ≤ 90) ∨
      (97 ≤ c.toNat ∧ c.toNat ≤ 122) := by
  simp only [isNamePart, isNameStart, Char.isAlpha, Char.isUpper, Char.isLower, Char.isDigit, Bool.or_eq_true,
    Bool.and_eq_true, decide_eq_true_eq, ge_iff_le, UInt32.le_iff_toNat_le] at h
  rcases h with (((⟨h₁, h₂⟩ | ⟨h₁, h₂⟩) | rfl) | rfl) | ⟨h₁, h₂⟩
  · exact .inr (.inr (.inr (.inl ⟨h₁, h₂⟩)))
  · exact .inr (.inr (.inr (.inr ⟨h₁, h₂⟩)))
  · exact .inr (.inl rfl)
  · exact .inl rfl
  · exact .inr (.inr (.inl ⟨h₁, h₂⟩))

theorem Text.isBlank_of_isNamePart {c : Char} (h : isNamePart c = true) : isBlank c = false := by
  have hrange := toNat_of_isNamePart h
  simp only [isBlank, inRanges, blankRanges, List.any_eq_false, List.mem_cons, List.not_mem_nil, or_false,
    Bool.and_eq_true, decide_eq_true_eq]
  rintro r (rfl | rfl | rfl | rfl | rfl | rfl | rfl | rfl | rfl | rfl) <;> dsimp only <;> omega

theorem Text.isNamePart_of_isDigit {c : Char} (h : c.isDigit = true) : isNamePart c = true := by
  simp [isNamePart, h]

theorem Text.isQuote_of_isNamePart {c : Char} (h : isNamePart c = true) : isQuote c = false := by
  have hne : ∀ d, isNamePart d = false → c ≠ d := fun d hd => ne_of_class _ h hd
  simp [isQuote, hne '\'' (by decide), hne '"' (by decide)]

theorem Text.isNamePart_of_isNameStart {c : Char} (h : isNameStart c = true) : isNamePart c = true := by
  simp [isNamePart, h]

/-- A text that neither starts nor ends with a blank. -/
theorem Text.trimChars_eq_self {s : List Char} (hfirst : ∀ c ∈ s.head?, isBlank c = false)
    (hlast : ∀ c ∈ s.getLast?, isBlank c = false) : trimChars s = s := by
  have hdrop : ∀ t : List Char, (∀ c ∈ t.head?, isBlank c = false) → t.dropWhile isBlank = t := by
    intro t ht
    cases t with
    | nil => rfl
    | cons c t => rw [List.dropWhile_cons, ht c rfl, if_neg (by simp)]
  have hrev : ∀ c ∈ s.reverse.head?, isBlank c = false := by
    intro c hc
    rw [List.head?_reverse] at hc
    exact hlast c hc
  rw [trimChars, hdrop s hfirst, hdrop s.reverse hrev, List.reverse_reverse]

namespace Reference

/-! ## the way a reference is written -/

/-- A name. -/
structure Name where
  first : Char
  rest : List Char
  isNameStart_first : isNameStart first = true
  isNamePart_rest : ∀ c ∈ rest, isNamePart c = true

/-- An index: one digit or more. -/
structure Index where
  first : Char
  rest : List Char
  isDigit_first : first.isDigit = true
  isDigit_rest : ∀ c ∈ rest, c.isDigit = true

/-- A character of a key, perhaps behind a backslash. -/
structure KeyChar where
  char : Char
  escaped : Bool

/-- A quoted key.  What would end it, or would not be read as itself, is behind a backslash. -/
structure Key where
  quote : Char
  chars : List KeyChar
  isQuote_quote : isQuote quote = true
  plain : ∀ c ∈ chars, c.escaped = false → c.char ≠ quote ∧ c.char ≠ '\\' ∧ c.char.toNat ≠ 0

inductive Place where
  | member (name : Name)
  | index (index : Index)
  | key (key : Key)

/-- One step into a variable. -/
structure Accessor where
  optional : Bool
  place : Place

/-- A reference: a variable and the way into it. -/
structure Path where
  name : Name
  accessors : List Accessor

def Name.chars (n : Name) : List Char := n.first :: n.rest

def Index.chars (i : Index) : List Char := i.first :: i.rest

def KeyChar.spelled (c : KeyChar) : List Char := if c.escaped then ['\\', c.char] else [c.char]

/-- What stands between the quotes. -/
def Key.inner (k : Key) : List Char := k.chars.flatMap KeyChar.spelled

/-- What a key stands for. -/
def Key.text (k : Key) : List Char := k.chars.map KeyChar.char

/-- The key for a text: quotes, backslashes and U+0000 are behind a backslash. -/
def Key.quoting (quote : Char) (h : isQuote quote = true) (text : String) : Key where
  quote := quote
  chars := text.toList.map fun c => ⟨c, isQuote c || c = '\\' || c.toNat = 0⟩
  isQuote_quote := h
  plain := by
    intro c hc
    obtain ⟨d, -, rfl⟩ := List.mem_map.1 hc
    simp only [Bool.or_eq_false_iff, decide_eq_false_iff_not]
    rintro ⟨⟨hd, hb⟩, hz⟩
    exact ⟨(ne_of_class isQuote h hd).symm, hb, hz⟩

theorem Key.text_quoting (quote : Char) (h : isQuote quote = true) (text : String) :
    (quoting quote h text).text = text.toList := by
  simp [quoting, Key.text, Function.comp_def]

namespace Place

/-- What a step leads to. -/
def segment : Place → List Char
  | member n => n.chars
  | index i => i.chars
  | key k => k.text

/-- A place in brackets. -/
def bracketed : Place → List Char
  | member n => n.chars
  | index i => '[' :: i.chars ++ [']']
  | key k => '[' :: k.quote :: k.inner ++ [k.quote, ']']

end Place

/-- The text of a step. -/
def Accessor.chars : Accessor → List Char
  | ⟨true, place⟩ => '?' :: '.' :: place.bracketed
  | ⟨false, .member n⟩ => '.' :: n.chars
  | ⟨false, place⟩ => place.bracketed

namespace Path

/-- The text of the way into the variable. -/
def wayChars (p : Path) : List Char := p.accessors.flatMap Accessor.chars

def chars (p : Path) : List Char := sigil :: (p.name.chars ++ p.wayChars)

/-- The reference as it is written. -/
def text (p : Path) : String := String.ofList p.chars

/-- What a reference stands for: the variable with its sigil, and the member, index or key of each step. -/
def segments (p : Path) : List String :=
  String.ofList (sigil :: p.name.chars) :: p.accessors.map fun a => String.ofList a.place.segment

end Path

/-! ## splitting it again -/

theorem Name.isNamePart_of_mem {n : Name} {c : Char} (h : c ∈ n.chars) : isNamePart c = true := by
  rcases List.mem_cons.1 h with rfl | h
  · exact isNamePart_of_isNameStart n.isNameStart_first
  · exact n.isNamePart_rest c h

theorem Name.isQuote_of_mem {n : Name} {c : Char} (h : c ∈ n.chars) : isQuote c = false :=
  isQuote_of_isNamePart (n.isNamePart_of_mem h)

theorem Index.isDigit_of_mem {i : Index} {c : Char} (h : c ∈ i.chars) : c.isDigit = true := by
  rcases List.mem_cons.1 h with rfl | h
  · exact i.isDigit_first
  · exact i.isDigit_rest c h

theorem consSegment_cons (c : Char) (s : List Char) (rest : List String) :
    consSegment (c :: s) rest = String.ofList (c :: s) :: rest := rfl

section

variable (done s : List Char)

theorem segmentsFrom_dot :
    segmentsFrom (.member done) ('.' :: s) = consSegment done.reverse (segmentsFrom (.member []) s) := by
  rw [segmentsFrom.eq_def]
  rfl

theorem segmentsFrom_optional :
    segmentsFrom (.member done) ('?' :: '.' :: s) = segmentsFrom (.member done) ('.' :: s) := by
  rw [segmentsFrom.eq_def]
  rfl

/-- A bracket opens a quoted key, or an index. -/
theorem segmentsFrom_bracket (c : Char) :
    segmentsFrom (.member done) ('[' :: c :: s) = consSegment done.reverse
      (if isQuote c then segmentsFrom (.key c []) s else segmentsFrom (.index []) (c :: s)) := by
  rw [segmentsFrom.eq_def]
  simp

theorem segmentsFrom_escaped (quote c : Char) :
    segmentsFrom (.key quote done) ('\\' :: c :: s) = segmentsFrom (.key quote (c :: done)) s := by
  rw [segmentsFrom.eq_def]
  rfl

theorem segmentsFrom_plain {quote c : Char} (hquote : c ≠ quote) (hslash : c ≠ '\\') :
    segmentsFrom (.key quote done) (c :: s) = segmentsFrom (.key quote (c :: done)) s := by
  rw [segmentsFrom.eq_def]
  simp [hquote, hslash]

theorem segmentsFrom_quote {quote : Char} (hslash : quote ≠ '\\') :
    segmentsFrom (.key quote done) (quote :: ']' :: s) =
      String.ofList done.reverse :: segmentsFrom (.member []) s := by
  rw [segmentsFrom.eq_def]
  simp [hslash, segmentsFrom]

end

/-- Characters that do not end a member belong to it. -/
theorem segmentsFrom_member {s : List Char} (h : ∀ c ∈ s, c ≠ '.' ∧ c ≠ '?' ∧ c ≠ '[') (done rest : List Char) :
    segmentsFrom (.member done) (s ++ rest) = segmentsFrom (.member (s.reverse ++ done)) rest := by
  induction s generalizing done with
  | nil => rfl
  | cons c s ih =>
    obtain ⟨hdot, hmark, hopen⟩ := h c List.mem_cons_self
    have hc : segmentsFrom (.member done) (c :: (s ++ rest)) = segmentsFrom (.member (c :: done)) (s ++ rest) := by
      rw [segmentsFrom.eq_def]
      simp [hdot, hmark, hopen]
    rw [List.cons_append, hc, ih (fun d hd => h d (List.mem_cons_of_mem _ hd))]
    simp

theorem segmentsFrom_name (n : Name) (done rest : List Char) :
    segmentsFrom (.member done) (n.chars ++ rest) = segmentsFrom (.member (n.chars.reverse ++ done)) rest := by
  refine segmentsFrom_member (fun c hc => ?_) done rest
  have hpart := n.isNamePart_of_mem hc
  exact ⟨ne_of_class _ hpart (by decide), ne_of_class _ hpart (by decide), ne_of_class _ hpart (by decide)⟩

theorem segmentsFrom_key {quote : Char} (hquote : quote ≠ '\\') {cs : List KeyChar}
    (h : ∀ c ∈ cs, c.escaped = false → c.char ≠ quote ∧ c.char ≠ '\\' ∧ c.char.toNat ≠ 0) (done rest : List Char) :
    segmentsFrom (.key quote done) (cs.flatMap KeyChar.spelled ++ quote :: ']' :: rest) =
      String.ofList (done.reverse ++ cs.map KeyChar.char) :: segmentsFrom (.member []) rest := by
  induction cs generalizing done with
  | nil =>
    rw [List.flatMap_nil, List.nil_append, segmentsFrom_quote _ _ hquote, List.map_nil, List.append_nil]
  | cons c cs ih =>
    have hrest := ih (fun d hd => h d (List.mem_cons_of_mem _ hd)) (c.char :: done)
    have hdone : (c.char :: done).reverse ++ cs.map KeyChar.char = done.reverse ++ (c :: cs).map KeyChar.char := by
      simp
    rw [hdone] at hrest
    rw [List.flatMap_cons, List.append_assoc, ← hrest]
    cases he : c.escaped with
    | true =>
      rw [KeyChar.spelled, if_pos he, List.cons_append, List.cons_append, List.nil_append, segmentsFrom_escaped]
    | false =>
      obtain ⟨hq, hb, -⟩ := h c List.mem_cons_self he
      rw [KeyChar.spelled, if_neg (by simp [he]), List.cons_append, List.nil_append, segmentsFrom_plain _ _ hq hb]

theorem segmentsFrom_index {s : List Char} (h : ∀ c ∈ s, c ≠ ']') (done rest : List Char) :
    segmentsFrom (.index done) (s ++ ']' :: rest) =
      consSegment (trimChars (done.reverse ++ s)) (segmentsFrom (.member []) rest) := by
  induction s generalizing done with
  | nil => rw [List.nil_append, segmentsFrom, if_pos rfl, List.append_nil]
  | cons c s ih =>
    rw [List.cons_append, segmentsFrom, if_neg (h c List.mem_cons_self),
      ih (fun d hd => h d (List.mem_cons_of_mem _ hd))]
    simp

theorem Index.trimChars_chars (i : Index) : trimChars i.chars = i.chars := by
  have hblank : ∀ c ∈ i.chars, isBlank c = false := fun c hc =>
    isBlank_of_isNamePart (isNamePart_of_isDigit (i.isDigit_of_mem hc))
  exact trimChars_eq_self (fun c hc => hblank c (List.mem_of_mem_head? hc))
    fun c hc => hblank c (List.mem_of_getLast? hc)

theorem Index.isQuote_first (i : Index) : isQuote i.first = false :=
  isQuote_of_isNamePart (isNamePart_of_isDigit i.isDigit_first)

/-- What stands in brackets is a segment, and ends the member before it. -/
theorem segmentsFrom_index_brackets (i : Index) (done rest : List Char) :
    segmentsFrom (.member done) ('[' :: i.chars ++ ']' :: rest) =
      consSegment done.reverse (String.ofList i.chars :: segmentsFrom (.member []) rest) := by
  have hinner := segmentsFrom_index (s := i.chars)
    (fun c hc => ne_of_class _ (i.isDigit_of_mem hc) (by decide)) [] rest
  rw [List.reverse_nil, List.nil_append, i.trimChars_chars] at hinner
  rw [Index.chars, List.cons_append, List.cons_append, segmentsFrom_bracket, i.isQuote_first,
    if_neg (by decide), ← List.cons_append]
  exact congrArg _ hinner

theorem segmentsFrom_key_brackets (k : Key) (done rest : List Char) :
    segmentsFrom (.member done) ('[' :: k.quote :: k.inner ++ k.quote :: ']' :: rest) =
      consSegment done.reverse (String.ofList k.text :: segmentsFrom (.member []) rest) := by
  have hslash : k.quote ≠ '\\' := ne_of_class _ k.isQuote_quote (by decide)
  rw [List.cons_append, List.cons_append, segmentsFrom_bracket, if_pos k.isQuote_quote, Key.inner,
    segmentsFrom_key hslash k.plain]
  rfl

/-- A way is split step by step; `done` is the member before it, which the first step ends. -/
theorem segmentsFrom_way (accessors : List Accessor) (done : List Char) :
    segmentsFrom (.member done) (accessors.flatMap Accessor.chars) =
      consSegment done.reverse (accessors.map fun a => String.ofList a.place.segment) := by
  induction accessors generalizing done with
  | nil => rw [List.flatMap_nil, segmentsFrom, List.map_nil]
  | cons a accessors ih =>
    have hrest : segmentsFrom (.member []) (accessors.flatMap Accessor.chars) =
        accessors.map fun a => String.ofList a.place.segment := ih []
    have hmember : ∀ (n : Name) (done : List Char),
        segmentsFrom (.member done) ('.' :: n.chars ++ accessors.flatMap Accessor.chars) =
          consSegment done.reverse
            (String.ofList n.chars :: accessors.map fun a => String.ofList a.place.segment) := by
      intro n done
      rw [List.cons_append, segmentsFrom_dot, segmentsFrom_name, ih]
      simp [Name.chars, consSegment_cons]
    have hindex : ∀ (i : Index) (done : List Char),
        segmentsFrom (.member done) ('[' :: i.chars ++ ']' :: accessors.flatMap Accessor.chars) =
          consSegment done.reverse
            (String.ofList i.chars :: accessors.map fun a => String.ofList a.place.segment) := by
      intro i done
      rw [segmentsFrom_index_brackets, hrest]
    have hkey : ∀ (k : Key) (done : List Char),
        segmentsFrom (.member done) ('[' :: k.quote :: k.inner ++ k.quote :: ']' :: accessors.flatMap Accessor.chars) =
          consSegment done.reverse
            (String.ofList k.text :: accessors.map fun a => String.ofList a.place.segment) := by
      intro k done
      rw [segmentsFrom_key_brackets, hrest]
    obtain ⟨optional, place⟩ := a
    rw [List.flatMap_cons, List.map_cons]
    cases optional with
    | false =>
      cases place with
      | member n => exact hmember n done
      | index i => simpa [Accessor.chars, Place.bracketed, Place.segment] using hindex i done
      | key k => simpa [Accessor.chars, Place.bracketed, Place.segment] using hkey k done
    | true =>
      rw [Accessor.chars, List.cons_append, List.cons_append, segmentsFrom_optional]
      cases place with
      | member n => exact hmember n done
      | index i =>
        have h := hindex i []
        rw [segmentsFrom_dot]
        refine congrArg _ ?_
        simpa [Place.bracketed, Place.segment, consSegment] using h
      | key k =>
        have h := hkey k []
        rw [segmentsFrom_dot]
        refine congrArg _ ?_
        simpa [Place.bracketed, Place.segment, consSegment] using h

/-! ## nothing to trim -/

theorem isBlank_getLast?_append {s t : List Char} (hs : ∀ c ∈ s.getLast?, isBlank c = false)
    (ht : ∀ c ∈ t.getLast?, isBlank c = false) : ∀ c ∈ (s ++ t).getLast?, isBlank c = false := by
  intro c hc
  rw [List.getLast?_append, Option.mem_def, Option.or_eq_some_iff] at hc
  rcases hc with hc | ⟨-, hc⟩
  · exact ht c hc
  · exact hs c hc

theorem isBlank_getLast?_concat (s : List Char) {d : Char} (hd : isBlank d = false) :
    ∀ c ∈ (s ++ [d]).getLast?, isBlank c = false := by
  intro c hc
  rw [List.getLast?_concat, Option.mem_some_iff] at hc
  exact hc ▸ hd

theorem Name.isBlank_getLast? (n : Name) : ∀ c ∈ n.chars.getLast?, isBlank c = false := fun _ hc =>
  isBlank_of_isNamePart (n.isNamePart_of_mem (List.mem_of_getLast? hc))

theorem Accessor.isBlank_getLast? (a : Accessor) : ∀ c ∈ a.chars.getLast?, isBlank c = false := by
  have hplace : ∀ place : Place, ∀ c ∈ place.bracketed.getLast?, isBlank c = false := by
    intro place
    cases place with
    | member n => exact n.isBlank_getLast?
    | index i => exact isBlank_getLast?_concat ('[' :: i.chars) (by decide)
    | key k =>
      have h := isBlank_getLast?_concat ('[' :: k.quote :: k.inner ++ [k.quote]) (d := ']') (by decide)
      rwa [List.append_assoc] at h
  obtain ⟨optional, place⟩ := a
  cases optional with
  | true =>
    exact isBlank_getLast?_append (isBlank_getLast?_concat ['?'] (d := '.') (by decide)) (hplace place)
  | false =>
    cases place with
    | member n => exact isBlank_getLast?_append (isBlank_getLast?_concat [] (d := '.') (by decide)) n.isBlank_getLast?
    | index i => exact hplace (.index i)
    | key k => exact hplace (.key k)

theorem isBlank_getLast?_way (accessors : List Accessor) :
    ∀ c ∈ (accessors.flatMap Accessor.chars).getLast?, isBlank c = false := by
  induction accessors with
  | nil => simp
  | cons a accessors ih =>
    rw [List.flatMap_cons]
    exact isBlank_getLast?_append a.isBlank_getLast? ih

/-- A reference starts with the sigil and ends with a name or a bracket. -/
theorem Path.trimChars_chars (p : Path) : trimChars p.chars = p.chars := by
  refine trimChars_eq_self (fun c hc => ?_) ?_
  · cases hc
    decide
  · have hname := isBlank_getLast?_append (isBlank_getLast?_concat [] (d := sigil) (by decide)) p.name.isBlank_getLast?
    exact isBlank_getLast?_append hname (isBlank_getLast?_way p.accessors)

/-- **Splitting undoes writing.** -/
theorem Path.segments_text (p : Path) : Reference.segments p.text = p.segments := by
  rw [Reference.segments, Path.text, String.toList_ofList, p.trimChars_chars]
  have hsigil := segmentsFrom_member (s := sigil :: p.name.chars) (fun c hc => ?_) [] p.wayChars
  · rw [Path.chars, ← List.cons_append, hsigil, Path.wayChars, segmentsFrom_way]
    simp [consSegment, Path.segments]
  · rcases List.mem_cons.1 hc with rfl | hc
    · decide
    · have hpart := p.name.isNamePart_of_mem hc
      exact ⟨ne_of_class _ hpart (by decide), ne_of_class _ hpart (by decide), ne_of_class _ hpart (by decide)⟩

/-- Every list of segments can be written, as quoted keys. -/
theorem exists_segments_eq (path : List String) : ∃ reference, Reference.segments reference = path := by
  have hquote : isQuote '"' = true := by decide
  let accessors : List Accessor := path.map fun s => ⟨false, .key (.quoting '"' hquote s)⟩
  have hfirst : ∀ c ∈ (accessors.flatMap Accessor.chars).head?, isBlank c = false := by
    intro c hc
    cases path with
    | nil => cases hc
    | cons s path =>
      cases hc
      decide
  refine ⟨String.ofList (accessors.flatMap Accessor.chars), ?_⟩
  rw [Reference.segments, String.toList_ofList, trimChars_eq_self hfirst (isBlank_getLast?_way accessors),
    segmentsFrom_way, List.map_map]
  have hkey : ∀ s : String, String.ofList (Key.quoting '"' hquote s).text = s := by
    intro s
    rw [Key.text_quoting, String.ofList_toList]
  exact (List.map_congr_left fun s _ => hkey s).trans (List.map_id path)

end Reference

end BrickScope
