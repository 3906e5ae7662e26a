import BrickScope.Analysis.Report
import BrickScope.Proofs.Spelling

/-!
# Templates read references as they are written

Three scans go over a reference in a template: one looks for the end of the tag, one takes the longest path behind the
sigil, and one splits the path into segments.  All of them read quotes, backslashes, brackets and `?.` in the same way,
whatever a key holds.

* `Seen`: text in which the end of a tag is not found; `Path.seen`: no reference holds it;
* `Path.pathLength_eq`: a reference is taken as a whole;
* `Path.template_agrees`: a reference and a template with it in a tag mean the same.
-/

namespace BrickScope

open Text Template

/-! ## the end of a tag -/

namespace Template

/-- The search for the end of an output tag goes over the text, and is then where it was before: outside of quotes. -/
def Seen (s : List Char) : Prop :=
  ∀ rest, codeLength? '\x7d' none (s ++ rest) = (codeLength? '\x7d' none rest).map (· + s.length)

theorem Seen.append {s t : List Char} (hs : Seen s) (ht : Seen t) : Seen (s ++ t) := by
  intro rest
  rw [List.append_assoc, hs, ht, Option.map_map, List.length_append]
  congr 1
  funext n
  simp only [Function.comp_apply]
  omega

theorem seen_of_plain {s : List Char} (h : ∀ c ∈ s, isQuote c = false ∧ c ≠ '\x7d') : Seen s := by
  intro rest
  induction s with
  | nil => simp
  | cons c s ih =>
    obtain ⟨hquote, hmark⟩ := h c List.mem_cons_self
    have ih := ih fun d hd => h d (List.mem_cons_of_mem _ hd)
    rw [List.cons_append, codeLength?.eq_def]
    simp only [hquote, hmark, decide_false, Bool.false_and, Bool.false_eq_true, if_false]
    rw [ih, Option.map_map, List.length_cons]
    rfl

theorem seen_singleton {c : Char} (hquote : isQuote c = false) (hmark : c ≠ '\x7d') : Seen [c] :=
  seen_of_plain fun _ hd => List.mem_singleton.1 hd ▸ ⟨hquote, hmark⟩

/-! ## one tag after the other -/

theorem extractFrom_of_none {pos : Nat} {s : List Char} (h : nextTag? pos s = none) (found : List String) :
    extractFrom pos found s = ⟨found, none⟩ := by
  rw [extractFrom]
  split
  · rfl
  · rename_i h'
    rw [h] at h'
    cases h'

/-- Behind an output tag that can be read the extraction goes on with what was found. -/
theorem extractFrom_of_output {pos : Nat} {s rest : List Char} {tag : Tag} (h : nextTag? pos s = some ⟨tag, rest⟩)
    (hkind : tag.kind = .output) (hend : tag.terminated = true) (hscan : (Scan.ofCode tag.content).stop = none)
    (found : List String) :
    extractFrom pos found s = extractFrom tag.stop (addAllNew found (Scan.ofCode tag.content).references) rest := by
  have hraw : ∀ scan, rawName? tag scan = none := fun scan => by simp [rawName?, hkind]
  rw [extractFrom]
  split
  · rename_i h'
    rw [h] at h'
    cases h'
  · rename_i tag' rest' h'
    rw [h] at h'
    cases h'
    simp [hkind, hraw, hscan, hend]

end Template

namespace Reference

/-- The search goes over a quoted key to its closing quote. -/
theorem codeLength?_key {quote : Char} (hquote : quote ≠ '\\') {cs : List KeyChar}
    (h : ∀ c ∈ cs, c.escaped = false → c.char ≠ quote ∧ c.char ≠ '\\' ∧ c.char.toNat ≠ 0) (rest : List Char) :
    codeLength? '\x7d' (some quote) (cs.flatMap KeyChar.spelled ++ quote :: rest) =
      (codeLength? '\x7d' none rest).map (· + ((cs.flatMap KeyChar.spelled).length + 1)) := by
  induction cs with
  | nil =>
    rw [List.flatMap_nil, List.nil_append, codeLength?.eq_def]
    simp [hquote]
  | cons c cs ih =>
    have ih := ih fun d hd => h d (List.mem_cons_of_mem _ hd)
    rw [List.flatMap_cons, List.append_assoc, KeyChar.spelled]
    cases he : c.escaped with
    | true =>
      rw [if_pos rfl, List.cons_append, List.cons_append, List.nil_append, codeLength?.eq_def]
      simp only [if_true]
      rw [ih, Option.map_map]
      rfl
    | false =>
      obtain ⟨hq, hb, -⟩ := h c List.mem_cons_self he
      rw [if_neg (by simp), List.cons_append, List.nil_append, codeLength?.eq_def]
      simp only [hq, hb, if_false]
      rw [ih, Option.map_map]
      rfl

theorem Name.seen (n : Name) : Seen n.chars :=
  seen_of_plain fun _ hc => ⟨n.isQuote_of_mem hc, ne_of_class _ (n.isNamePart_of_mem hc) (by decide)⟩

theorem Place.seen (place : Place) : Seen place.bracketed := by
  cases place with
  | member n => exact n.seen
  | index i =>
    refine seen_of_plain fun c hc => ?_
    simp only [Place.bracketed, List.cons_append, List.mem_cons, List.mem_append, List.not_mem_nil, or_false] at hc
    rcases hc with rfl | hc | rfl
    · decide
    · have hpart := isNamePart_of_isDigit (i.isDigit_of_mem hc)
      exact ⟨isQuote_of_isNamePart hpart, ne_of_class _ hpart (by decide)⟩
    · decide
  | key k =>
    have hslash : k.quote ≠ '\\' := ne_of_class _ k.isQuote_quote (by decide)
    have hquoted : Seen (k.quote :: (k.inner ++ [k.quote])) := by
      intro rest
      rw [List.cons_append, List.append_assoc, codeLength?.eq_def]
      simp only [k.isQuote_quote, if_true]
      rw [List.cons_append, List.nil_append, Key.inner, codeLength?_key hslash k.plain, Option.map_map]
      congr 1
      funext n
      simp only [Function.comp_apply, List.length_cons, List.length_append, List.length_nil]
      omega
    have hopen : Seen ['['] := seen_singleton (by decide) (by decide)
    have hclose : Seen [']'] := seen_singleton (by decide) (by decide)
    have h := (hopen.append hquoted).append hclose
    simpa [Place.bracketed] using h

theorem Accessor.seen (a : Accessor) : Seen a.chars := by
  obtain ⟨optional, place⟩ := a
  have hdot : Seen ['.'] := seen_singleton (by decide) (by decide)
  have hmark : Seen ['?'] := seen_singleton (by decide) (by decide)
  cases optional with
  | true => exact (hmark.append hdot).append place.seen
  | false =>
    cases place with
    | member n => exact hdot.append n.seen
    | index i => exact Place.seen (.index i)
    | key k => exact Place.seen (.key k)

/-- No reference holds the end of a tag. -/
theorem Path.seen (p : Path) : Seen p.chars := by
  have hway : ∀ accessors : List Accessor, Seen (accessors.flatMap Accessor.chars) := by
    intro accessors
    induction accessors with
    | nil => exact seen_of_plain (by simp)
    | cons a accessors ih => exact a.seen.append ih
  have hsigil : Seen [sigil] := seen_singleton (by decide) (by decide)
  exact hsigil.append (p.name.seen.append (hway p.accessors))

/-! ## the longest path -/

/-- The text does not go on with a name. -/
def EndsName (rest : List Char) : Prop := ∀ c ∈ rest.head?, isNamePart c = false

theorem takeWhile_append_eq {f : Char → Bool} {s rest : List Char} (hs : ∀ c ∈ s, f c = true)
    (hrest : ∀ c ∈ rest.head?, f c = false) : (s ++ rest).takeWhile f = s := by
  rw [List.takeWhile_append_of_pos hs]
  cases rest with
  | nil => simp
  | cons c rest => simp [hrest c rfl]

theorem Name.nameLength_eq (n : Name) {rest : List Char} (h : EndsName rest) :
    nameLength (n.chars ++ rest) = n.chars.length := by
  rw [Name.chars, List.cons_append, nameLength, if_pos n.isNameStart_first, takeWhile_append_eq n.isNamePart_rest h,
    List.length_cons]

theorem Name.length_chars_ne_zero (n : Name) : n.chars.length ≠ 0 := by simp [Name.chars]

theorem quotedLength?_key {quote : Char} (hquote : isQuote quote = true) {cs : List KeyChar}
    (h : ∀ c ∈ cs, c.escaped = false → c.char ≠ quote ∧ c.char ≠ '\\' ∧ c.char.toNat ≠ 0) (rest : List Char) :
    quotedLength? quote (fun d => d.toNat = 0) (cs.flatMap KeyChar.spelled ++ quote :: rest) =
      some ((cs.flatMap KeyChar.spelled).length + 1) := by
  induction cs with
  | nil =>
    have hslash : quote ≠ '\\' := ne_of_class _ hquote (by decide)
    have hnul : quote.toNat ≠ 0 := by
      simp only [isQuote, Bool.or_eq_true, decide_eq_true_eq] at hquote
      rcases hquote with rfl | rfl <;> decide
    rw [List.flatMap_nil, List.nil_append, quotedLength?.eq_def]
    simp [hslash, hnul]
  | cons c cs ih =>
    have ih := ih fun d hd => h d (List.mem_cons_of_mem _ hd)
    rw [List.flatMap_cons, List.append_assoc, KeyChar.spelled]
    cases he : c.escaped with
    | true =>
      rw [if_pos rfl, List.cons_append, List.cons_append, List.nil_append, quotedLength?.eq_def]
      simp only [show ('\\'.toNat = 0) = False by decide, decide_false, Bool.false_eq_true, if_false, if_true]
      rw [ih]
      simp only [Option.map_some, List.cons_append, List.nil_append, List.length_cons]
    | false =>
      obtain ⟨hq, hb, hz⟩ := h c List.mem_cons_self he
      rw [if_neg (by simp), List.cons_append, List.nil_append, quotedLength?.eq_def]
      simp only [hq, hb, hz, decide_false, Bool.false_eq_true, if_false]
      rw [ih]
      simp only [Option.map_some, List.cons_append, List.nil_append, List.length_cons]

theorem Index.indexLength?_eq (i : Index) (rest : List Char) :
    indexLength? ('[' :: i.chars ++ ']' :: rest) = some (i.chars.length + 2) := by
  have htake : (i.rest ++ ']' :: rest).takeWhile Char.isDigit = i.rest :=
    takeWhile_append_eq i.isDigit_rest (by simp)
  rw [Index.chars, List.cons_append, List.cons_append, indexLength?]
  simp [i.isDigit_first, htake]

theorem Key.indexLength?_eq (k : Key) (rest : List Char) :
    indexLength? ('[' :: k.quote :: k.inner ++ k.quote :: ']' :: rest) = some (k.inner.length + 4) := by
  have hdigit : k.quote.isDigit = false := by
    have hquote := k.isQuote_quote
    simp only [isQuote, Bool.or_eq_true, decide_eq_true_eq] at hquote
    rcases hquote with h | h <;> rw [h] <;> decide
  have hquoted := quotedLength?_key k.isQuote_quote k.plain (']' :: rest)
  rw [List.cons_append, List.cons_append, indexLength?, Key.inner]
  simp only [hdigit, k.isQuote_quote, Bool.false_eq_true, if_false, if_true, hquoted]
  simp

theorem Place.length_bracketed_index (i : Index) : (Place.index i).bracketed.length = i.chars.length + 2 := by
  simp [Place.bracketed]

theorem Place.length_bracketed_key (k : Key) : (Place.key k).bracketed.length = k.inner.length + 4 := by
  simp [Place.bracketed]

/-- A step is taken as a whole, if its name does not go on. -/
theorem Accessor.accessorLength?_eq (a : Accessor) {rest : List Char}
    (h : ∀ n, a.place = .member n → EndsName rest) :
    accessorLength? (a.chars ++ rest) = some a.chars.length := by
  have hindex : ∀ i : Index, indexLength? ((Place.index i).bracketed ++ rest) = some (Place.index i).bracketed.length := by
    intro i
    rw [Place.length_bracketed_index]
    simpa [Place.bracketed] using i.indexLength?_eq rest
  have hkey : ∀ k : Key, indexLength? ((Place.key k).bracketed ++ rest) = some (Place.key k).bracketed.length := by
    intro k
    rw [Place.length_bracketed_key]
    simpa [Place.bracketed] using k.indexLength?_eq rest
  -- a bracket is not the start of a name
  have hname : ∀ s : List Char, nameLength ('[' :: s) = 0 := fun s => rfl
  obtain ⟨optional, place⟩ := a
  cases optional with
  | true =>
    rw [Accessor.chars, List.cons_append, List.cons_append, accessorLength?]
    cases place with
    | member n =>
      rw [Place.bracketed, n.nameLength_eq (h n rfl), if_neg n.length_chars_ne_zero]
      rfl
    | index i =>
      rw [hindex i]
      simp only [Place.bracketed, List.cons_append, hname, if_true, Option.map_some, List.length_cons]
    | key k =>
      rw [hkey k]
      simp only [Place.bracketed, List.cons_append, hname, if_true, Option.map_some, List.length_cons]
  | false =>
    cases place with
    | member n =>
      rw [Accessor.chars, List.cons_append, accessorLength?, n.nameLength_eq (h n rfl), if_neg n.length_chars_ne_zero]
      rfl
    | index i => exact hindex i
    | key k => exact hkey k

theorem Accessor.chars_ne_nil (a : Accessor) : a.chars ≠ [] := by
  obtain ⟨optional, place⟩ := a
  cases optional <;> cases place <;> simp [Accessor.chars, Place.bracketed]

/-- A step does not start like the continuation of a name. -/
theorem Accessor.endsName (a : Accessor) (rest : List Char) : EndsName (a.chars ++ rest) := by
  obtain ⟨optional, place⟩ := a
  intro c hc
  cases optional with
  | true =>
    cases hc
    decide
  | false =>
    cases place with
    | member n =>
      cases hc
      decide
    | index i =>
      cases hc
      decide
    | key k =>
      cases hc
      decide

theorem endsName_way (accessors : List Accessor) {rest : List Char} (h : EndsName rest) :
    EndsName (accessors.flatMap Accessor.chars ++ rest) := by
  cases accessors with
  | nil => exact h
  | cons a accessors =>
    rw [List.flatMap_cons, List.append_assoc]
    exact a.endsName _

theorem accessorsLength_append {s rest : List Char} (hs : s ≠ []) (h : accessorLength? (s ++ rest) = some s.length) :
    accessorsLength (s ++ rest) = s.length + accessorsLength rest := by
  obtain ⟨c, s, rfl⟩ := List.exists_cons_of_ne_nil hs
  rw [List.cons_append, List.length_cons] at h
  rw [List.cons_append, accessorsLength, h, List.length_cons]
  simp only [List.drop_left]

theorem accessorsLength_way (accessors : List Accessor) {rest : List Char} (hname : EndsName rest)
    (hrest : accessorsLength rest = 0) :
    accessorsLength (accessors.flatMap Accessor.chars ++ rest) = (accessors.flatMap Accessor.chars).length := by
  induction accessors with
  | nil => exact hrest
  | cons a accessors ih =>
    rw [List.flatMap_cons, List.append_assoc, accessorsLength_append a.chars_ne_nil
      (a.accessorLength?_eq fun _ _ => endsName_way accessors hname), ih, List.length_append]

/-- The longest path behind the sigil is the whole reference. -/
theorem Path.pathLength_eq (p : Path) {rest : List Char} (hname : EndsName rest) (hrest : accessorsLength rest = 0) :
    pathLength (p.name.chars ++ p.wayChars ++ rest) = (p.name.chars ++ p.wayChars).length := by
  have hn : nameLength (p.name.chars ++ (p.wayChars ++ rest)) = p.name.chars.length :=
    p.name.nameLength_eq (endsName_way p.accessors hname)
  rw [List.append_assoc, pathLength, hn, if_neg p.name.length_chars_ne_zero, List.drop_left, Path.wayChars,
    accessorsLength_way p.accessors hname hrest, List.length_append]

/-! ## a reference in a tag -/

/-- The template that puts out a reference. -/
def Path.template (p : Path) : String := "\x7b\x7b " ++ p.text ++ " \x7d\x7d"

theorem Path.scan_eq (p : Path) : ∃ start stop,
    scanFrom 0 (' ' :: p.chars ++ [' ']) = ⟨[⟨start, stop, .variable, p.text⟩], none⟩ := by
  have hn : pathLength (p.name.chars ++ p.wayChars ++ [' ']) = (p.name.chars ++ p.wayChars).length :=
    p.pathLength_eq (by simp [EndsName]; decide) (by simp [accessorsLength, accessorLength?, indexLength?])
  have hend : ∀ pos, scanFrom pos [' '] = ⟨[], none⟩ := by
    intro pos
    rw [scanFrom, if_pos (by decide), scanFrom]
  refine ⟨1, 1 + 1 + width (p.name.chars ++ p.wayChars), ?_⟩
  rw [List.cons_append, scanFrom, if_pos (by decide), Path.chars, List.cons_append, scanFrom, if_neg (by decide),
    if_pos (by decide)]
  simp only [hn, List.take_left, List.drop_left, opensIndex, hend, Scan.cons]
  rfl

theorem Path.extract_template (p : Path) : extract p.template = ⟨[p.text], none⟩ := by
  have hchars : p.template.toList = '\x7b' :: '\x7b' :: (' ' :: p.chars ++ [' ', '\x7d', '\x7d']) := by
    simp [Path.template, Path.text]
  have hlength : codeLength? '\x7d' none (' ' :: p.chars ++ [' ', '\x7d', '\x7d']) =
      some (' ' :: p.chars ++ [' ']).length := by
    have hblank : Seen [' '] := seen_singleton (by decide) (by decide)
    have h := ((hblank.append p.seen).append hblank) ['\x7d', '\x7d']
    simpa [codeLength?, isQuote] using h
  have hfound : nextTag? 0 ('\x7b' :: '\x7b' :: (' ' :: p.chars ++ [' ', '\x7d', '\x7d'])) =
      some (.ofOpener .output 0 (' ' :: p.chars ++ [' ', '\x7d', '\x7d'])) := rfl
  have htag : Found.ofOpener .output 0 (' ' :: p.chars ++ [' ', '\x7d', '\x7d']) =
      ⟨⟨.output, 0, 0 + 2 + width (' ' :: p.chars ++ [' ']) + 2, String.ofList (' ' :: p.chars ++ [' ']), true⟩, []⟩ := by
    have htext : ' ' :: p.chars ++ [' ', '\x7d', '\x7d'] = (' ' :: p.chars ++ [' ']) ++ ['\x7d', '\x7d'] := by simp
    have hcontent : TagKind.output.contentLength? (' ' :: p.chars ++ [' ', '\x7d', '\x7d']) =
        some (' ' :: p.chars ++ [' ']).length := hlength
    rw [Found.ofOpener, hcontent]
    simp only [htext, List.take_left, List.drop_append]
    simp
  obtain ⟨start, stop, hscan⟩ := p.scan_eq
  rw [htag] at hfound
  have hcode : Scan.ofCode (String.ofList (' ' :: p.chars ++ [' '])) = ⟨[⟨start, stop, .variable, p.text⟩], none⟩ := by
    rw [Scan.ofCode, String.toList_ofList, hscan]
  rw [extract, hchars, extractFrom_of_output hfound rfl rfl (by rw [hcode]), extractFrom_of_none (by rfl), hcode]
  rfl

/-! ## the same meaning -/

/-- **A reference and a template that puts it out mean the same.**  The reference is split into the segments it was
written for, the template mentions it and nothing else, and both are reported in just the same scopes: where the
segments lead to nothing known. -/
theorem Path.template_agrees (p : Path) :
    Reference.segments p.text = p.segments ∧ extract p.template = ⟨[p.text], none⟩ ∧
    ∀ (checkTemplates : Bool) (kind : TemplateKind) (position : Position) (scope : Scope),
      (((Expression.reference p.text).annotations checkTemplates position scope ≠ []) ↔
        scope.lookup p.segments = none) ∧
      (((Expression.template kind p.template).annotations true position scope ≠ []) ↔
        scope.lookup p.segments = none) := by
  have htrim : Text.trim p.text = p.text := by
    rw [Text.trim, Path.text, String.toList_ofList, p.trimChars_chars]
  have hdefines : ∀ scope : Scope, scope.defines p.text = (scope.lookup p.segments).isSome := fun scope => by
    rw [Scope.defines, Scope.existence?, p.segments_text]
  refine ⟨p.segments_text, p.extract_template, fun checkTemplates kind position scope => ⟨?_, ?_⟩⟩
  · simp [Expression.annotations, Expression.references, htrim, hdefines]
  · simp [Expression.annotations, Expression.references, p.extract_template, htrim, hdefines]

/-- A key may have in it what would else end the key, the reference or the template. -/
example :
    let p : Path := ⟨⟨'a', [], by decide, by simp⟩, [⟨true, .key (.quoting '\'' (by decide) "it's ]\x7d\x7d")⟩]⟩
    p.text = "@a?.['it\\'s ]\x7d\x7d']" ∧ p.segments = ["@a", "it's ]\x7d\x7d"] := by decide

end Reference

end BrickScope
