import BrickScope.Proofs.Template.Composition

/-!
# Comments and raw blocks are opaque

Three searches find the ends of literal text: the one for the closer of a comment, the one for the closer of the tag that
opens a raw block, and the one for the statement that ends the block.  Each starts where the one before has ended, and
none is misled by what the literal text holds.  So the scan takes a comment or a raw block in one move that mentions
nothing.

* `plainLength?_body`, `rawLength?_body`: the end of literal text is its first closer;
* `Skips`: text that is taken in one move, `skips_comment`, `skips_rawBlock`;
* `extract_insert`: such a text between two templates;
* `literals_opaque`: comments and raw blocks of every content.
-/

namespace BrickScope.Template

open Text

/-! ## the end of literal text -/

/-- A text without the closer of a comment is passed over, whatever else is in it. -/
theorem plainLength?_body {mark : Char} (hmark : mark ≠ '\x7d') {b : List Char} (hb : ¬[mark, '\x7d'] <:+: b)
    (q : List Char) : plainLength? mark (b ++ mark :: '\x7d' :: q) = some b.length := by
  induction b with
  | nil => simp [plainLength?]
  | cons c b ih =>
    have htail : ¬[mark, '\x7d'] <:+: b := fun h => hb (h.trans (List.suffix_cons c b).isInfix)
    have hearly : ¬(c = mark && (b ++ mark :: '\x7d' :: q).head? = some '\x7d') = true := by
      simp only [Bool.and_eq_true, decide_eq_true_eq]
      rintro ⟨rfl, hhead⟩
      cases b with
      | nil => exact hmark (Option.some.inj hhead)
      | cons d b =>
        obtain rfl : d = '\x7d' := Option.some.inj hhead
        exact hb ⟨[], b, rfl⟩
    rw [List.cons_append, plainLength?, if_neg hearly, ih htail]
    rfl

section

variable {name : String} {m : List Char}

theorem IsRawEnd.exists_cons (hm : IsRawEnd name m) : ∃ m', m = '\x7b' :: m' := by
  obtain ⟨dash, blanks, blanks', dash', -, -, -, -, rfl⟩ := hm
  exact ⟨_, rfl⟩

/-- No statement that ends the block starts in a body without one and reaches into the end of the block: it would have a
brace behind its first character. -/
theorem afterRawEnd?_body (hname : '\x7b' ∉ name.toList) (hm : IsRawEnd name m) {c : Char} {b : List Char}
    (hb : ∀ m', IsRawEnd name m' → ¬m' <:+: c :: b) (q : List Char) :
    afterRawEnd? name (c :: (b ++ (m ++ q))) = none := by
  by_contra hne
  obtain ⟨rest, hrest⟩ := Option.ne_none_iff_exists'.1 hne
  obtain ⟨m', hm', hs⟩ := afterRawEnd?_eq_some_iff.1 hrest
  obtain ⟨e, rfl⟩ := hm.exists_cons
  rw [← List.cons_append] at hs
  rcases List.append_eq_append_iff.1 hs with ⟨t, ht, htail⟩ | ⟨t, ht, -⟩
  · cases t with
    | nil =>
      refine hb m' hm' ?_
      rw [ht, List.append_nil]
    | cons d t =>
      obtain ⟨rfl, -⟩ := List.cons.inj htail
      refine hm'.not_mem_tail hname ?_
      rw [ht, List.cons_append, List.tail_cons]
      simp
  · exact hb m' hm' ⟨[], t, by rw [List.nil_append, ht]⟩

/-- A raw block ends at the first statement that ends it. -/
theorem rawLength?_body (hname : '\x7b' ∉ name.toList) (hm : IsRawEnd name m) {b : List Char}
    (hb : ∀ m', IsRawEnd name m' → ¬m' <:+: b) (q : List Char) :
    rawLength? name (b ++ (m ++ q)) = some (b.length + m.length) := by
  induction b with
  | nil =>
    have hend : afterRawEnd? name (m ++ q) = some q := afterRawEnd?_eq_some_iff.2 ⟨m, hm, rfl⟩
    obtain ⟨e, rfl⟩ := hm.exists_cons
    rw [List.cons_append] at hend
    rw [List.nil_append, List.cons_append, rawLength?, hend]
    simp only [List.length_append, List.length_cons, List.length_nil, Option.some.injEq]
    omega
  | cons c b ih =>
    have htail : ∀ m', IsRawEnd name m' → ¬m' <:+: b := fun m' hm' h =>
      hb m' hm' (h.trans (List.suffix_cons c b).isInfix)
    rw [List.cons_append, rawLength?, afterRawEnd?_body hname hm hb, ih htail]
    simp only [Option.map_some, List.length_cons, Option.some.injEq]
    omega

/-- The search for the end of a block fails only where there is none. -/
theorem not_infix_of_rawLength? {b : List Char} (h : rawLength? name b = none) (hm : IsRawEnd name m) :
    ¬m <:+: b := by
  rintro ⟨s, t, rfl⟩
  induction s with
  | nil =>
    have hend : afterRawEnd? name (m ++ t) = some t := afterRawEnd?_eq_some_iff.2 ⟨m, hm, rfl⟩
    obtain ⟨e, rfl⟩ := hm.exists_cons
    rw [List.cons_append] at hend
    rw [List.nil_append, List.cons_append, rawLength?, hend] at h
    cases h
  | cons c s ih =>
    rw [List.cons_append, List.cons_append, rawLength?] at h
    split at h
    · cases h
    · exact ih (Option.map_eq_none_iff.1 h)

end

/-! ## texts that are taken in one move -/

/-- The scan takes the text in one move that mentions nothing, whatever is behind it. -/
def Skips (l : List Char) : Prop := ∀ pos q, firstMove pos (l ++ q) = .reads [] (pos + width l) q

theorem Skips.read_append {l : List Char} (hl : Skips l) (pos : Nat) (q : List Char) :
    read pos (l ++ q) = read (pos + width l) q := by
  rw [read_eq, hl pos q]
  rfl

theorem skips_comment {b : List Char} (hb : ¬['#', '\x7d'] <:+: b) :
    Skips ('\x7b' :: '#' :: (b ++ ['#', '\x7d'])) := by
  intro pos q
  have hlength := plainLength?_body (by decide) hb q
  have hfound : nextTag? pos ('\x7b' :: '#' :: (b ++ '#' :: '\x7d' :: q)) =
      some ⟨⟨.comment, pos, pos + 2 + width b + 2, String.ofList b, true⟩, q⟩ := by
    simp [nextTag?, TagKind.ofMark?, Found.ofOpener, TagKind.contentLength?, TagKind.closer, hlength]
  have hwidth : width ('\x7b' :: '#' :: (b ++ ['#', '\x7d'])) = 2 + width b + 2 := by
    have hhash : '#'.utf8Size = 1 := rfl
    have hclose : '\x7d'.utf8Size = 1 := rfl
    simp only [width_cons, width_append, width_nil, utf8Size_brace, hhash, hclose]
    omega
  have happend : '\x7b' :: '#' :: (b ++ ['#', '\x7d']) ++ q = '\x7b' :: '#' :: (b ++ '#' :: '\x7d' :: q) := by simp
  rw [firstMove, happend, hfound, hwidth, ← Nat.add_assoc, ← Nat.add_assoc]
  rfl

/-- The statement that opens a raw block. -/
def rawOpener (name : String) : String := "\x7b% " ++ name ++ " %\x7d"

/-- The statement that ends a raw block. -/
def rawEnd (name : String) : String := "\x7b% end" ++ name ++ " %\x7d"

theorem isRawEnd_rawEnd (name : String) : IsRawEnd name (rawEnd name).toList := by
  refine ⟨[], [' '], [' '], [], .inl rfl, ?_, ?_, .inl rfl, ?_⟩
  · intro c hc
    rw [List.mem_singleton.1 hc]
    decide
  · intro c hc
    rw [List.mem_singleton.1 hc]
    decide
  · simp [rawEnd, String.toList_append]

/-- The opening statement is a tag of its own, and opens the block. -/
theorem exists_rawTag {name : String} (hname : name ∈ rawNames) (pos : Nat) :
    ∃ tag : Tag, tag.kind = .statement ∧ tag.stop = pos + width (rawOpener name).toList ∧
      rawName? tag (Scan.ofCode tag.content) = some name ∧
      ∀ q, nextTag? pos ((rawOpener name).toList ++ q) = some ⟨tag, q⟩ := by
  have hnames : name = "raw" ∨ name = "verbatim" := by simpa [rawNames] using hname
  rcases hnames with rfl | rfl
  · have hfirst : (Scan.ofCode " raw ").tokens.head? = some ⟨1, 4, .identifier, "raw"⟩ := by decide +kernel
    refine ⟨⟨.statement, pos, pos + 9, " raw ", true⟩, rfl, rfl, ?_, fun q => rfl⟩
    simp [rawName?, hfirst, rawNames]
  · have hfirst : (Scan.ofCode " verbatim ").tokens.head? = some ⟨1, 9, .identifier, "verbatim"⟩ := by decide +kernel
    refine ⟨⟨.statement, pos, pos + 14, " verbatim ", true⟩, rfl, rfl, ?_, fun q => rfl⟩
    simp [rawName?, hfirst, rawNames]

theorem skips_rawBlock {name : String} (hname : name ∈ rawNames) {b m : List Char}
    (hb : ∀ m', IsRawEnd name m' → ¬m' <:+: b) (hm : IsRawEnd name m) :
    Skips ((rawOpener name).toList ++ (b ++ m)) := by
  intro pos q
  obtain ⟨tag, hkind, hstop, hraw, hfound⟩ := exists_rawTag hname pos
  obtain ⟨-, hbrace⟩ := not_mem_rawName hraw
  have hlength : rawLength? name (b ++ (m ++ q)) = some (b ++ m).length := by
    rw [rawLength?_body hbrace hm hb q, List.length_append]
  have hmove : (⟨tag, b ++ (m ++ q)⟩ : Found).move = .reads [] (tag.stop + width (b ++ m)) q := by
    have htext : b ++ (m ++ q) = (b ++ m) ++ q := by rw [List.append_assoc]
    rw [Found.move, if_neg (by rw [hkind]; decide), hraw, Option.elim_some, Found.rawMove, hlength, Option.elim_some, htext,
      List.take_left, List.drop_left]
  rw [firstMove, List.append_assoc, List.append_assoc, hfound, Option.map_some, Option.getD_some, hmove, hstop,
    width_append (rawOpener name).toList, ← Nat.add_assoc]

/-! ## literal text between two templates -/

theorem ending_eq_finished {p : String} (hstop : (extract p).stop = none) (hraw : leavesRawOpen p = false) :
    (read 0 p.toList).ending = .finished := by
  rw [extract_eq] at hstop
  rw [leavesRawOpen, decide_eq_false_iff_not] at hraw
  cases he : (read 0 p.toList).ending with
  | finished => rfl
  | stopped stop =>
    rw [he] at hstop
    cases hstop
  | rawOpen => exact absurd he hraw

/-- Text that is skipped changes nothing but the offset of what is behind it. -/
theorem extract_insert {p l : String} (hstop : (extract p).stop = none) (hraw : leavesRawOpen p = false)
    (hbrace : p.toList.getLast? ≠ some '\x7b') (hl : Skips l.toList) (q : String) :
    (extract (p ++ l ++ q)).references = (extract (p ++ q)).references ∧
    (extract (p ++ l ++ q)).stop = (extract (p ++ q)).stop.map (Stop.shift l.utf8ByteSize) := by
  have hend := ending_eq_finished hstop hraw
  have hplain := read_append hend hbrace q.toList
  have hinserted := read_append hend hbrace (l.toList ++ q.toList)
  rw [hl.read_append, read_shift _ (width l.toList)] at hinserted
  have htext : (p ++ l ++ q).toList = p.toList ++ (l.toList ++ q.toList) := by simp [String.toList_append]
  rw [extract_eq, extract_eq, mentions, mentions, htext, String.toList_append, hplain, hinserted, width_toList l]
  refine ⟨rfl, ?_⟩
  cases (read (0 + width p.toList) q.toList).ending <;> rfl

def comment (b : String) : String := "\x7b#" ++ b ++ "#\x7d"

def rawBlock (name b : String) : String := rawOpener name ++ b ++ rawEnd name

/-- **Literal text is opaque.**  Between a template whose scan runs to its end and any other, a comment whose body has no
closer changes nothing but offsets, and so does a raw block whose body has no statement that ends this block: neither a
reference nor what is left open behind it is gained or lost. -/
theorem literals_opaque (p q : String) (hstop : (extract p).stop = none) (hraw : leavesRawOpen p = false)
    (hbrace : p.toList.getLast? ≠ some '\x7b') :
    (∀ b : String, ¬['#', '\x7d'] <:+: b.toList →
      (extract (p ++ comment b ++ q)).references = (extract (p ++ q)).references ∧
      (extract (p ++ comment b ++ q)).stop = (extract (p ++ q)).stop.map (Stop.shift (comment b).utf8ByteSize)) ∧
    ∀ name ∈ rawNames, ∀ b : String, (∀ m, IsRawEnd name m → ¬m <:+: b.toList) →
      (extract (p ++ rawBlock name b ++ q)).references = (extract (p ++ q)).references ∧
      (extract (p ++ rawBlock name b ++ q)).stop =
        (extract (p ++ q)).stop.map (Stop.shift (rawBlock name b).utf8ByteSize) := by
  constructor
  · intro b hb
    have htext : (comment b).toList = '\x7b' :: '#' :: (b.toList ++ ['#', '\x7d']) := by
      simp [comment, String.toList_append]
    refine extract_insert hstop hraw hbrace ?_ q
    rw [htext]
    exact skips_comment hb
  · intro name hname b hb
    have htext : (rawBlock name b).toList = (rawOpener name).toList ++ (b.toList ++ (rawEnd name).toList) := by
      simp [rawBlock, String.toList_append]
    refine extract_insert hstop hraw hbrace ?_ q
    rw [htext]
    exact skips_rawBlock hname hb (isRawEnd_rawEnd name)

/-- An output, an open quote, half a closer, another comment's opener and a closing brace. -/
def scribble : String := "\x7d \x7b\x7b @x 'it # \x7b# \x7b% raw %\x7d #"

/-- The same with the end of a block of the other kind. -/
def otherBlock : String := "\x7b% endraw %\x7d\x7b\x7b \"@y \x7b%- endverbatim \x7d\x7d"

/-- What the bodies hold is neither read nor in the way of the open index at the end. -/
theorem literals_opaque_scribble :
    (extract framed).stop = none ∧ leavesRawOpen framed = false ∧ framed.toList.getLast? ≠ some '\x7b' ∧
    ¬['#', '\x7d'] <:+: scribble.toList ∧
    (extract (framed ++ comment scribble ++ openTail)).references = ["@a", "@b", "@c"] ∧
    "verbatim" ∈ rawNames ∧ (∀ m, IsRawEnd "verbatim" m → ¬m <:+: otherBlock.toList) ∧
    (extract (framed ++ rawBlock "verbatim" otherBlock ++ openTail)).references = ["@a", "@b", "@c"] ∧
    (extract (framed ++ rawBlock "verbatim" otherBlock ++ openTail)).stop.isSome = true := by
  have hstop : (extract framed).stop = none := by decide +kernel
  have hraw : leavesRawOpen framed = false := by decide +kernel
  have hbrace : framed.toList.getLast? ≠ some '\x7b' := by decide +kernel
  have hplain : (extract (framed ++ openTail)).references = ["@a", "@b", "@c"] := by decide +kernel
  have hopen : (extract (framed ++ openTail)).stop.isSome = true := by decide +kernel
  have hscribble : ¬['#', '\x7d'] <:+: scribble.toList := by decide +kernel
  have hother : rawLength? "verbatim" otherBlock.toList = none := by decide +kernel
  have hends : ∀ m, IsRawEnd "verbatim" m → ¬m <:+: otherBlock.toList := fun m hm => not_infix_of_rawLength? hother hm
  obtain ⟨hcomment, hblock⟩ := literals_opaque framed openTail hstop hraw hbrace
  obtain ⟨hreferences, -⟩ := hcomment scribble hscribble
  obtain ⟨hreferences', hstop'⟩ := hblock "verbatim" (by decide) otherBlock hends
  refine ⟨hstop, hraw, hbrace, hscribble, hreferences.trans hplain, by decide, hends, hreferences'.trans hplain, ?_⟩
  rw [hstop', Option.isSome_map, hopen]

end BrickScope.Template
