import BrickScope.Proofs.Template.Layout
import BrickScope.Proofs.Template.Literals
import BrickScope.Proofs.Template.Quoting

/-!
# A template is its tags and the text around them

Splitting a template into tags loses nothing: the tags with their delimiters and the texts between them, one behind the
other, are the template.  Every tag opens as early as possible and ends as early as possible.

* `HasOpener`, `nextTag?_eq_none_iff`, `exists_nextTag?_le`: a tag is found at the first opener;
* `Tag.spelled`, `Tag.EndsFirst`: a tag with its delimiters, and where it ends;
* `layout_splitTags`: the layout of a template;
* `Tag.splitFrom`, `Tag.splitFrom_eq`: the tags, found one after the other from offset to offset;
* `Tag.split_lossless`: all of it for a template.
-/

namespace BrickScope.Template

open Text

/-! ## openers -/

/-- The character behind the opening brace. -/
def TagKind.mark : TagKind → Char
  | output => '\x7b'
  | statement => '%'
  | comment => '#'

theorem TagKind.ofMark?_eq_some_iff {c : Char} {kind : TagKind} : ofMark? c = some kind ↔ c = kind.mark := by
  unfold ofMark?
  constructor
  · intro h
    split_ifs at h with h₁ h₂ h₃ <;> obtain rfl := Option.some.inj h
    · exact h₁
    · exact h₂
    · exact h₃
  · rintro rfl
    cases kind <;> decide

/-- Some tag opens in the text: a brace stands before another brace, a percent sign or a hash. -/
def HasOpener (s : List Char) : Prop :=
  ∃ (before after : List Char) (kind : TagKind), s = before ++ '\x7b' :: kind.mark :: after

/-- No tag opens in the text, even with `rest` behind it. -/
def OpensNone (s rest : List Char) : Prop :=
  ∀ before after (kind : TagKind), s ++ rest = before ++ '\x7b' :: kind.mark :: after → s.length ≤ before.length

theorem Found.start_ofOpener (kind : TagKind) (start : Nat) (s : List Char) :
    (Found.ofOpener kind start s).tag.start = start := by
  unfold Found.ofOpener
  split <;> rfl

theorem nextTag?_brace (pos : Nat) (kind : TagKind) (s : List Char) :
    nextTag? pos ('\x7b' :: kind.mark :: s) = some (.ofOpener kind pos s) := by
  rw [nextTag?, if_pos rfl]
  simp only [TagKind.ofMark?_eq_some_iff.2 rfl]

/-- A tag is found at an opener, or before it. -/
theorem exists_nextTag?_le (before after : List Char) (kind : TagKind) (pos : Nat) :
    ∃ f, nextTag? pos (before ++ '\x7b' :: kind.mark :: after) = some f ∧ f.tag.start ≤ pos + width before := by
  induction before generalizing pos with
  | nil => exact ⟨_, nextTag?_brace pos kind after, by rw [Found.start_ofOpener]; exact Nat.le_add_right _ _⟩
  | cons c before ih =>
    rw [List.cons_append, nextTag?.eq_def]
    by_cases hc : c = '\x7b'
    · subst hc
      obtain ⟨d, s, hs⟩ : ∃ d s, before ++ '\x7b' :: kind.mark :: after = d :: s :=
        List.exists_cons_of_ne_nil (by simp)
      obtain ⟨f, hf, hle⟩ := ih (pos + 1)
      simp only [if_true, hs] at hf ⊢
      cases hd : TagKind.ofMark? d with
      | some kind' => exact ⟨_, rfl, by rw [Found.start_ofOpener]; exact Nat.le_add_right _ _⟩
      | none =>
        refine ⟨f, hf, ?_⟩
        rw [width_cons, utf8Size_brace]
        omega
    · obtain ⟨f, hf, hle⟩ := ih (pos + c.utf8Size)
      simp only [hc, if_false]
      refine ⟨f, hf, ?_⟩
      rw [width_cons]
      omega

/-- No tag is found exactly if none opens. -/
theorem nextTag?_eq_none_iff {pos : Nat} {s : List Char} : nextTag? pos s = none ↔ ¬HasOpener s := by
  constructor
  · rintro h ⟨before, after, kind, rfl⟩
    obtain ⟨f, hf, -⟩ := exists_nextTag?_le before after kind pos
    rw [h] at hf
    cases hf
  · intro h
    rw [Option.eq_none_iff_forall_ne_some]
    intro f hf
    obtain ⟨before, mark, text, kind, rfl, hmark, -⟩ := nextTag?_opener hf
    exact h ⟨before, text, kind, by rw [TagKind.ofMark?_eq_some_iff.1 hmark]⟩

/-- The text before the first tag. -/
theorem opensNone_of_nextTag? {pos : Nat} {before rest : List Char} {f : Found}
    (h : nextTag? pos (before ++ rest) = some f) (hstart : f.tag.start = pos + width before) :
    OpensNone before rest := by
  intro before' after kind hs
  obtain ⟨f', hf', hle⟩ := exists_nextTag?_le before' after kind pos
  rw [← hs, h] at hf'
  obtain rfl := Option.some.inj hf'
  -- the opener is not before the one at which the tag was found
  by_contra hlt
  rcases List.append_eq_append_iff.1 hs with ⟨t, rfl, -⟩ | ⟨t, rfl, -⟩
  · simp at hlt
  · have ht : t ≠ [] := fun ht => by simp [ht] at hlt
    have := width_pos ht
    rw [width_append] at hstart
    omega

/-! ## the layout of a template -/

namespace Tag

/-- A tag with its delimiters; if it is not terminated, it has no closer. -/
def spelled (tag : Tag) : List Char :=
  '\x7b' :: tag.kind.mark :: (tag.content.toList ++ if tag.terminated then [tag.kind.closer, '\x7d'] else [])

/-- A tag ends at the first closer that counts: the one behind the content does, if there is one, and none in the
content does, nor one of which the first character is in the content. -/
structure EndsFirst (tag : Tag) : Prop where
  counts : tag.terminated = true → tag.kind.Counts tag.content.toList
  first : ∀ before after, tag.content.toList ++ (if tag.terminated then [tag.kind.closer] else []) =
    before ++ tag.kind.closer :: '\x7d' :: after → ¬tag.kind.Counts before

/-- Tags in a template: around them, no tag opens. -/
def pieces : Pieces Tag where
  start := Tag.start
  stop := Tag.stop
  Spells tag lexeme := lexeme = tag.spelled ∧ tag.EndsFirst
  IsGap := OpensNone

end Tag

/-- A tag that has no end, or one that ends at the first closer that counts. -/
theorem ofOpener_cases (kind : TagKind) (start : Nat) (s : List Char) :
    (kind.contentLength? s = none ∧
      Found.ofOpener kind start s = ⟨⟨kind, start, start + 2 + width s, String.ofList s, false⟩, []⟩) ∨
    ∃ content rest, s = content ++ kind.closer :: '\x7d' :: rest ∧ kind.contentLength? s = some content.length ∧
      Found.ofOpener kind start s =
        ⟨⟨kind, start, start + 2 + width content + 2, String.ofList content, true⟩, rest⟩ := by
  cases hn : kind.contentLength? s with
  | none =>
    refine .inl ⟨rfl, ?_⟩
    rw [Found.ofOpener, hn]
  | some n =>
    obtain ⟨content, rest, rfl, rfl, -⟩ := kind.contentLength?_eq_some hn
    refine .inr ⟨content, rest, rfl, rfl, ?_⟩
    simp [Found.ofOpener, hn]

theorem spells_ofOpener (kind : TagKind) (start : Nat) (s : List Char) :
    ∃ lexeme, Tag.pieces.Spells (Found.ofOpener kind start s).tag lexeme ∧
      '\x7b' :: kind.mark :: s = lexeme ++ (Found.ofOpener kind start s).rest ∧
      (Found.ofOpener kind start s).tag.stop = start + width lexeme := by
  have hmark : kind.mark.utf8Size = 1 := by cases kind <;> rfl
  have hclosing : '\x7d'.utf8Size = 1 := rfl
  rcases ofOpener_cases kind start s with ⟨hn, hf⟩ | ⟨content, rest, hs, hn, hf⟩
  · rw [hf]
    refine ⟨_, ⟨rfl, fun hend => (by cases hend), fun before after hcontent => ?_⟩, by simp [Tag.spelled], ?_⟩
    · simp only [String.toList_ofList, Bool.false_eq_true, if_false, List.append_nil] at hcontent
      exact TagKind.contentLength?_eq_none_iff.1 hn before after hcontent
    · simp only [Tag.spelled, String.toList_ofList, Bool.false_eq_true, if_false, List.append_nil, width_cons,
        utf8Size_brace, hmark]
      omega
  · rw [hf]
    have hcounts := TagKind.counts_of_contentLength? hn
    rw [hs, List.take_left] at hcounts
    refine ⟨_, ⟨rfl, fun _ => ?_, fun before after hcontent hcounts => ?_⟩, by simp [Tag.spelled, hs], ?_⟩
    · simpa using hcounts
    · -- such a closer would have been found before the one that was
      simp only [String.toList_ofList, if_true] at hcontent
      obtain ⟨k, hk, hfirst⟩ := TagKind.exists_contentLength?_le hcounts (after ++ '\x7d' :: rest)
      have hwhole : before ++ kind.closer :: '\x7d' :: (after ++ '\x7d' :: rest) = s := by
        rw [hs, List.append_cons content, hcontent]
        simp
      rw [hwhole, hn] at hfirst
      obtain rfl := Option.some.inj hfirst
      have hlength := congrArg List.length hcontent
      simp only [List.length_append, List.length_cons, List.length_nil] at hlength
      omega
    · simp only [Tag.spelled, String.toList_ofList, if_true, width_cons, width_append, width_nil, utf8Size_brace, hmark,
        utf8Size_closer, hclosing]
      omega

theorem rest_ofOpener {kind : TagKind} {start : Nat} {s : List Char}
    (h : (Found.ofOpener kind start s).tag.terminated = false) : (Found.ofOpener kind start s).rest = [] := by
  rcases ofOpener_cases kind start s with ⟨-, hf⟩ | ⟨content, rest, -, -, hf⟩
  · rw [hf]
  · rw [hf] at h
    cases h

/-- One step of the splitting: the text up to the first tag, the tag, and the rest. -/
theorem nextTag?_piece {pos : Nat} {s : List Char} {f : Found} (h : nextTag? pos s = some f) :
    ∃ gap lexeme, s = gap ++ (lexeme ++ f.rest) ∧ OpensNone gap (lexeme ++ f.rest) ∧ Tag.pieces.Spells f.tag lexeme ∧
      f.tag.start = pos + width gap ∧ f.tag.stop = f.tag.start + width lexeme ∧
      (f.tag.terminated = false → f.rest = []) := by
  obtain ⟨gap, mark, text, kind, rfl, hmark, rfl, -⟩ := nextTag?_opener h
  obtain rfl := TagKind.ofMark?_eq_some_iff.1 hmark
  obtain ⟨lexeme, hspells, htext, hstop⟩ := spells_ofOpener kind (pos + width gap) text
  have hstart : (Found.ofOpener kind (pos + width gap) text).tag.start = pos + width gap := Found.start_ofOpener ..
  have hgap := opensNone_of_nextTag? h hstart
  rw [htext] at hgap ⊢
  exact ⟨gap, lexeme, rfl, hgap, hspells, hstart, by rw [hstop, hstart], rest_ofOpener⟩

theorem splitTags_of_none {pos : Nat} {s : List Char} (h : nextTag? pos s = none) : splitTags pos s = [] := by
  rw [splitTags]
  split
  · rfl
  · rename_i f hf
    rw [h] at hf
    cases hf

/-- Behind a tag that is not terminated there is nothing to split. -/
theorem splitTags_of_some {pos : Nat} {s : List Char} {f : Found} (h : nextTag? pos s = some f) :
    splitTags pos s = f.tag :: splitTags f.tag.stop f.rest := by
  rw [splitTags]
  split
  · rename_i hnone
    rw [h] at hnone
    cases hnone
  · rename_i f' hf'
    obtain rfl := Option.some.inj (h.symm.trans hf')
    split
    · rfl
    · rename_i hopen
      obtain ⟨-, -, -, -, -, -, -, hrest⟩ := nextTag?_piece h
      rw [hrest (by simpa using hopen), splitTags_of_none rfl]

/-- **The layout of a text.**  Its tags stand where their offsets say, and in the text around them no tag opens. -/
theorem layout_splitTags (pos : Nat) (s : List Char) : Layout Tag.pieces pos s (splitTags pos s) := by
  induction hlen : s.length using Nat.strong_induction_on generalizing pos s with
  | _ len ih =>
    cases hf : nextTag? pos s with
    | none =>
      rw [splitTags_of_none hf]
      refine .done fun before after kind hs => ?_
      rw [List.append_nil] at hs
      exact absurd ⟨before, after, kind, hs⟩ (nextTag?_eq_none_iff.1 hf)
    | some f =>
      have hlt := length_rest_lt hf
      rw [splitTags_of_some hf]
      obtain ⟨gap, lexeme, rfl, hgap, hspells, hstart, hstop, -⟩ := nextTag?_piece hf
      exact .piece hgap hspells hstart hstop (ih _ (hlen ▸ hlt) _ _ rfl)

/-- Only the last tag may not be terminated, and then it reaches to the end. -/
theorem last_of_unterminated (pos : Nat) (s : List Char) {before after : List Tag} {tag : Tag}
    (h : splitTags pos s = before ++ tag :: after) (hopen : tag.terminated = false) :
    after = [] ∧ tag.stop = pos + width s := by
  induction hlen : s.length using Nat.strong_induction_on generalizing pos s before with
  | _ len ih =>
    cases hf : nextTag? pos s with
    | none =>
      rw [splitTags_of_none hf] at h
      simp at h
    | some f =>
      have hlt := length_rest_lt hf
      rw [splitTags_of_some hf] at h
      obtain ⟨gap, lexeme, rfl, -, -, hstart, hstop, hrest⟩ := nextTag?_piece hf
      rcases List.cons_eq_append_iff.1 h with ⟨rfl, htag⟩ | ⟨before, rfl, htail⟩
      · obtain ⟨rfl, rfl⟩ := List.cons.inj htag
        rw [hrest hopen, splitTags_of_none rfl]
        simp only [List.append_nil, width_append, true_and]
        omega
      · obtain ⟨hafter, hend⟩ := ih _ (hlen ▸ hlt) _ _ htail rfl
        refine ⟨hafter, ?_⟩
        simp only [hend, width_append]
        omega

/-! ## from offset to offset -/

/-- The tags of a template from a byte offset on, each of them looked for from the end of the one before; `none` if more
than `limit` searches are needed. -/
def Tag.splitFrom (template : String) : (limit offset : Nat) → Option (List Tag)
  | 0, _ => none
  | limit + 1, offset =>
    (Tag.next? template offset).elim (some []) fun tag =>
      if tag.terminated then (Tag.splitFrom template limit tag.stop).map (tag :: ·) else some [tag]

theorem Tag.next?_of_toList {template : String} {front s : List Char} (hs : template.toList = front ++ s) :
    Tag.next? template (width front) = (nextTag? (width front) s).map Found.tag := by
  rw [Tag.next?, hs, dropBytes?_width]

/-- The search goes on from tag to tag and comes to an end, since behind every tag there is less text. -/
theorem Tag.splitFrom_eq {template : String} {limit : Nat} {front s : List Char} (hs : template.toList = front ++ s)
    (hlimit : s.length < limit) : Tag.splitFrom template limit (width front) = some (splitTags (width front) s) := by
  induction limit generalizing front s with
  | zero => omega
  | succ limit ih =>
    rw [Tag.splitFrom, Tag.next?_of_toList hs]
    cases hf : nextTag? (width front) s with
    | none =>
      rw [splitTags_of_none hf]
      rfl
    | some f =>
      have hlt := length_rest_lt hf
      rw [splitTags_of_some hf]
      obtain ⟨gap, lexeme, rfl, -, -, hstart, hstop, hrest⟩ := nextTag?_piece hf
      simp only [Option.map_some, Option.elim_some]
      by_cases hend : f.tag.terminated = true
      · have hwidth : f.tag.stop = width (front ++ (gap ++ lexeme)) := by
          simp only [width_append]
          omega
        have hfront : template.toList = front ++ (gap ++ lexeme) ++ f.rest := by simp [hs]
        rw [if_pos hend, hwidth, ih hfront (by omega)]
        rfl
      · rw [if_neg hend, hrest (by simpa using hend), splitTags_of_none rfl]

/-! ## the tags of a template -/

namespace Tag

theorem EndsFirst.comment {tag : Tag} (h : tag.EndsFirst) (hkind : tag.kind = .comment) :
    ¬['#', '\x7d'] <:+: tag.content.toList := by
  rintro ⟨before, after, hcontent⟩
  refine h.first before (after ++ if tag.terminated then [tag.kind.closer] else []) ?_ ?_
  · rw [← hcontent, hkind]
    simp [TagKind.closer]
  · rw [hkind]
    trivial

/-- In the content of a terminated output or statement, closers are inside quoted texts. -/
theorem EndsFirst.inQuotes {tag : Tag} (h : tag.EndsFirst) (hkind : tag.kind ≠ .comment) (hend : tag.terminated = true)
    {before after : List Char} (hcontent : tag.content.toList = before ++ ([tag.kind.closer, '\x7d'] ++ after)) :
    InQuotes before [tag.kind.closer, '\x7d'] after := by
  have hcounts := TagKind.counts_iff_balanced hkind
  have hplain : ∀ c ∈ [tag.kind.closer, '\x7d'], isQuote c = false := by
    cases tag.kind <;> simp [TagKind.closer, isQuote]
  have hbalanced : Balanced tag.content.toList := (hcounts _).1 (h.counts hend)
  refine (hbalanced.inside_or_outside hcontent (by simp) hplain).resolve_left fun hbefore => ?_
  refine h.first before (after ++ [tag.kind.closer]) ?_ ((hcounts _).2 hbefore)
  rw [hcontent, if_pos hend]
  simp

/-- **Splitting a template into tags loses nothing.**  The search for tags comes to an end.  The template is the tags
with their delimiters and the texts around them, in which no tag opens; every tag stops behind its start, and the next
one does not start before that.  Only the last tag may have no closer, and then it reaches to the end.  A comment ends
at its first closer, another tag at its first closer outside of quoted texts.  There are no tags exactly if no tag
opens. -/
theorem split_lossless (template : String) :
    (∀ limit, template.length < limit → Tag.splitFrom template limit 0 = some (Tag.split template)) ∧
    Layout Tag.pieces 0 template.toList (Tag.split template) ∧
    (∀ tag ∈ Tag.split template, tag.start < tag.stop) ∧
    (Tag.split template).Pairwise (fun tag next => tag.stop ≤ next.start) ∧
    (∀ before tag after, Tag.split template = before ++ tag :: after → tag.terminated = false →
      after = [] ∧ tag.stop = template.utf8ByteSize) ∧
    (∀ tag ∈ Tag.split template, tag.terminated = true →
      (tag.kind = .comment → ¬['#', '\x7d'] <:+: tag.content.toList) ∧
      (tag.kind ≠ .comment → ∀ before after, tag.content.toList = before ++ ([tag.kind.closer, '\x7d'] ++ after) →
        InQuotes before [tag.kind.closer, '\x7d'] after)) ∧
    (Tag.split template = [] ↔ ¬HasOpener template.toList) := by
  have hlayout := layout_splitTags 0 template.toList
  have hne : ∀ tag lexeme, Tag.pieces.Spells tag lexeme → lexeme ≠ [] := by
    rintro tag lexeme ⟨rfl, -⟩
    simp [spelled]
  refine ⟨?_, hlayout, fun tag htag => hlayout.start_lt_stop hne htag, hlayout.pairwise, ?_, ?_, ?_⟩
  · intro limit hlimit
    rw [← String.length_toList] at hlimit
    exact @splitFrom_eq template limit [] template.toList rfl hlimit
  · intro before tag after hsplit hopen
    obtain ⟨hafter, hstop⟩ := last_of_unterminated 0 template.toList hsplit hopen
    exact ⟨hafter, by rw [hstop, Nat.zero_add, width_toList]⟩
  · intro tag htag hend
    obtain ⟨-, -, -, -, ⟨-, hfirst⟩, -⟩ := hlayout.exists_piece htag
    exact ⟨hfirst.comment, fun hkind before after hcontent => hfirst.inQuotes hkind hend hcontent⟩
  · rw [← @nextTag?_eq_none_iff 0, split]
    constructor
    · intro hnil
      by_contra hsome
      obtain ⟨f, hf⟩ := Option.ne_none_iff_exists'.1 hsome
      rw [splitTags_of_some hf] at hnil
      cases hnil
    · exact splitTags_of_none

/-- Lone braces, a closer in a quoted text, an opener in a comment, and a statement without closer. -/
def braceTemplate : String :=
  "é\x7b \x7b\x7b '\x7d\x7d' \x7d\x7d\x7d\x7b# \x7b\x7b #\x7d\x7b% x"

/-- The output does not end in its quoted text, the comment hides an opener, and the statement reaches to the end. -/
theorem split_lossless_braceTemplate :
    Tag.split braceTemplate = [⟨.output, 4, 14, " '\x7d\x7d' ", true⟩, ⟨.comment, 15, 23, " \x7b\x7b ", true⟩] ++
      ⟨.statement, 23, 27, " x", false⟩ :: [] ∧
    Layout Tag.pieces 0 braceTemplate.toList (Tag.split braceTemplate) ∧
    braceTemplate.utf8ByteSize = 27 ∧
    ¬['#', '\x7d'] <:+: " \x7b\x7b ".toList ∧
    InQuotes [' ', '\''] ['\x7d', '\x7d'] ['\'', ' '] ∧
    HasOpener braceTemplate.toList := by
  have hsplit : Tag.split braceTemplate = [⟨.output, 4, 14, " '\x7d\x7d' ", true⟩,
      ⟨.comment, 15, 23, " \x7b\x7b ", true⟩] ++ ⟨.statement, 23, 27, " x", false⟩ :: [] := by decide +kernel
  obtain ⟨-, hlayout, -, -, hopen, hend, hnil⟩ := split_lossless braceTemplate
  rw [hsplit] at hend hnil
  refine ⟨hsplit, hlayout, (hopen _ _ _ hsplit rfl).2.symm,
    (hend ⟨.comment, 15, 23, " \x7b\x7b ", true⟩ ?_ rfl).1 rfl, ?_, not_not.1 (mt hnil.2 (by simp))⟩
  · simp
  · exact (hend ⟨.output, 4, 14, " '\x7d\x7d' ", true⟩ (by simp) rfl).2 (by simp) [' ', '\''] ['\'', ' ']
      (by decide +kernel)

end Tag

end BrickScope.Template
