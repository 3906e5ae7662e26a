import BrickScope.Proofs.Template.Segmentation

/-!
# Errors point at what is left open

A template that leaves something open is reported with a byte offset.  The scan for tokens knows offsets in the code
of a tag, the scan for tags those in the template; what is reported is an offset in the template, at the very
character that opens what is left open.  Nothing behind it in the template closes it.

* `Opening.Begins`: a text that starts with something left open;
* `Scanned.begins`: the place where a scan for tokens stops;
* `Found.begins`: the place that is reported for a tag;
* `stop_begins`: the place that is reported for a template.
-/

namespace BrickScope.Template

open Text

/-- The text starts with the opener of something that it leaves open: a quote of which every further one is escaped, the
bracket of an index, a tag of code in which no closer is outside of quoted texts, or a comment without closer. -/
def Opening.Begins : Opening → List Char → Prop
  | quote, s => ∃ q text, isQuote q = true ∧ s = q :: text ∧
    ∀ before after, text = before ++ q :: after → Escapes before
  | index, s => ∃ text, s = '[' :: text
  | tag, s => ∃ (kind : TagKind) (text : List Char), kind ≠ .comment ∧ s = '\x7b' :: kind.mark :: text ∧
    ∀ before after, text = before ++ kind.closer :: '\x7d' :: after → ¬Balanced before
  | comment, s => ∃ text, s = '\x7b' :: '#' :: text ∧ ¬['#', '\x7d'] <:+: text

theorem Opening.Begins.ne_nil {opening : Opening} {s : List Char} (h : opening.Begins s) : s ≠ [] := by
  rintro rfl
  cases opening with
  | quote => obtain ⟨q, text, -, hs, -⟩ := h; simp at hs
  | index => obtain ⟨text, hs⟩ := h; simp at hs
  | tag => obtain ⟨kind, text, -, hs, -⟩ := h; simp at hs
  | comment => obtain ⟨text, hs, -⟩ := h; simp at hs

/-! ## in the code of a tag -/

/-- A scan for tokens stops at a quote or at a bracket. -/
theorem Scanned.begins {pos : Nat} {s : List Char} {scan : Scan} (h : Scanned pos s scan) {f : Stop}
    (hf : scan.stop = some f) :
    ∃ before rest, s = before ++ rest ∧ f.index = pos + width before ∧ f.opening.Begins rest ∧
      (f.opening = .quote ∨ f.opening = .index) := by
  induction h with
  | done pos => simp at hf
  | @space pos c s scan hc h ih =>
    obtain ⟨before, rest, rfl, hindex, hbegins⟩ := ih hf
    refine ⟨c :: before, rest, rfl, ?_, hbegins⟩
    rw [hindex, width_cons, Nat.add_assoc]
  | @token pos kind lexeme rest' text scan hlexeme h ih =>
    obtain ⟨before, rest, rfl, hindex, hbegins⟩ := ih hf
    refine ⟨lexeme ++ before, rest, by rw [List.append_assoc], ?_, hbegins⟩
    rw [hindex, width_append, Nat.add_assoc]
  | @openIndex pos lexeme rest text hlexeme hname hopen =>
    obtain rfl := Option.some.inj hf
    refine ⟨lexeme, rest, rfl, rfl, ?_, .inr rfl⟩
    unfold opensIndex at hopen
    split at hopen
    · exact ⟨_, rfl⟩
    · simp at hopen
  | @openQuote pos c s hc hopen =>
    obtain rfl := Option.some.inj hf
    have hslash : c ≠ '\\' := ne_of_class _ hc (by decide)
    exact ⟨[], c :: s, rfl, rfl, ⟨c, s, hc, rfl, (quotedLength?_eq_none_iff hslash).1 hopen⟩, .inl rfl⟩

theorem scanned_ofCode (content : List Char) : Scanned 0 content (Scan.ofCode (String.ofList content)) := by
  have hscan := scanned_scanFrom 0 (String.ofList content).toList
  rw [← Scan.ofCode, String.toList_ofList] at hscan
  exact hscan

/-- The code of a terminated tag leaves no quote open. -/
theorem opening_ne_quote {kind : TagKind} {content rest : List Char} (hkind : kind ≠ .comment)
    (hn : kind.contentLength? (content ++ rest) = some content.length) {g : Stop}
    (hg : (Scan.ofCode (String.ofList content)).stop = some g) : g.opening ≠ .quote := by
  have hcode : codeLength? kind.closer none (content ++ rest) = some content.length := by
    cases kind with
    | comment => exact absurd rfl hkind
    | output => exact hn
    | statement => exact hn
  obtain ⟨spans, hsearch⟩ := exists_search_of_codeLength? hcode 0
  exact ((scanned_ofCode content).literals_eq hsearch).1 g hg

/-! ## in a template -/

/-- What a tag leaves open is reported where it opens; `text` is all that is behind the opener of the tag. -/
theorem Found.begins {kind : TagKind} {start : Nat} {text : List Char} {mentions : List String} {stop : Stop}
    (h : (Found.ofOpener kind start text).move = .stops mentions stop) :
    ∃ before rest, '\x7b' :: kind.mark :: text = before ++ rest ∧ stop.index = start + width before ∧
      stop.opening.Begins rest := by
  have hopener : ∀ before, start + 2 + (0 + width before) = start + width ('\x7b' :: kind.mark :: before) := by
    intro before
    have hmark : kind.mark.utf8Size = 1 := by cases kind <;> rfl
    rw [width_cons, width_cons, hmark, utf8Size_brace]
    omega
  rcases ofOpener_cases kind start text with ⟨hn, hf⟩ | ⟨content, rest, rfl, hn, hf⟩
  · rw [hf] at h
    have hnone := TagKind.contentLength?_eq_none_iff.1 hn
    rcases Found.move_stops h with ⟨rfl, -, rfl⟩ | ⟨hkind, ⟨-, rfl⟩ | ⟨g, hg, rfl⟩⟩
    · refine ⟨[], _, rfl, rfl, text, rfl, ?_⟩
      rintro ⟨before, after, hs⟩
      exact hnone before after (by simp [← hs, TagKind.closer]) trivial
    · refine ⟨[], _, rfl, rfl, kind, text, hkind, rfl, fun before after hs hbalanced => ?_⟩
      exact hnone before after hs ((TagKind.counts_iff_balanced hkind before).2 hbalanced)
    · obtain ⟨before, rest, rfl, hindex, hbegins, -⟩ := (scanned_ofCode text).begins hg
      exact ⟨'\x7b' :: kind.mark :: before, rest, rfl, by rw [← hopener, ← hindex], hbegins⟩
  · rw [hf] at h
    rcases Found.move_stops h with ⟨-, hend, -⟩ | ⟨hkind, ⟨hend, -⟩ | ⟨g, hg, rfl⟩⟩
    · cases hend
    · cases hend
    · -- the code may leave open an index, of which the text behind the tag changes nothing
      have hquote := opening_ne_quote hkind hn hg
      obtain ⟨before, s, rfl, hindex, hbegins, hopening⟩ := (scanned_ofCode content).begins hg
      refine ⟨'\x7b' :: kind.mark :: before, s ++ kind.closer :: '\x7d' :: rest, by simp,
        by rw [← hopener, ← hindex], ?_⟩
      have hindexed := hopening.resolve_left hquote
      rw [hindexed] at hbegins ⊢
      obtain ⟨text, rfl⟩ := hbegins
      exact ⟨text ++ kind.closer :: '\x7d' :: rest, rfl⟩

/-- **Errors point at what is left open.**  The offset that is reported for a template is at a character of it.  The
text from there on starts with the opener of what is left open, and nothing in it closes a quote, a tag or a comment
that is. -/
theorem stop_begins (template : String) {stop : Stop} (h : (extract template).stop = some stop) :
    stop.index < template.utf8ByteSize ∧
    ∃ s, dropBytes? stop.index template.toList = some s ∧ stop.opening.Begins s := by
  obtain ⟨front, s, f, mentions, hs, hf, hmove⟩ := exists_stop [] template.toList [] rfl h
  obtain ⟨gap, mark, text, kind, rfl, hmark, rfl, -⟩ := nextTag?_opener hf
  obtain rfl := TagKind.ofMark?_eq_some_iff.1 hmark
  obtain ⟨before, rest, hrest, hindex, hbegins⟩ := Found.begins hmove
  have hwidth : stop.index = width (front ++ (gap ++ before)) := by
    rw [hindex, width_append, width_append]
    omega
  have htemplate : template.toList = front ++ (gap ++ before) ++ rest := by
    rw [hs, hrest]
    simp
  refine ⟨?_, rest, by rw [htemplate, hwidth, dropBytes?_width], hbegins⟩
  have hpos := width_pos hbegins.ne_nil
  rw [← width_toList, htemplate, width_append, hwidth]
  omega

/-- A quote left open behind a raw block, and after it only an escaped quote. -/
def rawThenQuote : String :=
  "é\x7b\x7b @a \x7d\x7d\x7b% raw %\x7d\x7b\x7b @x\x7b% endraw %\x7d\x7b\x7b @b ~ 'it\\' \x7d\x7d"

/-- An index left open in a terminated tag; the bracket behind the tag does not close it. -/
def commentThenIndex : String := "\x7b# é #\x7d\x7b\x7b 'é' @c['k' \x7d\x7d]"

theorem stop_begins_rawThenQuote :
    ((extract rawThenQuote).stop = some ⟨.quote, 44⟩ ∧ 44 < rawThenQuote.utf8ByteSize ∧
      ∃ s, dropBytes? 44 rawThenQuote.toList = some s ∧ Opening.quote.Begins s) ∧
    ((extract commentThenIndex).stop = some ⟨.index, 18⟩ ∧ 18 < commentThenIndex.utf8ByteSize ∧
      ∃ s, dropBytes? 18 commentThenIndex.toList = some s ∧ Opening.index.Begins s) := by
  have hquote : (extract rawThenQuote).stop = some ⟨.quote, 44⟩ := by decide +kernel
  have hindex : (extract commentThenIndex).stop = some ⟨.index, 18⟩ := by decide +kernel
  exact ⟨⟨hquote, stop_begins rawThenQuote hquote⟩, hindex, stop_begins commentThenIndex hindex⟩

end BrickScope.Template
