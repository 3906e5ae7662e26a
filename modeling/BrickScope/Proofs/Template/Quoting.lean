import BrickScope.Proofs.Spelling
import BrickScope.Proofs.Template.Closers

/-!
# Quoted texts and closers

A quoted text ends at the first quote that is not escaped, that is, not behind an odd number of backslashes.  A closer
counts as the end of a tag if all quoted texts before it are closed.  Both can be said without a scan, and the scans
find just what is said.

* `Escapes`: a text behind which a character is escaped;
* `IsInner`, `exists_inner`, `quotedLength?_eq_none_iff`: the end of a quoted text;
* `Balanced`: code in which every quoted text is closed;
* `TagKind.Counts`, `TagKind.exists_contentLength?_le`, `TagKind.contentLength?_eq_none_iff`: the closer that ends a
  tag.
-/

namespace BrickScope.Template

open Text

/-! ## escaped characters -/

/-- The text ends in an odd number of backslashes: a character behind it is escaped. -/
def Escapes (s : List Char) : Prop := Odd (s.rtakeWhile (· = '\\')).length

instance (s : List Char) : Decidable (Escapes s) := inferInstanceAs (Decidable (Odd _))

theorem not_escapes_nil : ¬Escapes [] := by decide

theorem escapes_backslash : Escapes ['\\'] := by decide

/-- Backslashes are counted from the end, and those of the text in front only if there is nothing else behind them. -/
theorem length_rtakeWhile_append (t s : List Char) (f : Char → Bool) :
    ((t ++ s).rtakeWhile f).length = (s.rtakeWhile f).length + if s.all f then (t.rtakeWhile f).length else 0 := by
  simp only [List.rtakeWhile, List.length_reverse, List.reverse_append]
  by_cases h : s.all f = true
  · have hall : ∀ c ∈ s.reverse, f c = true := fun c hc => List.all_eq_true.1 h c (List.mem_reverse.1 hc)
    rw [if_pos h, List.takeWhile_append_of_pos hall, List.takeWhile_eq_self_iff.2 hall, List.length_append]
  · rw [if_neg h, List.takeWhile_append]
    split
    · rename_i hlength
      refine absurd (List.all_eq_true.2 fun c hc => ?_) h
      have hself := List.takeWhile_eq_self_iff.1 (List.IsPrefix.eq_of_length (List.takeWhile_prefix f) hlength)
      exact hself c (List.mem_reverse.2 hc)
    · rfl

theorem escapes_cons {c : Char} (hc : c ≠ '\\') (s : List Char) : Escapes (c :: s) ↔ Escapes s := by
  have hnone : ([c].rtakeWhile (· = '\\')).length = 0 := by simp [List.rtakeWhile, hc]
  rw [Escapes, ← List.singleton_append, length_rtakeWhile_append, hnone, ite_self]
  rfl

/-- A backslash escapes the character behind it, which escapes nothing itself. -/
theorem escapes_pair (c : Char) (s : List Char) : Escapes ('\\' :: c :: s) ↔ Escapes s := by
  have heven : Even (['\\', c].rtakeWhile (· = '\\')).length := by
    by_cases hc : c = '\\'
    · rw [hc]
      decide
    · simp [List.rtakeWhile, hc]
  have hpair : '\\' :: c :: s = ['\\', c] ++ s := rfl
  rw [Escapes, Escapes, hpair, length_rtakeWhile_append]
  split
  · rw [Nat.odd_add, iff_true_right heven]
  · rfl

/-! ## the end of a quoted text -/

/-- What may stand between two quotes: every quote of the kind in it is escaped, and the one behind it is not. -/
structure IsInner (quote : Char) (body : List Char) : Prop where
  closes : ¬Escapes body
  escaped : ∀ before after, body = before ++ quote :: after → Escapes before

/-- A quoted text with its quotes. -/
def IsQuoted (quote : Char) (t : List Char) : Prop := ∃ body, IsInner quote body ∧ t = quote :: (body ++ [quote])

section

variable {quote : Char}

theorem isInner_nil : IsInner quote [] := ⟨not_escapes_nil, fun before after h => by simp at h⟩

theorem not_isInner_quote {s : List Char} : ¬IsInner quote (quote :: s) :=
  fun h => not_escapes_nil (h.escaped [] s rfl)

theorem isInner_cons {c : Char} {s : List Char} (hslash : c ≠ '\\') (hc : c ≠ quote) :
    IsInner quote (c :: s) ↔ IsInner quote s := by
  constructor
  · intro h
    refine ⟨mt (escapes_cons hslash s).2 h.closes, fun before after hs => ?_⟩
    rw [← escapes_cons hslash before]
    exact h.escaped (c :: before) after (by rw [hs]; rfl)
  · intro h
    refine ⟨mt (escapes_cons hslash s).1 h.closes, fun before after hs => ?_⟩
    rcases List.cons_eq_append_iff.1 hs with ⟨rfl, hq⟩ | ⟨before, rfl, rfl⟩
    · exact absurd (List.cons.inj hq).1.symm hc
    · exact (escapes_cons hslash before).2 (h.escaped before after rfl)

theorem isInner_pair (hquote : quote ≠ '\\') {c : Char} {s : List Char} :
    IsInner quote ('\\' :: c :: s) ↔ IsInner quote s := by
  constructor
  · intro h
    refine ⟨mt (escapes_pair c s).2 h.closes, fun before after hs => ?_⟩
    rw [← escapes_pair c before]
    exact h.escaped ('\\' :: c :: before) after (by rw [hs]; rfl)
  · intro h
    refine ⟨mt (escapes_pair c s).1 h.closes, fun before after hs => ?_⟩
    rcases before with _ | ⟨d, _ | ⟨d', before⟩⟩
    · exact absurd (List.cons.inj hs).1.symm hquote
    · rw [← (List.cons.inj hs).1]
      exact escapes_backslash
    · obtain ⟨hd, hs⟩ := List.cons.inj hs
      rw [← hd, escapes_pair]
      exact h.escaped before after (List.cons.inj hs).2

variable (hquote : quote ≠ '\\')

include hquote

theorem quotedLength?_inner (rest : List Char) {body : List Char} (h : IsInner quote body) :
    quotedLength? quote (fun _ => false) (body ++ quote :: rest) = some (body.length + 1) := by
  induction hlen : body.length using Nat.strong_induction_on generalizing body with
  | _ len ih =>
    subst hlen
    rcases body with _ | ⟨c, body⟩
    · rw [List.nil_append, quotedLength?.eq_def]
      simp [hquote]
    · have hc : c ≠ quote := fun hc => not_isInner_quote (hc ▸ h)
      rw [List.cons_append, quotedLength?.eq_def]
      by_cases hslash : c = '\\'
      · rw [hslash] at h
        rcases body with _ | ⟨d, body⟩
        · exact absurd escapes_backslash h.closes
        · have hbody := ih body.length (by simp only [List.length_cons]; omega) ((isInner_pair hquote).1 h) rfl
          simp [hslash, hbody]
      · have hbody := ih body.length (by simp) ((isInner_cons hslash hc).1 h) rfl
        simp [hslash, hc, hbody]

theorem exists_inner {s : List Char} {n : Nat} (h : quotedLength? quote (fun _ => false) s = some n) :
    ∃ body rest, IsInner quote body ∧ s = body ++ quote :: rest ∧ n = body.length + 1 := by
  fun_induction quotedLength? quote (fun _ => false) s generalizing n with
  | case1 => simp at h
  | case2 c s hstop => simp at hstop
  | case3 => simp at h
  | case4 c s hstop ih =>
    obtain ⟨k, hk, rfl⟩ := Option.map_eq_some_iff.1 h
    obtain ⟨body, rest, hbody, rfl, rfl⟩ := ih hk
    exact ⟨'\\' :: c :: body, rest, (isInner_pair hquote).2 hbody, rfl, rfl⟩
  | case5 s hstop hslash =>
    obtain rfl := Option.some.inj h
    exact ⟨[], s, isInner_nil, rfl, rfl⟩
  | case6 c s hstop hslash hc ih =>
    obtain ⟨k, hk, rfl⟩ := Option.map_eq_some_iff.1 h
    obtain ⟨body, rest, hbody, rfl, rfl⟩ := ih hk
    exact ⟨c :: body, rest, (isInner_cons hslash hc).2 hbody, rfl, rfl⟩

/-- A text is left open by a quote exactly if every further quote of the kind is escaped. -/
theorem quotedLength?_eq_none_iff {s : List Char} :
    quotedLength? quote (fun _ => false) s = none ↔ ∀ before after, s = before ++ quote :: after → Escapes before := by
  constructor
  · intro h before
    induction hlen : before.length using Nat.strong_induction_on generalizing before with
    | _ len ih =>
      rintro after rfl
      by_contra hcloses
      have hinner : IsInner quote before := by
        refine ⟨hcloses, fun before' after' hbefore => ih before'.length ?_ before' rfl (after' ++ quote :: after) ?_⟩
        · rw [← hlen, hbefore, List.length_append, List.length_cons]
          omega
        · rw [hbefore, List.append_assoc, List.cons_append]
      rw [quotedLength?_inner hquote after hinner] at h
      cases h
  · intro h
    rw [Option.eq_none_iff_forall_ne_some]
    intro n hn
    obtain ⟨body, rest, hbody, hs, -⟩ := exists_inner hquote hn
    exact hbody.closes (h body rest hs)

end

/-! ## the end of a tag -/

/-- Code in which every quoted text is closed: what stands behind it is outside of quoted texts. -/
inductive Balanced : List Char → Prop
  | nil : Balanced []
  | plain {c : Char} {s : List Char} (hc : isQuote c = false) (h : Balanced s) : Balanced (c :: s)
  | quoted {quote : Char} {t s : List Char} (hquote : isQuote quote = true) (ht : IsQuoted quote t) (h : Balanced s) :
    Balanced (t ++ s)

section

variable {mark : Char}

/-- Where a quote is open, the search goes on behind its end. -/
theorem codeLength?_open (quote : Char) (s : List Char) :
    codeLength? mark (some quote) s = (quotedLength? quote (fun _ => false) s).bind fun k =>
      (codeLength? mark none (s.drop k)).map (· + k) := by
  fun_induction quotedLength? quote (fun _ => false) s with
  | case1 => simp [codeLength?]
  | case2 c s hstop => simp at hstop
  | case3 => simp [codeLength?]
  | case4 c s hstop ih =>
    rw [codeLength?.eq_def]
    simp only [if_true]
    rw [ih]
    cases quotedLength? quote (fun _ => false) s <;> simp [Function.comp_def, Nat.add_assoc]
  | case5 s hstop hslash =>
    rw [codeLength?.eq_def]
    simp [hslash]
  | case6 c s hstop hslash hc ih =>
    rw [codeLength?.eq_def]
    simp only [hslash, hc, if_false]
    rw [ih]
    cases quotedLength? quote (fun _ => false) s <;> simp [Function.comp_def, Nat.add_assoc]

theorem codeLength?_quote {quote : Char} (hquote : isQuote quote = true) (s : List Char) :
    codeLength? mark none (quote :: s) = (codeLength? mark (some quote) s).map (· + 1) := by
  rw [codeLength?.eq_def]
  simp only [hquote, if_true]

/-- A closer that is outside of quoted texts ends a tag, if no other one does before. -/
theorem exists_codeLength?_le (hmark : isQuote mark = false) {before : List Char} (h : Balanced before)
    (after : List Char) :
    ∃ n ≤ before.length, codeLength? mark none (before ++ mark :: '\x7d' :: after) = some n := by
  induction h with
  | nil =>
    refine ⟨0, Nat.le_refl _, ?_⟩
    rw [List.nil_append, codeLength?.eq_def]
    simp [hmark]
  | @plain c s hc h ih =>
    obtain ⟨n, hn, ih⟩ := ih
    rw [List.cons_append, codeLength?.eq_def]
    simp only [hc, Bool.false_eq_true, if_false, ih]
    split
    · exact ⟨0, Nat.zero_le _, rfl⟩
    · exact ⟨n + 1, Nat.succ_le_succ hn, rfl⟩
  | @quoted quote t s hquote ht h ih =>
    obtain ⟨n, hn, ih⟩ := ih
    obtain ⟨body, hbody, rfl⟩ := ht
    have hslash : quote ≠ '\\' := ne_of_class _ hquote (by decide)
    refine ⟨n + (body.length + 1) + 1, ?_, ?_⟩
    · simp only [List.length_append, List.length_cons, List.length_nil]
      omega
    · simp only [List.cons_append, List.append_assoc, List.nil_append]
      rw [codeLength?_quote hquote, codeLength?_open, quotedLength?_inner hslash _ hbody, Option.bind_some,
        List.drop_length_add_append, List.drop_one, List.tail_cons, ih]
      rfl

/-- The content of a tag leaves no quote open. -/
theorem balanced_of_codeLength? {s : List Char} {n : Nat} (h : codeLength? mark none s = some n) :
    Balanced (s.take n) := by
  induction hlen : s.length using Nat.strong_induction_on generalizing s n with
  | _ len ih =>
    subst hlen
    rcases s with _ | ⟨c, s⟩
    · simp [codeLength?] at h
    · by_cases hquote : isQuote c = true
      · rw [codeLength?_quote hquote, codeLength?_open] at h
        obtain ⟨k, hk, rfl⟩ := Option.map_eq_some_iff.1 h
        obtain ⟨j, hj, hk⟩ := Option.bind_eq_some_iff.1 hk
        obtain ⟨m, hm, rfl⟩ := Option.map_eq_some_iff.1 hk
        obtain ⟨body, rest, hbody, rfl, rfl⟩ := exists_inner (ne_of_class _ hquote (by decide)) hj
        rw [List.drop_length_add_append, List.drop_one, List.tail_cons] at hm
        have hrest := ih rest.length (by simp only [List.length_cons, List.length_append]; omega) hm rfl
        have htake : (c :: (body ++ c :: rest)).take (m + (body.length + 1) + 1) =
            (c :: (body ++ [c])) ++ rest.take m := by
          have hsum : m + (body.length + 1) = body.length + (m + 1) := by omega
          rw [List.take_succ_cons, hsum, List.take_length_add_append, List.take_succ_cons]
          simp
        rw [htake]
        exact .quoted hquote ⟨body, hbody, rfl⟩ hrest
      · have hplain : isQuote c = false := by simpa using hquote
        rw [codeLength?.eq_def] at h
        simp only [hplain, Bool.false_eq_true, if_false] at h
        split at h
        · obtain rfl := Option.some.inj h
          exact .nil
        · obtain ⟨k, hk, rfl⟩ := Option.map_eq_some_iff.1 h
          rw [List.take_succ_cons]
          exact .plain hplain (ih s.length (by simp) hk rfl)

end

/-- The stretch `middle`, between `before` and `after`, is inside a quoted text of the code. -/
def InQuotes (before middle after : List Char) : Prop :=
  ∃ front quote b a back, Balanced front ∧ isQuote quote = true ∧ IsInner quote (b ++ (middle ++ a)) ∧
    before = front ++ quote :: b ∧ after = a ++ quote :: back

theorem InQuotes.append {front before middle after : List Char} (hfront : ∀ {s}, Balanced s → Balanced (front ++ s))
    (h : InQuotes before middle after) : InQuotes (front ++ before) middle after := by
  obtain ⟨front', quote, b, a, back, hbalanced, hquote, hinner, rfl, rfl⟩ := h
  exact ⟨front ++ front', quote, b, a, back, hfront hbalanced, hquote, hinner, by simp, rfl⟩

/-- Where all quoted texts are closed, a stretch without quotes is either inside of one or outside of all. -/
theorem Balanced.inside_or_outside {s : List Char} (h : Balanced s) {before middle after : List Char}
    (hs : s = before ++ (middle ++ after)) (hne : middle ≠ []) (hmiddle : ∀ c ∈ middle, isQuote c = false) :
    Balanced before ∨ InQuotes before middle after := by
  induction h generalizing before with
  | nil => simp [hne] at hs
  | @plain c s hc h ih =>
    rcases before with _ | ⟨d, before⟩
    · exact .inl .nil
    · obtain ⟨rfl, htail⟩ := List.cons.inj hs
      refine (ih htail).imp (.plain hc) fun hin => ?_
      have hfront : ∀ {s}, Balanced s → Balanced ([c] ++ s) := fun {_} hbalanced => .plain hc hbalanced
      exact hin.append hfront
  | @quoted quote t s hquote ht h ih =>
    obtain ⟨body, hbody, rfl⟩ := ht
    rcases before with _ | ⟨d, before⟩
    · exact .inl .nil
    · obtain ⟨rfl, htail⟩ := List.cons.inj hs
      have htail : body ++ quote :: s = before ++ (middle ++ after) := by simpa using htail
      rcases List.append_eq_append_iff.1 htail with ⟨x, rfl, hx⟩ | ⟨x, rfl, hx⟩
      · rcases x with _ | ⟨c, x⟩
        · -- the stretch would start with the closing quote
          obtain ⟨c, middle, rfl⟩ := List.exists_cons_of_ne_nil hne
          have hc := hmiddle c List.mem_cons_self
          rw [← (List.cons.inj hx).1, hquote] at hc
          cases hc
        · -- it starts behind the quoted text
          obtain ⟨rfl, hxs⟩ := List.cons.inj hx
          have hfront : ∀ {s}, Balanced s → Balanced ((quote :: (body ++ [quote])) ++ s) :=
            fun {_} hbalanced => .quoted hquote ⟨body, hbody, rfl⟩ hbalanced
          have hsplit : quote :: (body ++ quote :: x) = (quote :: (body ++ [quote])) ++ x := by simp
          rw [hsplit]
          exact (ih hxs).imp hfront (InQuotes.append hfront)
      · -- it starts in the quoted text, and has no quote in it at which the text could end
        have hin : ∀ y, x = middle ++ y → after = y ++ quote :: s → InQuotes (quote :: before) middle after := by
          rintro y rfl rfl
          exact ⟨[], quote, before, y, s, .nil, hquote, hbody, rfl, rfl⟩
        rcases List.append_eq_append_iff.1 hx with ⟨y, hxy, hafter⟩ | ⟨y, hxy, hy⟩
        · exact .inr (hin y hxy hafter)
        · rcases y with _ | ⟨c, y⟩
          · exact .inr (hin [] (by simpa using hxy.symm) (by simpa using hy.symm))
          · have hc := hmiddle c (by simp [hxy])
            rw [← (List.cons.inj hy).1, hquote] at hc
            cases hc

section

variable {mark : Char}

theorem exists_plainLength?_le (before after : List Char) :
    ∃ n ≤ before.length, plainLength? mark (before ++ mark :: '\x7d' :: after) = some n := by
  induction before with
  | nil =>
    refine ⟨0, Nat.le_refl _, ?_⟩
    simp [plainLength?]
  | cons c before ih =>
    obtain ⟨n, hn, ih⟩ := ih
    rw [List.cons_append, plainLength?, ih]
    split
    · exact ⟨0, Nat.zero_le _, rfl⟩
    · exact ⟨n + 1, Nat.succ_le_succ hn, rfl⟩

end

namespace TagKind

variable {kind : TagKind} {s before : List Char} {n : Nat}

/-- A closer behind `before` counts as the end of a tag: in a comment always, in code outside of quoted texts. -/
def Counts : TagKind → List Char → Prop
  | comment, _ => True
  | output, before | statement, before => Balanced before

theorem counts_iff_balanced (hkind : kind ≠ .comment) (s : List Char) : kind.Counts s ↔ Balanced s := by
  cases kind with
  | comment => exact absurd rfl hkind
  | output | statement => rfl

/-- A closer that counts ends a tag, if no other one does before. -/
theorem exists_contentLength?_le (h : kind.Counts before) (after : List Char) :
    ∃ n ≤ before.length, kind.contentLength? (before ++ kind.closer :: '\x7d' :: after) = some n := by
  cases kind with
  | output => exact exists_codeLength?_le (by decide) h after
  | statement => exact exists_codeLength?_le (by decide) h after
  | comment => exact exists_plainLength?_le before after

/-- The closer that ends a tag counts. -/
theorem counts_of_contentLength? (h : kind.contentLength? s = some n) : kind.Counts (s.take n) := by
  cases kind with
  | output => exact balanced_of_codeLength? h
  | statement => exact balanced_of_codeLength? h
  | comment => trivial

/-- A tag has no end exactly if no closer counts. -/
theorem contentLength?_eq_none_iff :
    kind.contentLength? s = none ↔
      ∀ before after, s = before ++ kind.closer :: '\x7d' :: after → ¬kind.Counts before := by
  constructor
  · rintro h before after rfl hcounts
    obtain ⟨n, -, hn⟩ := exists_contentLength?_le hcounts after
    rw [h] at hn
    cases hn
  · intro h
    rw [Option.eq_none_iff_forall_ne_some]
    intro n hn
    obtain ⟨content, rest, hs, hlen, -⟩ := kind.contentLength?_eq_some hn
    have hcounts := counts_of_contentLength? hn
    rw [hs, ← hlen, List.take_left] at hcounts
    exact h content rest hs hcounts

end TagKind

end BrickScope.Template
