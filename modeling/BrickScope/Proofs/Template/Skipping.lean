import BrickScope.Proofs.Template.LongestPath

/-!
# What the search for the end of a tag skips

The search for the end of a tag does not stop at a closer in a quoted text.  Here it says which stretches it skipped, and
what it does on a text follows from what it does on the pieces of it.

* `search`: the search with the stretches it skips, `search_fst`;
* `quotedLength?_ne_none`: a quote that is closed before the closer is closed in the content;
* `Passes`: the search goes over a text and skips just some stretches of it, `Passes.append`, `passes_plain`,
  `passes_quoted`.
-/

namespace BrickScope.Template

open Text Reference

/-- A stretch of a text, by its byte offsets. -/
structure Span where
  start : Nat
  stop : Nat
  deriving DecidableEq

/-! ## the stretches that are skipped -/

/-- The search for the end of a tag in the text at byte `pos`: how many characters stand before the closer, and which
stretches were skipped as quoted.  A quote that is open comes with its offset. -/
def search (mark : Char) : Nat → Option (Char × Nat) → List Char → Option (Nat × List Span)
  | _, _, [] => none
  | pos, some (q, start), c :: s =>
    if c = '\\' then
      match s with
      | [] => none
      | d :: s => (search mark (pos + c.utf8Size + d.utf8Size) (some (q, start)) s).map fun r => (r.1 + 2, r.2)
    else if c = q then
      (search mark (pos + c.utf8Size) none s).map fun r => (r.1 + 1, ⟨start, pos + c.utf8Size⟩ :: r.2)
    else (search mark (pos + c.utf8Size) (some (q, start)) s).map fun r => (r.1 + 1, r.2)
  | pos, none, c :: s =>
    if isQuote c then (search mark (pos + c.utf8Size) (some (c, pos)) s).map fun r => (r.1 + 1, r.2)
    else if c = mark && s.head? = some '\x7d' then some (0, [])
    else (search mark (pos + c.utf8Size) none s).map fun r => (r.1 + 1, r.2)

/-- The search finds the end of the tag. -/
theorem search_fst (mark : Char) (pos : Nat) (quote : Option (Char × Nat)) (s : List Char) :
    (search mark pos quote s).map Prod.fst = codeLength? mark (quote.map Prod.fst) s := by
  fun_induction search mark pos quote s with
  | case1 => simp [codeLength?]
  | case2 pos q start => simp [codeLength?]
  | case3 pos q start d s ih =>
    rw [Option.map_some] at ih ⊢
    rw [codeLength?.eq_def]
    simp only [if_true]
    rw [← ih, Option.map_map, Option.map_map]
    rfl
  | case4 pos q start s hc ih =>
    rw [Option.map_none] at ih
    rw [Option.map_some, codeLength?.eq_def]
    simp only [hc, if_true, if_false]
    rw [← ih, Option.map_map, Option.map_map]
    rfl
  | case5 pos q start c s hc hq ih =>
    rw [Option.map_some] at ih ⊢
    rw [codeLength?.eq_def]
    simp only [hc, hq, if_false]
    rw [← ih, Option.map_map, Option.map_map]
    rfl
  | case6 pos c s hq ih =>
    rw [Option.map_some] at ih
    rw [Option.map_none, codeLength?.eq_def]
    simp only [hq, if_true]
    rw [← ih, Option.map_map, Option.map_map]
    rfl
  | case7 pos c s hq hc =>
    rw [Option.map_none, codeLength?.eq_def]
    simp only [hq, hc, if_true, if_false, Bool.false_eq_true, Option.map_some]
  | case8 pos c s hq hc ih =>
    rw [Option.map_none] at ih ⊢
    rw [codeLength?.eq_def]
    simp only [hq, hc, if_false, Bool.false_eq_true]
    rw [← ih, Option.map_map, Option.map_map]
    rfl

/-- Nothing is skipped before the offset from which the search goes on, or before the quote that is open. -/
theorem le_start_of_search {mark : Char} {pos : Nat} {quote : Option (Char × Nat)} {s : List Char} {n : Nat}
    {spans : List Span} (h : search mark pos quote s = some (n, spans)) {low : Nat} (hpos : low ≤ pos)
    (hquote : ∀ q ∈ quote, low ≤ q.2) : ∀ span ∈ spans, low ≤ span.start := by
  have hnone : ∀ q ∈ (none : Option (Char × Nat)), low ≤ q.2 := fun q hq => (nomatch hq)
  fun_induction search mark pos quote s generalizing n spans with
  | case1 => cases h
  | case2 => cases h
  | case3 pos q start d s ih =>
    obtain ⟨r, hr, hrn⟩ := Option.map_eq_some_iff.1 h
    obtain ⟨-, rfl⟩ := Prod.mk.inj hrn
    exact ih hr (by omega) hquote
  | case4 pos q start s hc ih =>
    obtain ⟨r, hr, hrn⟩ := Option.map_eq_some_iff.1 h
    obtain ⟨-, rfl⟩ := Prod.mk.inj hrn
    intro span hspan
    rcases List.mem_cons.1 hspan with rfl | hspan
    · exact hquote _ rfl
    · exact ih hr (by omega) hnone span hspan
  | case5 pos q start c s hc hq ih =>
    obtain ⟨r, hr, hrn⟩ := Option.map_eq_some_iff.1 h
    obtain ⟨-, rfl⟩ := Prod.mk.inj hrn
    exact ih hr (by omega) hquote
  | case6 pos c s hq ih =>
    obtain ⟨r, hr, hrn⟩ := Option.map_eq_some_iff.1 h
    obtain ⟨-, rfl⟩ := Prod.mk.inj hrn
    refine ih hr (by omega) fun q hq => ?_
    cases hq
    exact hpos
  | case7 pos c s hq hc =>
    obtain ⟨-, rfl⟩ := Prod.mk.inj (Option.some.inj h)
    simp
  | case8 pos c s hq hc ih =>
    obtain ⟨r, hr, hrn⟩ := Option.map_eq_some_iff.1 h
    obtain ⟨-, rfl⟩ := Prod.mk.inj hrn
    exact ih hr (by omega) hnone

section

variable {mark : Char}

theorem search_zero {pos : Nat} {s : List Char} {spans : List Span} (h : search mark pos none s = some (0, spans)) :
    spans = [] := by
  cases s with
  | nil => simp [search] at h
  | cons c s =>
    rw [search.eq_def] at h
    dsimp only at h
    split at h
    · obtain ⟨r, -, hr⟩ := Option.map_eq_some_iff.1 h
      cases hr
    · split at h
      · exact (Prod.mk.inj (Option.some.inj h)).2.symm
      · obtain ⟨r, -, hr⟩ := Option.map_eq_some_iff.1 h
        cases hr

/-- As long as a quote is open, the closer is not at the next character. -/
theorem codeLength?_open_ne_zero {quote : Char} {s : List Char} : codeLength? mark (some quote) s ≠ some 0 := by
  intro h
  cases s with
  | nil => simp [codeLength?] at h
  | cons c s =>
    rw [codeLength?.eq_def] at h
    by_cases hc : c = '\\'
    · cases s with
      | nil => simp [hc] at h
      | cons d s => simp [hc] at h
    · simp [hc] at h

/-- A quote that is closed before the closer of a tag is closed in the content. -/
theorem quotedLength?_ne_none {quote : Char} {s rest : List Char} {n : Nat}
    (h : codeLength? mark (some quote) (s ++ rest) = some n) (hn : n ≤ s.length) :
    quotedLength? quote (fun _ => false) s ≠ none := by
  fun_induction quotedLength? quote (fun _ => false) s generalizing n with
  | case1 =>
    obtain rfl : n = 0 := by simpa using hn
    exact absurd h codeLength?_open_ne_zero
  | case2 c s hstop => cases hstop
  | case3 =>
    -- the backslash takes along the first character behind the content
    rw [List.singleton_append, codeLength?.eq_def] at h
    cases rest with
    | nil => simp at h
    | cons d rest =>
      obtain ⟨k, -, rfl⟩ := Option.map_eq_some_iff.1 h
      simp at hn
  | case4 d s hstop ih =>
    rw [List.cons_append, List.cons_append, codeLength?.eq_def] at h
    obtain ⟨k, hk, rfl⟩ := Option.map_eq_some_iff.1 h
    have hsome := ih hk (by simpa using hn)
    simpa using hsome
  | case5 => simp
  | case6 c s hstop hslash hquote ih =>
    rw [List.cons_append, codeLength?.eq_def] at h
    simp only [hslash, hquote, if_false] at h
    obtain ⟨k, hk, rfl⟩ := Option.map_eq_some_iff.1 h
    have hsome := ih hk (by simpa using hn)
    simpa using hsome

end

/-! ## going over a text -/

/-- Outside of quotes the search goes over the text, if the closer is not in it, and skips the stretches
`quoted pos` of it, where `pos` is its offset. -/
structure Passes (mark : Char) (text : List Char) (quoted : Nat → List Span) : Prop where
  skips : ∀ {pos n : Nat} {rest : List Char} {spans : List Span}, search mark pos none (text ++ rest) = some (n, spans) →
    text.length ≤ n → ∃ k spans', n = text.length + k ∧ spans = quoted pos ++ spans' ∧
      search mark (pos + width text) none rest = some (k, spans')
  inside : ∀ pos, ∀ span ∈ quoted pos, span.start < pos + width text

section

variable {mark : Char}

theorem Passes.append {s t : List Char} {quoted quoted' : Nat → List Span} (hs : Passes mark s quoted)
    (ht : Passes mark t quoted') : Passes mark (s ++ t) fun pos => quoted pos ++ quoted' (pos + width s) where
  skips := by
    intro pos n rest spans h hn
    rw [List.append_assoc] at h
    rw [List.length_append] at hn
    obtain ⟨k, spans₁, rfl, rfl, h₁⟩ := hs.skips h (by omega)
    obtain ⟨k, spans₂, rfl, rfl, h₂⟩ := ht.skips h₁ (by omega)
    refine ⟨k, spans₂, by rw [List.length_append]; omega, by rw [List.append_assoc], ?_⟩
    rw [width_append, ← Nat.add_assoc]
    exact h₂
  inside := by
    intro pos span hspan
    rw [width_append]
    rcases List.mem_append.1 hspan with hspan | hspan
    · have := hs.inside pos span hspan
      omega
    · have := ht.inside _ span hspan
      omega

theorem passes_nil : Passes mark [] fun _ => [] where
  skips := fun {_ n _ spans} h _ => ⟨n, spans, by simp, rfl, h⟩
  inside := by simp

theorem passes_plain {s : List Char} (h : ∀ c ∈ s, isQuote c = false) : Passes mark s fun _ => [] := by
  induction s with
  | nil => exact passes_nil
  | cons c s ih =>
    have hc : Passes mark [c] fun _ => [] := by
      refine ⟨fun {pos n rest spans} hsearch hn => ?_, by simp⟩
      rw [List.singleton_append, search.eq_def] at hsearch
      simp only [h c List.mem_cons_self, Bool.false_eq_true, if_false] at hsearch
      split at hsearch
      · -- the closer would be at the character itself
        obtain ⟨rfl, -⟩ := Prod.mk.inj (Option.some.inj hsearch)
        simp at hn
      · obtain ⟨⟨k, spans'⟩, hr, hrn⟩ := Option.map_eq_some_iff.1 hsearch
        obtain ⟨rfl, rfl⟩ := Prod.mk.inj hrn
        refine ⟨k, spans', Nat.add_comm _ _, rfl, ?_⟩
        simpa using hr
    exact hc.append (ih fun d hd => h d (List.mem_cons_of_mem _ hd))

/-- A quote that is open is closed by the next one that is not behind a backslash. -/
theorem search_quoted {quote : Char} (hquote : quote ≠ '\\') {cs : List KeyChar}
    (h : ∀ c ∈ cs, c.escaped = false → c.char ≠ quote ∧ c.char ≠ '\\') (pos start : Nat) (rest : List Char) :
    search mark pos (some (quote, start)) (cs.flatMap KeyChar.spelled ++ quote :: rest) =
      (search mark (pos + width (cs.flatMap KeyChar.spelled ++ [quote])) none rest).map fun r =>
        (r.1 + (cs.flatMap KeyChar.spelled ++ [quote]).length,
          ⟨start, pos + width (cs.flatMap KeyChar.spelled ++ [quote])⟩ :: r.2) := by
  induction cs generalizing pos with
  | nil =>
    rw [List.flatMap_nil, List.nil_append, search.eq_def]
    simp [hquote]
  | cons c cs ih =>
    have ih := ih fun d hd => h d (List.mem_cons_of_mem _ hd)
    rw [List.flatMap_cons, List.append_assoc, KeyChar.spelled]
    cases he : c.escaped with
    | true =>
      rw [if_pos rfl, List.cons_append, List.cons_append, List.nil_append, search.eq_def]
      simp only [if_true]
      rw [ih, Option.map_map]
      simp only [List.cons_append, List.nil_append, width_cons, List.length_cons, Nat.add_assoc]
      rfl
    | false =>
      obtain ⟨hq, hb⟩ := h c List.mem_cons_self he
      rw [if_neg (by simp), List.cons_append, List.nil_append, search.eq_def]
      simp only [hq, hb, if_false]
      rw [ih, Option.map_map]
      simp only [List.cons_append, List.nil_append, width_cons, List.length_cons, Nat.add_assoc]
      rfl

theorem passes_quoted {quote : Char} (hquote : isQuote quote = true) {cs : List KeyChar}
    (h : ∀ c ∈ cs, c.escaped = false → c.char ≠ quote ∧ c.char ≠ '\\') :
    Passes mark (quote :: (cs.flatMap KeyChar.spelled ++ [quote])) fun pos =>
      [⟨pos, pos + width (quote :: (cs.flatMap KeyChar.spelled ++ [quote]))⟩] where
  skips := by
    intro pos n rest spans hsearch hn
    have hslash : quote ≠ '\\' := ne_of_class _ hquote (by decide)
    rw [List.cons_append, List.append_assoc, search.eq_def] at hsearch
    simp only [hquote, if_true, List.singleton_append] at hsearch
    rw [search_quoted hslash h, Option.map_map] at hsearch
    obtain ⟨⟨k, spans'⟩, hr, hrn⟩ := Option.map_eq_some_iff.1 hsearch
    obtain ⟨rfl, rfl⟩ := Prod.mk.inj hrn
    refine ⟨k, spans', ?_, ?_, ?_⟩
    · dsimp only
      rw [List.length_cons]
      omega
    · rw [width_cons, ← Nat.add_assoc]
      rfl
    · rw [width_cons, ← Nat.add_assoc]
      exact hr
  inside := by
    intro pos span hspan
    obtain rfl := List.mem_singleton.1 hspan
    have := quote.utf8Size_pos
    rw [width_cons]
    dsimp only
    omega

end

end BrickScope.Template
