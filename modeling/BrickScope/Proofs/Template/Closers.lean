import BrickScope.Template.References
import Mathlib

/-!
# Tags and raw blocks are read without what is behind them

A tag ends at its first closer, a raw block at the first statement that ends it.  Nothing behind the closer has a say in
that, and no closer reaches over the end of a text in which one is found.

* `Closes`: a closer is found, whatever is behind it, `TagKind.contentLength?_eq_some`;
* `nextTag?_terminated`: a text up to the end of its first tag, with any text behind it;
* `IsRawEnd`: the statements that end a raw block, `afterRawEnd?_eq_some_iff`;
* `rawLength?_eq_some`: a raw block, with any text behind it.
-/

namespace BrickScope.Template

open Text

/-! ## the end of a tag -/

section

variable {mark : Char} {s : List Char} {n : Nat}

theorem head?_append_cons (content : List Char) (c : Char) (s t : List Char) :
    (content ++ c :: s).head? = (content ++ c :: t).head? := by
  cases content <;> rfl

/-- In the text `s`, `read` finds a closer behind `n` characters, and so it does whatever is behind the closer. -/
def Closes (mark : Char) (read : List Char → Option Nat) (s : List Char) (n : Nat) : Prop :=
  ∃ content rest, s = content ++ mark :: '\x7d' :: rest ∧ content.length = n ∧
    ∀ q, read (content ++ mark :: '\x7d' :: q) = some n

theorem Closes.here {read : List Char → Option Nat} (hs : s.head? = some '\x7d')
    (hread : ∀ q, read (mark :: '\x7d' :: q) = some 0) : Closes mark read (mark :: s) 0 := by
  obtain ⟨rest, rfl⟩ := List.head?_eq_some_iff.1 hs
  exact ⟨[], rest, rfl, rfl, hread⟩

/-- Characters are skipped, perhaps because of the one behind them. -/
theorem Closes.skip {read read' : List Char → Option Nat} (skipped : List Char)
    (hread : ∀ t, t.head? = s.head? → read' (skipped ++ t) = (read t).map (· + skipped.length))
    (ih : ∀ {k}, read s = some k → Closes mark read s k) (h : (read s).map (· + skipped.length) = some n) :
    Closes mark read' (skipped ++ s) n := by
  obtain ⟨k, hk, rfl⟩ := Option.map_eq_some_iff.1 h
  obtain ⟨content, rest, rfl, hlen, hall⟩ := ih hk
  refine ⟨skipped ++ content, rest, by rw [List.append_assoc], ?_, fun q => ?_⟩
  · rw [List.length_append, hlen, Nat.add_comm]
  · rw [List.append_assoc, hread _ (head?_append_cons content mark _ _), hall]
    rfl

theorem plainLength?_eq_some (h : plainLength? mark s = some n) : Closes mark (plainLength? mark) s n := by
  induction s generalizing n with
  | nil => cases h
  | cons c s ih =>
    rw [plainLength?] at h
    split at h
    · rename_i hc
      obtain rfl := Option.some.inj h
      simp only [Bool.and_eq_true, decide_eq_true_eq] at hc
      obtain ⟨rfl, hs⟩ := hc
      exact .here hs fun q => by simp [plainLength?]
    · rename_i hc
      refine .skip [c] (fun t ht => ?_) ih h
      rw [List.singleton_append, plainLength?, ht, if_neg hc]
      rfl

theorem codeLength?_eq_some {quote : Option Char} (h : codeLength? mark quote s = some n) :
    Closes mark (codeLength? mark quote) s n := by
  fun_induction codeLength? mark quote s generalizing n with
  | case1 => cases h
  | case2 => cases h
  | case3 quote d s ih => exact .skip ['\\', d] (fun t _ => by rw [codeLength?.eq_def]; rfl) ih h
  | case4 quote c s hc ih =>
    refine .skip [c] (fun t _ => ?_) ih h
    rw [List.singleton_append, codeLength?.eq_def]
    simp [hc]
  | case5 c s hq ih =>
    refine .skip [c] (fun t _ => ?_) ih h
    rw [List.singleton_append, codeLength?.eq_def]
    simp [hq]
  | case6 c s hq hc =>
    obtain rfl := Option.some.inj h
    simp only [Bool.and_eq_true, decide_eq_true_eq] at hc
    obtain ⟨rfl, hs⟩ := hc
    refine .here hs fun q => ?_
    rw [codeLength?.eq_def]
    simp [hq]
  | case7 c s hq hc ih =>
    refine .skip [c] (fun t ht => ?_) ih h
    rw [List.singleton_append, codeLength?.eq_def]
    simp only [hq, ht, hc, if_false, Bool.false_eq_true]
    rfl

/-- Where a tag ends does not depend on what is behind it. -/
theorem TagKind.contentLength?_eq_some {kind : TagKind} (h : kind.contentLength? s = some n) :
    Closes kind.closer kind.contentLength? s n := by
  cases kind with
  | comment => exact plainLength?_eq_some h
  | output => exact codeLength?_eq_some h
  | statement => exact codeLength?_eq_some h

end

theorem utf8Size_brace : '\x7b'.utf8Size = 1 := rfl

theorem utf8Size_of_ofMark? {d : Char} {kind : TagKind} (h : TagKind.ofMark? d = some kind) : d.utf8Size = 1 := by
  unfold TagKind.ofMark? at h
  split_ifs at h with hd hd hd <;> rw [hd] <;> rfl

theorem utf8Size_closer (kind : TagKind) : kind.closer.utf8Size = 1 := by
  cases kind <;> rfl

/-- A tag that is terminated is read without what is behind it. -/
theorem ofOpener_terminated {kind : TagKind} {start : Nat} {s : List Char}
    (h : (Found.ofOpener kind start s).tag.terminated = true) :
    ∃ head, s = head ++ (Found.ofOpener kind start s).rest ∧
      (Found.ofOpener kind start s).tag.stop = start + 2 + width head ∧
      ∀ q, Found.ofOpener kind start (head ++ q) = ⟨(Found.ofOpener kind start s).tag, q⟩ := by
  cases hn : kind.contentLength? s with
  | none =>
    rw [Found.ofOpener, hn] at h
    cases h
  | some n =>
    obtain ⟨content, rest, rfl, rfl, hall⟩ := kind.contentLength?_eq_some hn
    have hfound : ∀ q, Found.ofOpener kind start (content ++ kind.closer :: '\x7d' :: q) =
        ⟨⟨kind, start, start + 2 + width content + 2, String.ofList content, true⟩, q⟩ := by
      intro q
      simp [Found.ofOpener, hall q]
    rw [hfound]
    refine ⟨content ++ [kind.closer, '\x7d'], by simp, ?_, fun q => ?_⟩
    · simp only [width_append, width_cons, width_nil, utf8Size_closer]
      have : '\x7d'.utf8Size = 1 := rfl
      omega
    · rw [List.append_assoc]
      exact hfound q

/-- The same for the first tag in a text. -/
theorem nextTag?_terminated {pos : Nat} {s : List Char} {found : Found} (h : nextTag? pos s = some found)
    (ht : found.tag.terminated = true) :
    ∃ head, s = head ++ found.rest ∧ found.tag.stop = pos + width head ∧
      ∀ q, nextTag? pos (head ++ q) = some ⟨found.tag, q⟩ := by
  fun_induction nextTag? pos s with
  | case1 => cases h
  | case2 => cases h
  | case3 pos d s kind hk =>
    obtain rfl := Option.some.inj h
    obtain ⟨head, hs, hstop, hall⟩ := ofOpener_terminated ht
    refine ⟨'\x7b' :: d :: head, ?_, ?_, fun q => ?_⟩
    · rw [List.cons_append, List.cons_append, ← hs]
    · rw [hstop, width_cons, width_cons, utf8Size_of_ofMark? hk, utf8Size_brace]
      omega
    · rw [List.cons_append, List.cons_append, nextTag?, if_pos rfl]
      simp only [hk, hall q]
  | case4 pos d s hk ih =>
    obtain ⟨head, hs, hstop, hall⟩ := ih h
    cases head with
    | nil =>
      have hlt := length_rest_lt h
      rw [hs, List.nil_append] at hlt
      exact absurd hlt (Nat.lt_irrefl _)
    | cons d' head =>
      refine ⟨'\x7b' :: d' :: head, by rw [List.cons_append, ← hs], ?_, fun q => ?_⟩
      · rw [hstop, width_cons '\x7b', utf8Size_brace]
        omega
      · rw [List.cons_append] at hs
        obtain ⟨rfl, rfl⟩ := List.cons.inj hs
        have := hall q
        rw [List.cons_append] at this
        rw [List.cons_append, List.cons_append, nextTag?, if_pos rfl]
        simp only [hk]
        exact this
  | case5 pos c s hc ih =>
    obtain ⟨head, rfl, hstop, hall⟩ := ih h
    refine ⟨c :: head, rfl, ?_, fun q => ?_⟩
    · rw [hstop, width_cons]
      omega
    · rw [List.cons_append, nextTag?.eq_def]
      simp only [hc, if_false]
      exact hall q

/-! ## the end of a raw block -/

/-- A dash, or nothing. -/
def IsDash (s : List Char) : Prop := s = [] ∨ s = ['-']

/-- The statements that end the raw block `name`: dashes and blanks may stand around the keyword. -/
def IsRawEnd (name : String) (m : List Char) : Prop :=
  ∃ dash blanks blanks' dash', IsDash dash ∧ (∀ c ∈ blanks, isBlank c = true) ∧ (∀ c ∈ blanks', isBlank c = true) ∧
    IsDash dash' ∧
    m = '\x7b' :: '%' :: (dash ++ (blanks ++ (("end" ++ name).toList ++ (blanks' ++ (dash' ++ ['%', '\x7d'])))))

theorem after?_eq_some_iff {p s rest : List Char} : after? p s = some rest ↔ s = p ++ rest := by
  induction p generalizing s with
  | nil => simp [after?, eq_comm]
  | cons c p ih =>
    cases s with
    | nil => simp [after?]
    | cons d s =>
      rw [after?]
      split
      · rename_i hc
        rw [ih, hc]
        simp
      · rename_i hc
        simp [Ne.symm hc]

theorem exists_dash (s : List Char) : ∃ dash, IsDash dash ∧ s = dash ++ dropDash s := by
  unfold dropDash
  split
  · exact ⟨['-'], .inr rfl, rfl⟩
  · exact ⟨[], .inl rfl, rfl⟩

theorem dropDash_append {dash s : List Char} (hd : IsDash dash) (hs : ∀ c ∈ s.head?, c ≠ '-') :
    dropDash (dash ++ s) = s := by
  rcases hd with rfl | rfl
  · cases s with
    | nil => rfl
    | cons c s =>
      rw [List.nil_append, dropDash]
      intro t ht
      exact hs c rfl (List.cons.inj ht).1
  · rfl

theorem dropWhile_blanks {blanks s : List Char} (hb : ∀ c ∈ blanks, isBlank c = true)
    (hs : ∀ c ∈ s.head?, isBlank c = false) : (blanks ++ s).dropWhile isBlank = s := by
  rw [List.dropWhile_append_of_pos hb]
  cases s with
  | nil => rfl
  | cons c s => simp [hs c rfl]

/-- Neither blanks nor what is behind them start with a dash. -/
theorem head?_blanks_ne_dash {blanks s : List Char} (hb : ∀ c ∈ blanks, isBlank c = true)
    (hs : ∀ c ∈ s.head?, c ≠ '-') : ∀ c ∈ (blanks ++ s).head?, c ≠ '-' := by
  intro c hc
  cases blanks with
  | nil => exact hs c hc
  | cons b blanks =>
    rintro rfl
    obtain rfl : b = '-' := Option.some.inj hc
    exact absurd (hb _ List.mem_cons_self) (by decide)

theorem afterRawEnd?_eq_some_iff {name : String} {s rest : List Char} :
    afterRawEnd? name s = some rest ↔ ∃ m, IsRawEnd name m ∧ s = m ++ rest := by
  simp only [afterRawEnd?, Option.bind_eq_bind, Option.bind_eq_some_iff, after?_eq_some_iff]
  constructor
  · rintro ⟨s₁, rfl, s₂, h₂, h₃⟩
    obtain ⟨dash, hdash, h₁⟩ := exists_dash s₁
    obtain ⟨dash', hdash', h₄⟩ := exists_dash (s₂.dropWhile isBlank)
    have hblanks : ∀ t : List Char, ∀ c ∈ t.takeWhile isBlank, isBlank c = true := fun t c hc =>
      List.mem_takeWhile_imp hc
    refine ⟨_, ⟨dash, (dropDash s₁).takeWhile isBlank, s₂.takeWhile isBlank, dash', hdash, hblanks _, hblanks _, hdash',
      rfl⟩, ?_⟩
    have hs₂ : s₂ = s₂.takeWhile isBlank ++ (dash' ++ (['%', '\x7d'] ++ rest)) := by
      rw [← h₃, ← h₄, List.takeWhile_append_dropWhile]
    have hs₁ : s₁ = dash ++ ((dropDash s₁).takeWhile isBlank ++ (("end" ++ name).toList ++ s₂)) := by
      rw [← h₂, List.takeWhile_append_dropWhile, ← h₁]
    simp only [List.append_assoc, List.cons_append, List.nil_append] at hs₁ hs₂ ⊢
    rw [← hs₂, ← hs₁]
  · rintro ⟨m, ⟨dash, blanks, blanks', dash', hdash, hb, hb', hdash', rfl⟩, rfl⟩
    have hkeyword : ("end" ++ name).toList = 'e' :: 'n' :: 'd' :: name.toList := by
      rw [String.toList_append]
      rfl
    refine ⟨dash ++ (blanks ++ (("end" ++ name).toList ++ (blanks' ++ (dash' ++ (['%', '\x7d'] ++ rest))))),
      by simp only [List.append_assoc, List.cons_append, List.nil_append], blanks' ++ (dash' ++ (['%', '\x7d'] ++ rest)),
      ?_, ?_⟩
    · rw [dropDash_append hdash, dropWhile_blanks hb]
      · rw [hkeyword]
        intro c hc
        cases hc
        decide
      · refine head?_blanks_ne_dash hb fun c hc => ?_
        rw [hkeyword] at hc
        cases hc
        decide
    · rw [dropWhile_blanks hb', dropDash_append hdash']
      · intro c hc
        cases hc
        decide
      · rcases hdash' with rfl | rfl <;> intro c hc <;> cases hc <;> decide

/-- No opening brace stands behind the first character. -/
theorem IsRawEnd.not_mem_tail {name : String} (hname : '\x7b' ∉ name.toList) {m : List Char} (h : IsRawEnd name m) :
    '\x7b' ∉ m.tail := by
  obtain ⟨dash, blanks, blanks', dash', hdash, hb, hb', hdash', rfl⟩ := h
  have hblank : ∀ {blanks : List Char}, (∀ c ∈ blanks, isBlank c = true) → '\x7b' ∉ blanks := fun hb hc =>
    absurd (hb _ hc) (by decide)
  have hdashes : ∀ {dash : List Char}, IsDash dash → '\x7b' ∉ dash := by
    rintro dash (rfl | rfl) <;> decide
  simp only [List.tail_cons, String.toList_append, List.mem_cons, List.mem_append, List.not_mem_nil, or_false, not_or]
  exact ⟨by decide, hdashes hdash, hblank hb, ⟨by decide, hname⟩, hblank hb', hdashes hdash', by decide, by decide⟩

/-- No closer at the front of a text reaches over a brace behind the first character. -/
theorem afterRawEnd?_append_eq_none {name : String} (hname : '\x7b' ∉ name.toList) {c : Char} {body rest : List Char}
    (h : afterRawEnd? name (c :: (body ++ rest)) = none) (hbody : '\x7b' ∈ body) (q : List Char) :
    afterRawEnd? name (c :: (body ++ q)) = none := by
  by_contra hne
  obtain ⟨r, hr⟩ := Option.ne_none_iff_exists'.1 hne
  obtain ⟨m, hm, hs⟩ := afterRawEnd?_eq_some_iff.1 hr
  rw [← List.cons_append] at hs
  rcases List.append_eq_append_iff.1 hs with ⟨t, ht, -⟩ | ⟨t, ht, -⟩
  · refine hm.not_mem_tail hname ?_
    rw [ht]
    exact List.mem_append_left _ hbody
  · have hsome : afterRawEnd? name (c :: (body ++ rest)) = some (t ++ rest) := by
      refine afterRawEnd?_eq_some_iff.2 ⟨m, hm, ?_⟩
      rw [← List.append_assoc, ← ht, List.cons_append]
    rw [h] at hsome
    cases hsome

/-- A raw block that is closed is read without what is behind it. -/
theorem rawLength?_eq_some {name : String} (hname : '\x7b' ∉ name.toList) {s : List Char} {n : Nat}
    (h : rawLength? name s = some n) :
    ∃ body rest, s = body ++ rest ∧ body.length = n ∧ '\x7b' ∈ body ∧ ∀ q, rawLength? name (body ++ q) = some n := by
  induction s generalizing n with
  | nil => cases h
  | cons c s ih =>
    rw [rawLength?] at h
    cases hend : afterRawEnd? name (c :: s) with
    | some rest =>
      rw [hend] at h
      obtain ⟨m, hm, hs⟩ := afterRawEnd?_eq_some_iff.1 hend
      have hfirst : ∃ m', m = '\x7b' :: m' := by
        obtain ⟨dash, blanks, blanks', dash', -, -, -, -, rfl⟩ := hm
        exact ⟨_, rfl⟩
      obtain ⟨m', rfl⟩ := hfirst
      have hlen : s.length + 1 = (m'.length + 1) + rest.length := by
        have hlength := congrArg List.length hs
        simp only [List.length_cons, List.length_append] at hlength
        omega
      have hn : s.length + 1 - rest.length = n := Option.some.inj h
      refine ⟨'\x7b' :: m', rest, hs, by rw [List.length_cons]; omega, List.mem_cons_self, fun q => ?_⟩
      rw [List.cons_append, rawLength?, ← List.cons_append, afterRawEnd?_eq_some_iff.2 ⟨_, hm, rfl⟩]
      simp only [List.length_append, Option.some.injEq]
      omega
    | none =>
      rw [hend] at h
      obtain ⟨k, hk, rfl⟩ := Option.map_eq_some_iff.1 h
      obtain ⟨body, rest, rfl, hlen, hmem, hall⟩ := ih hk
      refine ⟨c :: body, rest, rfl, by simp [hlen], List.mem_cons_of_mem _ hmem, fun q => ?_⟩
      rw [List.cons_append, rawLength?, afterRawEnd?_append_eq_none hname hend hmem, hall]
      rfl

end BrickScope.Template
