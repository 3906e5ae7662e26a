import BrickScope.Proofs.Template.LongestPath

/-!
# Tokens of a code

A scan goes over its code once: white space is skipped, everything else belongs to a token, until something is left open.
`Scanned` says what a scan can do next, and what is true of the tokens follows from it by induction.

* `Lexeme`: a kind of token, the characters it takes, its text, and what is behind it;
* `Scanned`, `scanned_scanFrom`: a scan is made of lexemes;
* `Scanned.exists_lexeme`: every token stands where its offsets say;
* `Scanned.covered`: nothing but white space is left out before the scan stops;
* `Token.variables_longest`: the variables of a code are the longest ones, and none is missed.
-/

namespace BrickScope.Template

open Text Reference

/-! ## one token -/

/-- The characters `lexeme`, with `rest` behind them, are a token of the kind with the text. -/
inductive Lexeme : (kind : TokenKind) → (lexeme : List Char) → (text : String) → (rest : List Char) → Prop
  | path (s : List Char) :
    Lexeme .variable (sigil :: s.take (pathLength s)) (String.ofList (sigil :: s.take (pathLength s)))
      (s.drop (pathLength s))
  | name (n : Name) {rest : List Char} (hrest : EndsName rest) : Lexeme .identifier n.chars (String.ofList n.chars) rest
  | number {c : Char} {s rest : List Char} (hc : c.isDigit = true) (hs : ∀ d ∈ s, (d.isDigit || d = '.') = true)
    (hrest : ∀ d ∈ rest.head?, (d.isDigit || d = '.') = false) : Lexeme .number (c :: s) (String.ofList (c :: s)) rest
  | quoted {quote : Char} {cs : List KeyChar} {rest : List Char} (hquote : isQuote quote = true)
    (hcs : ∀ c ∈ cs, c.escaped = false → c.char ≠ quote ∧ c.char ≠ '\\') :
    Lexeme .string (quote :: (cs.flatMap KeyChar.spelled ++ [quote]))
      (String.ofList (unescape (cs.flatMap KeyChar.spelled))) rest
  | character {c : Char} {rest : List Char} (hspace : isSpace c = false) (hsigil : c ≠ sigil)
    (hname : isNameStart c = false) (hdigit : c.isDigit = false) (hquote : isQuote c = false) :
    Lexeme .character [c] (String.ofList [c]) rest

section

variable {kind : TokenKind} {lexeme rest : List Char} {text : String}

theorem Lexeme.kind_ne_error (h : Lexeme kind lexeme text rest) : kind ≠ .error := by
  cases h <;> simp

theorem Lexeme.isLongest (h : Lexeme .variable lexeme text rest) :
    lexeme = text.toList ∧ IsLongest IsVariable lexeme (lexeme ++ rest) := by
  cases h with
  | path s =>
    refine ⟨String.toList_ofList.symm, ?_⟩
    rw [List.cons_append, List.take_append_drop]
    exact isLongest_variable s

/-- A sigil belongs to a variable or to a quoted text. -/
theorem Lexeme.kind_of_sigil (h : Lexeme kind lexeme text rest) (hmem : sigil ∈ lexeme) :
    kind = .variable ∨ kind = .string := by
  cases h with
  | path s => exact .inl rfl
  | name n hrest => exact absurd (n.isNamePart_of_mem hmem) (by decide)
  | number hc hs hrest =>
    rcases List.mem_cons.1 hmem with rfl | hmem
    · exact absurd hc (by decide)
    · exact absurd (hs _ hmem) (by decide)
  | quoted hquote hcs => exact .inr rfl
  | character hspace hsigil hname hdigit hquote => exact absurd (List.mem_singleton.1 hmem).symm hsigil

end

/-! ## all tokens -/

/-- What a scan of the text at byte `pos` comes to. -/
inductive Scanned : (pos : Nat) → (s : List Char) → Scan → Prop
  | done (pos : Nat) : Scanned pos [] ⟨[], none⟩
  | space {pos : Nat} {c : Char} {s : List Char} {scan : Scan} (hc : isSpace c = true)
    (h : Scanned (pos + c.utf8Size) s scan) : Scanned pos (c :: s) scan
  | token {pos : Nat} {kind : TokenKind} {lexeme rest : List Char} {text : String} {scan : Scan}
    (hlexeme : Lexeme kind lexeme text rest) (h : Scanned (pos + width lexeme) rest scan) :
    Scanned pos (lexeme ++ rest) (scan.cons ⟨pos, pos + width lexeme, kind, text⟩)
  | openIndex {pos : Nat} {lexeme rest : List Char} {text : String} (hlexeme : Lexeme .variable lexeme text rest)
    (hname : lexeme ≠ [sigil]) (hopen : opensIndex rest = true) :
    Scanned pos (lexeme ++ rest) ⟨[⟨pos, pos + width lexeme, .variable, text⟩], some ⟨.index, pos + width lexeme⟩⟩
  | openQuote {pos : Nat} {c : Char} {s : List Char} (hc : isQuote c = true)
    (hopen : quotedLength? c (fun _ => false) s = none) : Scanned pos (c :: s) ⟨[], some ⟨.quote, pos⟩⟩

theorem utf8Size_of_isNamePart {c : Char} (h : isNamePart c = true) : c.utf8Size = 1 := by
  have hrange := toNat_of_isNamePart h
  rw [Char.utf8Size_eq_one_iff, UInt32.le_iff_toNat_le]
  change c.toNat ≤ 127
  omega

theorem utf8Size_of_isQuote {c : Char} (h : isQuote c = true) : c.utf8Size = 1 := by
  simp only [isQuote, Bool.or_eq_true, decide_eq_true_eq] at h
  rcases h with rfl | rfl <;> rfl

/-- A token whose first character is one byte wide. -/
theorem Scanned.token_cons {pos : Nat} {kind : TokenKind} {c : Char} {s rest : List Char} {text : String} {scan : Scan}
    (hc : c.utf8Size = 1) (hlexeme : Lexeme kind (c :: s) text rest) (h : Scanned (pos + 1 + width s) rest scan) :
    Scanned pos (c :: (s ++ rest)) (scan.cons ⟨pos, pos + 1 + width s, kind, text⟩) := by
  have hwidth : pos + 1 + width s = pos + width (c :: s) := by
    rw [width_cons, hc, Nat.add_assoc]
  rw [hwidth] at h ⊢
  exact .token hlexeme h

theorem scanned_scanFrom (pos : Nat) (s : List Char) : Scanned pos s (scanFrom pos s) := by
  fun_induction scanFrom pos s with
  | case1 pos => exact .done pos
  | case2 pos c s hc ih => exact .space hc ih
  | case3 pos s n stop hopen _ token =>
    simp only [Bool.and_eq_true, decide_eq_true_eq] at hopen
    have hname : sigil :: s.take n ≠ [sigil] := by
      intro h
      obtain ⟨p, rest, hs, hn⟩ := exists_path hopen.1
      have hnil : s.take n = [] := (List.cons.inj h).2
      rw [show n = _ from hn, hs, List.take_left] at hnil
      simp [Name.chars] at hnil
    have h : Scanned pos _ _ := .openIndex (.path s) hname hopen.2
    rw [List.cons_append, List.take_append_drop, width_cons, ← Nat.add_assoc] at h
    exact h
  | case4 pos s n stop hopen _ token ih =>
    have h := Scanned.token_cons (c := sigil) rfl (.path s) ih
    rwa [List.take_append_drop] at h
  | case5 pos c s _ _ hname n stop ih =>
    obtain ⟨t, rest, rfl, ht, hrest⟩ := exists_run isNamePart s
    have hn : n = t.length := congrArg List.length (takeWhile_append_eq ht hrest)
    simp only [stop, hn, List.take_left, List.drop_left] at ih ⊢
    exact .token_cons (utf8Size_of_isNamePart (isNamePart_of_isNameStart hname)) (.name ⟨c, t, hname, ht⟩ hrest) ih
  | case6 pos c s _ _ _ hdigit n stop ih =>
    obtain ⟨t, rest, rfl, ht, hrest⟩ := exists_run (fun d => d.isDigit || d = '.') s
    have hn : n = t.length := congrArg List.length (takeWhile_append_eq ht hrest)
    simp only [stop, hn, List.take_left, List.drop_left] at ih ⊢
    exact .token_cons (utf8Size_of_isNamePart (isNamePart_of_isDigit hdigit)) (.number hdigit ht hrest) ih
  | case7 pos c s _ _ _ _ hquote hopen => exact .openQuote hquote hopen
  | case8 pos c s _ _ _ _ hquote n hn stop ih =>
    obtain ⟨cs, rest, rfl, rfl, hcs⟩ := exists_quoted hn
    have htake : (cs.flatMap KeyChar.spelled ++ c :: rest).take ((cs.flatMap KeyChar.spelled).length + 1) =
        cs.flatMap KeyChar.spelled ++ [c] := by
      rw [List.take_length_add_append]
      rfl
    simp only [stop, htake, List.drop_length_add_append, List.drop_one, List.tail_cons, Nat.add_sub_cancel,
      List.take_left] at ih ⊢
    rw [List.append_cons]
    exact .token_cons (utf8Size_of_isQuote hquote) (.quoted hquote fun d hd he => ⟨(hcs d hd he).1, (hcs d hd he).2.1⟩) ih
  | case9 pos c s hspace hsigil hname hdigit hquote ih =>
    have hlexeme : Lexeme .character [c] (String.ofList [c]) s :=
      .character (by simpa using hspace) hsigil (by simpa using hname) (by simpa using hdigit) (by simpa using hquote)
    exact .token hlexeme ih

section

variable {pos : Nat} {s : List Char} {scan : Scan}

/-- A token stands where its offsets say. -/
theorem Scanned.exists_lexeme (h : Scanned pos s scan) {t : Token} (ht : t ∈ scan.tokens) :
    ∃ before lexeme rest, s = before ++ (lexeme ++ rest) ∧ Lexeme t.kind lexeme t.text rest ∧
      t.start = pos + width before ∧ t.stop = t.start + width lexeme := by
  induction h with
  | done pos => cases ht
  | space hc h ih =>
    obtain ⟨before, lexeme, rest, rfl, hlexeme, hstart, hstop⟩ := ih ht
    refine ⟨_ :: before, lexeme, rest, rfl, hlexeme, ?_, hstop⟩
    rw [hstart, width_cons, Nat.add_assoc]
  | @token pos kind lexeme' rest' text scan hlexeme' h ih =>
    rcases List.mem_cons.1 ht with rfl | ht
    · exact ⟨[], lexeme', rest', rfl, hlexeme', rfl, rfl⟩
    · obtain ⟨before, lexeme, rest, rfl, hlexeme, hstart, hstop⟩ := ih ht
      refine ⟨lexeme' ++ before, lexeme, rest, by rw [List.append_assoc], hlexeme, ?_, hstop⟩
      rw [hstart, width_append, Nat.add_assoc]
  | @openIndex pos lexeme rest text hlexeme hname hopen =>
    obtain rfl := List.mem_singleton.1 ht
    exact ⟨[], lexeme, rest, rfl, hlexeme, rfl, rfl⟩
  | openQuote hc hopen => cases ht

/-- The token reaches over the byte offset. -/
def Token.Covers (t : Token) (i : Nat) : Prop := t.start ≤ i ∧ i < t.stop

instance (t : Token) (i : Nat) : Decidable (t.Covers i) := inferInstanceAs (Decidable (_ ∧ _))

/-- A character of a text belongs to its first part or to the second. -/
theorem mem_or_behind {lexeme rest before after : List Char} {c : Char} (h : lexeme ++ rest = before ++ c :: after) :
    (∃ behind, lexeme = before ++ c :: behind) ∨ ∃ between, before = lexeme ++ between ∧ rest = between ++ c :: after := by
  rcases List.append_eq_append_iff.1 h with ⟨between, rfl, rfl⟩ | ⟨bs, rfl, hbs⟩
  · exact .inr ⟨between, rfl, rfl⟩
  · cases bs with
    | nil => exact .inr ⟨[], by simp, hbs.symm⟩
    | cons b bs =>
      obtain ⟨rfl, -⟩ := List.cons.inj hbs
      exact .inl ⟨bs, rfl⟩

theorem Token.covers_of_mem (pos : Nat) (kind : TokenKind) (text : String) (before : List Char) (c : Char)
    (behind : List Char) :
    (⟨pos, pos + width (before ++ c :: behind), kind, text⟩ : Token).Covers (pos + width before) := by
  have hc := c.utf8Size_pos
  simp only [Token.Covers, width_append, width_cons]
  omega

/-- Up to where the scan stops, what is not white space belongs to a token. -/
theorem Scanned.covered (h : Scanned pos s scan) {before after : List Char} {c : Char} (hs : s = before ++ c :: after)
    (hc : isSpace c = false) (hstop : ∀ f ∈ scan.stop, pos + width before < f.index) :
    ∃ t ∈ scan.tokens, t.Covers (pos + width before) ∧ ∃ lexeme rest, Lexeme t.kind lexeme t.text rest ∧ c ∈ lexeme := by
  induction h generalizing before with
  | done pos => simp at hs
  | @space pos d s scan hd h ih =>
    cases before with
    | nil =>
      obtain ⟨rfl, -⟩ := List.cons.inj hs
      rw [hc] at hd
      cases hd
    | cons b before =>
      obtain ⟨rfl, htail⟩ := List.cons.inj hs
      rw [width_cons, ← Nat.add_assoc] at hstop ⊢
      exact ih htail hstop
  | @token pos kind lexeme rest text scan hlexeme h ih =>
    rcases mem_or_behind hs with ⟨behind, rfl⟩ | ⟨between, rfl, hrest⟩
    · exact ⟨_, List.mem_cons_self, Token.covers_of_mem .., _, rest, hlexeme, by simp⟩
    · rw [width_append, ← Nat.add_assoc] at hstop ⊢
      obtain ⟨t, ht, hcovered⟩ := ih hrest hstop
      exact ⟨t, List.mem_cons_of_mem _ ht, hcovered⟩
  | @openIndex pos lexeme rest text hlexeme hname hopen =>
    rcases mem_or_behind hs with ⟨behind, rfl⟩ | ⟨between, rfl, hrest⟩
    · exact ⟨_, List.mem_cons_self, Token.covers_of_mem .., _, rest, hlexeme, by simp⟩
    · have hlt := hstop _ rfl
      rw [width_append] at hlt
      dsimp only at hlt
      omega
  | openQuote hd hopen =>
    have hlt := hstop _ rfl
    dsimp only at hlt
    omega

end

/-! ## the variables of a code -/

theorem Token.mem_all {code : String} {t : Token} :
    t ∈ Token.all code ↔ t ∈ (Scan.ofCode code).tokens ∨
      ∃ f ∈ (Scan.ofCode code).stop, t = ⟨f.index, width code.toList, .error, f.opening.message⟩ := by
  simp [Token.all, eq_comm]

/-- **The variables of a code are the longest ones, and none is missed.**  A variable token starts at a sigil and takes
the longest text from there that is a reference or the sigil alone; its text stands for the variable and one segment for
each step.  A sigil that is not in a quoted text, nor in the text of another variable, nor behind something left open
starts a variable. -/
theorem Token.variables_longest (code : String) :
    (∀ t ∈ Token.all code, t.kind = .variable → ∃ before after,
      code.toList = before ++ (t.text.toList ++ after) ∧ t.start = width before ∧
      t.stop = t.start + width t.text.toList ∧ IsLongest IsVariable t.text.toList (t.text.toList ++ after) ∧
      (t.text = "@" ∧ segments t.text = ["@"] ∨
        ∃ p : Path, t.text = p.text ∧ segments t.text =
          String.ofList (sigil :: p.name.chars) :: p.accessors.map fun a => String.ofList a.place.segment)) ∧
    ∀ before after, code.toList = before ++ sigil :: after →
      (∀ t ∈ Token.all code, t.Covers (width before) →
        t.kind ≠ .string ∧ (t.kind = .variable → t.start = width before)) →
      (∀ t ∈ Token.all code, t.kind = .error → width before < t.start) →
      ∃ t ∈ Token.all code, t.kind = .variable ∧ t.start = width before := by
  have hscan : Scanned 0 code.toList (Scan.ofCode code) := scanned_scanFrom 0 code.toList
  constructor
  · intro t ht hkind
    rcases Token.mem_all.1 ht with ht | ⟨f, -, rfl⟩
    · obtain ⟨before, lexeme, rest, hs, hlexeme, hstart, hstop⟩ := hscan.exists_lexeme ht
      rw [hkind] at hlexeme
      obtain ⟨rfl, hlongest⟩ := hlexeme.isLongest
      refine ⟨before, rest, hs, by rw [hstart, Nat.zero_add], hstop, hlongest, ?_⟩
      rcases hlongest.2.1 with hsigil | ⟨p, hp⟩
      · have htext : t.text = "@" := String.toList_inj.1 hsigil
        rw [htext]
        exact .inl ⟨rfl, by decide⟩
      · have htext : t.text = p.text := by rw [Path.text, ← hp, String.ofList_toList]
        exact .inr ⟨p, htext, by rw [htext, p.segments_text]; rfl⟩
    · cases hkind
  · intro before after hs hfree hbefore
    have hstop : ∀ f ∈ (Scan.ofCode code).stop, 0 + width before < f.index := fun f hf => by
      rw [Nat.zero_add]
      exact hbefore _ (Token.mem_all.2 (.inr ⟨f, hf, rfl⟩)) rfl
    obtain ⟨t, ht, hcovers, lexeme, rest, hlexeme, hmem⟩ := hscan.covered hs (by decide) hstop
    rw [Nat.zero_add] at hcovers
    have hall : t ∈ Token.all code := Token.mem_all.2 (.inl ht)
    obtain ⟨hstring, hvariable⟩ := hfree t hall hcovers
    have hkind : t.kind = .variable := (hlexeme.kind_of_sigil hmem).resolve_right hstring
    exact ⟨t, hall, hkind, hvariable hkind⟩

/-- Sigils in a quoted text, in a quoted key, in an index that is not static, alone, and behind an index left open. -/
def sigilCode : String := "'@s' @a?.['@\\'].b'].c.1[@i] @ @d[\"x @e"

/-- The key is taken along with its brackets, the number behind the last dot is not, and the sigil in the index starts a
variable of its own. -/
theorem Token.variables_longest_sigilCode :
    (⟨5, 21, .variable, "@a?.['@\\'].b'].c"⟩ : Token) ∈ Token.all sigilCode ∧
    (∃ before after, sigilCode.toList = before ++ ("@a?.['@\\'].b'].c".toList ++ after) ∧ 5 = width before ∧
      IsLongest IsVariable "@a?.['@\\'].b'].c".toList ("@a?.['@\\'].b'].c".toList ++ after)) ∧
    sigilCode.toList = "'@s' @a?.['@\\'].b'].c.1[".toList ++ sigil :: "i] @ @d[\"x @e".toList ∧
    (∀ t ∈ Token.all sigilCode, t.Covers 24 → t.kind ≠ .string ∧ (t.kind = .variable → t.start = 24)) ∧
    (∀ t ∈ Token.all sigilCode, t.kind = .error → 24 < t.start) ∧
    ∃ t ∈ Token.all sigilCode, t.kind = .variable ∧ t.start = 24 := by
  have hmem : (⟨5, 21, .variable, "@a?.['@\\'].b'].c"⟩ : Token) ∈ Token.all sigilCode := by decide +kernel
  have hsplit : sigilCode.toList = "'@s' @a?.['@\\'].b'].c.1[".toList ++ sigil :: "i] @ @d[\"x @e".toList := by
    decide +kernel
  have hwidth : width "'@s' @a?.['@\\'].b'].c.1[".toList = 24 := by decide +kernel
  have hfree : ∀ t ∈ Token.all sigilCode, t.Covers 24 → t.kind ≠ .string ∧ (t.kind = .variable → t.start = 24) := by
    decide +kernel
  have hbefore : ∀ t ∈ Token.all sigilCode, t.kind = .error → 24 < t.start := by decide +kernel
  obtain ⟨hlongest, hnone⟩ := Token.variables_longest sigilCode
  obtain ⟨before, after, hs, hstart, -, hmax, -⟩ := hlongest _ hmem rfl
  refine ⟨hmem, ⟨before, after, hs, hstart, hmax⟩, hsplit, hfree, hbefore, ?_⟩
  have hfound := hnone _ _ hsplit
  rw [hwidth] at hfound
  exact hfound hfree hbefore

end BrickScope.Template
