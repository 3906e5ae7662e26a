import BrickScope.Proofs.Template.Cursor
import BrickScope.Proofs.Template.Dashes
import BrickScope.Proofs.Template.Quoting

/-!
# Indices that are left open

A bracket behind a variable opens an index, and stops the scan if there is no bracket outside of quoted texts that could
close it.  This is looked at only where the path of the variable ends, and behind `?.` the bracket is not there: the
question mark, the dot and the bracket are tokens of their own, and the scan goes on.

* `Unclosed`, `closesBracket_iff`: a text in which no bracket closes an index;
* `pathLength_of_unclosed`: the path in front of an index that is left open;
* `comesTo_scanFrom`: a scan, cut at a variable;
* `Token.index_left_open`: the tokens, and the template, in both spellings.
-/

namespace BrickScope.Template

open Text Reference

/-! ## closing brackets -/

/-- No closing bracket of the text is outside of quoted texts. -/
def Unclosed (text : List Char) : Prop := ∀ before after, text = before ++ ']' :: after → ¬Balanced before

/-- Where a quote is open, a bracket is looked for behind its end. -/
theorem closesBracket_open (quote : Char) (s : List Char) :
    closesBracket (some quote) s =
      (quotedLength? quote (fun _ => false) s).elim false fun k => closesBracket none (s.drop k) := by
  fun_induction quotedLength? quote (fun _ => false) s with
  | case1 => simp [closesBracket]
  | case2 c s hstop => simp at hstop
  | case3 => simp [closesBracket]
  | case4 c s hstop ih =>
    rw [closesBracket.eq_def]
    simp only [if_true]
    rw [ih]
    cases quotedLength? quote (fun _ => false) s <;> rfl
  | case5 s hstop hslash =>
    rw [closesBracket.eq_def]
    simp [hslash]
  | case6 c s hstop hslash hc ih =>
    rw [closesBracket.eq_def]
    simp only [hslash, hc, if_false]
    rw [ih]
    cases quotedLength? quote (fun _ => false) s <;> rfl

theorem closesBracket_quote {quote : Char} (hquote : isQuote quote = true) (s : List Char) :
    closesBracket none (quote :: s) = closesBracket (some quote) s := by
  rw [closesBracket.eq_def]
  simp only [hquote, if_true]

theorem closesBracket_plain {c : Char} (hc : isQuote c = false) (s : List Char) :
    closesBracket none (c :: s) = (decide (c = ']') || closesBracket none s) := by
  rw [closesBracket.eq_def]
  simp only [hc, Bool.false_eq_true, if_false]

theorem closesBracket_of_balanced {before : List Char} (h : Balanced before) (after : List Char) :
    closesBracket none (before ++ ']' :: after) = true := by
  induction h with
  | nil => rfl
  | @plain c s hc _ ih =>
    rw [List.cons_append, closesBracket_plain hc, ih, Bool.or_true]
  | @quoted quote t s hquote ht _ ih =>
    obtain ⟨body, hbody, rfl⟩ := ht
    have hslash : quote ≠ '\\' := ne_of_class _ hquote (by decide)
    simp only [List.cons_append, List.append_assoc, List.nil_append]
    rw [closesBracket_quote hquote, closesBracket_open, quotedLength?_inner hslash _ hbody, Option.elim_some,
      List.drop_length_add_append, List.drop_one, List.tail_cons]
    exact ih

theorem exists_balanced_of_closesBracket {s : List Char} (h : closesBracket none s = true) :
    ∃ before after, s = before ++ ']' :: after ∧ Balanced before := by
  induction hlen : s.length using Nat.strong_induction_on generalizing s with
  | _ len ih =>
    subst hlen
    rcases s with _ | ⟨c, s⟩
    · cases h
    · by_cases hquote : isQuote c = true
      · rw [closesBracket_quote hquote, closesBracket_open] at h
        cases hn : quotedLength? c (fun _ => false) s with
        | none =>
          rw [hn] at h
          cases h
        | some n =>
          obtain ⟨body, rest, hbody, rfl, rfl⟩ := exists_inner (ne_of_class _ hquote (by decide)) hn
          rw [hn, Option.elim_some, List.drop_length_add_append, List.drop_one, List.tail_cons] at h
          have hlt : rest.length < (c :: (body ++ c :: rest)).length := by
            simp only [List.length_cons, List.length_append]
            omega
          obtain ⟨before, after, rfl, hbefore⟩ := ih _ hlt h rfl
          exact ⟨c :: (body ++ [c]) ++ before, after, by simp, .quoted hquote ⟨body, hbody, rfl⟩ hbefore⟩
      · have hplain : isQuote c = false := by simpa using hquote
        rw [closesBracket_plain hplain, Bool.or_eq_true, decide_eq_true_eq] at h
        rcases h with rfl | h
        · exact ⟨[], s, rfl, .nil⟩
        · obtain ⟨before, after, rfl, hbefore⟩ := ih _ (Nat.lt_succ_self _) h rfl
          exact ⟨c :: before, after, rfl, .plain hplain hbefore⟩

theorem closesBracket_iff {s : List Char} :
    closesBracket none s = true ↔ ∃ before after, s = before ++ ']' :: after ∧ Balanced before := by
  constructor
  · exact exists_balanced_of_closesBracket
  · rintro ⟨before, after, rfl, hbefore⟩
    exact closesBracket_of_balanced hbefore after

theorem unclosed_iff {text : List Char} : Unclosed text ↔ closesBracket none text = false := by
  rw [← Bool.not_eq_true, closesBracket_iff]
  constructor
  · rintro h ⟨before, after, hs, hbefore⟩
    exact h before after hs hbefore
  · intro h before after hs hbefore
    exact h ⟨before, after, hs, hbefore⟩

instance (text : List Char) : Decidable (Unclosed text) := decidable_of_iff _ unclosed_iff.symm

/-! ## the path in front of a bracket -/

/-- A quoted text ends where it does if more is allowed in it. -/
theorem quotedLength?_of_stop {quote : Char} {stop : Char → Bool} {s : List Char} {n : Nat}
    (h : quotedLength? quote stop s = some n) : quotedLength? quote (fun _ => false) s = some n := by
  fun_induction quotedLength? quote stop s generalizing n with
  | case1 => cases h
  | case2 => cases h
  | case3 => cases h
  | case4 c s hstop ih =>
    obtain ⟨k, hk, rfl⟩ := Option.map_eq_some_iff.1 h
    rw [quotedLength?.eq_def]
    simp [ih hk]
  | case5 s hstop hslash =>
    rw [quotedLength?.eq_def]
    simp [hslash, h]
  | case6 c s hstop hslash hc ih =>
    obtain ⟨k, hk, rfl⟩ := Option.map_eq_some_iff.1 h
    rw [quotedLength?.eq_def]
    simp [hslash, hc, ih hk]

theorem closesBracket_of_digits {s : List Char} (h : ∀ c ∈ s, c.isDigit = true) (rest : List Char) :
    closesBracket none (s ++ ']' :: rest) = true := by
  refine closesBracket_of_balanced ?_ rest
  induction s with
  | nil => exact .nil
  | cons c s ih =>
    obtain ⟨hc, hs⟩ := List.forall_mem_cons.1 h
    exact .plain (isQuote_of_isNamePart (isNamePart_of_isDigit hc)) (ih hs)

/-- A static index has a bracket that closes it. -/
theorem closesBracket_of_indexLength? {s : List Char} {n : Nat} (h : indexLength? ('[' :: s) = some n) :
    closesBracket none s = true := by
  unfold indexLength? at h
  split at h
  · rename_i c s' heq
    cases heq
    by_cases hdigit : c.isDigit = true
    · obtain ⟨t, rest, rfl, ht, hrest⟩ := exists_run Char.isDigit s'
      simp only [hdigit, if_true, takeWhile_append_eq ht hrest, List.drop_left] at h
      split at h
      · rename_i hclose
        obtain ⟨rest, rfl⟩ := List.head?_eq_some_iff.1 hclose
        exact closesBracket_of_digits (List.forall_mem_cons.2 ⟨hdigit, ht⟩) rest
      · cases h
    · by_cases hquote : isQuote c = true
      · simp only [hdigit, hquote, Bool.false_eq_true, if_false, if_true] at h
        split at h
        · rename_i k hk
          split at h
          · rename_i hclose
            obtain ⟨rest, hrest⟩ := List.head?_eq_some_iff.1 hclose
            rw [closesBracket_quote hquote, closesBracket_open, quotedLength?_of_stop hk, Option.elim_some, hrest]
            exact closesBracket_of_balanced .nil rest
          · cases h
        · cases h
      · simp only [hdigit, hquote, Bool.false_eq_true, if_false] at h
        cases h
  · cases h

/-- The opener of an index, as it is or behind `?.`. -/
def indexOpener (optional : Bool) : List Char := if optional then ['?', '.', '['] else ['[']

section

variable {text : List Char}

theorem Unclosed.indexLength?_eq (h : Unclosed text) : indexLength? ('[' :: text) = none := by
  rw [Option.eq_none_iff_forall_ne_some]
  intro n hn
  have hcloses := closesBracket_of_indexLength? hn
  rw [unclosed_iff.1 h] at hcloses
  cases hcloses

theorem Unclosed.accessorLength?_eq (h : Unclosed text) (optional : Bool) :
    accessorLength? (indexOpener optional ++ text) = none := by
  have hindex := h.indexLength?_eq
  cases optional with
  | false => exact hindex
  | true =>
    have hname : nameLength ('[' :: text) = 0 := rfl
    show accessorLength? ('?' :: '.' :: '[' :: text) = none
    rw [accessorLength?, hname, if_pos rfl, hindex, Option.map_none]

/-- A path takes nothing along of an index behind it that is left open. -/
theorem pathLength_of_unclosed (p : Path) (h : Unclosed text) (optional : Bool) :
    pathLength (p.name.chars ++ p.wayChars ++ (indexOpener optional ++ text)) =
      (p.name.chars ++ p.wayChars).length := by
  refine p.pathLength_eq ?_ (Cursor.accessorsLength_of_none (h.accessorLength?_eq optional))
  intro c hc
  cases optional with
  | false =>
    cases hc
    decide
  | true =>
    cases hc
    decide

end

/-! ## a scan, cut at a variable -/

/-- A scan behind some tokens. -/
def Scan.behind (earlier : List Token) (scan : Scan) : Scan := ⟨earlier ++ scan.tokens, scan.stop⟩

theorem Scan.behind_behind (earlier earlier' : List Token) (scan : Scan) :
    (scan.behind earlier').behind earlier = scan.behind (earlier ++ earlier') := by
  rw [behind, behind, behind, List.append_assoc]

/-- The variable whose sigil is at byte `pos`, with the text `s` behind it. -/
def variableAt (pos : Nat) (s : List Char) : Token :=
  ⟨pos, pos + 1 + width (s.take (pathLength s)), .variable, String.ofList (sigil :: s.take (pathLength s))⟩

theorem scanFrom_sigil (pos : Nat) (s : List Char) :
    scanFrom pos (sigil :: s) =
      if pathLength s ≠ 0 && opensIndex (s.drop (pathLength s)) then
        ⟨[variableAt pos s], some ⟨.index, (variableAt pos s).stop⟩⟩
      else (scanFrom (variableAt pos s).stop (s.drop (pathLength s))).cons (variableAt pos s) := by
  rw [scanFrom, if_neg (by decide), if_pos (by decide)]
  rfl

/-- The scan of the text `s` at byte `pos` comes to the variable `t`, and goes on as a scan from there. -/
def ComesTo (pos : Nat) (s : List Char) (scan : Scan) (t : Token) : Prop :=
  ∃ before s' earlier, s = before ++ sigil :: s' ∧ t = variableAt (pos + width before) s' ∧
    scan = (scanFrom (pos + width before) (sigil :: s')).behind earlier

section

variable {pos : Nat} {s : List Char} {scan : Scan} {t : Token}

theorem ComesTo.behind {lexeme : List Char} (h : ComesTo (pos + width lexeme) s scan t) (earlier : List Token) :
    ComesTo pos (lexeme ++ s) (scan.behind earlier) t := by
  obtain ⟨before, s', earlier', rfl, rfl, rfl⟩ := h
  have hwidth : pos + width lexeme + width before = pos + width (lexeme ++ before) := by
    rw [width_append, Nat.add_assoc]
  rw [hwidth, Scan.behind_behind]
  exact ⟨lexeme ++ before, s', earlier ++ earlier', (List.append_assoc _ _ _).symm, rfl, rfl⟩

/-- Behind a token whose first character is one byte wide. -/
theorem ComesTo.cons {c : Char} (hc : c.utf8Size = 1) {n : Nat}
    (h : ComesTo (pos + 1 + width (s.take n)) (s.drop n) scan t) (t' : Token) :
    ComesTo pos (c :: s) (scan.cons t') t := by
  have hwidth : pos + 1 + width (s.take n) = pos + width (c :: s.take n) := by
    rw [width_cons, hc, Nat.add_assoc]
  rw [hwidth] at h
  have hbehind := h.behind [t']
  rw [List.cons_append, List.take_append_drop] at hbehind
  exact hbehind

theorem comesTo_here (pos : Nat) (s : List Char) :
    ComesTo pos (sigil :: s) (scanFrom pos (sigil :: s)) (variableAt pos s) :=
  ⟨[], s, [], rfl, rfl, rfl⟩

theorem mem_tokens_cons {t' : Token} (ht : t ∈ (scan.cons t').tokens) (hkind : t.kind = .variable)
    (hkind' : t'.kind ≠ .variable) : t ∈ scan.tokens := by
  rcases List.mem_cons.1 ht with rfl | ht
  · exact absurd hkind hkind'
  · exact ht

/-- A scan comes to each of its variables. -/
theorem comesTo_scanFrom (ht : t ∈ (scanFrom pos s).tokens) (hkind : t.kind = .variable) :
    ComesTo pos s (scanFrom pos s) t := by
  -- only a sigil makes a variable, so the token is here in two cases of the scan and further on in the others
  fun_induction scanFrom pos s with
  | case1 => cases ht
  | case2 pos c s hc ih =>
    have hwidth : pos + c.utf8Size = pos + width [c] := rfl
    rw [hwidth] at ih ht ⊢
    exact (ih ht).behind []
  | case3 pos s n stop hopen hspace token =>
    obtain rfl := List.mem_singleton.1 ht
    have hhere := comesTo_here pos s
    rw [scanFrom_sigil, if_pos hopen] at hhere
    exact hhere
  | case4 pos s n stop hopen hspace token ih =>
    rcases List.mem_cons.1 ht with rfl | ht
    · have hhere := comesTo_here pos s
      rw [scanFrom_sigil, if_neg hopen] at hhere
      exact hhere
    · exact (ih ht).cons rfl token
  | case5 pos c s _ _ hname n stop ih =>
    have hc : c.utf8Size = 1 := utf8Size_of_isNamePart (isNamePart_of_isNameStart hname)
    exact (ih (mem_tokens_cons ht hkind (by simp))).cons hc _
  | case6 pos c s _ _ _ hdigit n stop ih =>
    have hc : c.utf8Size = 1 := utf8Size_of_isNamePart (isNamePart_of_isDigit hdigit)
    exact (ih (mem_tokens_cons ht hkind (by simp))).cons hc _
  | case7 => cases ht
  | case8 pos c s _ _ _ _ hquote n hn stop ih =>
    exact (ih (mem_tokens_cons ht hkind (by simp))).cons (utf8Size_of_isQuote hquote) _
  | case9 pos c s _ _ _ _ _ ih =>
    have hwidth : pos + c.utf8Size = pos + width [c] := rfl
    rw [hwidth] at ih ht ⊢
    exact (ih (mem_tokens_cons ht hkind (by simp))).behind [_]

end

/-! ## the two spellings -/

/-- The variable with a path at byte `pos`. -/
def pathAt (pos : Nat) (p : Path) : Token := ⟨pos, pos + width p.chars, .variable, p.text⟩

section

variable {text : List Char}

theorem variableAt_path (pos : Nat) (p : Path) (h : Unclosed text) (optional : Bool) :
    variableAt pos (p.name.chars ++ p.wayChars ++ (indexOpener optional ++ text)) = pathAt pos p := by
  have hwidth : pos + 1 + width (p.name.chars ++ p.wayChars) = pos + width p.chars := by
    rw [Path.chars, width_cons, Nat.add_assoc]
    rfl
  rw [variableAt, pathLength_of_unclosed p h, List.take_left, hwidth]
  rfl

theorem scanFrom_path (pos : Nat) (p : Path) (h : Unclosed text) (optional : Bool) :
    scanFrom pos (p.chars ++ (indexOpener optional ++ text)) =
      if opensIndex (indexOpener optional ++ text) then ⟨[pathAt pos p], some ⟨.index, (pathAt pos p).stop⟩⟩
      else (scanFrom (pathAt pos p).stop (indexOpener optional ++ text)).cons (pathAt pos p) := by
  have hne : (p.name.chars ++ p.wayChars).length ≠ 0 := by
    simp [Name.chars]
  have hlength := pathLength_of_unclosed p h optional
  rw [Path.chars, List.cons_append, scanFrom_sigil, variableAt_path pos p h, hlength, List.drop_left,
    decide_eq_true hne, Bool.true_and]

/-- Behind the path of a variable the bracket stops the scan. -/
theorem scanFrom_plain (pos : Nat) (p : Path) (h : Unclosed text) :
    scanFrom pos (p.chars ++ (indexOpener false ++ text)) =
      ⟨[pathAt pos p], some ⟨.index, (pathAt pos p).stop⟩⟩ := by
  have hopen : opensIndex (indexOpener false ++ text) = true := by
    show (!closesBracket none text) = true
    rw [unclosed_iff.1 h]
    rfl
  rw [scanFrom_path pos p h, if_pos hopen]

theorem scanFrom_character {c : Char} (h : isSpace c = false ∧ c ≠ sigil ∧ isNameStart c = false ∧ c.isDigit = false ∧
    isQuote c = false) (pos : Nat) (s : List Char) :
    scanFrom pos (c :: s) =
      (scanFrom (pos + c.utf8Size) s).cons ⟨pos, pos + c.utf8Size, .character, String.ofList [c]⟩ := by
  obtain ⟨hspace, hsigil, hname, hdigit, hquote⟩ := h
  have hsigil : ¬c = '@' := hsigil
  rw [scanFrom]
  simp only [hspace, hsigil, hname, hdigit, hquote, Bool.false_eq_true, if_false]

/-- Behind `?.` the bracket is a token like others. -/
theorem scanFrom_optional (pos : Nat) (p : Path) (h : Unclosed text) :
    scanFrom pos (p.chars ++ (indexOpener true ++ text)) =
      ((((scanFrom ((pathAt pos p).stop + 3) text).cons
        ⟨(pathAt pos p).stop + 2, (pathAt pos p).stop + 3, .character, "["⟩).cons
        ⟨(pathAt pos p).stop + 1, (pathAt pos p).stop + 2, .character, "."⟩).cons
        ⟨(pathAt pos p).stop, (pathAt pos p).stop + 1, .character, "?"⟩).cons (pathAt pos p) := by
  have hopen : ¬opensIndex (indexOpener true ++ text) = true := Bool.false_ne_true
  have hopener : indexOpener true ++ text = '?' :: '.' :: '[' :: text := rfl
  rw [scanFrom_path pos p h, if_neg hopen, hopener, scanFrom_character (by decide), scanFrom_character (by decide),
    scanFrom_character (by decide)]
  rfl

end

/-! ## what becomes of the code -/

/-- The code leaves something open. -/
def LeavesOpen (code : String) : Prop := ∃ t ∈ Token.all code, t.kind = .error

instance (code : String) : Decidable (LeavesOpen code) := inferInstanceAs (Decidable (∃ t ∈ _, _))

/-- A token without its place. -/
def Token.word (t : Token) : TokenKind × String := (t.kind, t.text)

theorem leavesOpen_iff {code : String} : LeavesOpen code ↔ (Scan.ofCode code).stop ≠ none := by
  constructor
  · rintro ⟨t, ht, hkind⟩ hnone
    rcases Token.mem_all.1 ht with ht | ⟨f, hf, -⟩
    · obtain ⟨_, lexeme, rest, -, hlexeme, -⟩ := (scanned_scanFrom 0 code.toList).exists_lexeme ht
      exact hlexeme.kind_ne_error hkind
    · rw [hnone] at hf
      cases hf
  · intro h
    obtain ⟨f, hf⟩ := Option.ne_none_iff_exists'.1 h
    exact ⟨_, Token.mem_all.2 (.inr ⟨f, hf, rfl⟩), rfl⟩

theorem Scan.toTokens_behind (earlier : List Token) (scan : Scan) (stop : Nat) :
    (scan.behind earlier).toTokens stop = earlier ++ scan.toTokens stop := List.append_assoc _ _ _

/-- The words of a scan do not depend on places. -/
theorem Scan.map_word_toTokens (scan : Scan) (stop : Nat) :
    (scan.toTokens stop).map Token.word =
      scan.toWords.words ++ (scan.toWords.opening.map fun o => (TokenKind.error, o.message)).toList := by
  rw [toTokens, List.map_append]
  cases h : scan.stop with
  | none => simp [toWords, h, Token.word]
  | some f => simp [toWords, h, Token.word]

/-- Where a variable starts, the scan of the code goes on as a scan from there. -/
theorem exists_earlier {code : String} {before rest : List Char} {t : Token} (hs : code.toList = before ++ rest)
    (ht : t ∈ Token.all code) (hkind : t.kind = .variable) (hstart : t.start = width before) :
    ∃ earlier s, rest = sigil :: s ∧ t = variableAt (width before) s ∧
      Scan.ofCode code = (scanFrom (width before) rest).behind earlier := by
  rcases Token.mem_all.1 ht with ht | ⟨f, -, rfl⟩
  · obtain ⟨before', s, earlier, hs', rfl, hscan⟩ := comesTo_scanFrom ht hkind
    have hwidth : width before' = width before := by
      rw [← hstart]
      exact (Nat.zero_add _).symm
    -- what is in front of the variable is as wide, hence the same
    have hdrop := dropBytes?_width before rest
    rw [← hs, hs', ← hwidth, dropBytes?_width] at hdrop
    obtain rfl := Option.some.inj hdrop
    rw [Nat.zero_add, hwidth] at hscan ⊢
    exact ⟨earlier, s, rfl, rfl, hscan⟩
  · cases hkind

/-- The scan of a code at a variable with an index behind it that is left open. -/
theorem scan_at_path {code : String} {before text : List Char} {t : Token} {p : Path} {optional : Bool}
    (hs : code.toList = before ++ (p.chars ++ (indexOpener optional ++ text))) (ht : t ∈ Token.all code)
    (hkind : t.kind = .variable) (hstart : t.start = width before) (hopen : Unclosed text) :
    t = pathAt (width before) p ∧
      ∃ earlier, Scan.ofCode code =
        (scanFrom (width before) (p.chars ++ (indexOpener optional ++ text))).behind earlier := by
  obtain ⟨earlier, s, hrest, rfl, hscan⟩ := exists_earlier hs ht hkind hstart
  obtain rfl : p.name.chars ++ p.wayChars ++ (indexOpener optional ++ text) = s := (List.cons.inj hrest).2
  exact ⟨variableAt_path _ p hopen optional, earlier, hscan⟩

theorem scan_of_plain {code : String} {before text : List Char} {t : Token} {p : Path}
    (hs : code.toList = before ++ (p.chars ++ (indexOpener false ++ text))) (ht : t ∈ Token.all code)
    (hkind : t.kind = .variable) (hstart : t.start = width before) (hopen : Unclosed text) :
    t.text = p.text ∧ ∃ earlier, Scan.ofCode code = ⟨earlier ++ [t], some ⟨.index, t.stop⟩⟩ := by
  obtain ⟨rfl, earlier, hscan⟩ := scan_at_path hs ht hkind hstart hopen
  rw [scanFrom_plain _ p hopen] at hscan
  exact ⟨rfl, earlier, hscan⟩

theorem scan_of_optional {code : String} {before text : List Char} {t : Token} {p : Path}
    (hs : code.toList = before ++ (p.chars ++ (indexOpener true ++ text))) (ht : t ∈ Token.all code)
    (hkind : t.kind = .variable) (hstart : t.start = width before) (hopen : Unclosed text) :
    t.text = p.text ∧ ∃ earlier, Scan.ofCode code = (scanFrom (t.stop + 3) text).behind (earlier ++
      [t, ⟨t.stop, t.stop + 1, .character, "?"⟩, ⟨t.stop + 1, t.stop + 2, .character, "."⟩,
        ⟨t.stop + 2, t.stop + 3, .character, "["⟩]) := by
  obtain ⟨rfl, earlier, hscan⟩ := scan_at_path hs ht hkind hstart hopen
  rw [scanFrom_optional _ p hopen] at hscan
  refine ⟨rfl, earlier, ?_⟩
  rw [hscan, ← Scan.behind_behind]
  rfl

/-- The words of a text are the same wherever it stands. -/
theorem map_word_scanFrom (pos stop : Nat) (text : List Char) :
    ((scanFrom pos text).toTokens stop).map Token.word = (Token.all (String.ofList text)).map Token.word := by
  rw [Token.all_eq_toTokens, Scan.map_word_toTokens, Scan.map_word_toTokens, Scan.ofCode, String.toList_ofList,
    toWords_scanFrom pos 0]

theorem leavesOpen_ofList_iff (pos : Nat) (text : List Char) :
    LeavesOpen (String.ofList text) ↔ (scanFrom pos text).stop ≠ none := by
  have hopening : (scanFrom 0 text).stop.map Stop.opening = (scanFrom pos text).stop.map Stop.opening :=
    congrArg Words.opening (toWords_scanFrom 0 pos text)
  have hnone : (scanFrom 0 text).stop = none ↔ (scanFrom pos text).stop = none := by
    rw [← Option.map_eq_none_iff (f := Stop.opening), hopening, Option.map_eq_none_iff]
  rw [leavesOpen_iff, Scan.ofCode, String.toList_ofList]
  exact not_congr hnone

/-! ## what becomes of the template -/

/-- The tag is code and opens no raw block. -/
def Found.IsCode (f : Found) : Prop :=
  f.tag.kind ≠ .comment ∧ rawName? f.tag (Scan.ofCode f.tag.content) = none

theorem Found.IsCode.move_eq {f : Found} (h : f.IsCode) : f.move = f.codeMove := by
  rw [Found.move, if_neg h.1, h.2, Option.elim_none]

/-- What a template leaves open is decided from any tag on that the scan comes to. -/
theorem Reaches.ending_eq {pos : Nat} {s : List Char} {f : Found} (h : Reaches pos s f) :
    (read pos s).ending = f.move.reading.ending := by
  induction h with
  | first h =>
    rw [read_eq, firstMove, h]
    rfl
  | later hmove _ ih =>
    rw [read_eq, hmove]
    exact ih

section

variable {template : String} {f : Found}

theorem Reaches.stop_of_some (h : Reaches 0 template.toList f) (hcode : f.IsCode) {g : Stop}
    (hg : (Scan.ofCode f.tag.content).stop = some g) :
    (extract template).stop = some ⟨g.opening, f.tag.start + 2 + g.index⟩ := by
  rw [extract_eq, h.ending_eq, hcode.move_eq, Found.codeMove, hg]
  rfl

theorem Reaches.stop_of_none (h : Reaches 0 template.toList f) (hcode : f.IsCode) (hend : f.tag.terminated = true)
    (hg : (Scan.ofCode f.tag.content).stop = none) :
    (extract template).stop = (read f.tag.stop f.rest).ending.stop? := by
  rw [extract_eq, h.ending_eq, hcode.move_eq, Found.codeMove, hg, Option.elim_none, if_pos hend]
  rfl

end

/-- **An index that is left open.**  A variable of a code is followed by a bracket that nothing closes outside of quoted
texts.  Directly behind its path the bracket stops the scan: an error is the last token, behind the variable, and a
template with this code in a tag ends there.  Behind `?.` it does not: the question mark, the dot and the bracket are
tokens, behind them come those of the text behind the bracket, and only what this text leaves open by itself is
reported. -/
theorem Token.index_left_open {code : String} {t : Token} (ht : t ∈ Token.all code) (hkind : t.kind = .variable)
    {before text : List Char} (hstart : t.start = width before) (p : Path) (hopen : Unclosed text) :
    (code.toList = before ++ (p.chars ++ '[' :: text) →
      t.text = p.text ∧
      (∃ earlier, Token.all code = earlier ++ [t, ⟨t.stop, width code.toList, .error, "Unterminated index"⟩]) ∧
      ∀ template f, Reaches 0 template.toList f → f.IsCode → f.tag.content = code →
        (extract template).stop = some ⟨.index, f.tag.start + 2 + t.stop⟩) ∧
    (code.toList = before ++ (p.chars ++ '?' :: '.' :: '[' :: text) →
      t.text = p.text ∧
      (∃ earlier later, Token.all code = earlier ++ t :: ⟨t.stop, t.stop + 1, .character, "?"⟩ ::
          ⟨t.stop + 1, t.stop + 2, .character, "."⟩ :: ⟨t.stop + 2, t.stop + 3, .character, "["⟩ :: later ∧
        later.map Token.word = (Token.all (String.ofList text)).map Token.word) ∧
      (LeavesOpen code ↔ LeavesOpen (String.ofList text)) ∧
      ∀ template f, Reaches 0 template.toList f → f.IsCode → f.tag.content = code → f.tag.terminated = true →
        ¬LeavesOpen (String.ofList text) → (extract template).stop = (read f.tag.stop f.rest).ending.stop?) := by
  constructor
  · intro hs
    obtain ⟨htext, earlier, hscan⟩ := scan_of_plain hs ht hkind hstart hopen
    refine ⟨htext, ⟨earlier, ?_⟩, ?_⟩
    · rw [Token.all_eq_toTokens, hscan]
      exact List.append_assoc _ _ _
    · rintro template f hreaches hcode rfl
      exact hreaches.stop_of_some hcode (congrArg Scan.stop hscan)
  · intro hs
    obtain ⟨htext, earlier, hscan⟩ := scan_of_optional hs ht hkind hstart hopen
    have hleaves : LeavesOpen code ↔ LeavesOpen (String.ofList text) := by
      rw [leavesOpen_iff, hscan, leavesOpen_ofList_iff (t.stop + 3)]
      rfl
    refine ⟨htext, ⟨earlier, (scanFrom (t.stop + 3) text).toTokens (width code.toList), ?_, map_word_scanFrom _ _ _⟩,
      hleaves, ?_⟩
    · rw [Token.all_eq_toTokens, hscan, Scan.toTokens_behind]
      exact List.append_assoc _ _ _
    · rintro template f hreaches hcode rfl hend hnone
      refine hreaches.stop_of_none hcode hend ?_
      rw [hscan]
      exact not_not.1 (mt (leavesOpen_ofList_iff _ text).2 hnone)

/-! ## a key with a bracket in it -/

theorem reaches_first {template : String} {f : Found}
    (h : (nextTag? 0 template.toList).map (fun g => (g.tag, g.rest)) = some (f.tag, f.rest)) :
    Reaches 0 template.toList f := by
  obtain ⟨g, hg, heq⟩ := Option.map_eq_some_iff.1 h
  obtain ⟨htag, hrest⟩ := Prod.mk.inj heq
  obtain rfl : g = f := congrArg₂ Found.mk htag hrest
  exact .first hg

/-- The bracket in the quoted key closes nothing.  The first code has an error, and ends the template that it is in; the
second one has none, since the quoted text behind the bracket is closed, and its template is read to the end. -/
theorem Token.index_left_open_quotedBracket :
    Unclosed "'k]' ".toList ∧ ¬LeavesOpen "'k]' " ∧
    ((⟨2, 6, .variable, "@a.b"⟩ : Token) ∈ Token.all "x @a.b['k]' " ∧
      (∃ earlier, Token.all "x @a.b['k]' " =
        earlier ++ [⟨2, 6, .variable, "@a.b"⟩, ⟨6, 12, .error, "Unterminated index"⟩]) ∧
      (extract "\x7b\x7bx @a.b['k]' \x7d\x7d").stop = some ⟨.index, 8⟩) ∧
    ((⟨2, 6, .variable, "@a.b"⟩ : Token) ∈ Token.all "x @a.b?.['k]' " ∧ ¬LeavesOpen "x @a.b?.['k]' " ∧
      (extract "\x7b\x7bx @a.b?.['k]' \x7d\x7d").stop = none) := by
  have hopen : Unclosed "'k]' ".toList := by decide +kernel
  have hclosed : ¬LeavesOpen "'k]' " := by decide +kernel
  have hplain : (⟨2, 6, .variable, "@a.b"⟩ : Token) ∈ Token.all "x @a.b['k]' " := by decide +kernel
  have hoptional : (⟨2, 6, .variable, "@a.b"⟩ : Token) ∈ Token.all "x @a.b?.['k]' " := by decide +kernel
  have hwidth : (2 : Nat) = width "x ".toList := by decide +kernel
  let p : Path := ⟨⟨'a', [], rfl, List.forall_mem_nil _⟩, [⟨false, .member ⟨'b', [], rfl, List.forall_mem_nil _⟩⟩]⟩
  obtain ⟨-, herror, hstops⟩ := (Token.index_left_open hplain rfl hwidth p hopen).1 (by decide +kernel)
  obtain ⟨-, -, hleaves, hreads⟩ := (Token.index_left_open hoptional rfl hwidth p hopen).2 (by decide +kernel)
  rw [String.ofList_toList] at hleaves hreads
  have hplainTag : Reaches 0 "\x7b\x7bx @a.b['k]' \x7d\x7d".toList ⟨⟨.output, 0, 16, "x @a.b['k]' ", true⟩, []⟩ :=
    reaches_first (by decide +kernel)
  have hoptionalTag :
      Reaches 0 "\x7b\x7bx @a.b?.['k]' \x7d\x7d".toList ⟨⟨.output, 0, 18, "x @a.b?.['k]' ", true⟩, []⟩ :=
    reaches_first (by decide +kernel)
  refine ⟨hopen, hclosed, ⟨hplain, herror, ?_⟩, hoptional, mt hleaves.1 hclosed, ?_⟩
  · exact hstops _ _ hplainTag ⟨by decide, by decide +kernel⟩ rfl
  · rw [hreads _ _ hoptionalTag ⟨by decide, by decide +kernel⟩ rfl rfl hclosed, read_eq]
    rfl

/-- An index that is opened behind `?.` and not closed is not reported, while it is without the question mark and the
dot. -/
theorem optional_index_not_reported :
    Unclosed [] ∧
    Token.all "@a?.[" = [⟨0, 2, .variable, "@a"⟩, ⟨2, 3, .character, "?"⟩, ⟨3, 4, .character, "."⟩,
      ⟨4, 5, .character, "["⟩] ∧
    Token.all "@a[" = [⟨0, 2, .variable, "@a"⟩, ⟨2, 3, .error, "Unterminated index"⟩] ∧
    extract "\x7b\x7b @a?.[ \x7d\x7d" = ⟨["@a"], none⟩ ∧
    extract "\x7b\x7b @a[ \x7d\x7d" = ⟨["@a"], some ⟨.index, 5⟩⟩ := by
  decide +kernel

end BrickScope.Template
