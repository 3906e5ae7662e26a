import BrickScope.Proofs.Template.LongestPath
import BrickScope.Template.References

/-!
# What a scan says

The tokens of a code without their offsets are its words.  A dash is a word of its own: no scanner takes it along with
what is before it.  So a dash at either end of a code adds a word there and changes no other.

* `quotedLength?_append_dash`, …, `opensIndex_append_dash`: a dash behind the text of each scanner;
* `Scan.toWords`, `toWords_scanFrom`: the words of a scan, wherever the text stands;
* `toWords_dash_cons`, `toWords_append_dash`: a dash in front of a code and behind it;
* `Words.mentions`, `Words.raw?`: the references among the words and the raw block that the first one opens.
-/

namespace BrickScope.Template

open Text Reference

/-! ## a dash behind a text -/

section

variable (s : List Char)

theorem takeWhile_append_dash {f : Char → Bool} (hf : f '-' = false) : (s ++ ['-']).takeWhile f = s.takeWhile f := by
  induction s with
  | nil => simp [hf]
  | cons c s ih => simp [List.takeWhile_cons, ih]

theorem head?_drop_append_dash {c : Char} (hc : c ≠ '-') (n : Nat) :
    ((s ++ ['-']).drop n).head? = some c ↔ (s.drop n).head? = some c := by
  rw [List.drop_append]
  cases s.drop n with
  | nil => cases n - s.length <;> simp [Ne.symm hc]
  | cons d t => simp

theorem quotedLength?_append_dash {quote : Char} (hquote : quote ≠ '-') (stop : Char → Bool) :
    quotedLength? quote stop (s ++ ['-']) = quotedLength? quote stop s := by
  fun_induction quotedLength? quote stop s with
  | case1 => simp [quotedLength?, Ne.symm hquote]
  | case2 c s hstop =>
    rw [List.cons_append, quotedLength?.eq_def]
    simp [hstop]
  | case3 hstop => simp_all [quotedLength?]
  | case4 d s hstop ih => simp_all [quotedLength?]
  | case5 s hstop hslash =>
    rw [List.cons_append, quotedLength?.eq_def]
    simp [hstop, hslash]
  | case6 c s hstop hslash hq ih =>
    rw [List.cons_append, quotedLength?.eq_def]
    simp [hstop, hslash, hq, ih]

theorem nameLength_append_dash : nameLength (s ++ ['-']) = nameLength s := by
  cases s with
  | nil => decide
  | cons c s => rw [List.cons_append, nameLength, nameLength, takeWhile_append_dash s (by decide)]

theorem indexLength?_append_dash : indexLength? (s ++ ['-']) = indexLength? s := by
  have hdigits := takeWhile_append_dash (f := Char.isDigit)
  rcases s with _ | ⟨a, _ | ⟨c, s⟩⟩
  · rfl
  · by_cases ha : a = '['
    · subst ha
      decide
    · simp [indexLength?, ha]
  · by_cases ha : a = '['
    · subst ha
      have hclose := head?_drop_append_dash s (c := ']') (by decide)
      have hkey : isQuote c = true → quotedLength? c (fun d => d.toNat = 0) (s ++ ['-']) =
          quotedLength? c (fun d => d.toNat = 0) s := fun hc =>
        quotedLength?_append_dash s (ne_of_class _ hc (by decide)) _
      simp only [List.cons_append, indexLength?, hdigits s (by decide), hclose]
      by_cases hquote : isQuote c = true
      · rw [hkey hquote]
      · simp [hquote]
    · simp [indexLength?, ha]

theorem accessorLength?_append_dash : accessorLength? (s ++ ['-']) = accessorLength? s := by
  rcases s with _ | ⟨a, s⟩
  · rfl
  by_cases hdot : a = '.'
  · subst hdot
    rw [List.cons_append, accessorLength?, accessorLength?, nameLength_append_dash]
  by_cases hmark : a = '?'
  · subst hmark
    rcases s with _ | ⟨b, s⟩
    · decide
    by_cases hb : b = '.'
    · subst hb
      rw [List.cons_append, List.cons_append, accessorLength?, accessorLength?, nameLength_append_dash,
        indexLength?_append_dash]
    · have h : ∀ t, accessorLength? ('?' :: b :: t) = indexLength? ('?' :: b :: t) := by
        intro t
        simp [accessorLength?, hb]
      have hindex := indexLength?_append_dash ('?' :: b :: s)
      rw [List.cons_append, List.cons_append] at hindex ⊢
      rw [h, h, hindex]
  · have h : ∀ t, accessorLength? (a :: t) = indexLength? (a :: t) := by
      intro t
      simp [accessorLength?, hdot, hmark]
    have hindex := indexLength?_append_dash (a :: s)
    rw [List.cons_append] at hindex ⊢
    rw [h, h, hindex]

theorem accessorsLength_append_dash : accessorsLength (s ++ ['-']) = accessorsLength s := by
  fun_induction accessorsLength s with
  | case1 => simp [accessorsLength, accessorLength?, indexLength?]
  | case2 c s n hn ih =>
    have hlength : n ≤ s.length := by
      obtain ⟨a, rest, hs, hlen, -⟩ := exists_accessor hn
      have := congrArg List.length hs
      simp only [List.length_cons, List.length_append] at this
      omega
    have hdash := accessorLength?_append_dash (c :: s)
    rw [List.cons_append] at hdash ⊢
    rw [accessorsLength, hdash, hn]
    simp only
    rw [List.drop_append_of_le_length hlength, ih]
  | case3 c s hn =>
    have hdash := accessorLength?_append_dash (c :: s)
    rw [List.cons_append] at hdash ⊢
    rw [accessorsLength, hdash]
    split
    · rename_i n hsome
      exact absurd hsome (hn n)
    · rfl

theorem pathLength_append_dash : pathLength (s ++ ['-']) = pathLength s := by
  have hle : nameLength s ≤ s.length := by
    cases s with
    | nil => simp [nameLength]
    | cons c s =>
      have := (List.takeWhile_prefix isNamePart (l := s)).length_le
      rw [nameLength]
      split
      · simpa using this
      · simp
  simp only [pathLength, nameLength_append_dash, List.drop_append_of_le_length hle, accessorsLength_append_dash]

theorem closesBracket_append_dash (quote : Option Char) : closesBracket quote (s ++ ['-']) = closesBracket quote s := by
  fun_induction closesBracket quote s with
  | case1 quote => cases quote <;> simp [closesBracket]
  | case2 q => simp [closesBracket]
  | case3 q d s ih => simp_all [closesBracket]
  | case4 q c s hslash ih =>
    rw [List.cons_append, closesBracket.eq_def]
    simp [hslash, ih]
  | case5 c s hquote ih =>
    rw [List.cons_append, closesBracket.eq_def]
    simp [hquote, ih]
  | case6 c s hquote ih =>
    rw [List.cons_append, closesBracket.eq_def]
    simp [hquote, ih]

theorem opensIndex_append_dash : opensIndex (s ++ ['-']) = opensIndex s := by
  rcases s with _ | ⟨c, s⟩
  · decide
  by_cases hc : c = '['
  · subst hc
    rw [List.cons_append, opensIndex, opensIndex, closesBracket_append_dash]
  · simp [opensIndex, hc]

end

/-! ## what a scan says -/

/-- The tokens of a scan and what it leaves open, without offsets. -/
structure Words where
  words : List (TokenKind × String)
  opening : Option Opening

def Scan.toWords (scan : Scan) : Words := ⟨scan.tokens.map fun t => (t.kind, t.text), scan.stop.map Stop.opening⟩

/-- A word in front of others. -/
def Words.cons (w : TokenKind × String) (ws : Words) : Words := ⟨w :: ws.words, ws.opening⟩

/-- A word behind others, unless something is left open before it. -/
def Words.concat (w : TokenKind × String) (ws : Words) : Words :=
  ws.opening.elim ⟨ws.words ++ [w], none⟩ fun _ => ws

def dashWord : TokenKind × String := (.character, "-")

theorem Scan.toWords_cons (t : Token) (scan : Scan) : (scan.cons t).toWords = scan.toWords.cons (t.kind, t.text) := rfl

theorem Words.concat_cons (w w' : TokenKind × String) (ws : Words) : (ws.cons w).concat w' = (ws.concat w').cons w := by
  obtain ⟨words, opening⟩ := ws
  cases opening <;> rfl

/-- What a scan says does not depend on where the text stands. -/
theorem toWords_scanFrom (pos pos' : Nat) (s : List Char) : (scanFrom pos s).toWords = (scanFrom pos' s).toWords := by
  fun_induction scanFrom pos s generalizing pos' with
  | case1 => simp [scanFrom]
  | case2 pos c s hc ih =>
    rw [ih (pos' + c.utf8Size), scanFrom.eq_def pos' (c :: s)]
    simp [hc]
  | case3 pos s n stop hopen hspace token =>
    rw [scanFrom.eq_def pos']
    simp only [n] at hopen
    simp only [hspace, hopen, if_true]
    rfl
  | case4 pos s n stop hopen hspace token ih =>
    rw [scanFrom.eq_def pos']
    simp only [n] at hopen
    simp only [hopen, hspace]
    simp [Scan.toWords_cons, token, n, ih (pos' + 1 + width (s.take (pathLength s)))]
  | case5 pos c s hspace hsigil hname n stop ih =>
    rw [scanFrom.eq_def pos']
    simp [hspace, hsigil, hname, Scan.toWords_cons, n, ih (pos' + 1 + width (s.take n))]
  | case6 pos c s hspace hsigil hname hdigit n stop ih =>
    rw [scanFrom.eq_def pos']
    simp [hspace, hsigil, hname, hdigit, Scan.toWords_cons, n, ih (pos' + 1 + width (s.take n))]
  | case7 pos c s hspace hsigil hname hdigit hquote hopen =>
    rw [scanFrom.eq_def pos']
    simp [hspace, hsigil, hname, hdigit, hquote, hopen, Scan.toWords]
  | case8 pos c s hspace hsigil hname hdigit hquote n hn stop ih =>
    rw [scanFrom.eq_def pos']
    simp [hspace, hsigil, hname, hdigit, hquote, hn, Scan.toWords_cons, ih (pos' + 1 + width (s.take n))]
  | case9 pos c s hspace hsigil hname hdigit hquote ih =>
    rw [scanFrom.eq_def pos']
    simp [hspace, hsigil, hname, hdigit, hquote, Scan.toWords_cons, ih (pos' + c.utf8Size)]

theorem toWords_dash_cons (pos : Nat) (s : List Char) :
    (scanFrom pos ('-' :: s)).toWords = (scanFrom pos s).toWords.cons dashWord := by
  have hclass : isSpace '-' = false ∧ '-' ≠ '@' ∧ isNameStart '-' = false ∧ '-'.isDigit = false ∧
      isQuote '-' = false := by
    decide
  obtain ⟨hspace, hsigil, hname, hdigit, hquote⟩ := hclass
  rw [scanFrom.eq_def]
  simp only [hspace, hsigil, hname, hdigit, hquote, Bool.false_eq_true, if_false]
  rw [Scan.toWords_cons, toWords_scanFrom _ pos]
  rfl

theorem pathLength_le (s : List Char) : pathLength s ≤ s.length := by
  by_cases h : pathLength s = 0
  · omega
  · obtain ⟨p, rest, hs, hn⟩ := exists_path h
    have hlength := congrArg List.length hs
    rw [List.length_append] at hlength
    omega

/-- A dash behind a code is a word of its own, and changes no other. -/
theorem toWords_append_dash (pos : Nat) (s : List Char) :
    (scanFrom pos (s ++ ['-'])).toWords = (scanFrom pos s).toWords.concat dashWord := by
  have htake : ∀ {n : Nat} {s : List Char}, n ≤ s.length →
      (s ++ ['-']).take n = s.take n ∧ (s ++ ['-']).drop n = s.drop n ++ ['-'] := fun hn =>
    ⟨List.take_append_of_le_length hn, List.drop_append_of_le_length hn⟩
  have hrun : ∀ (f : Char → Bool) (s : List Char), (s.takeWhile f).length ≤ s.length := fun f s =>
    (List.takeWhile_prefix f).length_le
  fun_induction scanFrom pos s with
  | case1 pos =>
    rw [List.nil_append, toWords_dash_cons, scanFrom]
    rfl
  | case2 pos c s hc ih =>
    rw [List.cons_append, scanFrom.eq_def pos]
    simp [hc, ih]
  | case3 pos s n stop hopen hspace token =>
    obtain ⟨htext, hrest⟩ := htake (pathLength_le s)
    rw [List.cons_append, scanFrom.eq_def pos]
    simp only [n] at hopen
    simp only [hspace, pathLength_append_dash, htext, hrest, opensIndex_append_dash, hopen, if_true, if_false,
      Bool.false_eq_true]
    rfl
  | case4 pos s n stop hopen hspace token ih =>
    obtain ⟨htext, hrest⟩ := htake (pathLength_le s)
    rw [List.cons_append, scanFrom.eq_def pos]
    simp only [n] at hopen
    simp only [hspace, pathLength_append_dash, htext, hrest, opensIndex_append_dash, hopen, if_true, if_false,
      Bool.false_eq_true]
    rw [Scan.toWords_cons, Scan.toWords_cons, Words.concat_cons, ← ih]
  | case5 pos c s hspace hsigil hname n stop ih =>
    obtain ⟨htext, hrest⟩ := htake (hrun isNamePart s)
    have hparts := takeWhile_append_dash s (f := isNamePart) (by decide)
    rw [List.cons_append, scanFrom.eq_def pos]
    simp only [hspace, hsigil, hname, hparts, htext, hrest, if_true, if_false, Bool.false_eq_true]
    rw [Scan.toWords_cons, Scan.toWords_cons, Words.concat_cons, ← ih]
  | case6 pos c s hspace hsigil hname hdigit n stop ih =>
    obtain ⟨htext, hrest⟩ := htake (hrun (fun d => d.isDigit || d = '.') s)
    have hdigits := takeWhile_append_dash s (f := fun d => d.isDigit || d = '.') (by decide)
    rw [List.cons_append, scanFrom.eq_def pos]
    simp only [hspace, hsigil, hname, hdigit, hdigits, htext, hrest, if_true, if_false, Bool.false_eq_true]
    rw [Scan.toWords_cons, Scan.toWords_cons, Words.concat_cons, ← ih]
  | case7 pos c s hspace hsigil hname hdigit hquote hopen =>
    have hdash := quotedLength?_append_dash s (ne_of_class _ hquote (by decide)) fun _ => false
    rw [List.cons_append, scanFrom.eq_def pos]
    simp only [hspace, hsigil, hname, hdigit, hquote, hdash, hopen, if_true, if_false, Bool.false_eq_true]
    rfl
  | case8 pos c s hspace hsigil hname hdigit hquote n hn stop ih =>
    have hdash := quotedLength?_append_dash s (ne_of_class _ hquote (by decide)) fun _ => false
    have hle : n ≤ s.length := by
      obtain ⟨cs, rest, rfl, rfl, -⟩ := exists_quoted hn
      simp
    obtain ⟨htext, hrest⟩ := htake hle
    obtain ⟨hinner, -⟩ := htake (Nat.le_trans (Nat.sub_le n 1) hle)
    rw [List.cons_append, scanFrom.eq_def pos]
    simp only [hspace, hsigil, hname, hdigit, hquote, hdash, hn, htext, hinner, hrest, if_true, if_false,
      Bool.false_eq_true]
    rw [Scan.toWords_cons, Scan.toWords_cons, Words.concat_cons, ← ih]
  | case9 pos c s hspace hsigil hname hdigit hquote ih =>
    rw [List.cons_append, scanFrom.eq_def pos]
    simp [hspace, hsigil, hname, hdigit, hquote, Scan.toWords_cons, ih, Words.concat_cons]

/-! ## what a tag says -/

/-- The raw block that a word opens. -/
def rawWord? (w : TokenKind × String) : Option String := if w.1 = .identifier && w.2 ∈ rawNames then some w.2 else none

namespace Words

/-- The references among some words. -/
def mentions (ws : Words) : List String := (ws.words.filter fun w => w.1 = .variable).map Prod.snd

/-- The raw block that the first word opens. -/
def raw? (ws : Words) : Option String := ws.words.head?.bind rawWord?

section

variable (w : TokenKind × String) (ws : Words)

@[simp] theorem opening_cons : (ws.cons w).opening = ws.opening := rfl

@[simp] theorem opening_concat : (ws.concat w).opening = ws.opening := by
  obtain ⟨words, opening⟩ := ws
  cases opening <;> rfl

@[simp] theorem mentions_cons_dash : (ws.cons dashWord).mentions = ws.mentions := rfl

@[simp] theorem mentions_concat_dash : (ws.concat dashWord).mentions = ws.mentions := by
  obtain ⟨words, opening⟩ := ws
  cases opening with
  | none => simp [concat, mentions, dashWord]
  | some opening => rfl

/-- A dash in front of the name of a raw block hides it. -/
@[simp] theorem raw?_cons_dash : (ws.cons dashWord).raw? = none := rfl

@[simp] theorem raw?_concat_dash : (ws.concat dashWord).raw? = ws.raw? := by
  obtain ⟨words, opening⟩ := ws
  cases opening with
  | none => cases words <;> rfl
  | some opening => rfl

end

end Words

end BrickScope.Template
