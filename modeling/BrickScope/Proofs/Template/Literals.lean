import BrickScope.Proofs.Template.Composition
import BrickScope.Proofs.Template.Skipping
import BrickScope.Proofs.Template.Tokens

/-!
# Tags and tokens agree on quoted texts

Two scans keep track of quotes: the search for the end of a tag, which must not stop at a closer in a quoted text, and the
scan for tokens, for which a quoted text is a token of its own or a key inside a variable.  They open and close a quoted
text at the same places.

* `Token.literals`: the quoted texts of a token;
* `Lexeme.passes`: over a token the search skips just its quoted texts;
* `Scanned.literals_eq`: the quoted texts of the tokens are the stretches skipped, up to where the scan stops;
* `literals_eq_skipped`: the same for the tags of a template.
-/

namespace BrickScope

open Text Template Reference

namespace Template

/-! ## quoted texts of tokens -/

/-- The quoted key of an index in brackets. -/
def bracketLiterals (pos : Nat) : List Char → List Span
  | '[' :: c :: s => if isQuote c then [⟨pos + 1, pos + 1 + width s⟩] else []
  | _ => []

/-- The quoted key of a member or index. -/
def accessorLiterals (pos : Nat) : List Char → List Span
  | '?' :: '.' :: s => bracketLiterals (pos + 2) s
  | s => bracketLiterals pos s

/-- The quoted keys of the members and indices at the front of a text. -/
def wayLiterals (pos : Nat) : List Char → List Span
  | [] => []
  | c :: s =>
    match accessorLength? (c :: s) with
    | some (n + 1) => accessorLiterals pos (c :: s.take n) ++ wayLiterals (pos + width (c :: s.take n)) (s.drop n)
    | _ => []
termination_by s => s.length
decreasing_by simp only [List.length_drop, List.length_cons]; omega

/-- The quoted texts of a token: the token itself, or the keys inside a variable. -/
def Token.literals (t : Token) : List Span :=
  match t.kind with
  | .string => [⟨t.start, t.stop⟩]
  | .variable =>
    let s := t.text.toList.tail
    wayLiterals (t.start + 1 + width (s.take (nameLength s))) (s.drop (nameLength s))
  | _ => []

theorem endsName_accessors (accessors : List Accessor) : EndsName (accessors.flatMap Accessor.chars) := by
  have h := @endsName_way accessors [] (by simp [EndsName])
  rwa [List.append_nil] at h

theorem wayLiterals_cons (pos : Nat) (a : Accessor) (accessors : List Accessor) :
    wayLiterals pos ((a :: accessors).flatMap Accessor.chars) =
      accessorLiterals pos a.chars ++ wayLiterals (pos + width a.chars) (accessors.flatMap Accessor.chars) := by
  have hlen := a.accessorLength?_eq fun _ _ => endsName_accessors accessors
  rw [List.flatMap_cons]
  obtain ⟨c, s, hs⟩ := List.exists_cons_of_ne_nil a.chars_ne_nil
  rw [hs, List.cons_append, List.length_cons] at hlen
  rw [hs, List.cons_append, wayLiterals, hlen]
  simp only [List.take_left, List.drop_left]

end Template

namespace Reference

section

variable {mark : Char}

theorem bracketLiterals_member (pos : Nat) (n : Name) : bracketLiterals pos n.chars = [] := by
  unfold bracketLiterals
  split
  · rename_i h
    have hstart := n.isNameStart_first
    rw [(List.cons.inj h).1] at hstart
    exact absurd hstart (by decide)
  · rfl

theorem bracketLiterals_index (pos : Nat) (i : Index) : bracketLiterals pos (Place.index i).bracketed = [] := by
  rw [Place.bracketed, Index.chars, List.cons_append, List.cons_append, bracketLiterals, i.isQuote_first]
  rfl

theorem bracketLiterals_key (pos : Nat) (k : Key) :
    bracketLiterals pos (Place.key k).bracketed =
      [⟨pos + 1, pos + 1 + width (k.quote :: (k.chars.flatMap KeyChar.spelled ++ [k.quote]))⟩] := by
  have hquote := utf8Size_of_isQuote k.isQuote_quote
  have hbracket : ']'.utf8Size = 1 := rfl
  rw [Place.bracketed, List.cons_append, List.cons_append, bracketLiterals, if_pos k.isQuote_quote, Key.inner]
  simp only [width_append, width_cons, width_nil, hquote, hbracket, List.cons.injEq, Span.mk.injEq, and_true, true_and]
  omega

theorem Place.passes (place : Place) : Passes mark place.bracketed fun pos => bracketLiterals pos place.bracketed := by
  cases place with
  | member n =>
    simp only [Place.bracketed, bracketLiterals_member]
    exact passes_plain fun c hc => n.isQuote_of_mem hc
  | index i =>
    simp only [bracketLiterals_index]
    refine passes_plain fun c hc => ?_
    simp only [Place.bracketed, List.cons_append, List.mem_cons, List.mem_append, List.not_mem_nil, or_false] at hc
    rcases hc with rfl | hc | rfl
    · decide
    · exact isQuote_of_isNamePart (isNamePart_of_isDigit (i.isDigit_of_mem hc))
    · decide
  | key k =>
    have hplain : ∀ c ∈ k.chars, c.escaped = false → c.char ≠ k.quote ∧ c.char ≠ '\\' := fun c hc he =>
      ⟨(k.plain c hc he).1, (k.plain c hc he).2.1⟩
    have hopen : Passes mark ['['] fun _ => [] := passes_plain (by simp [isQuote])
    have hclose : Passes mark [']'] fun _ => [] := passes_plain (by simp [isQuote])
    have h := (hopen.append (passes_quoted k.isQuote_quote hplain)).append hclose
    have htext : ['['] ++ (k.quote :: (k.chars.flatMap KeyChar.spelled ++ [k.quote])) ++ [']'] =
        (Place.key k).bracketed := by
      simp [Place.bracketed, Key.inner]
    rw [htext] at h
    simp only [bracketLiterals_key]
    exact h

theorem Accessor.passes (a : Accessor) : Passes mark a.chars fun pos => accessorLiterals pos a.chars := by
  obtain ⟨optional, place⟩ := a
  cases optional with
  | true =>
    have hmark : Passes mark ['?', '.'] fun _ => [] := passes_plain (by simp [isQuote])
    exact hmark.append place.passes
  | false =>
    cases place with
    | member n =>
      have hdot : Passes mark ['.'] fun _ => [] := passes_plain (by simp [isQuote])
      exact hdot.append (passes_plain fun c hc => n.isQuote_of_mem hc)
    | index i => exact Place.passes (.index i)
    | key k => exact Place.passes (.key k)

theorem passes_way (accessors : List Accessor) :
    Passes mark (accessors.flatMap Accessor.chars) fun pos => wayLiterals pos (accessors.flatMap Accessor.chars) := by
  induction accessors with
  | nil =>
    simp only [List.flatMap_nil, wayLiterals]
    exact passes_nil
  | cons a accessors ih =>
    simp only [wayLiterals_cons]
    exact a.passes.append ih

/-- In a reference just the quoted keys are skipped. -/
theorem Path.passes (p : Path) : Passes mark p.chars fun pos =>
    Token.literals ⟨pos, pos + width p.chars, .variable, p.text⟩ := by
  have hliterals : ∀ pos, Token.literals ⟨pos, pos + width p.chars, .variable, p.text⟩ =
      wayLiterals (pos + width (sigil :: p.name.chars)) (p.accessors.flatMap Accessor.chars) := by
    intro pos
    have hlen := p.name.nameLength_eq (endsName_accessors p.accessors)
    have hsigil : sigil.utf8Size = 1 := rfl
    simp only [Token.literals, Path.text, String.toList_ofList, Path.chars, Path.wayChars, List.tail_cons, hlen,
      List.take_left, List.drop_left, width_cons, hsigil, Nat.add_assoc]
  have hname : Passes mark (sigil :: p.name.chars) fun _ => [] := by
    refine passes_plain fun c hc => ?_
    rcases List.mem_cons.1 hc with rfl | hc
    · decide
    · exact p.name.isQuote_of_mem hc
  simp only [hliterals]
  exact hname.append (passes_way p.accessors)

end

end Reference

namespace Template

/-! ## the two scans in step -/

variable {mark : Char}

/-- Over a token the search skips just its quoted texts. -/
theorem Lexeme.passes {kind : TokenKind} {lexeme rest : List Char} {text : String} (h : Lexeme kind lexeme text rest) :
    Passes mark lexeme fun pos => Token.literals ⟨pos, pos + width lexeme, kind, text⟩ := by
  cases h with
  | path s =>
    rcases (isLongest_variable s).2.1 with hsigil | ⟨p, hp⟩
    · have hnone : ∀ pos stop, Token.literals ⟨pos, stop, .variable, String.ofList [sigil]⟩ = [] := fun pos stop => by
        simp [Token.literals, wayLiterals]
      simp only [hsigil, hnone]
      exact passes_plain (by simp [isQuote, sigil])
    · rw [hp]
      exact p.passes
  | name n hrest => exact passes_plain fun c hc => n.isQuote_of_mem hc
  | number hc hs hrest =>
    refine passes_plain fun d hd => ?_
    rcases List.mem_cons.1 hd with rfl | hd
    · exact isQuote_of_isNamePart (isNamePart_of_isDigit hc)
    · have hd := hs d hd
      simp only [Bool.or_eq_true, decide_eq_true_eq] at hd
      rcases hd with hd | rfl
      · exact isQuote_of_isNamePart (isNamePart_of_isDigit hd)
      · decide
  | quoted hquote hcs => exact passes_quoted hquote hcs
  | character hspace hsigil hname hdigit hquote =>
    exact passes_plain fun d hd => List.mem_singleton.1 hd ▸ hquote

theorem Scanned.le_stop {pos : Nat} {s : List Char} {scan : Scan} (h : Scanned pos s scan) :
    ∀ f ∈ scan.stop, pos ≤ f.index := by
  induction h with
  | done pos => intro f hf; cases hf
  | space hc h ih =>
    intro f hf
    have := ih f hf
    omega
  | token hlexeme h ih =>
    intro f hf
    have := ih f hf
    omega
  | openIndex hlexeme hname hopen =>
    intro f hf
    cases hf
    exact Nat.le_add_right _ _
  | openQuote hc hopen =>
    intro f hf
    cases hf
    exact Nat.le_refl _

/-- The offset is before what is left open. -/
def Scan.reaches (scan : Scan) (i : Nat) : Bool := scan.stop.all fun f => i < f.index

theorem isQuote_of_isSpace {c : Char} (h : isSpace c = true) : isQuote c = false := by
  have hne : ∀ d, isSpace d = false → c ≠ d := fun d hd => ne_of_class _ h hd
  simp [isQuote, hne '\'' (by decide), hne '"' (by decide)]

/-- What the search skips in a token and behind it, up to where the scan stops. -/
theorem filter_literals {scan : Scan} {literals spans : List Span} {stop : Nat}
    (hliterals : ∀ span ∈ literals, span.start < stop) (hstop : ∀ f ∈ scan.stop, stop ≤ f.index) :
    (literals ++ spans).filter (fun span => scan.reaches span.start) =
      literals ++ spans.filter fun span => scan.reaches span.start := by
  rw [List.filter_append, List.filter_eq_self.2]
  intro span hspan
  rw [Scan.reaches, Option.all_eq_true]
  intro f hf
  have hlt := hliterals span hspan
  have hle := hstop f hf
  simp only [decide_eq_true_eq]
  omega

theorem filter_behind {scan : Scan} {spans : List Span} {f : Stop} (hf : scan.stop = some f)
    (h : ∀ span ∈ spans, f.index ≤ span.start) : (spans.filter fun span => scan.reaches span.start) = [] := by
  rw [List.filter_eq_nil_iff]
  intro span hspan
  have hle := h span hspan
  simp only [Scan.reaches, hf, Option.all_some, decide_eq_true_eq]
  omega

/-- **The two scans are in step.**  If the text is what the search finds before a closer, then the scan for tokens leaves
no quote open in it, and its quoted texts are the stretches that the search skipped, up to where the scan stops. -/
theorem Scanned.literals_eq {pos : Nat} {s : List Char} {scan : Scan} (h : Scanned pos s scan) {rest : List Char}
    {spans : List Span} (hsearch : search mark pos none (s ++ rest) = some (s.length, spans)) :
    (∀ f ∈ scan.stop, f.opening ≠ .quote) ∧
      scan.tokens.flatMap Token.literals = spans.filter fun span => scan.reaches span.start := by
  induction h generalizing spans with
  | done pos =>
    rw [search_zero hsearch]
    exact ⟨fun f hf => (nomatch hf), rfl⟩
  | @space pos c s scan hc h ih =>
    have hplain : Passes mark [c] fun _ => [] := passes_plain fun d hd => List.mem_singleton.1 hd ▸ isQuote_of_isSpace hc
    obtain ⟨k, spans', hk, rfl, hrest⟩ := hplain.skips hsearch (by simp)
    obtain rfl : s.length = k := by simpa [Nat.add_comm] using hk
    exact ih hrest
  | @token pos kind lexeme rest' text scan hlexeme h ih =>
    have hpasses := @Lexeme.passes mark _ _ _ _ hlexeme
    rw [List.append_assoc] at hsearch
    obtain ⟨k, spans', hk, rfl, hrest⟩ := hpasses.skips hsearch (by simp)
    obtain rfl : rest'.length = k := by simpa using hk
    obtain ⟨hquote, hliterals⟩ := ih hrest
    refine ⟨hquote, ?_⟩
    rw [show (scan.cons _).tokens = _ :: scan.tokens from rfl, List.flatMap_cons, hliterals]
    exact (@filter_literals scan _ _ _ (hpasses.inside pos) h.le_stop).symm
  | @openIndex pos lexeme rest' text hlexeme hname hopen =>
    have hpasses := @Lexeme.passes mark _ _ _ _ hlexeme
    rw [List.append_assoc] at hsearch
    obtain ⟨k, spans', hk, rfl, hrest⟩ := hpasses.skips hsearch (by simp)
    refine ⟨fun f hf => by cases hf; simp, ?_⟩
    have hbehind := le_start_of_search hrest (Nat.le_refl _) fun q hq => (nomatch hq)
    rw [filter_literals (hpasses.inside pos) (by simp), filter_behind rfl hbehind, List.append_nil,
      List.flatMap_singleton]
  | @openQuote pos c s hc hopen =>
    -- the search comes to the closer only when the quote is closed, and so within the text
    rw [List.cons_append, search.eq_def] at hsearch
    simp only [hc, if_true] at hsearch
    obtain ⟨⟨k, spans'⟩, hr, hrn⟩ := Option.map_eq_some_iff.1 hsearch
    obtain rfl : k = s.length := by simpa using (Prod.mk.inj hrn).1
    have hclosed : codeLength? mark (some c) (s ++ rest) = some s.length := by
      have h := search_fst mark (pos + c.utf8Size) (some (c, pos)) (s ++ rest)
      rw [hr] at h
      exact h.symm
    exact absurd hopen (quotedLength?_ne_none hclosed (Nat.le_refl _))

/-! ## the tags of a template -/

theorem exists_of_dropBytes? {n : Nat} {l s : List Char} (h : dropBytes? n l = some s) :
    ∃ before, l = before ++ s ∧ width before = n := by
  fun_induction dropBytes? n l with
  | case1 l => exact ⟨[], Option.some.inj h, rfl⟩
  | case2 => cases h
  | case3 n c l hc ih =>
    obtain ⟨before, rfl, hwidth⟩ := ih h
    exact ⟨c :: before, rfl, by rw [width_cons, hwidth]; omega⟩
  | case4 => cases h

/-- The first tag of a text opens where it does whatever is behind its opener, and there is no tag before it. -/
theorem nextTag?_opener {pos : Nat} {s : List Char} {f : Found} (h : nextTag? pos s = some f) :
    ∃ before mark text kind, s = before ++ '\x7b' :: mark :: text ∧ TagKind.ofMark? mark = some kind ∧
      f = .ofOpener kind (pos + width before) text ∧ nextTag? pos before = none ∧
      ∀ text', nextTag? pos (before ++ '\x7b' :: mark :: text') = some (.ofOpener kind (pos + width before) text') := by
  fun_induction nextTag? pos s with
  | case1 => cases h
  | case2 => cases h
  | case3 pos mark s kind hk =>
    refine ⟨[], mark, s, kind, rfl, hk, (Option.some.inj h).symm, rfl, fun text' => ?_⟩
    rw [List.nil_append, nextTag?, if_pos rfl]
    simp only [hk]
    rfl
  | case4 pos d s hk ih =>
    obtain ⟨before, mark, text, kind, hs, hmark, rfl, hnone, hall⟩ := ih h
    cases before with
    | nil =>
      -- the character behind the brace would be a brace itself, and so a mark
      obtain ⟨rfl, -⟩ := List.cons.inj hs
      cases hk
    | cons d' before =>
      obtain ⟨rfl, rfl⟩ := List.cons.inj hs
      have hwidth : pos + width ('\x7b' :: d :: before) = pos + 1 + width (d :: before) := by
        rw [width_cons, utf8Size_brace, Nat.add_assoc]
      refine ⟨'\x7b' :: d :: before, mark, text, kind, rfl, hmark, by rw [hwidth], ?_, fun text' => ?_⟩
      · rw [nextTag?, if_pos rfl]
        simp only [hk]
        exact hnone
      · rw [List.cons_append, List.cons_append, nextTag?, if_pos rfl, hwidth]
        simp only [hk]
        exact hall text'
  | case5 pos c s hc ih =>
    obtain ⟨before, mark, text, kind, rfl, hmark, rfl, hnone, hall⟩ := ih h
    have hwidth : pos + width (c :: before) = pos + c.utf8Size + width before := by
      rw [width_cons, Nat.add_assoc]
    refine ⟨c :: before, mark, text, kind, rfl, hmark, by rw [hwidth], ?_, fun text' => ?_⟩
    · rw [nextTag?.eq_def]
      simp only [hc, if_false]
      exact hnone
    · rw [List.cons_append, nextTag?.eq_def, hwidth]
      simp only [hc, if_false]
      exact hall text'

theorem exists_search_of_codeLength? {s : List Char} {n : Nat} (h : codeLength? mark none s = some n) (pos : Nat) :
    ∃ spans, search mark pos none s = some (n, spans) := by
  have hfst := search_fst mark pos none s
  rw [Option.map_none, h] at hfst
  obtain ⟨⟨k, spans⟩, hr, rfl⟩ := Option.map_eq_some_iff.1 hfst
  exact ⟨spans, hr⟩

/-- A tag that the search ends, with the text behind its opener. -/
theorem exists_search {template : String} {offset : Nat} {tag : Tag} (h : Tag.next? template offset = some tag)
    (hkind : tag.kind ≠ .comment) (hend : tag.terminated = true) :
    ∃ before rest spans, template.toList = before ++ (tag.content.toList ++ rest) ∧ width before = tag.start + 2 ∧
      search tag.kind.closer 0 none (tag.content.toList ++ rest) = some (tag.content.toList.length, spans) := by
  unfold Tag.next? at h
  cases hdrop : dropBytes? offset template.toList with
  | none =>
    rw [hdrop] at h
    cases h
  | some s =>
    rw [hdrop] at h
    obtain ⟨found, hfound, rfl⟩ := Option.map_eq_some_iff.1 h
    obtain ⟨front, hfront, hwidth⟩ := exists_of_dropBytes? hdrop
    obtain ⟨before, d, text, kind, rfl, hmark, rfl, -⟩ := nextTag?_opener hfound
    cases hlength : kind.contentLength? text with
    | none =>
      rw [Found.ofOpener, hlength] at hend
      cases hend
    | some n =>
      obtain ⟨content, rest, rfl, rfl, -⟩ := kind.contentLength?_eq_some hlength
      simp only [Found.ofOpener, hlength, List.take_left, String.toList_ofList] at hkind ⊢
      have hcode : codeLength? kind.closer none (content ++ kind.closer :: '\x7d' :: rest) = some content.length := by
        cases kind with
        | comment => exact absurd rfl hkind
        | output => exact hlength
        | statement => exact hlength
      obtain ⟨spans, hr⟩ := exists_search_of_codeLength? hcode 0
      refine ⟨front ++ (before ++ ['\x7b', d]), kind.closer :: '\x7d' :: rest, spans, ?_, ?_, hr⟩
      · rw [hfront]
        simp only [List.append_assoc, List.cons_append, List.nil_append]
      · simp only [width_append, width_cons, width_nil, utf8Size_brace, utf8Size_of_ofMark? hmark, hwidth]
        omega

/-- The stretch starts before the error token of a code. -/
def Span.beforeError (code : String) (span : Span) : Bool :=
  (Token.all code).all fun t => t.kind ≠ .error || span.start < t.start

theorem Span.beforeError_eq (code : String) (span : Span) :
    span.beforeError code = (Scan.ofCode code).reaches span.start := by
  have hkind : (Scan.ofCode code).tokens.all (fun t => t.kind ≠ .error || span.start < t.start) = true := by
    rw [List.all_eq_true]
    intro t ht
    obtain ⟨before, lexeme, rest, -, hlexeme, -⟩ := (scanned_scanFrom 0 code.toList).exists_lexeme ht
    simp [hlexeme.kind_ne_error]
  rw [Span.beforeError, Token.all, List.all_append, hkind, Scan.reaches]
  cases (Scan.ofCode code).stop with
  | none => rfl
  | some f => simp

theorem Token.flatMap_literals_all (code : String) :
    (Token.all code).flatMap Token.literals = (Scan.ofCode code).tokens.flatMap Token.literals := by
  rw [Token.all, List.flatMap_append]
  cases (Scan.ofCode code).stop with
  | none => simp
  | some f => simp [Token.literals]

/-- What a tag can leave open: a comment its end, a tag of code something in the code, or else its end. -/
theorem Found.move_stops {f : Found} {mentions : List String} {stop : Stop} (h : f.move = .stops mentions stop) :
    f.tag.kind = .comment ∧ f.tag.terminated = false ∧ stop = ⟨.comment, f.tag.start⟩ ∨ f.tag.kind ≠ .comment ∧
      (f.tag.terminated = false ∧ stop = ⟨.tag, f.tag.start⟩ ∨
        ∃ g, (Scan.ofCode f.tag.content).stop = some g ∧ stop = ⟨g.opening, f.tag.start + 2 + g.index⟩) := by
  unfold Found.move at h
  by_cases hkind : f.tag.kind = .comment
  · rw [if_pos hkind] at h
    split at h
    · cases h
    · rename_i hend
      cases h
      exact .inl ⟨hkind, by simpa using hend, rfl⟩
  · rw [if_neg hkind] at h
    refine .inr ⟨hkind, ?_⟩
    cases hname : rawName? f.tag (Scan.ofCode f.tag.content) with
    | some name =>
      rw [hname, Option.elim_some, Found.rawMove] at h
      cases hn : rawLength? name f.rest with
      | none =>
        rw [hn] at h
        cases h
      | some n =>
        rw [hn] at h
        cases h
    | none =>
      rw [hname, Option.elim_none, Found.codeMove] at h
      cases hstop : (Scan.ofCode f.tag.content).stop with
      | some g =>
        rw [hstop, Option.elim_some] at h
        cases h
        exact .inr ⟨g, rfl, rfl⟩
      | none =>
        rw [hstop, Option.elim_none] at h
        split at h
        · cases h
        · rename_i hend
          cases h
          exact .inl ⟨by simpa using hend, rfl⟩

theorem Opening.message_ne : ∀ {opening : Opening}, opening ≠ .quote → opening.message ≠ "Unterminated quote"
  | .quote, h => absurd rfl h
  | .index, _ => by decide
  | .tag, _ => by decide
  | .comment, _ => by decide

/-- What a template leaves open is left open by one of its tags. -/
theorem exists_stop {template : String} (before s : List Char) (found : List String) {stop : Stop}
    (hs : template.toList = before ++ s) (h : (extractFrom (width before) found s).stop = some stop) :
    ∃ before' s' f mentions, template.toList = before' ++ s' ∧ nextTag? (width before') s' = some f ∧
      f.move = .stops mentions stop := by
  induction hlen : s.length using Nat.strong_induction_on generalizing before s found with
  | _ len ih =>
    rw [extractFrom_eq_resume] at h
    cases hmove : firstMove (width before) s with
    | ends =>
      rw [hmove] at h
      cases h
    | rawOpen =>
      rw [hmove] at h
      cases h
    | reads mentions pos rest =>
      obtain ⟨head, rfl, rfl, hlt, -⟩ := firstMove_reads hmove
      rw [hmove, Move.resume, ← width_append] at h
      exact ih rest.length (hlen ▸ hlt) (before ++ head) rest _ (by rw [hs, List.append_assoc]) h rfl
    | stops mentions stop' =>
      rw [hmove] at h
      obtain rfl : stop' = stop := Option.some.inj h
      cases hf : nextTag? (width before) s with
      | none =>
        rw [firstMove, hf] at hmove
        cases hmove
      | some f =>
        rw [firstMove, hf] at hmove
        exact ⟨before, s, f, mentions, hs, hf, hmove⟩

/-- So a quote is left open by the code of a tag. -/
theorem exists_openQuote {template : String} {i : Nat} (h : (extract template).stop = some ⟨.quote, i⟩) :
    ∃ offset tag k, Tag.next? template offset = some tag ∧ tag.kind ≠ .comment ∧
      (Scan.ofCode tag.content).stop = some ⟨.quote, k⟩ ∧ i = tag.start + 2 + k := by
  obtain ⟨before, s, f, mentions, hs, hf, hmove⟩ := exists_stop [] template.toList [] rfl h
  rcases Found.move_stops hmove with ⟨-, -, hstop⟩ | ⟨hkind, ⟨-, hstop⟩ | ⟨⟨opening, k⟩, hscan, hstop⟩⟩
  · cases hstop
  · cases hstop
  · obtain ⟨rfl, rfl⟩ := Stop.mk.inj hstop
    refine ⟨width before, f.tag, k, ?_, hkind, hscan, rfl⟩
    rw [Tag.next?, hs, dropBytes?_width]
    simp only [hf, Option.map_some]

/-- **Tags and tokens agree on quoted texts.**  The tokens of a terminated output or statement leave no quote open, and
their quoted texts, keys in variables included, are the stretches that the search for the end of the tag skipped, up to
the error token if there is one.  So an open quote is reported only for a tag that is not terminated. -/
theorem literals_eq_skipped (template : String) :
    (∀ offset tag, Tag.next? template offset = some tag → tag.kind ≠ .comment → tag.terminated = true →
      (∀ t ∈ Token.all tag.content, t.kind = .error → t.text ≠ "Unterminated quote") ∧
      ∃ before rest spans, template.toList = before ++ (tag.content.toList ++ rest) ∧ width before = tag.start + 2 ∧
        search tag.kind.closer 0 none (tag.content.toList ++ rest) = some (tag.content.toList.length, spans) ∧
        (Token.all tag.content).flatMap Token.literals = spans.filter (Span.beforeError tag.content)) ∧
    ∀ i, (extract template).stop = some ⟨.quote, i⟩ →
      ∃ offset tag k, Tag.next? template offset = some tag ∧ tag.kind ≠ .comment ∧ tag.terminated = false ∧
        (Scan.ofCode tag.content).stop = some ⟨.quote, k⟩ ∧ i = tag.start + 2 + k := by
  have hstep : ∀ {offset tag}, Tag.next? template offset = some tag → tag.kind ≠ .comment → tag.terminated = true →
      (∀ f ∈ (Scan.ofCode tag.content).stop, f.opening ≠ .quote) ∧
      ∃ before rest spans, template.toList = before ++ (tag.content.toList ++ rest) ∧ width before = tag.start + 2 ∧
        search tag.kind.closer 0 none (tag.content.toList ++ rest) = some (tag.content.toList.length, spans) ∧
        (Token.all tag.content).flatMap Token.literals = spans.filter (Span.beforeError tag.content) := by
    intro offset tag htag hkind hend
    obtain ⟨before, rest, spans, hs, hwidth, hsearch⟩ := exists_search htag hkind hend
    obtain ⟨hquote, hliterals⟩ := (scanned_scanFrom 0 tag.content.toList).literals_eq hsearch
    refine ⟨hquote, before, rest, spans, hs, hwidth, hsearch, ?_⟩
    rw [Token.flatMap_literals_all, funext (Span.beforeError_eq tag.content)]
    exact hliterals
  refine ⟨fun offset tag htag hkind hend => ?_, fun i hi => ?_⟩
  · obtain ⟨hquote, hspans⟩ := hstep htag hkind hend
    refine ⟨fun t ht herror => ?_, hspans⟩
    rcases Token.mem_all.1 ht with ht | ⟨f, hf, rfl⟩
    · obtain ⟨_, lexeme, rest, -, hlexeme, -⟩ := (scanned_scanFrom 0 tag.content.toList).exists_lexeme ht
      exact absurd herror hlexeme.kind_ne_error
    · exact Opening.message_ne (hquote f hf)
  · obtain ⟨offset, tag, k, htag, hkind, hscan, rfl⟩ := exists_openQuote hi
    refine ⟨offset, tag, k, htag, hkind, ?_, hscan, rfl⟩
    by_contra hend
    exact (hstep htag hkind (by simpa using hend)).1 _ hscan rfl

/-- Closers in a quoted text and in a quoted key, and an index left open before another quoted text. -/
def quotedTemplate : String :=
  "\x7b\x7b 'it\\'s \x7d\x7d' ~ @a?.[\"\x7d\x7d\"].b ~ @c[\"q\" \x7d\x7d rest"

def quotedTag : Tag where
  kind := .output
  start := 0
  stop := 40
  content := " 'it\\'s \x7d\x7d' ~ @a?.[\"\x7d\x7d\"].b ~ @c[\"q\" "
  terminated := true

/-- A statement that is not terminated, since its quote is not. -/
def openTemplate : String := "\x7b\x7b @a \x7d\x7d\x7b% if \"x\" == 'y %\x7d"

/-- The quoted text behind the open index is skipped, but belongs to no token. -/
theorem literals_eq_skipped_quotedTemplate :
    (Tag.next? quotedTemplate 0 = some quotedTag ∧ quotedTag.kind ≠ .comment ∧ quotedTag.terminated = true ∧
      (∀ t ∈ Token.all quotedTag.content, t.kind = .error → t.text ≠ "Unterminated quote") ∧
      ∃ before rest spans, quotedTemplate.toList = before ++ (quotedTag.content.toList ++ rest) ∧
        width before = quotedTag.start + 2 ∧
        search quotedTag.kind.closer 0 none (quotedTag.content.toList ++ rest) =
          some (quotedTag.content.toList.length, spans) ∧
        [⟨1, 11⟩, ⟨19, 23⟩] = spans.filter (Span.beforeError quotedTag.content)) ∧
    (extract openTemplate).stop = some ⟨.quote, 21⟩ ∧
      ∃ offset tag k, Tag.next? openTemplate offset = some tag ∧ tag.kind ≠ .comment ∧ tag.terminated = false ∧
        (Scan.ofCode tag.content).stop = some ⟨.quote, k⟩ ∧ 21 = tag.start + 2 + k := by
  have htag : Tag.next? quotedTemplate 0 = some quotedTag := by
    rw [Tag.next?, dropBytes?_zero]
    decide +kernel
  have hliterals : (Token.all quotedTag.content).flatMap Token.literals = [⟨1, 11⟩, ⟨19, 23⟩] := by decide +kernel
  have hopen : (extract openTemplate).stop = some ⟨.quote, 21⟩ := by decide +kernel
  obtain ⟨hquote, before, rest, spans, hs, hwidth, hsearch, heq⟩ :=
    (literals_eq_skipped quotedTemplate).1 0 quotedTag htag (by decide) rfl
  rw [hliterals] at heq
  exact ⟨⟨htag, by decide, rfl, hquote, before, rest, spans, hs, hwidth, hsearch, heq⟩, hopen,
    (literals_eq_skipped openTemplate).2 21 hopen⟩

end Template

end BrickScope
