import BrickScope.Proofs.Template.Composition
import BrickScope.Proofs.Template.Cursor

/-!
# Tokens tile the code

The code in a tag is its tokens with white space around them.  A token knows its offsets only, so what is said here is
that these offsets are right: they cut the text into the lexemes, in order, and what is left between them is white
space.

* `Token.pieces`: tokens as pieces of a code;
* `Scanned.layout`: a scan lays the code out in tokens;
* `Token.error_last`: what is left open ends the code;
* `Token.all_tile`: the tokens of a code tile it.
-/

namespace BrickScope.Template

open Text

/-- Every kind of token but the quoted texts has its characters as its text. -/
theorem Lexeme.text_eq {kind : TokenKind} {lexeme rest : List Char} {text : String} (h : Lexeme kind lexeme text rest)
    (hkind : kind ≠ .string) : text = String.ofList lexeme := by
  cases h with
  | quoted hquote hcs => exact absurd rfl hkind
  | _ => rfl

theorem Lexeme.ne_nil {kind : TokenKind} {lexeme rest : List Char} {text : String} (h : Lexeme kind lexeme text rest) :
    lexeme ≠ [] := by
  cases h with
  | name n hrest => simp [Reference.Name.chars]
  | _ => simp

/-- Tokens as pieces of a code: an error takes whatever there is, and between tokens there is white space. -/
def Token.pieces : Pieces Token where
  start := Token.start
  stop := Token.stop
  Spells t lexeme := lexeme ≠ [] ∧ (t.kind = .error ∨ ∃ rest, Lexeme t.kind lexeme t.text rest)
  IsGap gap _ := ∀ c ∈ gap, isSpace c = true

section

variable {pos : Nat} {s : List Char}

/-- White space goes to the first gap. -/
theorem layout_space {c : Char} {tokens : List Token} (hc : isSpace c = true)
    (h : Layout Token.pieces (pos + c.utf8Size) s tokens) : Layout Token.pieces pos (c :: s) tokens := by
  cases h with
  | done hgap => exact .done (List.forall_mem_cons.2 ⟨hc, hgap⟩)
  | @piece _ gap lexeme rest t ts hgap hspells hstart hstop h =>
    have hgap' : Token.pieces.IsGap (c :: gap) (lexeme ++ rest) := List.forall_mem_cons.2 ⟨hc, hgap⟩
    exact .piece hgap' hspells (by rw [hstart, width_cons, Nat.add_assoc]) hstop h

/-- A token at the front of a code. -/
theorem layout_token {lexeme rest : List Char} {t : Token} {tokens : List Token}
    (hspells : Token.pieces.Spells t lexeme) (hstart : t.start = pos) (hstop : t.stop = pos + width lexeme)
    (h : Layout Token.pieces (pos + width lexeme) rest tokens) :
    Layout Token.pieces pos (lexeme ++ rest) (t :: tokens) := by
  have hgap : Token.pieces.IsGap [] (lexeme ++ rest) := by simp [Token.pieces]
  have hlexeme : t.stop = t.start + width lexeme := by rw [hstop, hstart]
  rw [← hstop] at h
  exact .piece hgap hspells hstart hlexeme h

/-- What is left open takes the rest of the code. -/
theorem layout_error (hs : s ≠ []) (opening : Opening) :
    Layout Token.pieces pos s [⟨pos, pos + width s, .error, opening.message⟩] := by
  have hdone : Layout Token.pieces (pos + width s) [] [] := .done (by simp [Token.pieces])
  have h := layout_token (t := ⟨pos, pos + width s, .error, opening.message⟩) ⟨hs, .inl rfl⟩ rfl rfl hdone
  rwa [List.append_nil] at h

theorem Scanned.layout {scan : Scan} (h : Scanned pos s scan) :
    Layout Token.pieces pos s (scan.toTokens (pos + width s)) := by
  induction h with
  | done pos => exact .done (by simp [Token.pieces])
  | space hc h ih =>
    rw [width_cons, ← Nat.add_assoc]
    exact layout_space hc ih
  | token hlexeme h ih =>
    rw [width_append, ← Nat.add_assoc]
    exact layout_token ⟨hlexeme.ne_nil, .inr ⟨_, hlexeme⟩⟩ rfl rfl ih
  | @openIndex pos lexeme rest text hlexeme hname hopen =>
    have hrest : rest ≠ [] := by
      rintro rfl
      cases hopen
    rw [width_append, ← Nat.add_assoc]
    exact layout_token ⟨hlexeme.ne_nil, .inr ⟨_, hlexeme⟩⟩ rfl rfl (layout_error hrest .index)
  | openQuote hc hopen => exact layout_error (List.cons_ne_nil _ _) .quote

end

/-- An error token is the last one, and reaches to the end. -/
theorem Token.error_last {code : String} {before after : List Token} {t : Token}
    (h : Token.all code = before ++ t :: after) (ht : t.kind = .error) : after = [] ∧ t.stop = width code.toList := by
  have hscan : Scanned 0 code.toList (Scan.ofCode code) := scanned_scanFrom 0 code.toList
  have hnot : t ∉ (Scan.ofCode code).tokens := by
    intro hmem
    obtain ⟨_, _, _, -, hlexeme, -⟩ := hscan.exists_lexeme hmem
    exact hlexeme.kind_ne_error ht
  rw [Token.all_eq_toTokens, Scan.toTokens] at h
  cases hstop : (Scan.ofCode code).stop with
  | none =>
    rw [hstop, Option.map_none, Option.toList_none, List.append_nil] at h
    exact absurd (by rw [h]; simp) hnot
  | some f =>
    rw [hstop, Option.map_some, Option.toList_some] at h
    -- of the tokens only the last one is not a token of the scan
    rcases List.eq_nil_or_concat after with rfl | ⟨after, last, rfl⟩
    · obtain ⟨-, hlast⟩ := List.append_inj' h rfl
      obtain rfl := (List.cons.inj hlast).1
      exact ⟨rfl, rfl⟩
    · rw [List.concat_eq_append, ← List.cons_append, ← List.append_assoc] at h
      obtain ⟨htokens, -⟩ := List.append_inj' h rfl
      exact absurd (by rw [htokens]; simp) hnot

/-- **The tokens of a code tile it.**  A scanner that knows the code by byte offsets only, and takes U+0000 for its
end, comes to an end in as many rounds as there are characters, never reads inside a character or behind the end, and
finds these tokens.  The code is the tokens with white space before, between and behind them; each token takes at
least one character, starts where the one before it stops or behind that, and its offsets cut out its characters,
which are its text unless it is quoted.  An error is the last token, and reaches to the end. -/
theorem Token.all_tile (code : String) :
    (∀ limit, code.length < limit → Cursor.tokenize code.toList limit = some (Token.all code)) ∧
    Layout Token.pieces 0 code.toList (Token.all code) ∧
    (∀ t ∈ Token.all code, t.start < t.stop) ∧
    (Token.all code).Pairwise (fun t u => t.stop ≤ u.start) ∧
    (∀ t ∈ Token.all code, ∃ lexeme, slice? t.start t.stop code.toList = some lexeme ∧
      (t.kind = .identifier ∨ t.kind = .number ∨ t.kind = .variable ∨ t.kind = .character →
        t.text = String.ofList lexeme)) ∧
    ∀ before t after, Token.all code = before ++ t :: after → t.kind = .error →
      after = [] ∧ t.stop = code.utf8ByteSize := by
  have hlayout : Layout Token.pieces 0 code.toList (Token.all code) := by
    have h := (scanned_scanFrom 0 code.toList).layout
    rwa [Nat.zero_add] at h
  refine ⟨fun limit hlimit => Cursor.tokenize_eq (by rwa [String.length_toList]), hlayout,
    fun t ht => hlayout.start_lt_stop (fun _ _ h => h.1) ht, hlayout.pairwise, fun t ht => ?_,
    fun before t after h ht => ?_⟩
  · obtain ⟨lexeme, hslice, -, hkind⟩ := hlayout.slice?_eq ht
    refine ⟨lexeme, hslice, fun hplain => ?_⟩
    rcases hkind with herror | ⟨rest, hlexeme⟩
    · simp [herror] at hplain
    · apply hlexeme.text_eq
      intro hstring
      simp [hstring] at hplain
  · rw [← width_toList]
    exact Token.error_last h ht

/-- U+0000 alone and in a key, which it keeps from being static, characters of two bytes, and an index left open. -/
def tileCode : String := "é\x00 @a['\x00'].b\\\t1.5 @c['é"

def tileTokens : List Token :=
  [⟨0, 2, .character, "é"⟩, ⟨2, 3, .character, "\x00"⟩, ⟨4, 6, .variable, "@a"⟩,
    ⟨6, 7, .character, "["⟩, ⟨7, 10, .string, "\x00"⟩, ⟨10, 11, .character, "]"⟩, ⟨11, 12, .character, "."⟩,
    ⟨12, 13, .identifier, "b"⟩, ⟨13, 14, .character, "\\"⟩, ⟨15, 18, .number, "1.5"⟩, ⟨19, 21, .variable, "@c"⟩,
    ⟨21, 25, .error, "Unterminated index"⟩]

/-- U+0000 is a token and the index behind `@a` is cut into its parts; the open index is the last token, and reaches
to the end. -/
theorem Token.all_tile_tileCode :
    Token.all tileCode = tileTokens ∧
    tileCode.length < 24 ∧ Cursor.tokenize tileCode.toList 24 = some (Token.all tileCode) ∧
    (∃ lexeme, slice? 0 2 tileCode.toList = some lexeme ∧ "é" = String.ofList lexeme) ∧
    25 = tileCode.utf8ByteSize := by
  have hall : Token.all tileCode = tileTokens := by decide +kernel
  have hlength : tileCode.length < 24 := by decide +kernel
  obtain ⟨htokenize, -, -, -, hslice, herror⟩ := Token.all_tile tileCode
  have hmem : (⟨0, 2, .character, "é"⟩ : Token) ∈ Token.all tileCode := by
    rw [hall]
    exact List.mem_cons_self
  obtain ⟨lexeme, hlexeme, htext⟩ := hslice _ hmem
  obtain ⟨-, hend⟩ := herror ((Token.all tileCode).take 11) ⟨21, 25, .error, "Unterminated index"⟩ []
    (by rw [hall]; rfl) rfl
  exact ⟨hall, hlength, htokenize 24 hlength, ⟨lexeme, hlexeme, htext (by simp)⟩, hend⟩

end BrickScope.Template
