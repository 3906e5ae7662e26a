import BrickScope.Proofs.Template.Literals
import BrickScope.Proofs.Template.Opacity
import BrickScope.Proofs.Template.Words

/-!
# Dashes inside the delimiters of a statement

A statement may have a dash behind its opener or before its closer, which asks to trim the text around it.  For the tokens
of the statement a dash is a word like others.  So dashes have no influence on the references, with one exception: the name
of a raw block is looked for at the first token only, and with a dash in front it is not the first one.

* `Reaches`: the tags that a scan comes to, `Reaches.exists_opener`;
* `codeLength?_append_dash`: the closer of a statement with a dash before it;
* `toWords_dashed`, `mentions_dashed`: the words of a statement with dashes, and the references from it on;
* `dashes_exact`: the references of a template with dashes in one of its statements.
-/

namespace BrickScope.Template

open Text Reference

/-! ## what a tag says -/

theorem Scan.references_eq (scan : Scan) : scan.references = scan.toWords.mentions := by
  simp only [Scan.references, Words.mentions, Scan.toWords, List.filter_map, List.map_map]
  rfl

theorem rawName?_eq {tag : Tag} (hkind : tag.kind = .statement) (hend : tag.terminated = true) (scan : Scan) :
    rawName? tag scan = scan.toWords.raw? := by
  rw [rawName?, hkind, hend, Words.raw?, Scan.toWords, List.head?_map]
  cases scan.tokens.head? <;> rfl

/-- Only whether something is left open counts. -/
theorem Scan.elim_stop {α : Type} (scan : Scan) (a b : α) :
    (scan.stop.elim a fun _ => b) = scan.toWords.opening.elim a fun _ => b := by
  rw [Scan.toWords]
  cases scan.stop <;> rfl

/-- Where a text stands has no say in what it mentions. -/
theorem mentions_read (pos : Nat) (s : List Char) : (read pos s).mentions = mentions (String.ofList s) := by
  have h := read_shift 0 pos s
  rw [Nat.zero_add] at h
  rw [h, mentions, String.toList_ofList]

namespace Found

variable (f : Found)

theorem mentions_codeMove (hend : f.tag.terminated = true) : f.codeMove.reading.mentions =
    (Scan.ofCode f.tag.content).references ++
      (Scan.ofCode f.tag.content).stop.elim (mentions (String.ofList f.rest)) fun _ => [] := by
  rw [codeMove, hend]
  cases (Scan.ofCode f.tag.content).stop with
  | none => simp [Move.reading, mentions_read]
  | some stop => simp [Move.reading]

theorem mentions_rawMove (name : String) : (f.rawMove name).reading.mentions =
    (rawLength? name f.rest).elim [] fun n => mentions (String.ofList (f.rest.drop n)) := by
  rw [rawMove]
  cases rawLength? name f.rest with
  | none => rfl
  | some n => simp [Move.reading, mentions_read]

end Found

/-! ## the tags that a scan comes to -/

/-- The scan of the text at byte `pos` comes to the tag. -/
inductive Reaches : Nat → List Char → Found → Prop
  | first {pos : Nat} {s : List Char} {f : Found} (h : nextTag? pos s = some f) : Reaches pos s f
  | later {pos pos' : Nat} {s rest : List Char} {mentions : List String} {f : Found}
    (hmove : firstMove pos s = .reads mentions pos' rest) (h : Reaches pos' rest f) : Reaches pos s f

/-- What the scan finds before a tag that it comes to does not depend on what is behind the opener of the tag. -/
theorem Reaches.exists_opener {pos : Nat} {s : List Char} {f : Found} (h : Reaches pos s f) :
    ∃ before mark text kind, s = before ++ '\x7b' :: mark :: text ∧ TagKind.ofMark? mark = some kind ∧
      f = .ofOpener kind (pos + width before) text ∧
      ∀ text', (read pos (before ++ '\x7b' :: mark :: text')).mentions =
        (read pos before).mentions ++ (Found.ofOpener kind (pos + width before) text').move.reading.mentions := by
  induction h with
  | first h =>
    obtain ⟨before, mark, text, kind, rfl, hmark, rfl, hnone, hall⟩ := nextTag?_opener h
    refine ⟨before, mark, text, kind, rfl, hmark, rfl, fun text' => ?_⟩
    rw [read_eq, read_eq _ before, firstMove, firstMove, hall, hnone]
    rfl
  | @later pos pos' s rest mentions f hmove _ ih =>
    obtain ⟨head, rfl, rfl, -, hall⟩ := firstMove_reads hmove
    obtain ⟨before, mark, text, kind, rfl, hmark, rfl, hread⟩ := ih
    have hwidth : pos + width (head ++ before) = pos + width head + width before := by
      rw [width_append, Nat.add_assoc]
    refine ⟨head ++ before, mark, text, kind, by rw [List.append_assoc], hmark, by rw [hwidth], fun text' => ?_⟩
    rw [List.append_assoc, read_eq, read_eq pos (head ++ before), hall, hall, Move.reading, Move.reading, hwidth]
    simp only [hread, List.append_assoc]

/-! ## the end of a statement -/

/-- A statement with its delimiters. -/
def statement (content : List Char) : List Char := '\x7b' :: '%' :: (content ++ ['%', '\x7d'])

theorem codeLength?_dash_cons (s : List Char) :
    codeLength? '%' none ('-' :: s) = (codeLength? '%' none s).map (· + 1) := by
  have hquote : isQuote '-' = false := by decide
  have hmark : '-' ≠ '%' := by decide
  rw [codeLength?.eq_def]
  simp [hquote, hmark]

theorem exists_tail_of_append {content tail s : List Char} {c : Char} {k : Nat} (hs : content ++ tail = c :: s)
    (hk : k + 1 = content.length) :
    ∃ content', content = c :: content' ∧ content' ++ tail = s ∧ k = content'.length := by
  cases content with
  | nil => simp at hk
  | cons c' content' =>
    obtain ⟨rfl, htail⟩ := List.cons.inj hs
    exact ⟨content', rfl, htail, by simpa using hk⟩

/-- The closer is found behind a dash before it, since it is not in quotes. -/
theorem codeLength?_append_dash {quote : Option Char} {content rest : List Char}
    (h : codeLength? '%' quote (content ++ '%' :: '\x7d' :: rest) = some content.length) :
    codeLength? '%' quote (content ++ '-' :: '%' :: '\x7d' :: rest) = some (content.length + 1) := by
  generalize hs : content ++ '%' :: '\x7d' :: rest = s at h
  fun_induction codeLength? '%' quote s generalizing content with
  | case1 => cases h
  | case2 => cases h
  | case3 quote d s ih =>
    obtain ⟨k, hk, hlen⟩ := Option.map_eq_some_iff.1 h
    obtain ⟨content, rfl, hs, hlen⟩ := exists_tail_of_append hs hlen
    obtain ⟨content, rfl, hs, rfl⟩ := exists_tail_of_append hs hlen
    rw [List.cons_append, List.cons_append, codeLength?.eq_def]
    simp [ih hs hk]
  | case4 quote c s hc ih =>
    obtain ⟨k, hk, hlen⟩ := Option.map_eq_some_iff.1 h
    obtain ⟨content, rfl, hs, rfl⟩ := exists_tail_of_append hs hlen
    rw [List.cons_append, codeLength?.eq_def]
    simp [hc, ih hs hk]
  | case5 c s hq ih =>
    obtain ⟨k, hk, hlen⟩ := Option.map_eq_some_iff.1 h
    obtain ⟨content, rfl, hs, rfl⟩ := exists_tail_of_append hs hlen
    rw [List.cons_append, codeLength?.eq_def]
    simp [hq, ih hs hk]
  | case6 c s hq hc =>
    obtain rfl : content = [] := List.eq_nil_of_length_eq_zero (Option.some.inj h).symm
    have hclose : codeLength? '%' none ('%' :: '\x7d' :: rest) = some 0 := rfl
    rw [List.nil_append, codeLength?_dash_cons, hclose]
    rfl
  | case7 c s hq hc ih =>
    obtain ⟨k, hk, hlen⟩ := Option.map_eq_some_iff.1 h
    obtain ⟨content, rfl, rfl, rfl⟩ := exists_tail_of_append hs hlen
    have hearly : ¬(c = '%' && (content ++ '-' :: '%' :: '\x7d' :: rest).head? = some '\x7d') = true := by
      cases content with
      | nil => simp
      | cons c₂ content => exact hc
    rw [List.cons_append, codeLength?.eq_def]
    simp only [hq, hearly, if_false, Bool.false_eq_true, ih rfl hk]
    rfl

/-- A statement with dashes is found as a statement with a longer content. -/
theorem ofOpener_dashed {content rest d d' : List Char} (hd : IsDash d) (hd' : IsDash d')
    (h : codeLength? '%' none (content ++ '%' :: '\x7d' :: rest) = some content.length) (start : Nat) :
    Found.ofOpener .statement start (d ++ content ++ d' ++ '%' :: '\x7d' :: rest) =
      ⟨⟨.statement, start, start + 2 + width (d ++ content ++ d') + 2, String.ofList (d ++ content ++ d'), true⟩,
        rest⟩ := by
  have hbehind : codeLength? '%' none (content ++ d' ++ '%' :: '\x7d' :: rest) = some (content ++ d').length := by
    rcases hd' with rfl | rfl
    · simpa using h
    · simpa using codeLength?_append_dash h
  have hlength : codeLength? '%' none (d ++ content ++ d' ++ '%' :: '\x7d' :: rest) =
      some (d ++ content ++ d').length := by
    rcases hd with rfl | rfl
    · simpa using hbehind
    · rw [List.append_assoc] at hbehind
      rw [List.append_assoc, List.append_assoc, List.singleton_append, codeLength?_dash_cons, hbehind]
      simp
  have hcontent : TagKind.contentLength? .statement (d ++ content ++ d' ++ '%' :: '\x7d' :: rest) =
      some (d ++ content ++ d').length := hlength
  rw [Found.ofOpener, hcontent]
  simp only [List.take_left, List.drop_length_add_append]
  rfl

/-! ## statements with dashes -/

/-- Dashes around a code change neither its references nor what it leaves open; one in front hides that it opens a raw
block. -/
theorem toWords_dashed {d d' : List Char} (hd : IsDash d) (hd' : IsDash d') (pos : Nat) (content : List Char) :
    (scanFrom pos (d ++ content ++ d')).toWords.mentions = (scanFrom pos content).toWords.mentions ∧
    (scanFrom pos (d ++ content ++ d')).toWords.opening = (scanFrom pos content).toWords.opening ∧
    (scanFrom pos (d ++ content ++ d')).toWords.raw? =
      if d = [] then (scanFrom pos content).toWords.raw? else none := by
  rcases hd with rfl | rfl
  · rcases hd' with rfl | rfl
    · simp
    · simp [toWords_append_dash]
  · rcases hd' with rfl | rfl
    · simp [toWords_dash_cons]
    · simp [toWords_dash_cons, toWords_append_dash]

theorem Found.move_statement {f : Found} (hkind : f.tag.kind = .statement) (hend : f.tag.terminated = true) :
    f.move = (Scan.ofCode f.tag.content).toWords.raw?.elim f.codeMove f.rawMove := by
  rw [Found.move, if_neg (by rw [hkind]; decide), rawName?_eq hkind hend]

/-- What a statement mentions, with all that is behind it, when dashes are put into it. -/
theorem mentions_dashed {f : Found} (hkind : f.tag.kind = .statement) (hend : f.tag.terminated = true) {d d' : List Char}
    (hd : IsDash d) (hd' : IsDash d') (start stop : Nat) :
    (⟨⟨.statement, start, stop, String.ofList (d ++ f.tag.content.toList ++ d'), true⟩, f.rest⟩ :
      Found).move.reading.mentions = (if d = [] then f.move else f.codeMove).reading.mentions := by
  obtain ⟨hmentions, hopening, hraw⟩ := toWords_dashed hd hd' 0 f.tag.content.toList
  have hcode : ∀ g : Found, g.tag.terminated = true → g.tag.content = String.ofList (d ++ f.tag.content.toList ++ d') →
      g.rest = f.rest → g.codeMove.reading.mentions = f.codeMove.reading.mentions := by
    intro g hg hcontent hrest
    rw [g.mentions_codeMove hg, f.mentions_codeMove hend, hcontent, hrest, Scan.elim_stop, Scan.elim_stop,
      Scan.references_eq, Scan.references_eq, Scan.ofCode, Scan.ofCode, String.toList_ofList, hmentions, hopening]
  rw [Found.move_statement rfl rfl, Found.move_statement hkind hend, Scan.ofCode, String.toList_ofList, hraw]
  by_cases h : d = []
  · rw [if_pos h, if_pos h, Scan.ofCode]
    cases (scanFrom 0 f.tag.content.toList).toWords.raw? with
    | none => exact hcode _ rfl rfl rfl
    | some name => exact (Found.mentions_rawMove _ name).trans (f.mentions_rawMove name).symm
  · rw [if_neg h, if_neg h]
    exact hcode _ rfl rfl rfl

theorem eq_of_ofMark?_statement {mark : Char} (h : TagKind.ofMark? mark = some .statement) : mark = '%' := by
  unfold TagKind.ofMark? at h
  split_ifs at h with houtput hstatement hcomment
  · cases h
  · exact hstatement
  · cases h

theorem Found.kind_ofOpener (kind : TagKind) (start : Nat) (s : List Char) :
    (Found.ofOpener kind start s).tag.kind = kind := by
  unfold Found.ofOpener
  split <;> rfl

/-- A statement that is terminated, taken apart. -/
theorem exists_content {start : Nat} {s : List Char}
    (h : (Found.ofOpener .statement start s).tag.terminated = true) :
    ∃ content rest, s = content ++ '%' :: '\x7d' :: rest ∧
      codeLength? '%' none (content ++ '%' :: '\x7d' :: rest) = some content.length ∧
      Found.ofOpener .statement start s =
        ⟨⟨.statement, start, start + 2 + width content + 2, String.ofList content, true⟩, rest⟩ := by
  cases hn : TagKind.contentLength? .statement s with
  | none =>
    rw [Found.ofOpener, hn] at h
    cases h
  | some n =>
    obtain ⟨content, rest, rfl, rfl, -⟩ := TagKind.contentLength?_eq_some hn
    have hlength : codeLength? '%' none (content ++ '%' :: '\x7d' :: rest) = some content.length := hn
    have hfound := ofOpener_dashed (.inl rfl) (.inl rfl) hlength start
    rw [List.nil_append, List.append_nil] at hfound
    exact ⟨content, rest, rfl, hlength, hfound⟩

/-- A statement that the scan comes to, with dashes: what is mentioned before it stays, and it is read with what is
behind it. -/
theorem Reaches.exists_statement {pos : Nat} {s : List Char} {f : Found} (h : Reaches pos s f)
    (hkind : f.tag.kind = .statement) (hend : f.tag.terminated = true) :
    ∃ before, s = before ++ (statement f.tag.content.toList ++ f.rest) ∧ pos + width before = f.tag.start ∧
      (read pos s).mentions = (read pos before).mentions ++ f.move.reading.mentions ∧
      ∀ d d', IsDash d → IsDash d' →
        (read pos (before ++ (statement (d ++ f.tag.content.toList ++ d') ++ f.rest))).mentions =
          (read pos before).mentions ++ (if d = [] then f.move else f.codeMove).reading.mentions := by
  obtain ⟨before, mark, text, kind, hs, hmark, hf, hread⟩ := h.exists_opener
  obtain rfl : kind = .statement := by
    rw [← hkind, hf, Found.kind_ofOpener]
  obtain rfl := eq_of_ofMark?_statement hmark
  obtain ⟨content, rest, htext, hlength, hfound⟩ := exists_content (hf ▸ hend)
  have hcontent : f.tag.content.toList = content := by
    rw [hf, hfound, String.toList_ofList]
  have hrest : f.rest = rest := by
    rw [hf, hfound]
  have hstatement : ∀ c : List Char, before ++ (statement c ++ rest) =
      before ++ '\x7b' :: '%' :: (c ++ '%' :: '\x7d' :: rest) := by
    intro c
    simp [statement]
  refine ⟨before, ?_, ?_, ?_, fun d d' hd hd' => ?_⟩
  · rw [hcontent, hrest, hstatement, hs, htext]
  · rw [hf, hfound]
  · rw [hs, hread, ← hf]
  · rw [hcontent, hrest, hstatement, hread, ofOpener_dashed hd hd' hlength, ← mentions_dashed hkind hend hd hd', hcontent,
      hrest]

/-- **Dashes inside the delimiters of a statement.**  A statement that the scan comes to and that is terminated may get a
dash behind its opener, before its closer or at both places: the template has the same references, unless the statement
opens a raw block and the dash is behind its opener.  In that case the block is not hidden.  Without the dash, the
references before the statement are followed by those behind the block; with it, they are followed by those of the
statement itself and, if it leaves nothing open, by those of all the text behind it. -/
theorem dashes_exact {template : String} {f : Found} (h : Reaches 0 template.toList f) (hkind : f.tag.kind = .statement)
    (hend : f.tag.terminated = true) :
    ∃ before, template.toList = before ++ (statement f.tag.content.toList ++ f.rest) ∧ width before = f.tag.start ∧
      ∀ d d', IsDash d → IsDash d' →
        ((d = [] ∨ rawName? f.tag (Scan.ofCode f.tag.content) = none) →
          (extract (String.ofList (before ++ (statement (d ++ f.tag.content.toList ++ d') ++ f.rest)))).references =
            (extract template).references) ∧
        ∀ name, d ≠ [] → rawName? f.tag (Scan.ofCode f.tag.content) = some name →
          (extract template).references = distinct (mentions (String.ofList before) ++
            (rawLength? name f.rest).elim [] fun n => mentions (String.ofList (f.rest.drop n))) ∧
          (extract (String.ofList (before ++ (statement (d ++ f.tag.content.toList ++ d') ++ f.rest)))).references =
            distinct (mentions (String.ofList before) ++ ((Scan.ofCode f.tag.content).references ++
              (Scan.ofCode f.tag.content).stop.elim (mentions (String.ofList f.rest)) fun _ => [])) := by
  obtain ⟨before, hs, hstart, hplain, hdashed⟩ := h.exists_statement hkind hend
  have hmentions : (extract template).references =
      distinct (mentions (String.ofList before) ++ f.move.reading.mentions) := by
    rw [extract_eq, mentions, hplain, mentions_read]
  have hedited : ∀ d d', IsDash d → IsDash d' →
      (extract (String.ofList (before ++ (statement (d ++ f.tag.content.toList ++ d') ++ f.rest)))).references =
        distinct (mentions (String.ofList before) ++ (if d = [] then f.move else f.codeMove).reading.mentions) := by
    intro d d' hd hd'
    rw [extract_eq, mentions, String.toList_ofList, hdashed d d' hd hd', mentions_read]
  have hmove : f.move = (rawName? f.tag (Scan.ofCode f.tag.content)).elim f.codeMove f.rawMove := by
    rw [Found.move, if_neg (by rw [hkind]; decide)]
  refine ⟨before, hs, by rw [← hstart, Nat.zero_add], fun d d' hd hd' => ⟨?_, fun name hne hname => ⟨?_, ?_⟩⟩⟩
  · rintro (rfl | hraw)
    · rw [hedited _ _ hd hd', hmentions, if_pos rfl]
    · rw [hedited _ _ hd hd', hmentions, hmove, hraw, Option.elim_none, ite_self]
  · rw [hmentions, hmove, hname, Option.elim_some, f.mentions_rawMove]
  · rw [hedited _ _ hd hd', if_neg hne, f.mentions_codeMove hend]

/-- A block that mentions a reference, and a statement that ends it. -/
def hiddenOutput : List Char := "\x7b\x7b @x \x7d\x7d\x7b% endraw %\x7d".toList

/-- The statement that opens the block. -/
def rawFound : Found := ⟨⟨.statement, 0, 9, " raw ", true⟩, hiddenOutput⟩

/-- The block is hidden, but not if its opening statement has a dash in front, as its end may have. -/
theorem dashed_raw_block_not_hidden :
    Reaches 0 (rawBlock "raw" "\x7b\x7b @x \x7d\x7d").toList rawFound ∧ rawFound.tag.kind = .statement ∧
    rawFound.tag.terminated = true ∧
    (rawBlock "raw" "\x7b\x7b @x \x7d\x7d").toList = statement " raw ".toList ++ hiddenOutput ∧
    (extract (rawBlock "raw" "\x7b\x7b @x \x7d\x7d")).references = [] ∧
    (extract (String.ofList (statement "- raw ".toList ++ hiddenOutput))).references = ["@x"] ∧
    (extract (String.ofList (statement "- raw -".toList ++ hiddenOutput))).references = ["@x"] := by
  have htext : (rawBlock "raw" "\x7b\x7b @x \x7d\x7d").toList = statement " raw ".toList ++ hiddenOutput := by
    decide +kernel
  refine ⟨.first ?_, rfl, rfl, htext, by decide +kernel, by decide +kernel, by decide +kernel⟩
  rw [htext]
  rfl

/-- A raw block, and behind it a statement with a closer in a quoted key. -/
def blockAndLoop : String :=
  rawBlock "raw" "\x7b\x7b @x \x7d\x7d" ++ "\x7b% for i in @c['%\x7d'] %\x7d\x7b\x7b @d \x7d\x7d"

def loopFound : Found := ⟨⟨.statement, 29, 52, " for i in @c['%\x7d'] ", true⟩, "\x7b\x7b @d \x7d\x7d".toList⟩

/-- The scan comes to the statement behind the block. -/
theorem reaches_loopFound : Reaches 0 blockAndLoop.toList loopFound := by
  have hbody : rawLength? "raw" "\x7b\x7b @x \x7d\x7d".toList = none := by decide +kernel
  have hskips := skips_rawBlock (by decide) (fun m => not_infix_of_rawLength? hbody) (isRawEnd_rawEnd "raw")
  have htext : blockAndLoop.toList =
      (rawOpener "raw").toList ++ ("\x7b\x7b @x \x7d\x7d".toList ++ (rawEnd "raw").toList) ++
      (statement loopFound.tag.content.toList ++ loopFound.rest) := by
    decide +kernel
  have hwidth :
      0 + width ((rawOpener "raw").toList ++ ("\x7b\x7b @x \x7d\x7d".toList ++ (rawEnd "raw").toList)) = 29 := by
    decide +kernel
  have hmove := hskips 0 (statement loopFound.tag.content.toList ++ loopFound.rest)
  rw [hwidth] at hmove
  have hnext : (nextTag? 29 (statement loopFound.tag.content.toList ++ loopFound.rest)).map (fun f => (f.tag, f.rest)) =
      some (loopFound.tag, loopFound.rest) := by
    decide +kernel
  obtain ⟨f, hf, heq⟩ := Option.map_eq_some_iff.1 hnext
  obtain ⟨htag, hrest⟩ := Prod.mk.inj heq
  obtain rfl : f = loopFound := congrArg₂ Found.mk htag hrest
  rw [htext]
  exact .later hmove (.first hf)

/-- A statement that opens no raw block may have dashes at both ends. -/
theorem dashes_exact_blockAndLoop :
    Reaches 0 blockAndLoop.toList loopFound ∧ loopFound.tag.kind = .statement ∧ loopFound.tag.terminated = true ∧
    IsDash ['-'] ∧ rawName? loopFound.tag (Scan.ofCode loopFound.tag.content) = none ∧
    ∃ before, blockAndLoop.toList = before ++ (statement loopFound.tag.content.toList ++ loopFound.rest) ∧
      width before = 29 ∧
      (extract (String.ofList (before ++ (statement (['-'] ++ loopFound.tag.content.toList ++ ['-']) ++
        loopFound.rest)))).references = ["@c['%\x7d']", "@d"] := by
  have hplain : (extract blockAndLoop).references = ["@c['%\x7d']", "@d"] := by decide +kernel
  have hraw : rawName? loopFound.tag (Scan.ofCode loopFound.tag.content) = none := by decide +kernel
  obtain ⟨before, hs, hwidth, hall⟩ := dashes_exact reaches_loopFound rfl rfl
  refine ⟨reaches_loopFound, rfl, rfl, .inr rfl, hraw, before, hs, hwidth, ?_⟩
  rw [(hall ['-'] ['-'] (.inr rfl) (.inr rfl)).1 (.inr hraw), hplain]

end BrickScope.Template
