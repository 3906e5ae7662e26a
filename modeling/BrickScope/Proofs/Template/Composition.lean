import BrickScope.Proofs.Template.Closers

/-!
# Templates are read piece by piece

The scan of a template goes from tag to tag.  One move takes the first tag of a text, or the raw block that it opens, and
what it finds depends neither on the offset of the text nor on what is behind.  So a template whose scan runs to its end
can be read first, and what comes behind it afterwards.

* `Found.move`, `firstMove`: one move of the scan, `extractFrom_eq_resume`;
* `firstMove_shift`, `firstMove_reads`, `firstMove_ends`: a move at another offset, and with other text behind it;
* `read`: all moves, with every mention of a reference, `extractFrom_eq`;
* `extract_append`: the references and the error of two templates, one behind the other.
-/

namespace BrickScope

section

variable {α : Type} [DecidableEq α]

theorem addAllNew_append (seen xs ys : List α) :
    addAllNew seen (xs ++ ys) = addAllNew (addAllNew seen xs) ys := List.foldl_append

/-- What is added to some members are the first occurrences of the others. -/
theorem addAllNew_eq_append (seen xs : List α) :
    addAllNew seen xs = seen ++ (distinct xs).filter (· ∉ seen) := by
  induction xs using List.reverseRecOn with
  | nil => simp [addAllNew, distinct]
  | append_singleton xs x ih =>
    have hsingle : ∀ seen : List α, addAllNew seen [x] = addNew seen x := fun _ => rfl
    rw [distinct, addAllNew_append, addAllNew_append, hsingle, hsingle, ih, ← distinct]
    by_cases hx : x ∈ seen
    · by_cases hd : x ∈ distinct xs <;> simp [addNew, hx, hd, List.filter_append]
    · by_cases hd : x ∈ distinct xs <;> simp [addNew, hx, hd, List.filter_append]

end

theorem Text.width_toList (s : String) : width s.toList = s.utf8ByteSize := by
  have hwidth : ∀ cs : List Char, width cs = String.utf8Len cs := by
    intro cs
    induction cs with
    | nil => rfl
    | cons c cs ih =>
      rw [width_cons, ih, String.utf8Len, Nat.add_comm]
  rw [hwidth, String.utf8Len_toList]

namespace Template

open Text

/-! ## one tag at a time -/

/-- What the scan does with the first tag of a text. -/
inductive Move where
  /-- There is no tag. -/
  | ends
  /-- The tag mentions some references, and the scan goes on behind it, or behind the raw block that it opens. -/
  | reads (mentions : List String) (pos : Nat) (rest : List Char)
  /-- The tag mentions some references and leaves something open. -/
  | stops (mentions : List String) (stop : Stop)
  /-- The tag opens a raw block that is not closed. -/
  | rawOpen

/-- The move over a tag that is code. -/
def Found.codeMove (f : Found) : Move :=
  (Scan.ofCode f.tag.content).stop.elim
    (if f.tag.terminated then .reads (Scan.ofCode f.tag.content).references f.tag.stop f.rest
      else .stops (Scan.ofCode f.tag.content).references ⟨.tag, f.tag.start⟩)
    fun stop => .stops (Scan.ofCode f.tag.content).references ⟨stop.opening, f.tag.start + 2 + stop.index⟩

/-- The move over a raw block. -/
def Found.rawMove (f : Found) (name : String) : Move :=
  (rawLength? name f.rest).elim .rawOpen fun n => .reads [] (f.tag.stop + width (f.rest.take n)) (f.rest.drop n)

def Found.move (f : Found) : Move :=
  if f.tag.kind = .comment then
    if f.tag.terminated then .reads [] f.tag.stop f.rest else .stops [] ⟨.comment, f.tag.start⟩
  else (rawName? f.tag (Scan.ofCode f.tag.content)).elim f.codeMove f.rawMove

def firstMove (pos : Nat) (s : List Char) : Move := ((nextTag? pos s).map Found.move).getD .ends

/-- The extraction from the text behind a move. -/
def Move.resume (found : List String) : Move → Extraction
  | ends | rawOpen => ⟨found, none⟩
  | reads mentions pos rest => extractFrom pos (addAllNew found mentions) rest
  | stops mentions stop => ⟨addAllNew found mentions, some stop⟩

theorem extractFrom_eq_resume (pos : Nat) (found : List String) (s : List Char) :
    extractFrom pos found s = (firstMove pos s).resume found := by
  rw [extractFrom]
  split
  · rename_i h
    rw [firstMove, h]
    rfl
  · rename_i tag rest h
    have hmove : firstMove pos s = (⟨tag, rest⟩ : Found).move := by
      rw [firstMove, h]
      rfl
    have hnil : addAllNew found [] = found := rfl
    rw [hmove, Found.move]
    by_cases hkind : tag.kind = .comment
    · simp only [hkind, if_true]
      split
      · rw [Move.resume, hnil]
      · rw [Move.resume, hnil]
    · simp only [hkind, if_false]
      cases hname : rawName? tag (Scan.ofCode tag.content) with
      | some name =>
        simp only [Option.elim_some, Found.rawMove]
        cases rawLength? name rest with
        | some n => rfl
        | none => rfl
      | none =>
        simp only [Option.elim_none, Found.codeMove]
        cases (Scan.ofCode tag.content).stop with
        | some stop => rfl
        | none =>
          simp only [Option.elim_none]
          split <;> rfl

/-! ## moving a text -/

def Found.shift (k : Nat) (f : Found) : Found :=
  ⟨{ f.tag with start := f.tag.start + k, stop := f.tag.stop + k }, f.rest⟩

def Stop.shift (k : Nat) (stop : Stop) : Stop := ⟨stop.opening, stop.index + k⟩

def Move.shift (k : Nat) : Move → Move
  | ends => ends
  | reads mentions pos rest => reads mentions (pos + k) rest
  | stops mentions stop => stops mentions (stop.shift k)
  | rawOpen => rawOpen

theorem ofOpener_shift (kind : TagKind) (start k : Nat) (s : List Char) :
    Found.ofOpener kind (start + k) s = (Found.ofOpener kind start s).shift k := by
  unfold Found.ofOpener
  split <;> simp only [Found.shift, Found.mk.injEq, Tag.mk.injEq, and_true, true_and] <;> omega

theorem nextTag?_shift (pos k : Nat) (s : List Char) : nextTag? (pos + k) s = (nextTag? pos s).map (Found.shift k) := by
  fun_induction nextTag? pos s with
  | case1 => rfl
  | case2 => rfl
  | case3 pos d s kind hk =>
    rw [nextTag?, if_pos rfl]
    simp only [hk, ofOpener_shift, Option.map_some]
  | case4 pos d s hk ih =>
    rw [nextTag?, if_pos rfl]
    simp only [hk]
    rw [← ih]
    congr 1
    omega
  | case5 pos c s hc ih =>
    rw [nextTag?.eq_def]
    simp only [hc, if_false]
    rw [← ih]
    congr 1
    omega

theorem Found.codeMove_shift (k : Nat) (f : Found) : (f.shift k).codeMove = f.codeMove.shift k := by
  obtain ⟨⟨kind, start, stop, content, terminated⟩, rest⟩ := f
  unfold Found.codeMove Found.shift
  cases (Scan.ofCode content).stop with
  | some stop =>
    simp only [Option.elim_some, Move.shift, Stop.shift, Move.stops.injEq, Stop.mk.injEq, true_and]
    omega
  | none => cases terminated <;> rfl

theorem Found.rawMove_shift (k : Nat) (f : Found) (name : String) :
    (f.shift k).rawMove name = (f.rawMove name).shift k := by
  unfold Found.rawMove
  dsimp only [Found.shift]
  cases rawLength? name f.rest with
  | none => rfl
  | some n =>
    simp only [Option.elim_some, Move.shift, Move.reads.injEq, true_and, and_true]
    omega

theorem Found.move_shift (k : Nat) (f : Found) : (f.shift k).move = f.move.shift k := by
  have hraw : rawName? (f.shift k).tag (Scan.ofCode (f.shift k).tag.content) =
      rawName? f.tag (Scan.ofCode f.tag.content) := rfl
  have hkind : (f.shift k).tag.kind = f.tag.kind := rfl
  unfold Found.move
  rw [hraw, hkind]
  split
  · obtain ⟨⟨kind, start, stop, content, terminated⟩, rest⟩ := f
    cases terminated <;> rfl
  · cases rawName? f.tag (Scan.ofCode f.tag.content) with
    | some name => exact f.rawMove_shift k name
    | none => exact f.codeMove_shift k

theorem firstMove_shift (pos k : Nat) (s : List Char) : firstMove (pos + k) s = (firstMove pos s).shift k := by
  rw [firstMove, firstMove, nextTag?_shift]
  cases nextTag? pos s with
  | none => rfl
  | some f => exact f.move_shift k

/-! ## text behind a text -/

theorem not_mem_rawName {tag : Tag} {scan : Scan} {name : String} (h : rawName? tag scan = some name) :
    tag.terminated = true ∧ '\x7b' ∉ name.toList := by
  have hnames : ∀ name ∈ rawNames, '\x7b' ∉ name.toList := by decide
  unfold rawName? at h
  split at h
  · rename_i hkind
    simp only [Bool.and_eq_true] at hkind
    split at h
    · split at h
      · rename_i ht
        simp only [Bool.and_eq_true, decide_eq_true_eq] at ht
        obtain rfl := Option.some.inj h
        exact ⟨hkind.2, hnames _ ht.2⟩
      · cases h
    · cases h
  · cases h

section

variable {f : Found} {mentions : List String} {pos : Nat} {rest : List Char}

theorem Found.codeMove_reads (h : f.codeMove = .reads mentions pos rest) :
    f.tag.terminated = true ∧ f.rest = rest ∧ pos = f.tag.stop ∧
      ∀ q, Found.codeMove ⟨f.tag, q⟩ = .reads mentions pos q := by
  unfold Found.codeMove at h ⊢
  cases hstop : (Scan.ofCode f.tag.content).stop with
  | some stop => simp [hstop] at h
  | none =>
    rw [hstop, Option.elim_none] at h
    by_cases ht : f.tag.terminated = true
    · rw [if_pos ht] at h
      cases h
      refine ⟨ht, rfl, rfl, fun q => ?_⟩
      rw [hstop, Option.elim_none, if_pos ht]
    · rw [if_neg ht] at h
      cases h

theorem Found.rawMove_reads {name : String} (hname : '\x7b' ∉ name.toList)
    (h : f.rawMove name = .reads mentions pos rest) :
    ∃ body, f.rest = body ++ rest ∧ pos = f.tag.stop + width body ∧
      ∀ q, Found.rawMove ⟨f.tag, body ++ q⟩ name = .reads mentions pos q := by
  obtain ⟨tag, behind⟩ := f
  simp only [Found.rawMove] at h ⊢
  cases hn : rawLength? name behind with
  | none => simp [hn] at h
  | some n =>
    obtain ⟨body, rest', rfl, rfl, -, hall⟩ := rawLength?_eq_some hname hn
    simp only [hn, Option.elim_some, List.take_left, List.drop_left, Move.reads.injEq] at h
    obtain ⟨rfl, rfl, rfl⟩ := h
    refine ⟨body, rfl, rfl, fun q => ?_⟩
    rw [hall, Option.elim_some, List.take_left, List.drop_left]

theorem Found.move_reads (h : f.move = .reads mentions pos rest) :
    f.tag.terminated = true ∧ ∃ body, f.rest = body ++ rest ∧ pos = f.tag.stop + width body ∧
      ∀ q, Found.move ⟨f.tag, body ++ q⟩ = .reads mentions pos q := by
  unfold Found.move at h ⊢
  by_cases hkind : f.tag.kind = .comment
  · simp only [hkind, if_true] at h ⊢
    by_cases ht : f.tag.terminated = true
    · rw [if_pos ht] at h
      cases h
      exact ⟨ht, [], rfl, rfl, fun q => if_pos ht⟩
    · rw [if_neg ht] at h
      cases h
  · simp only [hkind, if_false] at h ⊢
    cases hname : rawName? f.tag (Scan.ofCode f.tag.content) with
    | some name =>
      obtain ⟨ht, hbrace⟩ := not_mem_rawName hname
      rw [hname] at h
      exact ⟨ht, Found.rawMove_reads hbrace h⟩
    | none =>
      rw [hname] at h
      obtain ⟨ht, hrest, hpos, hall⟩ := Found.codeMove_reads h
      exact ⟨ht, [], hrest, hpos, hall⟩

end

/-- What a move reads does not depend on what is behind it. -/
theorem firstMove_reads {pos pos' : Nat} {s rest : List Char} {mentions : List String}
    (h : firstMove pos s = .reads mentions pos' rest) :
    ∃ head, s = head ++ rest ∧ pos' = pos + width head ∧ rest.length < s.length ∧
      ∀ q, firstMove pos (head ++ q) = .reads mentions pos' q := by
  cases hf : nextTag? pos s with
  | none =>
    rw [firstMove, hf] at h
    cases h
  | some f =>
    rw [firstMove, hf] at h
    obtain ⟨ht, body, hrest, hpos, hmove⟩ := Found.move_reads h
    obtain ⟨head, hs, hstop, hnext⟩ := nextTag?_terminated hf ht
    have hlt := length_rest_lt hf
    refine ⟨head ++ body, ?_, ?_, ?_, fun q => ?_⟩
    · rw [hs, hrest, List.append_assoc]
    · rw [hpos, hstop, width_append]
      omega
    · rw [hrest, List.length_append] at hlt
      omega
    · rw [firstMove, List.append_assoc, hnext]
      exact hmove q

theorem Found.move_ne_ends (f : Found) : f.move ≠ .ends := by
  unfold Found.move
  split
  · split <;> simp
  · cases rawName? f.tag (Scan.ofCode f.tag.content) with
    | some name =>
      rw [Option.elim_some, Found.rawMove]
      cases rawLength? name f.rest <;> simp
    | none =>
      rw [Option.elim_none, Found.codeMove]
      cases (Scan.ofCode f.tag.content).stop with
      | some stop => simp
      | none =>
        rw [Option.elim_none]
        split <;> simp

theorem nextTag?_append_of_none {pos : Nat} {s : List Char} (h : nextTag? pos s = none)
    (hs : s.getLast? ≠ some '\x7b') (q : List Char) : nextTag? pos (s ++ q) = nextTag? (pos + width s) q := by
  fun_induction nextTag? pos s with
  | case1 => simp
  | case2 => simp at hs
  | case3 pos d s kind hk => cases h
  | case4 pos d s hk ih =>
    have ih := ih h (by simpa using hs)
    rw [List.cons_append] at ih
    rw [List.cons_append, List.cons_append, nextTag?, if_pos rfl]
    simp only [hk]
    rw [ih, width_cons '\x7b', utf8Size_brace]
    congr 1
    omega
  | case5 pos c s hc ih =>
    rw [List.cons_append, nextTag?.eq_def]
    simp only [hc, if_false]
    rw [ih h, width_cons]
    · congr 1
      omega
    · cases s with
      | nil => simp
      | cons d s => simpa using hs

theorem firstMove_ends {pos : Nat} {s : List Char} (h : firstMove pos s = .ends) (hs : s.getLast? ≠ some '\x7b')
    (q : List Char) : firstMove pos (s ++ q) = firstMove (pos + width s) q := by
  have hnone : nextTag? pos s = none := by
    cases hf : nextTag? pos s with
    | none => rfl
    | some f =>
      rw [firstMove, hf] at h
      exact absurd h f.move_ne_ends
  rw [firstMove, firstMove, nextTag?_append_of_none hnone hs]

/-! ## all tags -/

/-- How the scan of a text ends. -/
inductive Ending where
  | finished
  | stopped (stop : Stop)
  | rawOpen
  deriving DecidableEq

/-- What the scan of a text comes to: all mentions of references, in order, and how it ends. -/
structure Reading where
  mentions : List String
  ending : Ending
  deriving DecidableEq

theorem length_lt_of_reads {pos pos' : Nat} {s rest : List Char} {mentions : List String}
    (h : firstMove pos s = .reads mentions pos' rest) : rest.length < s.length := by
  obtain ⟨-, -, -, hlt, -⟩ := firstMove_reads h
  exact hlt

/-- Read the text that starts at byte `pos`. -/
def read (pos : Nat) (s : List Char) : Reading :=
  match h : firstMove pos s with
  | .ends => ⟨[], .finished⟩
  | .rawOpen => ⟨[], .rawOpen⟩
  | .stops mentions stop => ⟨mentions, .stopped stop⟩
  | .reads mentions pos' rest =>
    have := length_lt_of_reads h
    ⟨mentions ++ (read pos' rest).mentions, (read pos' rest).ending⟩
termination_by s.length

/-- The reading from a move on. -/
def Move.reading : Move → Reading
  | ends => ⟨[], .finished⟩
  | rawOpen => ⟨[], .rawOpen⟩
  | stops mentions stop => ⟨mentions, .stopped stop⟩
  | reads mentions pos rest => ⟨mentions ++ (read pos rest).mentions, (read pos rest).ending⟩

theorem read_eq (pos : Nat) (s : List Char) : read pos s = (firstMove pos s).reading := by
  rw [read]
  split <;> rename_i h <;> exact (congrArg Move.reading h).symm

def Ending.stop? : Ending → Option Stop
  | stopped stop => some stop
  | finished | rawOpen => none

def Ending.shift (k : Nat) : Ending → Ending
  | stopped stop => stopped (stop.shift k)
  | finished => finished
  | rawOpen => rawOpen

theorem read_shift (pos k : Nat) (s : List Char) :
    read (pos + k) s = ⟨(read pos s).mentions, (read pos s).ending.shift k⟩ := by
  induction hn : s.length using Nat.strong_induction_on generalizing pos s with
  | _ n ih =>
    subst hn
    rw [read_eq, read_eq pos, firstMove_shift]
    cases hm : firstMove pos s with
    | ends => rfl
    | rawOpen => rfl
    | stops mentions stop => rfl
    | reads mentions pos' rest =>
      have hrest := ih _ (length_lt_of_reads hm) pos' rest rfl
      simp only [Move.shift, Move.reading, hrest]

theorem extractFrom_eq (pos : Nat) (found : List String) (s : List Char) :
    extractFrom pos found s = ⟨addAllNew found (read pos s).mentions, (read pos s).ending.stop?⟩ := by
  induction hn : s.length using Nat.strong_induction_on generalizing pos found s with
  | _ n ih =>
    subst hn
    rw [extractFrom_eq_resume, read_eq]
    cases hm : firstMove pos s with
    | ends => rfl
    | rawOpen => rfl
    | stops mentions stop => rfl
    | reads mentions pos' rest =>
      have hrest := ih _ (length_lt_of_reads hm) pos' (addAllNew found mentions) rest rfl
      rw [Move.resume, hrest, Move.reading, addAllNew_append]

/-- **A text behind a text.**  If the scan of a text runs to its end, it goes on with what is behind the text. -/
theorem read_append {pos : Nat} {p : List Char} (hend : (read pos p).ending = .finished)
    (hp : p.getLast? ≠ some '\x7b') (q : List Char) :
    read pos (p ++ q) =
      ⟨(read pos p).mentions ++ (read (pos + width p) q).mentions, (read (pos + width p) q).ending⟩ := by
  induction hn : p.length using Nat.strong_induction_on generalizing pos p with
  | _ n ih =>
    subst hn
    rw [read_eq] at hend
    rw [read_eq pos p]
    cases hm : firstMove pos p with
    | ends =>
      rw [read_eq, firstMove_ends hm hp, ← read_eq]
      rfl
    | rawOpen =>
      rw [hm] at hend
      cases hend
    | stops mentions stop =>
      rw [hm] at hend
      cases hend
    | reads mentions pos' rest =>
      rw [hm] at hend
      obtain ⟨head, rfl, rfl, hlt, hall⟩ := firstMove_reads hm
      have hlast : rest.getLast? ≠ some '\x7b' := by
        intro hlast
        rw [List.getLast?_append, hlast] at hp
        exact hp rfl
      have hrest := ih _ hlt hend hlast rfl
      rw [read_eq, List.append_assoc, hall, Move.reading, hrest, width_append]
      simp only [Move.reading, List.append_assoc, Nat.add_assoc]

/-! ## templates -/

/-- The references in the tags of a template, with repetitions. -/
def mentions (template : String) : List String := (read 0 template.toList).mentions

/-- The scan comes to a raw block that is not closed. -/
def leavesRawOpen (template : String) : Bool := (read 0 template.toList).ending = .rawOpen

theorem extract_eq (template : String) :
    extract template = ⟨distinct (mentions template), (read 0 template.toList).ending.stop?⟩ :=
  extractFrom_eq 0 [] template.toList

/-- **Templates are read piece by piece.**  If the scan of a template runs to its end and the template does not end with a
brace, then with another one behind it the references of the first come before the others of the second, and what the
second one leaves open is left open, further on by the bytes of the first.  In every template the references are the
mentions in its tags, each at its first occurrence. -/
theorem extract_append (p q : String) (hstop : (extract p).stop = none) (hraw : leavesRawOpen p = false)
    (hbrace : p.toList.getLast? ≠ some '\x7b') :
    (extract (p ++ q)).references =
      (extract p).references ++ (extract q).references.filter (· ∉ (extract p).references) ∧
    (extract (p ++ q)).stop = (extract q).stop.map (fun stop => ⟨stop.opening, stop.index + p.utf8ByteSize⟩) ∧
    ∀ template, (extract template).references = distinct (mentions template) ∧ (extract template).references.Nodup := by
  have hend : (read 0 p.toList).ending = .finished := by
    rw [extract_eq] at hstop
    rw [leavesRawOpen, decide_eq_false_iff_not] at hraw
    cases he : (read 0 p.toList).ending with
    | finished => rfl
    | stopped stop =>
      rw [he] at hstop
      cases hstop
    | rawOpen => exact absurd he hraw
  have hread := read_append hend hbrace q.toList
  have hshift := read_shift 0 (width p.toList) q.toList
  rw [hshift, ← String.toList_append] at hread
  refine ⟨?_, ?_, fun template => ?_⟩
  · rw [extract_eq, extract_eq, extract_eq]
    dsimp only
    rw [← addAllNew_eq_append, mentions, hread, distinct, addAllNew_append]
    rfl
  · rw [extract_eq, extract_eq, hread, width_toList]
    dsimp only
    cases (read 0 q.toList).ending <;> rfl
  · rw [extract_eq]
    exact ⟨rfl, nodup_distinct _⟩

/-- Text with an output and a raw block. -/
def framed : String := "Hi \x7b\x7b @a \x7d\x7d\x7b% raw %\x7d\x7b\x7b @x \x7d\x7d\x7b% endraw %\x7d"

/-- Two outputs, the second of which leaves an index open. -/
def openTail : String := "\x7b\x7b @a + @b \x7d\x7d\x7b\x7b @c['k \x7d\x7d"

/-- What was found in the first template is not lost by what the second leaves open. -/
theorem extract_append_openTail :
    (extract framed).stop = none ∧ leavesRawOpen framed = false ∧ framed.toList.getLast? ≠ some '\x7b' ∧
    (extract (framed ++ openTail)).references = ["@a", "@b", "@c"] ∧
    (extract (framed ++ openTail)).stop = some ⟨.index, 58⟩ := by
  have hstop : (extract framed).stop = none := by decide +kernel
  have hraw : leavesRawOpen framed = false := by decide +kernel
  have hbrace : framed.toList.getLast? ≠ some '\x7b' := by decide +kernel
  obtain ⟨hreferences, hshifted, -⟩ := extract_append framed openTail hstop hraw hbrace
  refine ⟨hstop, hraw, hbrace, ?_, ?_⟩
  · rw [hreferences]
    decide +kernel
  · rw [hshifted]
    decide +kernel

end Template

end BrickScope
