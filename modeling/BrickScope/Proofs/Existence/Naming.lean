import BrickScope.Proofs.Existence.Definedness
import BrickScope.Proofs.Existence.Openness
import BrickScope.Proofs.Sources
import Mathlib.Data.List.DropRight

/-!
# Names and the references that they are

A name is recorded in one of two ways: as it is, as one segment, or as the path that it spells as a reference.  It is
always looked up as a reference.  So a name that is recorded as it is can be found by itself exactly if it is one
segment as a reference; otherwise its first segment is another variable.

* `Reference.IsOneSegment`: names without dots and brackets that do not end with a blank,
  `Reference.exists_segments_eq_cons`;
* `Node.Marked`, `Node.KeepsMarks`: paths that something was said of, which later writes keep;
* `Scope.Marks`: the same of a source, `Scope.Marks.defines`;
* `Scope.AlikeAt`: scopes that differ in one source, and there not in one variable, `Scope.AlikeAt.defines_iff`.
-/

namespace BrickScope

/-! ## names of one segment -/

namespace Reference

/-- A name that is one segment: nothing in it ends a member, and no blank is cut off at its end. -/
def IsOneSegment (name : String) : Prop :=
  (∀ c ∈ name.toList, c ≠ '.' ∧ c ≠ '[') ∧ ∀ c ∈ name.toList.getLast?, Text.isBlank c = false

-- by the characters of the name: the instances for bounded quantifiers would go through all characters
instance (name : String) : Decidable (IsOneSegment name) :=
  decidable_of_iff ((name.toList.all fun c => c ≠ '.' && c ≠ '[') = true ∧
    (name.toList.getLast?.all fun c => !Text.isBlank c) = true) (by simp [IsOneSegment, Option.all_eq_true])

theorem consSegment_of_ne_nil {segment : List Char} (h : segment ≠ []) (rest : List String) :
    consSegment segment rest = String.ofList segment :: rest := by
  obtain ⟨c, s, rfl⟩ := List.exists_cons_of_ne_nil h
  exact consSegment_cons c s rest

/-- A character that neither ends a member nor is passed over belongs to it. -/
theorem segmentsFrom_step {c : Char} {t : List Char} (hdot : c ≠ '.') (hmark : ¬(c = '?' ∧ t.head? = some '.'))
    (hopen : c ≠ '[') (done : List Char) :
    segmentsFrom (.member done) (c :: t) = segmentsFrom (.member (c :: done)) t := by
  rw [segmentsFrom.eq_def]
  simp [hdot, hmark, hopen]

/-- Where nothing ends a member, all of the text belongs to it. -/
theorem segmentsFrom_whole {t : List Char} (h : ∀ c ∈ t, c ≠ '.' ∧ c ≠ '[') (done : List Char) :
    segmentsFrom (.member done) t = consSegment (done.reverse ++ t) [] := by
  induction t generalizing done with
  | nil => rw [segmentsFrom, List.append_nil]
  | cons c t ih =>
    obtain ⟨⟨hdot, hopen⟩, ht⟩ := List.forall_mem_cons.1 h
    have hmark : ¬(c = '?' ∧ t.head? = some '.') := fun hc => (ht '.' (List.mem_of_mem_head? hc.2)).1 rfl
    rw [segmentsFrom_step hdot hmark hopen, ih ht, List.reverse_cons, List.append_assoc]
    rfl

theorem exists_segmentsFrom_end {c : Char} (h : c = '.' ∨ c = '[') (t done : List Char) :
    ∃ rest, segmentsFrom (.member done) (c :: t) = consSegment done.reverse rest := by
  rcases h with rfl | rfl
  · exact ⟨_, segmentsFrom_dot done t⟩
  · rw [segmentsFrom.eq_def]
    exact ⟨_, rfl⟩

/-- A member that has been begun goes on with some part of the text, and where something ends a member, that part is
shorter than the text. -/
theorem exists_segmentsFrom_member (t : List Char) {done : List Char} (h : done ≠ []) :
    ∃ part rest, segmentsFrom (.member done) t = String.ofList (done.reverse ++ part) :: rest ∧
      part.length ≤ t.length ∧ (part.length = t.length → ∀ c ∈ t, c ≠ '.' ∧ c ≠ '[') := by
  induction t generalizing done with
  | nil =>
    refine ⟨[], [], ?_, le_refl _, fun _ c hc => absurd hc List.not_mem_nil⟩
    rw [segmentsFrom, consSegment_of_ne_nil (by simpa using h), List.append_nil]
  | cons c t ih =>
    by_cases hend : c = '.' ∨ c = '['
    · obtain ⟨rest, hs⟩ := exists_segmentsFrom_end hend t done
      refine ⟨[], rest, ?_, Nat.zero_le _, fun hl => absurd hl (by simp)⟩
      rw [hs, consSegment_of_ne_nil (by simpa using h), List.append_nil]
    obtain ⟨hdot, hopen⟩ := not_or.1 hend
    by_cases hmark : c = '?' ∧ t.head? = some '.'
    · -- the mark is passed over, so that the part is shorter
      obtain ⟨part, rest, hs, hle, -⟩ := ih h
      have hskip : segmentsFrom (.member done) (c :: t) = segmentsFrom (.member done) t := by
        rw [segmentsFrom.eq_def]
        simp [hmark]
      refine ⟨part, rest, hskip.trans hs, hle.trans (Nat.le_succ _), fun hl => ?_⟩
      rw [List.length_cons] at hl
      omega
    · obtain ⟨part, rest, hs, hle, hall⟩ := ih (List.cons_ne_nil c done)
      refine ⟨c :: part, rest, ?_, Nat.succ_le_succ hle, fun hl => ?_⟩
      · rw [segmentsFrom_step hdot hmark hopen, hs, List.reverse_cons, List.append_assoc]
        rfl
      · exact List.forall_mem_cons.2 ⟨⟨hdot, hopen⟩, hall (Nat.succ_injective hl)⟩

/-- Behind a character that is no blank, blanks are cut off at the end only. -/
theorem exists_trimChars_cons {c : Char} (h : Text.isBlank c = false) (s : List Char) :
    ∃ t, Text.trimChars (c :: s) = c :: t ∧ t.length ≤ s.length ∧
      (t.length = s.length → t = s ∧ ∀ d ∈ (c :: s).getLast?, Text.isBlank d = false) := by
  have htrim : Text.trimChars (c :: s) = (c :: s).rdropWhile Text.isBlank := by
    rw [Text.trimChars, List.dropWhile_cons, h]
    rfl
  have hfront := List.rdropWhile_prefix Text.isBlank (c :: s)
  cases ht : (c :: s).rdropWhile Text.isBlank with
  | nil =>
    have hc := List.rdropWhile_eq_nil_iff.1 ht c List.mem_cons_self
    rw [h] at hc
    cases hc
  | cons d t =>
    rw [ht] at hfront
    obtain ⟨rfl, htail⟩ := List.cons_prefix_cons.1 hfront
    refine ⟨t, htrim.trans ht, htail.length_le, fun hl => ?_⟩
    obtain rfl := htail.eq_of_length hl
    refine ⟨rfl, fun e he => ?_⟩
    have hlast := List.rdropWhile_eq_self_iff.1 ht (List.cons_ne_nil d t)
    rw [List.getLast?_eq_some_getLast (List.cons_ne_nil d t)] at he
    cases he
    simpa using hlast

theorem IsOneSegment.segments_eq {name : String} (h : IsOneSegment name) (hs : name.toList.head? = some sigil) :
    segments name = [name] := by
  have htrim : Text.trimChars name.toList = name.toList := by
    refine Text.trimChars_eq_self (fun c hc => ?_) h.2
    rw [hs] at hc
    cases hc
    decide
  have hne : name.toList ≠ [] := by
    intro he
    rw [he] at hs
    cases hs
  rw [segments, htrim, segmentsFrom_whole h.1, List.reverse_nil, List.nil_append, consSegment_of_ne_nil hne,
    String.ofList_toList]

/-- The first segment of a name with its sigil has the sigil. -/
theorem exists_segments_eq_sigil {name : String} (h : name.toList.head? = some sigil) :
    ∃ first rest, segments name = first :: rest ∧ first.toList.head? = some sigil := by
  obtain ⟨s, hname⟩ : ∃ s, name.toList = '@' :: s := List.head?_eq_some_iff.1 h
  obtain ⟨t, htrim, -⟩ := exists_trimChars_cons (c := '@') (by decide) s
  obtain ⟨part, rest, hpart, -⟩ := exists_segmentsFrom_member t (List.cons_ne_nil '@' [])
  refine ⟨String.ofList ('@' :: part), rest, ?_, by simp [sigil]⟩
  rw [segments, hname, htrim, segmentsFrom_step (by decide) (by simp) (by decide)]
  exact hpart

/-- The first segment of a name with its sigil: it is the name itself exactly if the name is one segment, and it never
is an index. -/
theorem exists_segments_eq_cons {name : String} (h : name.toList.head? = some sigil) :
    ∃ first rest, segments name = first :: rest ∧ isIndex first = false ∧ (first = name ↔ IsOneSegment name) := by
  obtain ⟨s, hname⟩ : ∃ s, name.toList = '@' :: s := List.head?_eq_some_iff.1 h
  obtain ⟨t, htrim, hts, hlast⟩ := exists_trimChars_cons (c := '@') (by decide) s
  obtain ⟨part, rest, hpart, hpt, hall⟩ := exists_segmentsFrom_member t (List.cons_ne_nil '@' [])
  have hsegments : segments name = String.ofList ('@' :: part) :: rest := by
    rw [segments, hname, htrim, segmentsFrom_step (by decide) (by simp) (by decide)]
    exact hpart
  refine ⟨_, rest, hsegments, ?_, fun he => ?_, fun hone => ?_⟩
  · have hsigil : Text.isDecimal '@' = false := by decide
    simp [isIndex, hsigil]
  · -- the part is as long as all that stands behind the sigil
    have hs : s = part := by
      have := congrArg String.toList he
      rw [hname, String.toList_ofList] at this
      exact (List.cons.inj this).2.symm
    subst hs
    obtain ⟨rfl, hblank⟩ := hlast (by omega)
    rw [← hname] at hblank
    refine ⟨?_, hblank⟩
    rw [hname]
    exact List.forall_mem_cons.2 ⟨by decide, hall rfl⟩
  · rw [hone.segments_eq h] at hsegments
    exact (List.cons.inj hsegments).1.symm

example : segments "@a b?" = ["@a b?"] ∧ IsOneSegment "@a b?" ∧
    segments "@a?.b " = ["@a", "b"] ∧ ¬IsOneSegment "@a?.b " := by decide +kernel

theorem head?_withSigil (name : String) : (withSigil name).toList.head? = some sigil := by
  unfold withSigil
  split
  · assumption
  · simp [sigil]

theorem withSigil_of_head? {name : String} (h : name.toList.head? = some sigil) : withSigil name = name := if_pos h

end Reference

/-! ## schemas -/

mutual

/-- What holds of a schema if it holds of its properties and of the schema for all its items. -/
theorem Schema.parts_induction {P : Schema → Prop} (bool : ∀ allowed, P (.bool allowed))
    (object : ∀ o : ObjectSchema, (∀ p ∈ o.properties, P p.2) → (∀ t, o.items = some (.single t) → P t) →
      P (.object o)) : ∀ s, P s
  | .bool allowed => bool allowed
  | .object ⟨_, _, _, properties, _, _, some (.single s), _, _, _, _⟩ =>
    object _ (Schema.properties_induction bool object properties) fun t ht => by
      cases ht
      exact Schema.parts_induction bool object s
  | .object ⟨_, _, _, properties, _, _, some (.tuple _), _, _, _, _⟩ =>
    object _ (Schema.properties_induction bool object properties) fun t ht => by cases ht
  | .object ⟨_, _, _, properties, _, _, none, _, _, _, _⟩ =>
    object _ (Schema.properties_induction bool object properties) fun t ht => by cases ht

theorem Schema.properties_induction {P : Schema → Prop} (bool : ∀ allowed, P (.bool allowed))
    (object : ∀ o : ObjectSchema, (∀ p ∈ o.properties, P p.2) → (∀ t, o.items = some (.single t) → P t) →
      P (.object o)) : ∀ properties : List (String × Schema), ∀ p ∈ properties, P p.2
  | [], p, hp => absurd hp List.not_mem_nil
  | (name, s) :: properties, p, hp => by
    rcases List.mem_cons.1 hp with rfl | hp
    · exact Schema.parts_induction bool object s
    · exact Schema.properties_induction bool object properties p hp

end

/-! ## marks -/

namespace Node

/-- Something was said of the end of a path of children. -/
def Marked (n : Node) (path : List String) : Prop := ∃ c, n.at? path = some c ∧ c.existence.isSome = true

/-- Whatever something was said of, something is said of it still. -/
def KeepsMarks (n n' : Node) : Prop := ∀ path, n.Marked path → n'.Marked path

section

variable {n n' : Node} {s : String} {path : List String}

theorem marked_nil : n.Marked [] ↔ n.existence.isSome = true := by
  simp [Marked, at?]

theorem marked_cons : n.Marked (s :: path) ↔ ∃ c, n.child? s = some c ∧ c.Marked path := by
  simp only [Marked, at?, Option.bind_eq_some_iff]
  constructor
  · rintro ⟨d, ⟨c, hc, hd⟩, hsome⟩
    exact ⟨c, hc, d, hd, hsome⟩
  · rintro ⟨c, hc, d, hd, hsome⟩
    exact ⟨d, ⟨c, hc, hd⟩, hsome⟩

/-- What is marked is known. -/
theorem Marked.isSome_lookup (h : n.Marked path) : (n.lookup path).isSome = true := by
  induction path generalizing n with
  | nil =>
    rw [marked_nil] at h
    obtain ⟨e, he⟩ := Option.isSome_iff_exists.1 h
    simp [lookup, he]
  | cons s path ih =>
    obtain ⟨c, hc, hmarked⟩ := marked_cons.1 h
    cases hany : n.anyChild with
    | true => exact isSome_lookup_of_anyChild hany _
    | false =>
      rw [lookup_cons_of_child hany hc]
      exact ih hmarked

theorem KeepsMarks.refl (n : Node) : n.KeepsMarks n := fun _ h => h

theorem KeepsMarks.trans {n'' : Node} (h : n.KeepsMarks n') (h' : n'.KeepsMarks n'') : n.KeepsMarks n'' :=
  fun path hp => h' path (h path hp)

/-- A change of what a node says of itself, if it says something of itself afterwards. -/
theorem keepsMarks_of_children_eq (hc : n.children = n'.children)
    (he : n.existence.isSome = true → n'.existence.isSome = true) : n.KeepsMarks n' := by
  intro path h
  cases path with
  | nil =>
    rw [marked_nil] at h ⊢
    exact he h
  | cons s path =>
    rw [marked_cons, child?] at h ⊢
    rw [← hc]
    exact h

theorem keepsMarks_stamp (e : Existence) (anyChild isArray : Bool) (n : Node) :
    n.KeepsMarks (n.stamp e anyChild isArray) := keepsMarks_of_children_eq rfl fun _ => rfl

theorem keepsMarks_updateChild (n : Node) (name : String) {f : Node → Node} (hf : ∀ c : Node, c.KeepsMarks (f c)) :
    n.KeepsMarks (n.updateChild name f) := by
  intro path h
  cases path with
  | nil =>
    rw [marked_nil] at h ⊢
    exact h
  | cons s path =>
    obtain ⟨c, hc, hmarked⟩ := marked_cons.1 h
    rw [marked_cons, child?_updateChild]
    split
    · rename_i hs
      subst hs
      rw [hc]
      exact ⟨_, rfl, hf c path hmarked⟩
    · exact ⟨c, hc, hmarked⟩

theorem keepsMarks_describeProperties {override : Option Existence} {properties : List (String × Schema)}
    (h : ∀ p ∈ properties, ∀ e isArray (n : Node), n.KeepsMarks (n.describe override e isArray p.2))
    (existence : String → Existence) (n : Node) :
    n.KeepsMarks (n.describeProperties override existence properties) := by
  induction properties generalizing n with
  | nil => exact KeepsMarks.refl n
  | cons p properties ih =>
    obtain ⟨hp, hproperties⟩ := List.forall_mem_cons.1 h
    rw [describeProperties]
    refine KeepsMarks.trans ?_ (ih hproperties _)
    split
    · exact keepsMarks_updateChild n p.1 fun c => hp (existence p.1) false c
    · exact KeepsMarks.refl n

theorem keepsMarks_describe (override : Option Existence) (s : Schema) :
    ∀ e isArray (n : Node), n.KeepsMarks (n.describe override e isArray s) := by
  induction s using Schema.parts_induction with
  | bool allowed =>
    intro e isArray n
    rw [describe]
    split
    · exact keepsMarks_stamp e true isArray n
    · exact KeepsMarks.refl n
  | object o hproperties hitems =>
    intro e isArray n
    rw [describe_object]
    cases hform : o.form with
    | free => exact keepsMarks_stamp e true _ n
    | leaf => exact keepsMarks_stamp e false _ n
    | closed => exact (keepsMarks_stamp e false isArray n).trans (keepsMarks_describeProperties hproperties _ _)
    | list t => exact hitems t (ObjectSchema.items_of_form hform) e true n

/-- A node that a schema describes is as sure as it is told to be. -/
theorem existence_describe (override : Option Existence) (s : Schema) :
    s.describes = true → ∀ e isArray (n : Node), (n.describe override e isArray s).existence = some e := by
  induction s using Schema.parts_induction with
  | bool allowed =>
    intro hd e isArray n
    cases hd
    rfl
  | object o _ hitems =>
    intro hd e isArray n
    rw [describe_object]
    rw [ObjectSchema.describes_eq] at hd
    cases hform : o.form with
    | free | leaf => rfl
    | closed => exact (self_describeProperties override _ _ _).2.1
    | list t =>
      rw [hform] at hd
      exact hitems t (ObjectSchema.items_of_form hform) hd e true n

/-! ## writes -/

theorem keepsMarks_writeAt (e : Existence) {f : Node → Node} (hf : ∀ c : Node, c.KeepsMarks (f c))
    (path : List String) (n : Node) : n.KeepsMarks (n.writeAt e f path) := by
  induction path generalizing n with
  | nil => exact hf n
  | cons s path ih =>
    have hraise : n.KeepsMarks (n.raise e) := keepsMarks_of_children_eq rfl fun h => by
      obtain ⟨e', he'⟩ := Option.isSome_iff_exists.1 h
      rw [raise, he']
      cases e' <;> cases e <;> rfl
    exact hraise.trans (keepsMarks_updateChild _ s ih)

theorem marked_writeAt (e : Existence) {f : Node → Node} (hf : ∀ c : Node, (f c).existence.isSome = true)
    (path : List String) (n : Node) : (n.writeAt e f path).Marked path := by
  induction path generalizing n with
  | nil => exact marked_nil.2 (hf n)
  | cons s path ih =>
    rw [writeAt, marked_cons, child?_updateChild, if_pos rfl]
    exact ⟨_, rfl, ih _⟩

theorem keepsMarks_write (e : Existence) {f : Node → Node} (hf : ∀ c : Node, c.KeepsMarks (f c)) (root : Node)
    (s : String) (path : List String) : root.KeepsMarks (root.write e f (s :: path)) :=
  keepsMarks_updateChild root s (keepsMarks_writeAt e hf path)

theorem marked_write (e : Existence) {f : Node → Node} (hf : ∀ c : Node, (f c).existence.isSome = true)
    (root : Node) (s : String) (path : List String) : (root.write e f (s :: path)).Marked (s :: path) := by
  rw [write, marked_cons, child?_updateChild, if_pos rfl]
  exact ⟨_, rfl, marked_writeAt e hf path _⟩

/-! ## one variable -/

/-- Two roots that say the same of one variable. -/
def AlikeAt (x : String) (root root' : Node) : Prop :=
  root.anyChild = root'.anyChild ∧ root.child? x = root'.child? x

theorem AlikeAt.lookup_eq {x : String} (h : AlikeAt x n n') (hx : Reference.isIndex x = false) (path : List String) :
    n.lookup (x :: path) = n'.lookup (x :: path) := by
  obtain ⟨hany, hchild⟩ := h
  simp [lookup, hany, hchild, hx]

theorem AlikeAt.updateChild {x : String} (h : AlikeAt x n n') (name : String) (f : Node → Node) :
    AlikeAt x (n.updateChild name f) (n'.updateChild name f) := by
  refine ⟨h.1, ?_⟩
  rw [child?_updateChild, child?_updateChild]
  split
  · rename_i hx
    rw [← hx, h.2]
  · exact h.2

theorem alikeAt_updateChild {x name : String} (h : x ≠ name) (n : Node) (f : Node → Node) :
    AlikeAt x n (n.updateChild name f) := by
  refine ⟨rfl, ?_⟩
  rw [child?_updateChild, if_neg h]

/-- A name that is all that is recorded is found exactly if it is one segment. -/
theorem isSome_lookup_write_empty (e : Existence) {f : Node → Node} (hf : ∀ c : Node, (f c).existence.isSome = true)
    {name : String} (h : name.toList.head? = some Reference.sigil) :
    ((({} : Node).write e f [name]).lookup (Reference.segments name)).isSome = true ↔ Reference.IsOneSegment name := by
  obtain ⟨x, path, hs, hx, hname⟩ := Reference.exists_segments_eq_cons h
  by_cases hone : Reference.IsOneSegment name
  · rw [hone.segments_eq h]
    exact iff_of_true (marked_write e hf {} name []).isSome_lookup hone
  · have halike : AlikeAt x {} (({} : Node).write e f [name]) :=
      alikeAt_updateChild (fun he => hone (hname.1 he)) {} _
    have hnone : ({} : Node).lookup (x :: path) = none := rfl
    rw [hs, ← halike.lookup_eq hx, hnone]
    exact iff_of_false (by simp) hone

end

end Node

/-! ## scopes -/

namespace Scope

variable {m m' : Scope} {source k : String} {path : List String}

theorem source?_write_self (m : Scope) (source : String) (path : List String) (e : Existence) (f : Node → Node) :
    (m.write source path e f).source? source = some (((m.source? source).getD {}).write e f path) :=
  Table.get?_insert_self _ _ _

/-- What a schema gives by itself is one write to an empty tree. -/
theorem exists_treeOf_eq {schema : Schema} (h : schema.describes = true) (source : String) (path : List String)
    (override : Option Existence) :
    ∃ e f, (∀ c : Node, (f c).existence.isSome = true) ∧
      treeOf source schema path override = some (({} : Node).write e f path) := by
  refine ⟨override.getD .definitely, fun n => n.describe override (override.getD .definitely) false schema,
    fun c => ?_, ?_⟩
  · rw [Node.existence_describe override schema h]
    rfl
  · rw [treeOf, describe, if_pos h, source?_write_self]
    rfl

theorem isSome_iff_rank (e : Option Existence) : e.isSome = true ↔ 1 ≤ Existence.rank e := by
  rcases e with _ | _ | _ <;> simp [Existence.rank]

/-- A source that is not there knows nothing. -/
theorem bind_lookup_eq (tree : Option Node) (hp : path ≠ []) :
    (tree.bind fun n => n.lookup path) = (tree.getD {}).lookup path := by
  obtain ⟨s, path, rfl⟩ := List.exists_cons_of_ne_nil hp
  cases tree with
  | none => rfl
  | some n => rfl

/-- A reference is known by one source, or by the others. -/
theorem defines_iff_others (h : m.Distinct) {reference : String} (hr : Reference.segments reference ≠ [])
    (source : String) :
    m.defines reference = true ↔
      (((m.source? source).getD {}).lookup (Reference.segments reference)).isSome = true ∨
        (m.others source).defines reference = true := by
  rw [defines, defines, existence?, existence?, isSome_iff_rank, isSome_iff_rank, isSome_iff_rank,
    rank_lookup h source hr, bind_lookup_eq _ hr]
  exact le_max_iff

/-- A reference is known exactly if it is known by some source. -/
theorem defines_iff_source (h : m.Distinct) {reference : String} (hr : Reference.segments reference ≠ []) :
    m.defines reference = true ↔
      ∃ k, (((m.source? k).getD {}).lookup (Reference.segments reference)).isSome = true := by
  constructor
  · intro hd
    rw [defines, existence?, isSome_iff_rank, rank_lookup_eq m hr, le_topRank_iff (by decide)] at hd
    obtain ⟨⟨k, t⟩, hmem, ht⟩ := hd
    have hsource : m.source? k = some t := Table.get?_of_mem h hmem
    refine ⟨k, ?_⟩
    rw [hsource, isSome_iff_rank]
    exact ht
  · rintro ⟨k, hk⟩
    exact (defines_iff_others h hr k).2 (.inl hk)

/-- Something was said of a path of a source. -/
def Marks (m : Scope) (source : String) (path : List String) : Prop := ((m.source? source).getD {}).Marked path

theorem Marks.defines (h : m.Marks source path) (hm : m.Distinct) {reference : String}
    (hr : Reference.segments reference = path) (hp : path ≠ []) : m.defines reference = true := by
  subst hr
  exact (defines_iff_source hm hp).2 ⟨source, h.isSome_lookup⟩

theorem marks_write (m : Scope) (source s : String) (path : List String) (e : Existence) {f : Node → Node}
    (hf : ∀ c : Node, (f c).existence.isSome = true) : (m.write source (s :: path) e f).Marks source (s :: path) := by
  rw [Marks, source?_write_self]
  exact Node.marked_write e hf _ s path

theorem Marks.write (h : m.Marks source path) (s : String) (path' : List String) (e : Existence) {f : Node → Node}
    (hf : ∀ c : Node, c.KeepsMarks (f c)) : (m.write source (s :: path') e f).Marks source path := by
  rw [Marks, source?_write_self]
  exact Node.keepsMarks_write e hf _ s path' path h

/-- Scopes that differ in one source only, and there not in one variable. -/
structure AlikeAt (source x : String) (m m' : Scope) : Prop where
  elsewhere : ∀ k, k ≠ source → m.source? k = m'.source? k
  there : Node.AlikeAt x ((m.source? source).getD {}) ((m'.source? source).getD {})

variable {x : String}

/-- The same is known of the variable. -/
theorem AlikeAt.defines_iff (h : AlikeAt source x m m') (hm : m.Distinct) (hm' : m'.Distinct) {reference : String}
    (hr : Reference.segments reference = x :: path) (hx : Reference.isIndex x = false) :
    m.defines reference = true ↔ m'.defines reference = true := by
  have hne : Reference.segments reference ≠ [] := by simp [hr]
  have hlookup : ∀ k, ((m.source? k).getD {}).lookup (x :: path) = ((m'.source? k).getD {}).lookup (x :: path) := by
    intro k
    by_cases hk : k = source
    · rw [hk]
      exact h.there.lookup_eq hx path
    · rw [h.elsewhere k hk]
  rw [defines_iff_source hm hne, defines_iff_source hm' hne, hr]
  simp only [hlookup]

theorem AlikeAt.write (h : AlikeAt source x m m') (s : String) (path : List String) (e : Existence)
    (f : Node → Node) : AlikeAt source x (m.write source (s :: path) e f) (m'.write source (s :: path) e f) := by
  refine ⟨fun k hk => ?_, ?_⟩
  · rw [source?_write_of_ne hk, source?_write_of_ne hk, h.elsewhere k hk]
  · rw [source?_write_self, source?_write_self]
    exact h.there.updateChild s _

/-- Whatever is written to another source. -/
theorem AlikeAt.write_of_ne (h : AlikeAt source x m m') (hk : k ≠ source) (path : List String) (e : Existence)
    (f : Node → Node) : AlikeAt source x (m.write k path e f) (m'.write k path e f) := by
  refine ⟨fun j hj => ?_, ?_⟩
  · by_cases hjk : j = k
    · rw [hjk, source?_write_self, source?_write_self, h.elsewhere k hk]
    · rw [source?_write_of_ne hjk, source?_write_of_ne hjk, h.elsewhere j hj]
  · rw [source?_write_of_ne hk.symm, source?_write_of_ne hk.symm]
    exact h.there

theorem alikeAt_write {s : String} (h : x ≠ s) (m : Scope) (source : String) (path : List String) (e : Existence)
    (f : Node → Node) : AlikeAt source x m (m.write source (s :: path) e f) := by
  refine ⟨fun k hk => (source?_write_of_ne hk e f).symm, ?_⟩
  rw [source?_write_self]
  exact Node.alikeAt_updateChild h _ _

end Scope

end BrickScope
