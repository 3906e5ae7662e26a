import BrickScope.Existence.Evidence
import Mathlib

/-!
# Evidence on top of evidence

Where values have been seen, the nodes of a tree are there for sure and no others may be.  When one more value is seen,
no node goes away.  Still a path may get lost that was known before: an index is passed over only where there is a list
without a member of that name, and both may change.

* `Node.Certain`, `Node.Keeps`: what seeing a value leaves alone, `Node.certain_observe`, `Node.keeps_observe`;
* `Node.Lost`: the paths that get lost, `Node.lookup_eq_none_iff_lost`;
* `Scope.rank_lookup`: how surely a path exists, by one source and by the others;
* `Scope.SeesMore.rank_lt_iff`: when a path is less sure although more has been seen.
-/

namespace BrickScope

/-! ## how surely -/

namespace Existence

/-- What is not there comes first, what is surely there comes last. -/
def rank : Option Existence → Nat
  | none => 0
  | some .maybe => 1
  | some .definitely => 2

theorem rank_surer (x y : Option Existence) : rank (surer x y) = max (rank x) (rank y) := by
  rcases x with _ | _ | _ <;> rcases y with _ | _ | _ <;> rfl

theorem none_surer (e : Option Existence) : surer none e = e := by
  rcases e with _ | _ | _ <;> rfl

theorem rank_le (x : Option Existence) : rank x ≤ 2 := by
  rcases x with _ | _ | _ <;> decide

theorem rank_eq_two_iff {x : Option Existence} : rank x = 2 ↔ x = some .definitely := by
  rcases x with _ | _ | _ <;> simp [rank]

end Existence

open Existence (rank)

namespace Node

/-! ## certain trees -/

theorem child?_updateChild (n : Node) (name s : String) (f : Node → Node) :
    (n.updateChild name f).child? s = if s = name then some (f ((n.child? name).getD {})) else n.child? s := by
  unfold child? updateChild Table.update
  split
  · rename_i h
    subst h
    exact Table.get?_insert_self _ _ _
  · rename_i h
    exact Table.get?_insert_of_ne h _ _

/-- The node at the end of a path of children. -/
def at? : Node → List String → Option Node
  | n, [] => some n
  | n, s :: path => (n.child? s).bind fun c => c.at? path

/-- The node and those below it are there for sure, and no others may be. -/
def Certain (n : Node) : Prop := ∀ path c, n.at? path = some c → c.existence = some .definitely ∧ c.anyChild = false

def CertainBelow (n : Node) : Prop := ∀ s c, n.child? s = some c → c.Certain

/-- Every node below `n` is also below `n'`. -/
def Keeps (n n' : Node) : Prop := ∀ path, (n.at? path).isSome → (n'.at? path).isSome

section

variable {n n' : Node}

theorem certain_iff : n.Certain ↔ (n.existence = some .definitely ∧ n.anyChild = false) ∧ n.CertainBelow := by
  constructor
  · intro h
    refine ⟨h [] n rfl, fun s c hc path d hd => h (s :: path) d ?_⟩
    rw [at?, hc, Option.bind_some, hd]
  · rintro ⟨hn, hbelow⟩ path c hc
    cases path with
    | nil =>
      cases hc
      exact hn
    | cons s path =>
      obtain ⟨d, hd, hc⟩ := Option.bind_eq_some_iff.1 hc
      exact hbelow s d hd path c hc

theorem Certain.below (h : n.Certain) : n.CertainBelow := (certain_iff.1 h).2

theorem Certain.anyChild_eq (h : n.Certain) : n.anyChild = false := (certain_iff.1 h).1.2

theorem certainBelow_empty : CertainBelow {} := by
  intro s c h
  cases h

theorem certain_stamp (h : n.CertainBelow) (isArray : Bool) : (n.stamp .definitely false isArray).Certain :=
  certain_iff.2 ⟨⟨rfl, rfl⟩, h⟩

theorem CertainBelow.updateChild (h : n.CertainBelow) {name : String} {f : Node → Node}
    (hf : ∀ c : Node, c.CertainBelow → (f c).Certain) : (n.updateChild name f).CertainBelow := by
  intro s c hc
  rw [child?_updateChild] at hc
  split at hc
  · cases hc
    refine hf _ ?_
    cases hn : n.child? name with
    | none => exact certainBelow_empty
    | some d => exact (h name d hn).below
  · exact h s c hc

theorem Certain.updateChild (h : n.Certain) {name : String} {f : Node → Node}
    (hf : ∀ c : Node, c.CertainBelow → (f c).Certain) : (n.updateChild name f).Certain :=
  certain_iff.2 ⟨(certain_iff.1 h).1, h.below.updateChild hf⟩

theorem keeps_iff : n.Keeps n' ↔ ∀ s c, n.child? s = some c → ∃ c', n'.child? s = some c' ∧ c.Keeps c' := by
  constructor
  · intro h s c hc
    obtain ⟨c', hc'⟩ : ∃ c', n'.child? s = some c' := by
      have := h [s] (by rw [at?, hc]; rfl)
      rw [at?] at this
      cases hs : n'.child? s with
      | none => simp [hs] at this
      | some c' => exact ⟨c', rfl⟩
    refine ⟨c', hc', fun path hp => ?_⟩
    have := h (s :: path) (by rw [at?, hc]; exact hp)
    rw [at?, hc'] at this
    exact this
  · intro h path hp
    cases path with
    | nil => rfl
    | cons s path =>
      rw [at?] at hp ⊢
      cases hs : n.child? s with
      | none => simp [hs] at hp
      | some c =>
        obtain ⟨c', hc', hk⟩ := h s c hs
        rw [hs] at hp
        rw [hc']
        exact hk path hp

theorem Keeps.refl (n : Node) : n.Keeps n := fun _ h => h

theorem Keeps.trans {n'' : Node} (h : n.Keeps n') (h' : n'.Keeps n'') : n.Keeps n'' := fun path hp => h' path (h path hp)

/-- What a node says of itself is not what it has below. -/
theorem keeps_of_children_eq (h : n.children = n'.children) : n.Keeps n' := by
  refine keeps_iff.2 fun s c hc => ⟨c, ?_, Keeps.refl c⟩
  rw [child?, ← h]
  exact hc

theorem keeps_updateChild (n : Node) (name : String) {f : Node → Node} (hf : ∀ c : Node, c.Keeps (f c)) :
    n.Keeps (n.updateChild name f) := by
  refine keeps_iff.2 fun s c hc => ?_
  rw [child?_updateChild]
  split
  · rename_i hs
    subst hs
    rw [hc]
    exact ⟨_, rfl, hf c⟩
  · exact ⟨c, hc, Keeps.refl c⟩

end

/-! ## one more value -/

mutual

theorem certain_observe : ∀ (v : Json) (n : Node), n.CertainBelow → (n.observe v).Certain
  | .scalar _, _, h => certain_stamp h false
  | .array items, _, h => by
    have hitems := certain_observeItems items _ (certain_stamp h true)
    obtain ⟨hself, hbelow⟩ := certain_iff.1 hitems
    exact certain_iff.2 ⟨hself, hbelow⟩
  | .object members, _, h => certain_observeMembers members _ (certain_stamp h false)

theorem certain_observeItems : ∀ (items : List Json) (n : Node), n.Certain → (n.observeItems items).Certain
  | [], _, h => h
  | v :: items, n, h => certain_observeItems items (n.observe v) (certain_observe v n h.below)

theorem certain_observeMembers :
    ∀ (members : List (String × Json)) (n : Node), n.Certain → (n.observeMembers members).Certain
  | [], _, h => h
  | (_, v) :: members, _, h =>
    certain_observeMembers members _ (h.updateChild fun c hc => certain_observe v c hc)

end

mutual

theorem keeps_observe : ∀ (v : Json) (n : Node), n.Keeps (n.observe v)
  | .scalar _, _ => keeps_of_children_eq rfl
  | .array items, n => by
    have hstamp : n.Keeps (n.stamp .definitely false true) := keeps_of_children_eq rfl
    exact (hstamp.trans (keeps_observeItems items _)).trans (keeps_of_children_eq rfl)
  | .object members, n => by
    have hstamp : n.Keeps (n.stamp .definitely false false) := keeps_of_children_eq rfl
    exact hstamp.trans (keeps_observeMembers members _)

theorem keeps_observeItems : ∀ (items : List Json) (n : Node), n.Keeps (n.observeItems items)
  | [], n => Keeps.refl n
  | v :: items, n => (keeps_observe v n).trans (keeps_observeItems items _)

theorem keeps_observeMembers : ∀ (members : List (String × Json)) (n : Node), n.Keeps (n.observeMembers members)
  | [], n => Keeps.refl n
  | (name, v) :: members, n =>
    (keeps_updateChild n name fun c => keeps_observe v c).trans (keeps_observeMembers members _)

end

/-! ## paths that get lost -/

section

variable {n n' c : Node} {s : String} {path : List String}

theorem lookup_cons_of_child (h : n.anyChild = false) (hc : n.child? s = some c) :
    n.lookup (s :: path) = c.lookup path := by
  rw [lookup, h, hc]
  simp

theorem lookup_cons_of_none (h : n.anyChild = false) (hc : n.child? s = none) :
    n.lookup (s :: path) = if n.isArray && Reference.isIndex s then n.lookup path else none := by
  rw [lookup, h, hc]
  simp

/-- In a certain tree there is nothing that is only perhaps there. -/
theorem Certain.lookup_eq (h : n.Certain) (path : List String) :
    n.lookup path = none ∨ n.lookup path = some .definitely := by
  induction path generalizing n with
  | nil =>
    right
    rw [lookup, h.anyChild_eq, (certain_iff.1 h).1.1]
    rfl
  | cons s path ih =>
    cases hc : n.child? s with
    | some c =>
      rw [lookup_cons_of_child h.anyChild_eq hc]
      exact ih (h.below s c hc)
    | none =>
      rw [lookup_cons_of_none h.anyChild_eq hc]
      split
      · exact ih h
      · exact .inl rfl

/-- A path that leads somewhere from `n` by passing over the indices of lists, and nowhere from `n'`. -/
inductive Lost : Node → Node → List String → Prop
  /-- The list is none any more. -/
  | noList {n n' : Node} {s : String} {path : List String} (hc : n.child? s = none) (hl : n.isArray = true)
    (hs : Reference.isIndex s = true) (hc' : n'.child? s = none) (hl' : n'.isArray = false) : Lost n n' (s :: path)
  /-- The index is the name of a member by now, and the path does not go on there. -/
  | member {n n' c' : Node} {s : String} {path : List String} (hc : n.child? s = none) (hl : n.isArray = true)
    (hs : Reference.isIndex s = true) (hc' : n'.child? s = some c') (h : c'.lookup path = none) : Lost n n' (s :: path)
  /-- The index is passed over, and the path gets lost behind it. -/
  | behind {n n' : Node} {s : String} {path : List String} (hc : n.child? s = none) (hl : n.isArray = true)
    (hs : Reference.isIndex s = true) (hc' : n'.child? s = none) (hl' : n'.isArray = true) (h : Lost n n' path) :
    Lost n n' (s :: path)
  /-- The path gets lost below a child. -/
  | child {n n' c c' : Node} {s : String} {path : List String} (hc : n.child? s = some c)
    (hc' : n'.child? s = some c') (h : Lost c c' path) : Lost n n' (s :: path)

theorem Lost.exists_isIndex (h : Lost n n' path) : ∃ s ∈ path, Reference.isIndex s = true := by
  induction h with
  | noList _ _ hs => exact ⟨_, List.mem_cons_self, hs⟩
  | member _ _ hs => exact ⟨_, List.mem_cons_self, hs⟩
  | behind _ _ hs => exact ⟨_, List.mem_cons_self, hs⟩
  | child _ _ _ ih =>
    obtain ⟨s, hs, hi⟩ := ih
    exact ⟨s, List.mem_cons_of_mem _ hs, hi⟩

theorem lost_cons_of_child {c' : Node} (hc : n.child? s = some c) (hc' : n'.child? s = some c') :
    Lost n n' (s :: path) ↔ Lost c c' path := by
  constructor
  · intro h
    cases h with
    | child hd hd' h =>
      rw [hc] at hd
      rw [hc'] at hd'
      cases hd
      cases hd'
      exact h
    | noList hd | member hd | behind hd =>
      rw [hc] at hd
      cases hd
  · exact .child hc hc'

theorem lost_cons_of_none (hc : n.child? s = none) (hl : n.isArray = true) (hs : Reference.isIndex s = true) :
    Lost n n' (s :: path) ↔ match n'.child? s with
      | some c' => c'.lookup path = none
      | none => n'.isArray = false ∨ Lost n n' path := by
  constructor
  · intro h
    cases h with
    | noList _ _ _ hc' hl' =>
      rw [hc']
      exact .inl hl'
    | member _ _ _ hc' h =>
      rw [hc']
      exact h
    | behind _ _ _ hc' _ h =>
      rw [hc']
      exact .inr h
    | child hd =>
      rw [hc] at hd
      cases hd
  · intro h
    split at h
    · rename_i c' hc'
      exact .member hc hl hs hc' h
    · rename_i hc'
      cases hl' : n'.isArray with
      | false => exact .noList hc hl hs hc' hl'
      | true =>
        rcases h with h | h
        · rw [hl'] at h
          cases h
        · exact .behind hc hl hs hc' hl' h

/-- Where no node has gone away, a path that was known is not any more exactly if it got lost. -/
theorem lookup_eq_none_iff_lost (hn : n.Certain) (hn' : n'.Certain) (hk : n.Keeps n')
    (h : n.lookup path = some .definitely) : n'.lookup path = none ↔ Lost n n' path := by
  induction path generalizing n n' with
  | nil =>
    have hsome : n'.lookup [] = some .definitely := by
      rw [lookup, hn'.anyChild_eq, (certain_iff.1 hn').1.1]
      rfl
    rw [hsome]
    constructor
    · intro hf
      cases hf
    · intro hf
      cases hf
  | cons s path ih =>
    cases hc : n.child? s with
    | some c =>
      obtain ⟨c', hc', hkc⟩ := keeps_iff.1 hk s c hc
      rw [lookup_cons_of_child hn.anyChild_eq hc] at h
      rw [lookup_cons_of_child hn'.anyChild_eq hc', lost_cons_of_child hc hc']
      exact ih (hn.below s c hc) (hn'.below s c' hc') hkc h
    | none =>
      rw [lookup_cons_of_none hn.anyChild_eq hc] at h
      split at h
      · rename_i hlist
        rw [Bool.and_eq_true] at hlist
        rw [lost_cons_of_none hc hlist.1 hlist.2]
        cases hc' : n'.child? s with
        | some c' => rw [lookup_cons_of_child hn'.anyChild_eq hc']
        | none =>
          rw [lookup_cons_of_none hn'.anyChild_eq hc', hlist.2, Bool.and_true]
          cases n'.isArray with
          | true => simpa using ih hn hn' hk h
          | false => simp
      · cases h

end

/-! ## roots -/

/-- The root of a tree of evidence: variables are its children, and it is no list itself. -/
structure IsEvidence (root : Node) : Prop where
  below : root.CertainBelow
  anyChild : root.anyChild = false
  isArray : root.isArray = false

theorem isEvidence_empty : IsEvidence {} := ⟨certainBelow_empty, rfl, rfl⟩

section

variable {root root' : Node} {path : List String}

/-- The tree when a value of all variables has been seen. -/
def withSeen (root : Node) (v : Json) : Node := root.write .definitely (fun n => n.observe v) []

theorem IsEvidence.withSeen (h : root.IsEvidence) (v : Json) : (root.withSeen v).IsEvidence :=
  ⟨(certain_observe v root h.below).below, h.anyChild, h.isArray⟩

theorem keeps_withSeen (root : Node) (v : Json) : root.Keeps (root.withSeen v) :=
  (keeps_observe v root).trans (keeps_of_children_eq rfl)

theorem IsEvidence.lookup_eq (h : root.IsEvidence) (hp : path ≠ []) :
    root.lookup path = none ∨ root.lookup path = some .definitely := by
  obtain ⟨s, path, rfl⟩ := List.exists_cons_of_ne_nil hp
  cases hc : root.child? s with
  | some c =>
    rw [lookup_cons_of_child h.anyChild hc]
    exact (h.below s c hc).lookup_eq path
  | none =>
    rw [lookup_cons_of_none h.anyChild hc, h.isArray]
    exact .inl rfl

theorem IsEvidence.lookup_eq_none_iff_lost (h : root.IsEvidence) (h' : root'.IsEvidence) (hk : root.Keeps root')
    (hp : path ≠ []) (hl : root.lookup path = some .definitely) : root'.lookup path = none ↔ Lost root root' path := by
  obtain ⟨s, path, rfl⟩ := List.exists_cons_of_ne_nil hp
  cases hc : root.child? s with
  | some c =>
    obtain ⟨c', hc', hkc⟩ := keeps_iff.1 hk s c hc
    rw [lookup_cons_of_child h.anyChild hc] at hl
    rw [lookup_cons_of_child h'.anyChild hc', lost_cons_of_child hc hc']
    exact Node.lookup_eq_none_iff_lost (h.below s c hc) (h'.below s c' hc') hkc hl
  | none =>
    rw [lookup_cons_of_none h.anyChild hc, h.isArray] at hl
    cases hl

end

end Node

/-! ## one source and the others -/

namespace Scope

/-- Each source has one tree. -/
def Distinct (m : Scope) : Prop := (Table.keys m.sources).Nodup

/-- What the other sources know. -/
def others (m : Scope) (source : String) : Scope := ⟨m.sources.filter fun k => k.1 ≠ source⟩

theorem Distinct.write {m : Scope} (h : m.Distinct) (source : String) (path : List String) (e : Existence)
    (f : Node → Node) : (m.write source path e f).Distinct := Table.nodup_keys_insert h _ _

theorem others_write (m : Scope) (source : String) (path : List String) (e : Existence) (f : Node → Node) :
    (m.write source path e f).others source = m.others source :=
  congrArg Scope.mk (Table.filter_insert _ _ _)

/-- The highest rank that some trees give to a path. -/
def topRank (path : List String) (trees : List (String × Node)) : Nat :=
  trees.foldr (fun k top => max (rank (k.2.lookup path)) top) 0

theorem rank_foldl (path : List String) (trees : List (String × Node)) (e : Option Existence) :
    rank (trees.foldl (fun best k => Existence.surer best (k.2.lookup path)) e) = max (rank e) (topRank path trees) := by
  induction trees generalizing e with
  | nil => simp [topRank]
  | cons k trees ih =>
    have hcons : topRank path (k :: trees) = max (rank (k.2.lookup path)) (topRank path trees) := rfl
    rw [List.foldl_cons, ih, Existence.rank_surer, hcons]
    omega

theorem rank_lookup_eq (m : Scope) {path : List String} (hp : path ≠ []) :
    rank (m.lookup path) = topRank path m.sources := by
  rw [lookup, if_neg (by simpa using hp), rank_foldl]
  simp [rank]

theorem topRank_cons (path : List String) (k : String × Node) (trees : List (String × Node)) :
    topRank path (k :: trees) = max (rank (k.2.lookup path)) (topRank path trees) := rfl

theorem topRank_split {trees : Table Node} (h : (Table.keys trees).Nodup) (source : String) (path : List String) :
    topRank path trees = max (rank ((Table.get? trees source).bind fun n => n.lookup path))
      (topRank path (trees.filter fun k => k.1 ≠ source)) := by
  induction trees with
  | nil => rfl
  | cons k trees ih =>
    obtain ⟨name, n⟩ := k
    obtain ⟨hname, hrest⟩ := List.nodup_cons.1 h
    rw [topRank_cons, Table.get?]
    by_cases hs : name = source
    · subst hs
      have hother : ∀ k ∈ trees, decide (k.1 ≠ name) = true := by
        intro k hk
        rw [decide_eq_true_eq]
        exact fun he => hname (List.mem_map.2 ⟨k, hk, he⟩)
      rw [if_pos rfl, List.filter_cons_of_neg (by simp), List.filter_eq_self.2 hother, Option.bind_some]
    · rw [if_neg hs, List.filter_cons_of_pos (by simpa using hs), topRank_cons, ih hrest]
      omega

/-- How surely a path exists: by a source, or by the others. -/
theorem rank_lookup {m : Scope} (h : m.Distinct) (source : String) {path : List String} (hp : path ≠ []) :
    rank (m.lookup path) =
      max (rank ((m.source? source).bind fun n => n.lookup path)) (rank ((m.others source).lookup path)) := by
  rw [rank_lookup_eq m hp, rank_lookup_eq _ hp]
  exact topRank_split h source path

/-- `m'` differs from `m` in one source, which is evidence, and more has been seen there. -/
structure SeesMore (source : String) (m m' : Scope) : Prop where
  distinct : m.Distinct
  distinct' : m'.Distinct
  others_eq : m'.others source = m.others source
  evidence : ∀ t, m.source? source = some t →
    t.IsEvidence ∧ ∃ t', m'.source? source = some t' ∧ t'.IsEvidence ∧ t.Keeps t'

/-- When a path is less sure although more has been seen: it got lost, and no other source is sure of it. -/
theorem SeesMore.rank_lt_iff {source : String} {m m' : Scope} (h : SeesMore source m m') {path : List String} :
    rank (m'.lookup path) < rank (m.lookup path) ↔
      ∃ t t', m.source? source = some t ∧ m'.source? source = some t' ∧ t.lookup path = some .definitely ∧
        Node.Lost t t' path ∧ (m.others source).lookup path ≠ some .definitely := by
  by_cases hp : path = []
  · subst hp
    constructor
    · intro hlt
      exact absurd hlt (by simp [lookup])
    · rintro ⟨t, t', -, -, -, hlost, -⟩
      cases hlost
  rw [rank_lookup h.distinct source hp, rank_lookup h.distinct' source hp, h.others_eq]
  have hothers := Existence.rank_le ((m.others source).lookup path)
  have htwo : rank (some Existence.definitely) = 2 := rfl
  cases ht : m.source? source with
  | none =>
    constructor
    · intro hlt
      rw [Option.bind_none] at hlt
      have hzero : rank (none : Option Existence) = 0 := rfl
      omega
    · rintro ⟨t, -, hnone, -⟩
      cases hnone
  | some t =>
    obtain ⟨he, t', ht', he', hk⟩ := h.evidence t ht
    rw [ht', Option.bind_some, Option.bind_some]
    constructor
    · intro hlt
      have hsure : t.lookup path = some .definitely := by
        rcases he.lookup_eq hp with hn | hd
        · rw [hn] at hlt
          have hzero : rank (none : Option Existence) = 0 := rfl
          omega
        · exact hd
      have hgone : t'.lookup path = none := by
        rcases he'.lookup_eq hp with hn | hd
        · exact hn
        · rw [hsure, hd] at hlt
          omega
      refine ⟨t, t', rfl, rfl, hsure, (he.lookup_eq_none_iff_lost he' hk hp hsure).1 hgone, fun ho => ?_⟩
      rw [hsure, ho] at hlt
      omega
    · rintro ⟨u, u', hu, hu', hsure, hlost, ho⟩
      cases hu
      cases hu'
      have hgone := (he.lookup_eq_none_iff_lost he' hk hp hsure).2 hlost
      have hrank : rank ((m.others source).lookup path) ≠ 2 := fun h2 => ho (Existence.rank_eq_two_iff.1 h2)
      have hzero : rank (none : Option Existence) = 0 := rfl
      rw [hsure, hgone]
      omega

/-- What is known of a variable that is all that is known. -/
theorem lookup_empty_write (source x : String) (e : Existence) (f : Node → Node) (path : List String) :
    (empty.write source [x] e f).lookup (x :: path) = (f {}).lookup path := by
  have hroot : (({} : Node).write e f [x]).child? x = some (f {}) := by
    rw [Node.write, Node.child?_updateChild, if_pos rfl]
    rfl
  exact (Existence.none_surer _).trans (Node.lookup_cons_of_child rfl hroot)

end Scope

end BrickScope
