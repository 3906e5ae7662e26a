import BrickScope.Proofs.Existence.Evidence
import BrickScope.Proofs.Spelling

/-!
# Below a node with any child

Look-up goes from node to node along a path, and stops at the first node with any child: it answers with the tag of the
child that comes next, whatever is left of the path.  So a path may be called sure that has no node at all.

* `Node.reach?`: the node for a whole path, indices of lists passed over;
* `Node.FirstOpen`: where look-up stops, `Node.FirstOpen.lookup_eq`;
* `Node.lookup_eq_definitely_iff`: the node by which a path is sure;
* `Scope.EarnsCertainty`: what is sure has a node that says so;
* `Scope.certainty_exact`: when a reference is sure, and for which scopes that is earned.
-/

namespace BrickScope

/-! ## the node for a path -/

namespace Node

/-- The node that a segment leads to: a child, or the node itself where an index is passed over. -/
def next? (n : Node) (s : String) : Option Node :=
  (n.child? s).or (if n.isArray && Reference.isIndex s then some n else none)

/-- The node for a whole path. -/
def reach? : Node → List String → Option Node
  | n, [] => some n
  | n, s :: path => (n.next? s).bind fun c => c.reach? path

section

variable {n o : Node} {s : String} {path : List String}

theorem reach?_append (n : Node) (p q : List String) : n.reach? (p ++ q) = (n.reach? p).bind fun c => c.reach? q := by
  induction p generalizing n with
  | nil => rfl
  | cons s p ih =>
    rw [List.cons_append, reach?, reach?, Option.bind_assoc]
    exact congrArg _ (funext fun c => ih c)

theorem next?_of_child {c : Node} (h : n.child? s = some c) : n.next? s = some c := by
  rw [next?, h]
  rfl

/-- A segment that is no index leads to a child only. -/
theorem next?_of_not_isIndex (h : Reference.isIndex s = false) : n.next? s = n.child? s := by
  rw [next?, h]
  simp

theorem lookup_cons_of_closed (h : n.anyChild = false) :
    n.lookup (s :: path) = (n.next? s).bind fun c => c.lookup path := by
  cases hc : n.child? s with
  | some c =>
    rw [lookup_cons_of_child h hc, next?_of_child hc]
    rfl
  | none =>
    rw [lookup_cons_of_none h hc, next?, hc]
    split <;> rfl

theorem lookup_cons_of_open (h : n.anyChild = true) :
    n.lookup (s :: path) = ((n.child? s).bind Node.existence).or (some .maybe) := by
  rw [lookup, if_pos h]
  cases n.child? s <;> rfl

/-! ## where look-up stops -/

/-- The path goes on below no node with any child. -/
def ClosedBefore (n : Node) (path : List String) : Prop :=
  ∀ p q o, path = p ++ q → q ≠ [] → n.reach? p = some o → o.anyChild = false

/-- The first node with any child on a way, which ends there. -/
structure FirstOpen (n : Node) (path : List String) (o : Node) : Prop where
  reach : n.reach? path = some o
  anyChild : o.anyChild = true
  closed : n.ClosedBefore path

theorem closedBefore_nil (n : Node) : n.ClosedBefore [] := by
  intro p q o h hq
  exact absurd (List.append_eq_nil_iff.1 h.symm).2 hq

theorem closedBefore_cons : n.ClosedBefore (s :: path) ↔
    n.anyChild = false ∧ ∀ c, n.next? s = some c → c.ClosedBefore path := by
  constructor
  · intro h
    refine ⟨h [] (s :: path) n rfl (by simp) rfl, fun c hc p q o hp hq ho => ?_⟩
    refine h (s :: p) q o (by rw [hp, List.cons_append]) hq ?_
    rw [reach?, hc]
    exact ho
  · rintro ⟨hn, hnext⟩ p q o hp hq ho
    cases p with
    | nil =>
      cases ho
      exact hn
    | cons s' p =>
      rw [List.cons_append] at hp
      obtain ⟨rfl, rfl⟩ := List.cons.inj hp
      obtain ⟨c, hc, ho⟩ := Option.bind_eq_some_iff.1 ho
      exact hnext c hc p q o rfl hq ho

/-- Up to the first node with any child, look-up goes from node to node. -/
theorem ClosedBefore.lookup_append {p : List String} (h : n.ClosedBefore p) (q : List String) :
    n.lookup (p ++ q) = (n.reach? p).bind fun c => c.lookup q := by
  induction p generalizing n with
  | nil => rfl
  | cons s p ih =>
    obtain ⟨hn, hnext⟩ := closedBefore_cons.1 h
    rw [List.cons_append, lookup_cons_of_closed hn, reach?, Option.bind_assoc]
    cases hc : n.next? s with
    | none => rfl
    | some c => exact ih (hnext c hc)

theorem closedBefore_or_exists_firstOpen (n : Node) (path : List String) :
    n.ClosedBefore path ∨ ∃ p s q o, path = p ++ s :: q ∧ n.FirstOpen p o := by
  induction path generalizing n with
  | nil => exact .inl n.closedBefore_nil
  | cons s path ih =>
    cases hn : n.anyChild with
    | true => exact .inr ⟨[], s, path, n, rfl, rfl, hn, n.closedBefore_nil⟩
    | false =>
      cases hc : n.next? s with
      | none =>
        refine .inl (closedBefore_cons.2 ⟨hn, fun c hc' => ?_⟩)
        rw [hc] at hc'
        cases hc'
      | some c =>
        have huniq : ∀ d, n.next? s = some d → d = c := by
          intro d hd
          rw [hc] at hd
          exact (Option.some.inj hd).symm
        rcases ih c with h | ⟨p, s', q, o, rfl, ho⟩
        · exact .inl (closedBefore_cons.2 ⟨hn, fun d hd => huniq d hd ▸ h⟩)
        · have hclosed : n.ClosedBefore (s :: p) := closedBefore_cons.2 ⟨hn, fun d hd => huniq d hd ▸ ho.closed⟩
          refine .inr ⟨s :: p, s', q, o, rfl, ?_, ho.anyChild, hclosed⟩
          rw [reach?, hc]
          exact ho.reach

theorem FirstOpen.lookup_eq {p : List String} (h : n.FirstOpen p o) (s : String) (q : List String) :
    n.lookup (p ++ s :: q) = ((o.child? s).bind Node.existence).or (some .maybe) := by
  rw [h.closed.lookup_append, h.reach]
  exact lookup_cons_of_open h.anyChild

theorem lookup_nil_eq_definitely_iff : n.lookup [] = some .definitely ↔ n.existence = some .definitely := by
  rw [lookup]
  cases n.anyChild <;> rcases n.existence with _ | _ | _ <;> simp

/-- Look-up is sure of a path by the tag of its node, or else by the tag of the first node below one with any child. -/
theorem lookup_eq_definitely_iff : n.lookup path = some .definitely ↔
    (n.ClosedBefore path ∧ ∃ d, n.reach? path = some d ∧ d.existence = some .definitely) ∨
    ∃ p s q o d, path = p ++ s :: q ∧ n.FirstOpen p o ∧ o.child? s = some d ∧ d.existence = some .definitely := by
  have hclosed : n.ClosedBefore path → (n.lookup path = some .definitely ↔
      ∃ d, n.reach? path = some d ∧ d.existence = some .definitely) := by
    intro h
    have heq := h.lookup_append []
    rw [List.append_nil] at heq
    rw [heq, Option.bind_eq_some_iff]
    simp only [lookup_nil_eq_definitely_iff]
  have hopen : ∀ {p s q o}, n.FirstOpen p o → (n.lookup (p ++ s :: q) = some .definitely ↔
      ∃ d, o.child? s = some d ∧ d.existence = some .definitely) := by
    intro p s q o ho
    rw [ho.lookup_eq, Option.or_eq_some_iff, ← Option.bind_eq_some_iff]
    simp
  constructor
  · intro h
    rcases n.closedBefore_or_exists_firstOpen path with hc | ⟨p, s, q, o, rfl, ho⟩
    · exact .inl ⟨hc, (hclosed hc).1 h⟩
    · obtain ⟨d, hd, he⟩ := (hopen ho).1 h
      exact .inr ⟨p, s, q, o, d, rfl, ho, hd, he⟩
  · rintro (⟨hc, hd⟩ | ⟨p, s, q, o, d, rfl, ho, hd, he⟩)
    · exact (hclosed hc).2 hd
    · exact (hopen ho).2 ⟨d, hd, he⟩

theorem lookup_ne_none_of_open (h : ¬n.ClosedBefore path) : n.lookup path ≠ none := by
  rcases n.closedBefore_or_exists_firstOpen path with hc | ⟨p, s, q, o, rfl, ho⟩
  · exact absurd hc h
  · rw [ho.lookup_eq]
    simp

end

end Node

/-! ## the sources together -/

namespace Scope

open Existence (rank)

variable {m : Scope} {path : List String}

theorem le_topRank_iff {k : Nat} (hk : 0 < k) (trees : List (String × Node)) :
    k ≤ topRank path trees ↔ ∃ t ∈ trees, k ≤ rank (t.2.lookup path) := by
  induction trees with
  | nil =>
    have hzero : topRank path [] = 0 := rfl
    simp only [hzero, List.not_mem_nil, false_and, exists_false, iff_false]
    omega
  | cons t trees ih => simp [topRank_cons, ih]

theorem lookup_eq_definitely_iff (hp : path ≠ []) :
    m.lookup path = some .definitely ↔ ∃ t ∈ m.sources, t.2.lookup path = some .definitely := by
  have hrank : ∀ x : Option Existence, x = some .definitely ↔ 2 ≤ rank x := fun x => by
    rw [← Existence.rank_eq_two_iff]
    have := Existence.rank_le x
    omega
  simp only [hrank]
  rw [rank_lookup_eq m hp]
  exact le_topRank_iff (by decide) _

theorem lookup_ne_none_of_source (hp : path ≠ []) {t : String × Node} (ht : t ∈ m.sources)
    (h : t.2.lookup path ≠ none) : m.lookup path ≠ none := by
  have hrank : ∀ x : Option Existence, x ≠ none ↔ 1 ≤ rank x := fun x => by
    rcases x with _ | _ | _ <;> simp [rank]
  rw [hrank] at h ⊢
  rw [rank_lookup_eq m hp]
  exact (le_topRank_iff (by decide) _).2 ⟨t, ht, h⟩

/-! ## certainty that is earned -/

/-- A reference that is known for sure has a node of its own that says so, and one without a node is perhaps there if it
goes on below a node with any child. -/
structure EarnsCertainty (m : Scope) : Prop where
  earned : ∀ reference, m.existence? reference = some .definitely →
    ∃ t ∈ m.sources, ∃ d, t.2.reach? (Reference.segments reference) = some d ∧ d.existence = some .definitely
  perhaps : ∀ reference, (∃ t ∈ m.sources, ¬t.2.ClosedBefore (Reference.segments reference)) →
    (∀ t ∈ m.sources, t.2.reach? (Reference.segments reference) = none) → m.existence? reference = some .maybe

/-- A node with any child, if no other comes before it, has no child that is there for sure. -/
def OpenlyUnsure (m : Scope) : Prop :=
  ∀ t ∈ m.sources, ∀ p o s d, t.2.FirstOpen p o → o.child? s = some d → d.existence ≠ some .definitely

theorem OpenlyUnsure.earnsCertainty (h : m.OpenlyUnsure) : m.EarnsCertainty := by
  have hearned : ∀ reference, m.existence? reference = some .definitely →
      ∃ t ∈ m.sources, ∃ d, t.2.reach? (Reference.segments reference) = some d ∧ d.existence = some .definitely := by
    intro reference hsure
    by_cases hp : Reference.segments reference = []
    · rw [existence?, hp] at hsure
      cases hsure
    · obtain ⟨t, ht, hlook⟩ := (lookup_eq_definitely_iff hp).1 hsure
      rcases Node.lookup_eq_definitely_iff.1 hlook with ⟨-, hd⟩ | ⟨p, s, q, o, d, -, ho, hd, he⟩
      · exact ⟨t, ht, hd⟩
      · exact absurd he (h t ht p o s d ho hd)
  refine ⟨hearned, fun reference ⟨t, ht, hopen⟩ hnone => ?_⟩
  have hp : Reference.segments reference ≠ [] := by
    intro hp
    rw [hp] at hopen
    exact hopen (Node.closedBefore_nil _)
  have hsome := lookup_ne_none_of_source hp ht (Node.lookup_ne_none_of_open hopen)
  cases he : m.existence? reference with
  | none => exact absurd he hsome
  | some e =>
    cases e with
    | maybe => rfl
    | definitely =>
      obtain ⟨t', ht', d, hd, -⟩ := hearned reference he
      rw [hnone t' ht'] at hd
      cases hd

/-- A name that is no index and longer than some others. -/
theorem exists_fresh (names : List String) : ∃ s, Reference.isIndex s = false ∧ s ∉ names := by
  obtain ⟨k, hk⟩ : ∃ k, ∀ s ∈ names, s.length ≤ k := by
    induction names with
    | nil => exact ⟨0, by simp⟩
    | cons s names ih =>
      obtain ⟨k, hk⟩ := ih
      refine ⟨max s.length k, fun s' hs' => ?_⟩
      rcases List.mem_cons.1 hs' with rfl | hs'
      · exact Nat.le_max_left _ _
      · exact (hk s' hs').trans (Nat.le_max_right _ _)
  refine ⟨String.ofList (List.replicate (k + 1) 'x'), ?_, fun hmem => ?_⟩
  · have hx : Text.isDecimal 'x' = false := by decide
    simp [Reference.isIndex, List.replicate_succ, hx]
  · have := hk _ hmem
    simp at this

theorem EarnsCertainty.openlyUnsure (h : m.EarnsCertainty) : m.OpenlyUnsure := by
  intro t ht p o s d ho hd he
  -- The path goes on below the sure child with a name that no source has there.
  obtain ⟨fresh, hindex, hfresh⟩ := exists_fresh
    (m.sources.flatMap fun t => ((t.2.reach? (p ++ [s])).map fun c => Table.keys c.children).getD [])
  obtain ⟨reference, hsegments⟩ := Reference.exists_segments_eq (p ++ [s, fresh])
  have hp : Reference.segments reference ≠ [] := by
    rw [hsegments]
    simp
  have hsure : m.existence? reference = some .definitely := by
    refine (lookup_eq_definitely_iff hp).2 ⟨t, ht, Node.lookup_eq_definitely_iff.2 (.inr ?_)⟩
    exact ⟨p, s, [fresh], o, d, hsegments, ho, hd, he⟩
  obtain ⟨t', ht', c, hc, -⟩ := h.earned reference hsure
  have hsplit : p ++ [s, fresh] = (p ++ [s]) ++ [fresh] := by simp
  rw [hsegments, hsplit, Node.reach?_append] at hc
  obtain ⟨b, hb, hc⟩ := Option.bind_eq_some_iff.1 hc
  obtain ⟨c', hc', -⟩ := Option.bind_eq_some_iff.1 hc
  rw [Node.next?_of_not_isIndex hindex] at hc'
  refine hfresh (List.mem_flatMap.2 ⟨t', ht', ?_⟩)
  rw [hb]
  exact List.mem_map.2 ⟨(fresh, c'), Table.mem_of_get? hc', rfl⟩

/-- **When look-up is sure, and when that is earned.**  A reference is sure exactly if some source has a sure node for
the whole of it and the way there goes on below no node with any child, or if a source has a sure node for the part of it
that ends one segment below the first node with any child.  In the second case what is left of the reference is not looked
at.  So certainty is earned exactly in those scopes in which no first node with any child has a sure child. -/
theorem certainty_exact (m : Scope) :
    (∀ reference, m.existence? reference = some .definitely ↔
      Reference.segments reference ≠ [] ∧ ∃ t ∈ m.sources,
        (t.2.ClosedBefore (Reference.segments reference) ∧
          ∃ d, t.2.reach? (Reference.segments reference) = some d ∧ d.existence = some .definitely) ∨
        ∃ p s q o d, Reference.segments reference = p ++ s :: q ∧ t.2.FirstOpen p o ∧ o.child? s = some d ∧
          d.existence = some .definitely) ∧
    (m.EarnsCertainty ↔ m.OpenlyUnsure) := by
  refine ⟨fun reference => ?_, EarnsCertainty.openlyUnsure, OpenlyUnsure.earnsCertainty⟩
  by_cases hp : Reference.segments reference = []
  · rw [existence?, hp]
    exact ⟨fun h => (by cases h), fun h => absurd rfl h.1⟩
  · rw [existence?, lookup_eq_definitely_iff hp]
    simp only [Node.lookup_eq_definitely_iff]
    exact ⟨fun h => ⟨hp, h⟩, fun h => h.2⟩

/-- A variable with any child, one of which is there for sure. -/
def openWithSureMember : Scope :=
  (empty.set "s" ["@foo"] .definitely true false).set "s" ["@foo", "bar"] .definitely false false

/-- Look-up is sure of a path below the sure child that has no node. -/
theorem openWithSureMember_sure_without_node :
    openWithSureMember.existence? "@foo.bar.baz" = some .definitely ∧
    (∀ t ∈ openWithSureMember.sources, t.2.reach? (Reference.segments "@foo.bar.baz") = none) ∧
    ∃ t ∈ openWithSureMember.sources, ¬t.2.ClosedBefore (Reference.segments "@foo.bar.baz") := by
  have hsegments : Reference.segments "@foo.bar.baz" = ["@foo", "bar", "baz"] := by decide +kernel
  rw [hsegments]
  refine ⟨by decide +kernel, fun t ht => ?_, _, List.mem_cons_self, fun h => ?_⟩
  · obtain rfl := List.mem_singleton.1 ht
    rfl
  · have hclosed := h ["@foo"] ["bar", "baz"] _ rfl (by simp) rfl
    cases hclosed

end Scope

end BrickScope
