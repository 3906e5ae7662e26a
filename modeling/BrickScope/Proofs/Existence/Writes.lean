import BrickScope.Proofs.Existence.Openness
import BrickScope.Proofs.Sources

/-!
# What a write does to other paths

A write goes down a path, makes the nodes that are missing, lets those on the way exist at least as surely as what is
written, and overwrites the node at the end.  Look-up may stop early, at a node with any child, and then answers from
whatever child there is; a write may have made or raised that child, but takes nothing away from it.  So only paths that
go through the end of the write can become less sure.

* `Node.rank_lookup_updateChild`, `Node.le_rank_lookup_updateChild`: one level of a tree, of which a child is changed;
* `Node.rank_lookup_writeAt`: paths that do not go through the end of the write;
* `Node.le_rank_lookup_writeAt`: paths on the way to it;
* `Node.at?_writeAt`: nodes that are not on the way;
* `Scope.set_weakens_nothing`: a scope in which a path is recorded.
-/

namespace BrickScope

open Existence (rank)

theorem Existence.rank_or_maybe (x : Option Existence) : rank (x.or (some .maybe)) = max (rank x) 1 := by
  rcases x with _ | _ | _ <;> rfl

namespace Node

/-! ## one level -/

section

variable {n : Node} {s t : String} {path : List String} {g : Node → Node}

theorem rank_lookup_nil (n : Node) : rank (n.lookup []) = max (rank n.existence) (if n.anyChild then 1 else 0) := by
  rw [lookup]
  split
  · exact Existence.rank_or_maybe _
  · exact (Nat.max_zero _).symm

theorem rank_lookup_of_open (h : n.anyChild = true) :
    rank (n.lookup (s :: path)) = max (rank ((n.child? s).bind existence)) 1 := by
  rw [lookup_cons_of_open h, Existence.rank_or_maybe]

/-- What a node says of itself is not asked for by a path that starts with a name. -/
theorem lookup_raise (hs : Reference.isIndex s = false) (n : Node) (e : Existence) :
    (n.raise e).lookup (s :: path) = n.lookup (s :: path) := by
  cases h : n.anyChild with
  | true =>
    have h' : (n.raise e).anyChild = true := h
    rw [lookup_cons_of_open h, lookup_cons_of_open h']
    rfl
  | false =>
    have h' : (n.raise e).anyChild = false := h
    rw [lookup_cons_of_closed h, lookup_cons_of_closed h', next?_of_not_isIndex hs, next?_of_not_isIndex hs]
    rfl

/-- If a child becomes no less sure by itself nor at a path below it, neither does the path through the child. -/
theorem rank_lookup_updateChild (ht : Reference.isIndex t = false)
    (hself : t = s → ∀ c : Node, rank c.existence ≤ rank (g c).existence)
    (hbelow : t = s → ∀ c : Node, rank (c.lookup path) ≤ rank ((g c).lookup path)) :
    rank (n.lookup (t :: path)) ≤ rank ((n.updateChild s g).lookup (t :: path)) := by
  have hchild := child?_updateChild n s t g
  cases hn : n.anyChild with
  | true =>
    -- look-up ends here, with what the child says of itself
    have hn' : (n.updateChild s g).anyChild = true := hn
    rw [rank_lookup_of_open hn, rank_lookup_of_open hn', hchild]
    split
    · rename_i hts
      have hc := hself hts
      rw [hts]
      cases n.child? s with
      | none => exact Nat.max_le.2 ⟨Nat.zero_le _, Nat.le_max_right _ _⟩
      | some c =>
        have := hc c
        simp only [Option.bind_some, Option.getD_some]
        omega
    · exact Nat.le_refl _
  | false =>
    have hn' : (n.updateChild s g).anyChild = false := hn
    rw [lookup_cons_of_closed hn, lookup_cons_of_closed hn', next?_of_not_isIndex ht, next?_of_not_isIndex ht, hchild]
    split
    · rename_i hts
      have hc := hbelow hts
      rw [hts]
      cases n.child? s with
      | none => exact Nat.zero_le _
      | some c => exact hc c
    · exact Nat.le_refl _

/-- If a child becomes sure by itself and at a path below it, so does the path through the child. -/
theorem le_rank_lookup_updateChild {k : Nat} (n : Node) (hself : ∀ c : Node, k ≤ rank (g c).existence)
    (hbelow : ∀ c : Node, k ≤ rank ((g c).lookup path)) : k ≤ rank ((n.updateChild s g).lookup (s :: path)) := by
  have hchild := child?_updateChild n s s g
  rw [if_pos rfl] at hchild
  cases hn : (n.updateChild s g).anyChild with
  | true =>
    have := hself ((n.child? s).getD {})
    rw [rank_lookup_of_open hn, hchild, Option.bind_some]
    omega
  | false =>
    rw [lookup_cons_of_child hn hchild]
    exact hbelow _

end

/-! ## a whole path -/

section

variable {e : Existence} {f : Node → Node} {path q : List String}

/-- On the way, a node is raised to what is written. -/
theorem rank_existence_writeAt_cons (s : String) (path : List String) (n : Node) :
    rank (writeAt e f (s :: path) n).existence = max (rank n.existence) (rank (some e)) := Existence.rank_surer _ _

theorem rank_existence_writeAt (hp : path ≠ []) (n : Node) :
    rank n.existence ≤ rank (writeAt e f path n).existence := by
  obtain ⟨s, path, rfl⟩ := List.exists_cons_of_ne_nil hp
  rw [rank_existence_writeAt_cons]
  exact Nat.le_max_left _ _

theorem le_rank_existence_writeAt (hf : ∀ n : Node, rank (some e) ≤ rank (f n).existence) (path : List String)
    (n : Node) : rank (some e) ≤ rank (writeAt e f path n).existence := by
  cases path with
  | nil => exact hf n
  | cons s path =>
    rw [rank_existence_writeAt_cons]
    exact Nat.le_max_right _ _

/-- A path of names that does not go through the end of a write is afterwards as sure as before. -/
theorem rank_lookup_writeAt (hq : ∀ s ∈ q, Reference.isIndex s = false) (h : ¬path <+: q) (n : Node) :
    rank (n.lookup q) ≤ rank ((writeAt e f path n).lookup q) := by
  induction path generalizing q n with
  | nil => exact absurd List.nil_prefix h
  | cons s path ih =>
    cases q with
    | nil =>
      have hself := rank_existence_writeAt (e := e) (f := f) (List.cons_ne_nil s path) n
      have hany : (writeAt e f (s :: path) n).anyChild = n.anyChild := rfl
      rw [rank_lookup_nil, rank_lookup_nil, hany]
      omega
    | cons t q =>
      obtain ⟨ht, hq⟩ := List.forall_mem_cons.1 hq
      rw [writeAt, ← lookup_raise ht n e]
      refine rank_lookup_updateChild ht (fun hts c => ?_) fun hts c => ?_
      · -- the write does not end at the child, whose mark it would replace
        refine rank_existence_writeAt ?_ c
        rintro rfl
        exact h (List.cons_prefix_cons.2 ⟨hts.symm, List.nil_prefix⟩)
      · exact ih hq (fun hp => h (List.cons_prefix_cons.2 ⟨hts.symm, hp⟩)) c

/-- On the way to its end, and there, all is at least as sure as what is written. -/
theorem le_rank_lookup_writeAt (hf : ∀ n : Node, rank (some e) ≤ rank (f n).existence) (h : q <+: path) (n : Node) :
    rank (some e) ≤ rank ((writeAt e f path n).lookup q) := by
  induction path generalizing q n with
  | nil =>
    have := hf n
    rw [List.prefix_nil.1 h, writeAt, rank_lookup_nil]
    omega
  | cons s path ih =>
    cases q with
    | nil =>
      have := le_rank_existence_writeAt hf (s :: path) n
      rw [rank_lookup_nil]
      omega
    | cons t q =>
      obtain ⟨rfl, hq⟩ := List.cons_prefix_cons.1 h
      exact le_rank_lookup_updateChild _ (le_rank_existence_writeAt hf path) (ih hq)

/-- A node that is not on the way to the end of a write stays as it is, also if it is below the end. -/
theorem at?_writeAt (hf : ∀ n : Node, (f n).children = n.children) (h : ¬q <+: path) (n : Node) :
    (writeAt e f path n).at? q = n.at? q := by
  induction path generalizing q n with
  | nil =>
    cases q with
    | nil => exact absurd List.nil_prefix h
    | cons t q =>
      rw [writeAt, at?, at?, child?, child?, hf]
  | cons s path ih =>
    cases q with
    | nil => exact absurd List.nil_prefix h
    | cons t q =>
      rw [writeAt, at?, at?, child?_updateChild]
      split
      · rename_i hts
        subst hts
        have hq : ¬q <+: path := fun hq => h (List.cons_prefix_cons.2 ⟨rfl, hq⟩)
        have hchild : (n.raise e).child? t = n.child? t := rfl
        rw [Option.bind_some, ih hq, hchild]
        cases n.child? t with
        | none =>
          cases q with
          | nil => exact absurd List.nil_prefix hq
          | cons u q => rfl
        | some c => rfl
      · rfl

end

/-! ## roots -/

section

variable {e : Existence} {f : Node → Node} {path q : List String}

/-- A write from the root is one that raises the root as well, which only the empty path can see. -/
theorem raise_write (hp : path ≠ []) (root : Node) : (root.write e f path).raise e = writeAt e f path root := by
  obtain ⟨s, path, rfl⟩ := List.exists_cons_of_ne_nil hp
  rfl

theorem rank_lookup_write (hp : path ≠ []) (hne : q ≠ []) (hq : ∀ s ∈ q, Reference.isIndex s = false) (h : ¬path <+: q)
    (root : Node) : rank (root.lookup q) ≤ rank ((root.write e f path).lookup q) := by
  obtain ⟨t, q, rfl⟩ := List.exists_cons_of_ne_nil hne
  rw [← lookup_raise (hq t List.mem_cons_self) (root.write e f path) e, raise_write hp]
  exact rank_lookup_writeAt hq h root

theorem le_rank_lookup_write (hf : ∀ n : Node, rank (some e) ≤ rank (f n).existence) (hne : q ≠ []) (h : q <+: path)
    (root : Node) : rank (some e) ≤ rank ((root.write e f path).lookup q) := by
  obtain ⟨t, q, rfl⟩ := List.exists_cons_of_ne_nil hne
  obtain ⟨rest, rfl⟩ := h
  have hself := le_rank_existence_writeAt hf (q ++ rest)
  exact le_rank_lookup_updateChild root hself (le_rank_lookup_writeAt hf (List.prefix_append q rest))

theorem at?_write (hf : ∀ n : Node, (f n).children = n.children) (hp : path ≠ []) (h : ¬q <+: path) (root : Node) :
    (root.write e f path).at? q = root.at? q := by
  rw [← at?_writeAt (e := e) hf h root, ← raise_write hp]
  cases q with
  | nil => exact absurd List.nil_prefix h
  | cons t q => rfl

end

end Node

/-! ## scopes -/

namespace Scope

section

variable {q : List String} {source : String}

theorem topRank_le_update {g : Option Node → Node} (h : ∀ n : Node, rank (n.lookup q) ≤ rank ((g (some n)).lookup q))
    (trees : Table Node) : topRank q trees ≤ topRank q (Table.update trees source g) := by
  induction trees with
  | nil => exact Nat.zero_le _
  | cons k trees ih =>
    obtain ⟨name, n⟩ := k
    unfold Table.update at ih ⊢
    rw [Table.get?, Table.insert]
    split
    · exact Nat.max_le.2 ⟨Nat.le_trans (h n) (Nat.le_max_left _ _), Nat.le_max_right _ _⟩
    · exact Nat.max_le.2 ⟨Nat.le_max_left _ _, Nat.le_trans ih (Nat.le_max_right _ _)⟩

theorem rank_le_topRank_insert (trees : Table Node) (n : Node) :
    rank (n.lookup q) ≤ topRank q (Table.insert trees source n) := by
  induction trees with
  | nil => exact Nat.le_max_left _ _
  | cons k trees ih =>
    rw [Table.insert]
    split
    · exact Nat.le_max_left _ _
    · exact Nat.le_trans ih (Nat.le_max_right _ _)

end

section

variable {p q : List String} {e : Existence} {anyChild isArray : Bool}

theorem rank_lookup_set (m : Scope) (source : String) (hp : p ≠ []) (hq : ∀ s ∈ q, Reference.isIndex s = false)
    (h : ¬p <+: q) : rank (m.lookup q) ≤ rank ((m.set source p e anyChild isArray).lookup q) := by
  by_cases hne : q = []
  · subst hne
    exact Nat.le_refl _
  let g : Option Node → Node := fun root => (root.getD {}).write e (Node.stamp e anyChild isArray) p
  have hg : ∀ n : Node, rank (n.lookup q) ≤ rank ((g (some n)).lookup q) := Node.rank_lookup_write hp hne hq h
  rw [rank_lookup_eq _ hne, rank_lookup_eq _ hne]
  exact topRank_le_update hg m.sources

theorem le_rank_lookup_set (m : Scope) (source : String) (hne : q ≠ []) (h : q <+: p) :
    rank (some e) ≤ rank ((m.set source p e anyChild isArray).lookup q) := by
  have hstamp : ∀ n : Node, rank (some e) ≤ rank (n.stamp e anyChild isArray).existence := fun _ => Nat.le_refl _
  have htree := Node.le_rank_lookup_write hstamp hne h ((m.source? source).getD {})
  rw [rank_lookup_eq _ hne]
  exact Nat.le_trans htree (rank_le_topRank_insert m.sources _)

end

/-- **Recording a path makes no other path less sure**: the segments of a reference that has no indices and does not go
through the recorded path are as sure as before.  The recorded path and those that lead to it are at least as sure as
what is recorded.  The other sources are left alone, and so are the nodes of this one that are not on the way. -/
theorem set_weakens_nothing (m : Scope) (source : String) {p : List String} (hp : p ≠ []) (e : Existence)
    (anyChild isArray : Bool) :
    (∀ q, (∀ s ∈ q, Reference.isIndex s = false) → ¬p <+: q →
      rank (m.lookup q) ≤ rank ((m.set source p e anyChild isArray).lookup q)) ∧
    (∀ q, q ≠ [] → q <+: p → rank (some e) ≤ rank ((m.set source p e anyChild isArray).lookup q)) ∧
    (∀ other, other ≠ source → (m.set source p e anyChild isArray).source? other = m.source? other) ∧
    ∃ tree, (m.set source p e anyChild isArray).source? source = some tree ∧
      ∀ q, ¬q <+: p → tree.at? q = ((m.source? source).getD {}).at? q := by
  refine ⟨?_, ?_, ?_, ?_⟩
  · intro q hq h
    exact rank_lookup_set m source hp hq h
  · intro q hne h
    exact le_rank_lookup_set m source hne h
  · intro other ho
    exact source?_write_of_ne ho e _
  · refine ⟨_, Table.get?_insert_self _ _ _, fun q h => ?_⟩
    have hstamp : ∀ n : Node, (n.stamp e anyChild isArray).children = n.children := fun _ => rfl
    exact Node.at?_write hstamp hp h _

/-- Anything may be below `@a`; then a path below `@a.b` is recorded, and another one there becomes surer by that. -/
theorem set_weakens_nothing_open :
    ((empty.set "s" ["@a"] .maybe true false).lookup ["@a", "b", "c"] = some .maybe ∧
      1 ≤ rank (((empty.set "s" ["@a"] .maybe true false).set "s" ["@a", "b", "x"] .definitely false false).lookup
        ["@a", "b", "c"])) ∧
    2 ≤ rank (((empty.set "s" ["@a"] .maybe true false).set "s" ["@a", "b", "x"] .definitely false false).lookup
      ["@a", "b"]) := by
  obtain ⟨hothers, hway, -⟩ := set_weakens_nothing (empty.set "s" ["@a"] .maybe true false) "s"
    (List.cons_ne_nil "@a" ["b", "x"]) .definitely false false
  have hbefore : (empty.set "s" ["@a"] .maybe true false).lookup ["@a", "b", "c"] = some .maybe := by decide +kernel
  refine ⟨⟨hbefore, ?_⟩, hway ["@a", "b"] (by decide) (by decide)⟩
  have hafter := hothers ["@a", "b", "c"] (by decide +kernel) (by decide)
  rw [hbefore] at hafter
  exact hafter

end Scope

end BrickScope
