import BrickScope.Proofs.Existence.Naming

/-!
# One tree for all sources

The trees of all sources can be merged into one.  At each path, the merged tree says what the sources say there
together: it has a node where some source has one, as sure as the surest of them and with the marks of all.  Nothing of
this depends on the order of the sources.  A path without an index is looked up in the merged tree with the same success
as in the sources one by one: at the first node with any child on the way through the merged tree, some source has such
a node, and has come there on the same way.

* `Node.Distinct`: no two children of a node have one name, as in all trees that are written (`Scope.Proper`);
* `Node.at?_merge`: the node at a path of a union;
* `Node.Joins`: what several nodes say together, `Node.joins_foldl_merge`;
* `Node.isSome_lookup_merge`: looking up in a union;
* `Node.same_of_label_eq`: trees that say the same at each path;
* `Scope.merged_agrees`: the merged tree and the scope.
-/

namespace BrickScope

open Existence (rank)

theorem Existence.rank_injective : Function.Injective rank := by
  intro x y h
  rcases x with _ | _ | _ <;> rcases y with _ | _ | _ <;> simp_all [rank]

theorem Existence.isSome_surer (x y : Option Existence) :
    (surer x y).isSome = true ↔ x.isSome = true ∨ y.isSome = true := by
  rcases x with _ | _ | _ <;> rcases y with _ | _ | _ <;> simp [surer]

namespace Node

/-! ## trees with distinct names -/

/-- No two children of a node have one name, here and below. -/
inductive Distinct : Node → Prop
  | node {n : Node} (names : (Table.keys n.children).Nodup) (below : ∀ s c, n.child? s = some c → Distinct c) :
    Distinct n

section

variable {n c : Node} {s : String}

theorem Distinct.names (h : n.Distinct) : (Table.keys n.children).Nodup := by
  cases h with
  | node names _ => exact names

theorem Distinct.child (h : n.Distinct) (hc : n.child? s = some c) : c.Distinct := by
  cases h with
  | node _ below => exact below s c hc

theorem distinct_empty : Distinct {} := .node List.nodup_nil fun s c hc => by cases hc

theorem Distinct.getD_child (h : n.Distinct) (s : String) : ((n.child? s).getD {}).Distinct := by
  cases hc : n.child? s with
  | none => exact distinct_empty
  | some c => exact h.child hc

/-- What is said of a node itself does not matter. -/
theorem Distinct.of_children_eq {n' : Node} (h : n.Distinct) (hc : n'.children = n.children) : n'.Distinct := by
  refine .node (hc ▸ h.names) fun s c hs => h.child (s := s) ?_
  rw [← hs, child?, child?, hc]

theorem Distinct.stamp (h : n.Distinct) (e : Existence) (anyChild isArray : Bool) :
    (n.stamp e anyChild isArray).Distinct := h.of_children_eq rfl

theorem Distinct.updateChild (h : n.Distinct) (name : String) {f : Node → Node}
    (hf : ∀ c : Node, c.Distinct → (f c).Distinct) : (n.updateChild name f).Distinct := by
  refine .node (Table.nodup_keys_insert h.names _ _) fun s c hc => ?_
  rw [child?_updateChild] at hc
  split at hc
  · cases hc
    exact hf _ (h.getD_child name)
  · exact h.child hc

theorem Distinct.writeAt (e : Existence) {f : Node → Node} (hf : ∀ c : Node, c.Distinct → (f c).Distinct)
    (path : List String) : ∀ {n : Node}, n.Distinct → (n.writeAt e f path).Distinct := by
  induction path with
  | nil =>
    intro n h
    exact hf n h
  | cons s path ih =>
    intro n h
    have hraise : (n.raise e).Distinct := h.of_children_eq rfl
    exact hraise.updateChild s fun c => ih

theorem Distinct.write (h : n.Distinct) (e : Existence) {f : Node → Node}
    (hf : ∀ c : Node, c.Distinct → (f c).Distinct) (path : List String) : (n.write e f path).Distinct := by
  cases path with
  | nil => exact (hf n h).of_children_eq rfl
  | cons s path => exact h.updateChild s fun c => Distinct.writeAt e hf path

theorem Distinct.describeProperties {override : Option Existence} {properties : List (String × Schema)}
    (hp : ∀ p ∈ properties, ∀ e isArray, ∀ n : Node, n.Distinct → (n.describe override e isArray p.2).Distinct)
    (existence : String → Existence) :
    ∀ {n : Node}, n.Distinct → (n.describeProperties override existence properties).Distinct := by
  induction properties with
  | nil =>
    intro n h
    exact h
  | cons p properties ih =>
    intro n h
    rw [Node.describeProperties]
    refine ih (fun q hq => hp q (List.mem_cons_of_mem _ hq)) ?_
    split
    · exact h.updateChild p.1 (hp p List.mem_cons_self _ false)
    · exact h

theorem Distinct.describe (override : Option Existence) (s : Schema) :
    ∀ e isArray, ∀ n : Node, n.Distinct → (n.describe override e isArray s).Distinct := by
  induction s using Schema.parts_induction with
  | bool allowed =>
    intro e isArray n h
    cases allowed with
    | true => exact h.stamp e true isArray
    | false => exact h
  | object o hproperties hitems =>
    intro e isArray n h
    rw [describe_object]
    split
    · exact h.stamp e true _
    · exact h.stamp e false isArray
    · exact Distinct.describeProperties hproperties _ (h.stamp e false isArray)
    · rename_i t ho
      exact hitems t (ObjectSchema.items_of_form ho) e true n h

end

mutual

theorem Distinct.observe : ∀ (v : Json) {n : Node}, n.Distinct → (n.observe v).Distinct
  | .scalar _, _, h => h.stamp .definitely false false
  | .array items, _, h => (Distinct.observeItems items (h.stamp .definitely false true)).of_children_eq rfl
  | .object members, _, h => Distinct.observeMembers members (h.stamp .definitely false false)

theorem Distinct.observeItems : ∀ (items : List Json) {n : Node}, n.Distinct → (n.observeItems items).Distinct
  | [], _, h => h
  | v :: items, _, h => Distinct.observeItems items (Distinct.observe v h)

theorem Distinct.observeMembers :
    ∀ (members : List (String × Json)) {n : Node}, n.Distinct → (n.observeMembers members).Distinct
  | [], _, h => h
  | (name, v) :: members, _, h =>
    Distinct.observeMembers members (h.updateChild name fun _ => Distinct.observe v)

end

/-! ## unions -/

theorem isSome_lookup_nil {n : Node} :
    (n.lookup []).isSome = true ↔ n.existence.isSome = true ∨ n.anyChild = true := by
  rw [lookup]
  split <;> simp [*]

theorem lookup_empty (path : List String) : ({} : Node).lookup path = none := by
  cases path <;> rfl

/-- What two places say together, where there need not be a node. -/
def joint : Option Node → Option Node → Option Node
  | a, none => a
  | a, some b => some ((a.getD {}).merge b)

section

variable {a b : Node} {s : String}

theorem merge_eq (a b : Node) : a.merge b = ⟨Existence.surer a.existence b.existence, a.anyChild || b.anyChild,
    a.isArray || b.isArray, mergeChildren a.children b.children⟩ := by
  obtain ⟨existence, anyChild, isArray, children⟩ := b
  rfl

@[simp] theorem existence_merge (a b : Node) :
    (a.merge b).existence = Existence.surer a.existence b.existence := by rw [merge_eq]

@[simp] theorem anyChild_merge (a b : Node) : (a.merge b).anyChild = (a.anyChild || b.anyChild) := by rw [merge_eq]

@[simp] theorem isArray_merge (a b : Node) : (a.merge b).isArray = (a.isArray || b.isArray) := by rw [merge_eq]

@[simp] theorem children_merge (a b : Node) : (a.merge b).children = mergeChildren a.children b.children := by
  rw [merge_eq]

theorem get?_mergeChildren {children : Table Node} (h : (Table.keys children).Nodup) (merged : Table Node)
    (s : String) :
    Table.get? (mergeChildren merged children) s = joint (Table.get? merged s) (Table.get? children s) := by
  induction children generalizing merged with
  | nil => rfl
  | cons k children ih =>
    obtain ⟨name, c⟩ := k
    obtain ⟨hname, hnodup⟩ := List.nodup_cons.1 h
    rw [mergeChildren, ih hnodup, Table.get?]
    by_cases hs : name = s
    · -- the name does not come again
      subst hs
      have hnone : Table.get? children name = none := Table.get?_eq_none_iff.2 hname
      rw [hnone, Table.get?_insert_self, if_pos rfl]
      rfl
    · rw [Table.get?_insert_of_ne (Ne.symm hs), if_neg hs]

theorem child?_merge (h : b.Distinct) (a : Node) (s : String) :
    (a.merge b).child? s = joint (a.child? s) (b.child? s) := by
  rw [child?, children_merge]
  exact get?_mergeChildren h.names _ s

theorem mem_keys_mergeChildren (children merged : Table Node) :
    s ∈ Table.keys (mergeChildren merged children) ↔ s ∈ Table.keys merged ∨ s ∈ Table.keys children := by
  induction children generalizing merged with
  | nil => simp [mergeChildren, Table.keys]
  | cons k children ih =>
    obtain ⟨name, c⟩ := k
    have hkeys : Table.keys ((name, c) :: children) = name :: Table.keys children := rfl
    rw [mergeChildren, ih, Table.keys_insert, hkeys, List.mem_cons]
    split
    · rename_i hname
      constructor
      · rintro (h | h) <;> simp [h]
      · rintro (h | rfl | h) <;> simp [*]
    · rw [List.mem_append, List.mem_singleton, or_assoc]

theorem nodup_keys_mergeChildren (children : Table Node) {merged : Table Node} (h : (Table.keys merged).Nodup) :
    (Table.keys (mergeChildren merged children)).Nodup := by
  induction children generalizing merged with
  | nil => exact h
  | cons k children ih => exact ih (Table.nodup_keys_insert h _ _)

theorem Distinct.merge (ha : a.Distinct) (hb : b.Distinct) : (a.merge b).Distinct := by
  induction hb generalizing a with
  | @node b names below ih =>
    refine .node (children_merge a b ▸ nodup_keys_mergeChildren _ ha.names) fun s c hc => ?_
    rw [child?_merge (.node names below)] at hc
    cases hs : b.child? s with
    | none =>
      rw [hs] at hc
      exact ha.child hc
    | some d =>
      rw [hs] at hc
      cases hc
      exact ih s d hs (ha.getD_child s)

/-- The node at a path of a union. -/
theorem at?_merge (hb : b.Distinct) (a : Node) (r : List String) :
    (a.merge b).at? r = joint (a.at? r) (b.at? r) := by
  induction r generalizing a b with
  | nil => rfl
  | cons s r ih =>
    rw [at?, at?, at?, child?_merge hb]
    cases hd : b.child? s with
    | none => rfl
    | some d =>
      simp only [joint, Option.bind_some]
      rw [ih (hb.child hd)]
      cases a.child? s with
      | some c => rfl
      | none =>
        -- a new node is like none at all
        cases r with
        | nil => rfl
        | cons s' r => rfl

/-- Looking up in a union: where a path without an index leads by one of two trees, it leads by both together.  On the
way through the union, both trees are followed as far as they go. -/
theorem isSome_lookup_merge {path : List String} (hp : ∀ s ∈ path, Reference.isIndex s = false) (hb : b.Distinct)
    (a : Node) : ((a.merge b).lookup path).isSome = true ↔
      (a.lookup path).isSome = true ∨ (b.lookup path).isSome = true := by
  induction path generalizing a b with
  | nil =>
    rw [isSome_lookup_nil, isSome_lookup_nil, isSome_lookup_nil, existence_merge, Existence.isSome_surer,
      anyChild_merge, Bool.or_eq_true]
    exact or_or_or_comm
  | cons s path ih =>
    obtain ⟨hs, hpath⟩ := List.forall_mem_cons.1 hp
    by_cases hopen : a.anyChild = true ∨ b.anyChild = true
    · have hmerge : (a.merge b).anyChild = true := by simpa using hopen
      refine iff_of_true (isSome_lookup_of_anyChild hmerge _) ?_
      exact hopen.imp (fun h => isSome_lookup_of_anyChild h _) fun h => isSome_lookup_of_anyChild h _
    obtain ⟨hca, hcb⟩ := not_or.1 hopen
    rw [Bool.not_eq_true] at hca hcb
    have hclosed : (a.merge b).anyChild = false := by simp [hca, hcb]
    rw [lookup_cons_of_closed hca, lookup_cons_of_closed hcb, lookup_cons_of_closed hclosed, next?_of_not_isIndex hs,
      next?_of_not_isIndex hs, next?_of_not_isIndex hs, child?_merge hb]
    cases hd : b.child? s with
    | none => simp [joint]
    | some d =>
      simp only [joint, Option.bind_some]
      rw [ih hpath (hb.child hd)]
      cases a.child? s with
      | some c => rfl
      | none => simp [lookup_empty]

end

/-! ## what several nodes say together -/

/-- A node says of itself what some nodes say together: it is as sure as the surest of them, and has the marks of
all. -/
structure Joins (ns : List Node) (n : Node) : Prop where
  surest : ∀ k ∈ ns, rank k.existence ≤ rank n.existence
  earned : n.existence = none ∨ ∃ k ∈ ns, k.existence = n.existence
  anyChild : n.anyChild = true ↔ ∃ k ∈ ns, k.anyChild = true
  isArray : n.isArray = true ↔ ∃ k ∈ ns, k.isArray = true

/-- The nodes of several trees at one path. -/
def nodesAt (trees : List (String × Node)) (r : List String) : List Node := trees.filterMap fun t => t.2.at? r

/-- What a node says of itself. -/
def label (n : Node) : Option Existence × Bool × Bool := (n.existence, n.anyChild, n.isArray)

section

variable {ns ns' : List Node} {n n' : Node}

theorem joins_nil : Joins [] {} := by
  constructor <;> simp

theorem Joins.merge (h : Joins ns n) (b : Node) : Joins (ns ++ [b]) (n.merge b) := by
  refine ⟨fun k hk => ?_, ?_, ?_, ?_⟩
  · rw [existence_merge, Existence.rank_surer]
    rcases List.mem_append.1 hk with hk | hk
    · exact le_max_of_le_left (h.surest k hk)
    · rw [List.mem_singleton.1 hk]
      exact le_max_right _ _
  · -- the surer of two is one of them
    have hone : Existence.surer n.existence b.existence = n.existence ∨
        Existence.surer n.existence b.existence = b.existence := by
      rcases n.existence with _ | _ | _ <;> rcases b.existence with _ | _ | _ <;> simp [Existence.surer]
    rw [existence_merge]
    rcases hone with he | he <;> rw [he]
    · exact h.earned.imp_right fun ⟨k, hk, hke⟩ => ⟨k, List.mem_append_left _ hk, hke⟩
    · exact .inr ⟨b, by simp, rfl⟩
  · simp [h.anyChild, or_and_right, exists_or]
  · simp [h.isArray, or_and_right, exists_or]

/-- Whatever says the same together is labelled alike: it does not matter in which order, or how often, it is said. -/
theorem Joins.label_eq (h : Joins ns n) (h' : Joins ns' n') (hns : ∀ k, k ∈ ns ↔ k ∈ ns') : n.label = n'.label := by
  have hle : ∀ {ns ns' : List Node} {n n' : Node}, Joins ns n → Joins ns' n' → (∀ k ∈ ns, k ∈ ns') →
      rank n.existence ≤ rank n'.existence := by
    intro ns ns' n n' h h' hsub
    rcases h.earned with hn | ⟨k, hk, hke⟩
    · rw [hn]
      exact Nat.zero_le _
    · rw [← hke]
      exact h'.surest k (hsub k hk)
  have hrank := Nat.le_antisymm (hle h h' fun k => (hns k).1) (hle h' h fun k => (hns k).2)
  have hany : n.anyChild = n'.anyChild := by
    rw [Bool.eq_iff_iff, h.anyChild, h'.anyChild]
    simp only [hns]
  have harray : n.isArray = n'.isArray := by
    rw [Bool.eq_iff_iff, h.isArray, h'.isArray]
    simp only [hns]
  rw [label, label, Existence.rank_injective hrank, hany, harray]

end

/-! ### merged one after the other -/

section

variable {trees : List (String × Node)} (hd : ∀ t ∈ trees, t.2.Distinct)

include hd

theorem Distinct.foldl_merge {a : Node} (ha : a.Distinct) : (trees.foldl (fun n t => n.merge t.2) a).Distinct := by
  induction trees generalizing a with
  | nil => exact ha
  | cons t trees ih =>
    obtain ⟨ht, htrees⟩ := List.forall_mem_cons.1 hd
    exact ih htrees (ha.merge ht)

theorem isSome_at?_foldl_merge (a : Node) (r : List String) :
    ((trees.foldl (fun n t => n.merge t.2) a).at? r).isSome = true ↔
      (a.at? r).isSome = true ∨ ∃ t ∈ trees, (t.2.at? r).isSome = true := by
  induction trees generalizing a with
  | nil => simp
  | cons t trees ih =>
    obtain ⟨ht, htrees⟩ := List.forall_mem_cons.1 hd
    rw [List.foldl_cons, ih htrees, at?_merge ht, List.exists_mem_cons_iff, ← or_assoc]
    cases t.2.at? r <;> simp [joint]

/-- The node at a path says what all nodes at this path say, and what was said there before. -/
theorem joins_foldl_merge {a : Node} (ns : List Node) {r : List String} (hnone : a.at? r = none → ns = [])
    (hsome : ∀ n, a.at? r = some n → Joins ns n) {n : Node}
    (hn : (trees.foldl (fun n t => n.merge t.2) a).at? r = some n) :
    Joins (ns ++ nodesAt trees r) n := by
  induction trees generalizing a ns with
  | nil => simpa [nodesAt] using hsome n hn
  | cons t trees ih =>
    obtain ⟨ht, htrees⟩ := List.forall_mem_cons.1 hd
    have hat := at?_merge ht a r
    rw [List.foldl_cons] at hn
    cases hb : t.2.at? r with
    | none =>
      have hnodes : nodesAt (t :: trees) r = nodesAt trees r := by simp [nodesAt, hb]
      rw [hb] at hat
      rw [hnodes]
      exact ih htrees ns (fun h => hnone (hat.symm.trans h)) (fun k hk => hsome k (hat.symm.trans hk)) hn
    | some b =>
      have hstart : Joins ns ((a.at? r).getD {}) := by
        cases ha : a.at? r with
        | none =>
          rw [hnone ha]
          exact joins_nil
        | some k => exact hsome k ha
      have hnodes : nodesAt (t :: trees) r = b :: nodesAt trees r := by simp [nodesAt, hb]
      rw [hb] at hat
      rw [hnodes, List.append_cons]
      refine ih htrees (ns ++ [b]) (fun h => ?_) (fun k hk => ?_) hn
      · rw [hat] at h
        cases h
      · rw [hat] at hk
        cases hk
        exact hstart.merge b

theorem isSome_lookup_foldl_merge {path : List String} (hp : ∀ s ∈ path, Reference.isIndex s = false) (a : Node) :
    ((trees.foldl (fun n t => n.merge t.2) a).lookup path).isSome = true ↔
      (a.lookup path).isSome = true ∨ ∃ t ∈ trees, (t.2.lookup path).isSome = true := by
  induction trees generalizing a with
  | nil => simp
  | cons t trees ih =>
    obtain ⟨ht, htrees⟩ := List.forall_mem_cons.1 hd
    rw [List.foldl_cons, ih htrees, isSome_lookup_merge hp ht, List.exists_mem_cons_iff, or_assoc]

end

/-! ## trees that say the same -/

section

variable {a b : Node}

theorem same_eq (a b : Node) : a.same b = (decide (a.existence = b.existence) && decide (a.anyChild = b.anyChild) &&
    decide (a.isArray = b.isArray) && decide (a.children.length = b.children.length) &&
    sameChildren a.children b.children) := by
  obtain ⟨existence, anyChild, isArray, children⟩ := a
  rfl

theorem sameChildren_of_forall {children others : Table Node}
    (h : ∀ k ∈ children, ∃ d, Table.get? others k.1 = some d ∧ k.2.same d = true) :
    sameChildren children others = true := by
  induction children with
  | nil => rfl
  | cons k children ih =>
    obtain ⟨⟨d, hd, hs⟩, hchildren⟩ := List.forall_mem_cons.1 h
    rw [sameChildren, hd, ih hchildren]
    simpa using hs

/-- Trees that say the same at each path are the same up to the order of children. -/
theorem same_of_label_eq (ha : a.Distinct) (hb : b.Distinct)
    (h : ∀ r, (a.at? r).map label = (b.at? r).map label) : a.same b = true := by
  induction ha generalizing b with
  | @node a names below ih =>
    have hlabel : a.label = b.label := Option.some.inj (h [])
    have hchild : ∀ s c, a.child? s = some c → ∃ d, b.child? s = some d ∧
        ∀ r, (c.at? r).map label = (d.at? r).map label := by
      intro s c hc
      have hs := h [s]
      rw [at?, at?, hc] at hs
      cases hd : b.child? s with
      | none =>
        rw [hd] at hs
        cases hs
      | some d =>
        refine ⟨d, rfl, fun r => ?_⟩
        have hr := h (s :: r)
        rwa [at?, at?, hc, hd] at hr
    have hkeys : ∀ s, s ∈ Table.keys a.children ↔ s ∈ Table.keys b.children := by
      intro s
      have hs := h [s]
      rw [← not_iff_not, ← Table.get?_eq_none_iff, ← Table.get?_eq_none_iff]
      change a.child? s = none ↔ b.child? s = none
      rw [at?, at?] at hs
      cases ha : a.child? s <;> cases hd : b.child? s <;> rw [ha, hd] at hs <;> simp_all [at?]
    have hlength : a.children.length = b.children.length := by
      have hperm := (List.perm_ext_iff_of_nodup names hb.names).2 hkeys
      simpa [Table.keys] using hperm.length_eq
    have hsame : sameChildren a.children b.children = true := by
      refine sameChildren_of_forall fun k hk => ?_
      have hc : a.child? k.1 = some k.2 := Table.get?_of_mem names hk
      obtain ⟨d, hd, hr⟩ := hchild k.1 k.2 hc
      exact ⟨d, hd, ih k.1 k.2 hc (hb.child hd) hr⟩
    obtain ⟨he, hany, harray⟩ : a.existence = b.existence ∧ a.anyChild = b.anyChild ∧ a.isArray = b.isArray := by
      simpa [label] using hlabel
    rw [same_eq, hsame, he, hany, harray, hlength]
    simp

end

end Node

/-! ## scopes -/

namespace Scope

open Node (Joins nodesAt)

/-- In the tree of each source, no two children of a node have one name. -/
def Proper (m : Scope) : Prop := ∀ t ∈ m.sources, t.2.Distinct

section

variable {m m' : Scope}

theorem proper_empty : empty.Proper := fun t ht => by cases ht

theorem Proper.write (h : m.Proper) (source : String) (path : List String) (e : Existence) {f : Node → Node}
    (hf : ∀ c : Node, c.Distinct → (f c).Distinct) : (m.write source path e f).Proper := by
  intro t ht
  rcases Table.mem_insert ht with rfl | ht
  · refine Node.Distinct.write ?_ e hf path
    cases hs : Table.get? m.sources source with
    | none => exact Node.distinct_empty
    | some root => exact h (source, root) (Table.mem_of_get? hs)
  · exact h t ht

theorem Proper.set (h : m.Proper) (source : String) (path : List String) (e : Existence) (anyChild isArray : Bool) :
    (m.set source path e anyChild isArray).Proper :=
  h.write source path e fun _ hc => hc.stamp e anyChild isArray

theorem Proper.describe (h : m.Proper) (source : String) (s : Schema) (path : List String)
    (override : Option Existence) : (m.describe source s path override).Proper := by
  rw [Scope.describe]
  split
  · exact h.write source path _ (Node.Distinct.describe override s _ false)
  · exact h

theorem Proper.observe (h : m.Proper) (source : String) (v : Json) (path : List String) :
    (m.observe source v path).Proper := by
  rw [Scope.observe]
  split
  · exact h
  · exact h.write source path _ fun _ => Node.Distinct.observe v

theorem Proper.extend (h : m.Proper) (h' : m'.Proper) : (m.extend m').Proper := fun t ht =>
  (Table.mem_insertAll ht).elim (h' t) (h t)

end

section

variable {m : Scope}

theorem at?_merged_cons (m : Scope) (s : String) (r : List String) :
    m.merged.at? (s :: r) = (m.sources.foldl (fun n t => n.merge t.2) ({} : Node)).at? (s :: r) := rfl

/-- Nothing is said of the root itself, which no path but the empty one ends at. -/
theorem lookup_merged_cons (m : Scope) {s : String} (hs : Reference.isIndex s = false) (path : List String) :
    m.merged.lookup (s :: path) =
      (m.sources.foldl (fun n t => n.merge t.2) ({} : Node)).lookup (s :: path) := by
  rw [Node.lookup, Node.lookup, hs, Bool.and_false, Bool.and_false]
  rfl

theorem mem_variableNames {name : String} :
    name ∈ m.variableNames ↔ ∃ t ∈ m.sources, name ∈ Table.keys t.2.children := by
  have hfold : ∀ (trees : List (String × Node)) (a : Node),
      name ∈ Table.keys (trees.foldl (fun n t => n.merge t.2) a).children ↔
        name ∈ Table.keys a.children ∨ ∃ t ∈ trees, name ∈ Table.keys t.2.children := by
    intro trees
    induction trees with
    | nil => simp
    | cons t trees ih =>
      intro a
      rw [List.foldl_cons, ih, Node.children_merge, Node.mem_keys_mergeChildren, List.exists_mem_cons_iff, or_assoc]
  exact (hfold m.sources {}).trans (by simp [Table.keys])

theorem defines_iff_exists {reference : String} : m.defines reference = true ↔
    Reference.segments reference ≠ [] ∧
      ∃ t ∈ m.sources, (t.2.lookup (Reference.segments reference)).isSome = true := by
  by_cases hp : Reference.segments reference = []
  · simp [defines, existence?, lookup, hp]
  · rw [defines, existence?, isSome_iff_rank, rank_lookup_eq m hp, le_topRank_iff (by decide)]
    simp only [isSome_iff_rank, ne_eq, hp, not_false_eq_true, true_and]

/-- The node of the merged tree at a path says what the sources say there. -/
theorem joins_merged (h : m.Proper) {s : String} {r : List String} {n : Node} (hn : m.merged.at? (s :: r) = some n) :
    Joins (nodesAt m.sources (s :: r)) n :=
  Node.joins_foldl_merge h [] (fun _ => rfl) (fun k hk => by cases hk) hn

theorem joins_root (h : m.Proper) :
    Joins (nodesAt m.sources []) (m.sources.foldl (fun n t => n.merge t.2) ({} : Node)) := by
  refine Node.joins_foldl_merge h [] (fun _ => rfl) (fun k hk => ?_) rfl
  cases hk
  exact Node.joins_nil

theorem isSome_at?_merged (h : m.Proper) (r : List String) :
    (m.merged.at? r).isSome = true ↔ r = [] ∨ ∃ t ∈ m.sources, (t.2.at? r).isSome = true := by
  cases r with
  | nil => exact iff_of_true rfl (.inl rfl)
  | cons s r =>
    rw [at?_merged_cons, Node.isSome_at?_foldl_merge h]
    simp [Node.at?, Node.child?, Table.get?]

theorem distinct_merged (h : m.Proper) : m.merged.Distinct :=
  (Node.Distinct.foldl_merge h Node.distinct_empty).of_children_eq rfl

/-- The sources may be merged in any order. -/
theorem same_merged {m' : Scope} (h : m.Proper) (hperm : m'.sources.Perm m.sources) :
    m'.merged.same m.merged = true := by
  have h' : m'.Proper := fun t ht => h t (hperm.mem_iff.1 ht)
  have hnodes : ∀ r k, k ∈ nodesAt m'.sources r ↔ k ∈ nodesAt m.sources r := fun r k => by
    simp [nodesAt, hperm.mem_iff]
  refine Node.same_of_label_eq (distinct_merged h') (distinct_merged h) fun r => ?_
  cases r with
  | nil =>
    have hroot := (joins_root h').label_eq (joins_root h) (hnodes [])
    simp only [Node.label, Prod.mk.injEq] at hroot
    simp [Node.at?, Node.label, merged, hroot]
  | cons s r =>
    have hsome := (isSome_at?_merged h' (s :: r)).trans
      ((or_congr_right (by simp [hperm.mem_iff])).trans (isSome_at?_merged h (s :: r)).symm)
    cases hn' : m'.merged.at? (s :: r) with
    | none =>
      cases hn : m.merged.at? (s :: r) with
      | none => rfl
      | some n => simp [hn, hn'] at hsome
    | some n' =>
      cases hn : m.merged.at? (s :: r) with
      | none => simp [hn, hn'] at hsome
      | some n => exact congrArg some ((joins_merged h' hn').label_eq (joins_merged h hn) (hnodes _))

theorem isSome_lookup_merged (h : m.Proper) {s : String} {path : List String}
    (hp : ∀ k ∈ s :: path, Reference.isIndex k = false) : (m.merged.lookup (s :: path)).isSome = true ↔
      ∃ t ∈ m.sources, (t.2.lookup (s :: path)).isSome = true := by
  rw [lookup_merged_cons m (hp s List.mem_cons_self), Node.isSome_lookup_foldl_merge h hp, Node.lookup_empty]
  simp

end

/-- **The merged tree agrees with the scope.**  The merged tree has a node at a path exactly if some source has one, its
root apart, which is always there.  The node is as sure as the surest of the sources' nodes at this path, and has the
marks of all; the root has the marks of all roots, and nothing is said of how sure it is.  The order of the sources does
not matter.  A reference without an index is found in the merged tree exactly if the scope defines it; where the
reference has no segments at all, this takes that no root leaves its children open. -/
theorem merged_agrees {m : Scope} (h : m.Proper) :
    (∀ r, (m.merged.at? r).isSome = true ↔ r = [] ∨ ∃ t ∈ m.sources, (t.2.at? r).isSome = true) ∧
    (∀ r n, r ≠ [] → m.merged.at? r = some n → Joins (nodesAt m.sources r) n) ∧
    (m.merged.existence = none ∧
      (m.merged.anyChild = true ↔ ∃ t ∈ m.sources, t.2.anyChild = true) ∧
      (m.merged.isArray = true ↔ ∃ t ∈ m.sources, t.2.isArray = true)) ∧
    (∀ m' : Scope, m'.sources.Perm m.sources → m'.merged.same m.merged = true) ∧
    ∀ reference, (∀ s ∈ Reference.segments reference, Reference.isIndex s = false) →
      (Reference.segments reference = [] → ∀ t ∈ m.sources, t.2.anyChild = false) →
      ((m.merged.lookup (Reference.segments reference)).isSome = true ↔ m.defines reference = true) := by
  have hroots : ∀ f : Node → Bool, (∃ k ∈ nodesAt m.sources [], f k = true) ↔ ∃ t ∈ m.sources, f t.2 = true := by
    intro f
    have hnodes : nodesAt m.sources [] = m.sources.map Prod.snd := by simp [nodesAt, Node.at?]
    simp only [hnodes, List.mem_map, exists_exists_and_eq_and]
  have hany : m.merged.anyChild = true ↔ ∃ t ∈ m.sources, t.2.anyChild = true :=
    (joins_root h).anyChild.trans (hroots _)
  refine ⟨isSome_at?_merged h, fun r n hr hn => ?_, ⟨rfl, hany, (joins_root h).isArray.trans (hroots _)⟩,
    fun m' hperm => same_merged h hperm, fun reference hindex hroot => ?_⟩
  · obtain ⟨s, r, rfl⟩ := List.exists_cons_of_ne_nil hr
    exact joins_merged h hn
  · rw [defines_iff_exists]
    cases hp : Reference.segments reference with
    | nil =>
      -- the root is reached, of which nothing is said
      have hclosed : m.merged.anyChild = false := by
        rw [Bool.eq_false_iff, ne_eq, hany]
        rintro ⟨t, ht, hopen⟩
        rw [hroot hp t ht] at hopen
        cases hopen
      rw [Node.isSome_lookup_nil, hclosed]
      simp [merged]
    | cons s path =>
      rw [hp] at hindex
      rw [isSome_lookup_merged h hindex]
      simp

/-! ### three sources -/

/-- A variable with a closed shape by one source, evidence by another, and an open member by a third. -/
def threeSources : Scope :=
  ((empty.describe "shape" (.ofProperties [("a", .ofProperties [("b", .typed "string")] [])] ["a"]) ["@x"] none).observe
    "seen" (.object [("a", .array [.count 1])]) ["@x"]).extend
    (empty.set "more" ["@x", "a"] .maybe true false)

theorem proper_threeSources : threeSources.Proper :=
  ((proper_empty.describe _ _ _ _).observe _ _ _).extend (proper_empty.set _ _ _ _ _)

/-- Below a member that only the third source leaves open, the merged tree knows what the scope knows; the member is
there for sure, as the first two say, and it is a list, as the second says. -/
theorem merged_agrees_threeSources :
    threeSources.Proper ∧ (threeSources.merged.lookup ["@x", "a", "c", "d"]).isSome = true ∧
    (∃ n, threeSources.merged.at? ["@x", "a"] = some n ∧ n.existence = some .definitely ∧ n.anyChild = true ∧
      n.isArray = true) ∧
    (⟨threeSources.sources.reverse⟩ : Scope).merged.same threeSources.merged = true := by
  obtain ⟨hnode, hjoins, -, horder, hlookup⟩ := merged_agrees proper_threeSources
  refine ⟨proper_threeSources, ?_, ?_, horder _ (List.reverse_perm _)⟩
  · have hsegments : Reference.segments "@x.a.c.d" = ["@x", "a", "c", "d"] := by decide +kernel
    have hfound := hlookup "@x.a.c.d"
    rw [hsegments] at hfound
    exact (hfound (by decide +kernel) (by simp)).2 (by decide +kernel)
  · have hnodes : nodesAt threeSources.sources ["@x", "a"] =
        [⟨some .definitely, false, false, [("b", { existence := some .maybe })]⟩, ⟨some .definitely, false, true, []⟩,
          ⟨some .maybe, true, false, []⟩] := rfl
    obtain ⟨n, hn⟩ := Option.isSome_iff_exists.1 ((hnode ["@x", "a"]).2 (.inr ⟨_, List.mem_cons_self, rfl⟩))
    have hn' := hjoins _ n (by simp) hn
    rw [hnodes] at hn'
    have hsure : 2 ≤ rank n.existence := hn'.surest _ List.mem_cons_self
    refine ⟨n, hn, Existence.rank_eq_two_iff.1 (Nat.le_antisymm (Existence.rank_le _) hsure), hn'.anyChild.2 (by simp),
      hn'.isArray.2 (by simp)⟩

end Scope

end BrickScope
