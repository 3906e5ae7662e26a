import BrickScope.Proofs.Existence.Folding

/-!
# Where known paths come from

The elements of a list share a node, so a path may go on below one element where it went past the index of another.
Still nothing is made up: without the indices that are passed over, every known path spells the names on the way to some
location of the value.

* `Json.OmitsIndices`: a path without some of its indices;
* `Json.Found.exists_place`: a path that is found leads to a place where values are seen;
* `Json.place_ne_nil_iff`, `Node.at?_ofSeen`: the places, and the nodes, are those of locations;
* `Scope.observed_comes_from_value`: what is known when only a value has been seen.
-/

namespace BrickScope

namespace Json

/-- `names` is `path` without some of its indices. -/
inductive OmitsIndices : List String → List String → Prop
  | nil : OmitsIndices [] []
  | keep {path names : List String} (s : String) (h : OmitsIndices path names) : OmitsIndices (s :: path) (s :: names)
  | pass {path names : List String} {s : String} (hs : Reference.isIndex s = true) (h : OmitsIndices path names) :
    OmitsIndices (s :: path) names

/-- Along a path that is found, the names that are not passed over lead to a place where values are seen. -/
theorem Found.exists_place {vs : List Json} {path : List String} (h : Found vs path) (hv : vs ≠ []) :
    ∃ names, OmitsIndices path names ∧ place vs names ≠ [] := by
  induction h with
  | here vs => exact ⟨[], .nil, hv⟩
  | @member vs s path hm _ ih =>
    obtain ⟨names, homits, hne⟩ := ih hm
    exact ⟨s :: names, .keep s homits, hne⟩
  | element _ _ hs _ ih =>
    obtain ⟨names, homits, hne⟩ := ih hv
    exact ⟨names, .pass hs homits, hne⟩

theorem Among.ne_nil {vs : List Json} {v : Json} (h : Among vs v) : vs ≠ [] := by
  induction h with
  | one hv => exact List.ne_nil_of_mem hv
  | element _ _ ih => exact ih

/-- What a location holds is seen at the place that the names on its way lead to. -/
theorem At.among_place {v w : Json} {l : List Step} (h : v.At l w) {vs : List Json} (hv : Among vs v) :
    Among (place vs (names l)) w := by
  induction h generalizing vs with
  | here => exact hv
  | member hm _ ih => exact ih (.one (hv.mem_underAll (mem_under_object.2 hm)))
  | element hi _ ih => exact ih (hv.element (List.mem_of_getElem? hi))

theorem place_nil (path : List String) : place [] path = [] := by
  induction path with
  | nil => rfl
  | cons s path ih => exact ih

theorem place_ne_nil_iff {v : Json} {path : List String} : place [v] path ≠ [] ↔ ∃ l w, v.At l w ∧ names l = path := by
  constructor
  · intro h
    obtain ⟨w, hw⟩ := List.exists_mem_of_ne_nil _ h
    obtain ⟨u, hu, l, hl, hn⟩ := exists_at_of_mem_place hw
    obtain rfl := List.mem_singleton.1 hu
    exact ⟨l, w, hl, hn⟩
  · rintro ⟨l, w, hl, rfl⟩
    exact (hl.among_place (.one List.mem_cons_self)).ne_nil

end Json

namespace Node

/-- The nodes of the tree of some values are the places where values are seen. -/
theorem at?_ofSeen {vs : List Json} (hv : vs ≠ []) (path : List String) :
    (ofSeen vs).at? path = if Json.place vs path = [] then none else some (ofSeen (Json.place vs path)) := by
  induction path generalizing vs with
  | nil =>
    have hplace : Json.place vs [] = vs := rfl
    rw [at?, hplace, if_neg hv]
  | cons s path ih =>
    have hplace : Json.place vs (s :: path) = Json.place (Json.underAll s vs) path := rfl
    rw [at?, child?_ofSeen, hplace]
    by_cases hm : Json.underAll s vs = []
    · rw [if_pos hm, hm, Json.place_nil]
      rfl
    · rw [if_neg hm, Option.bind_some]
      exact ih hm

theorem isSome_at?_ofSeen_iff {v : Json} {path : List String} :
    ((ofSeen [v]).at? path).isSome ↔ ∃ l w, v.At l w ∧ Json.names l = path := by
  rw [at?_ofSeen (List.cons_ne_nil v []), ← Json.place_ne_nil_iff]
  split
  · rename_i h
    simp [h]
  · rename_i h
    simp [h]

/-- The tree of a variable whose value has been seen. -/
def ofVariable (x : String) (v : Json) : Node := ({} : Node).updateChild x fun n => n.observe v

section

variable {x s : String} {v : Json}

theorem child?_ofVariable : (ofVariable x v).child? s = if s = x then some (ofSeen [v]) else none :=
  child?_updateChild {} x s _

theorem anyChild_of_at?_ofVariable {path : List String} {c : Node} (h : (ofVariable x v).at? path = some c) :
    c.anyChild = false := by
  cases path with
  | nil =>
    cases h
    rfl
  | cons s path =>
    rw [at?, child?_ofVariable] at h
    split at h
    · have hcertain : (ofSeen [v]).Certain := certain_ofSeen (List.cons_ne_nil v [])
      exact (hcertain path c h).2
    · cases h

theorem isSome_at?_ofVariable_iff {path : List String} :
    ((ofVariable x v).at? path).isSome ↔ path = [] ∨ ∃ l w, path = x :: Json.names l ∧ v.At l w := by
  cases path with
  | nil => exact ⟨fun _ => .inl rfl, fun _ => rfl⟩
  | cons s path =>
    rw [at?, child?_ofVariable]
    constructor
    · intro h
      split at h
      · rename_i hs
        obtain ⟨l, w, hl, hn⟩ := isSome_at?_ofSeen_iff.1 h
        exact .inr ⟨l, w, by rw [hs, hn], hl⟩
      · cases h
    · rintro (h | ⟨l, w, h, hl⟩)
      · cases h
      · obtain ⟨hs, hn⟩ := List.cons.inj h
        rw [if_pos hs]
        exact isSome_at?_ofSeen_iff.2 ⟨l, w, hl, hn.symm⟩

end

end Node

namespace Scope

/-- Of other variables nothing is known. -/
theorem lookup_empty_write_of_ne {s x : String} (h : s ≠ x) (source : String) (e : Existence) (f : Node → Node)
    (path : List String) : (empty.write source [x] e f).lookup (s :: path) = none := by
  have hroot : (({} : Node).write e f [x]).child? s = none := by
    rw [Node.write, Node.child?_updateChild, if_neg h]
    rfl
  exact (Existence.none_surer _).trans (Node.lookup_cons_of_none rfl hroot)

/-- The paths that are known when the value of a variable has been seen. -/
theorem lookup_observe_iff (source x : String) (v : Json) (p : List String) (e : Existence) :
    (empty.observe source v [x]).lookup p = some e ↔ e = .definitely ∧ ∃ q, p = x :: q ∧ Json.Found [v] q := by
  have hwrite : empty.observe source v [x] = empty.write source [x] .definitely fun n => n.observe v := rfl
  rw [hwrite]
  cases p with
  | nil =>
    constructor
    · intro h
      cases h
    · rintro ⟨-, q, hq, -⟩
      cases hq
  | cons s q =>
    by_cases hs : s = x
    · subst hs
      have hv : [v] ≠ [] := List.cons_ne_nil v []
      have htree : (({} : Node).observe v).lookup q = (Node.ofSeen [v]).lookup q := rfl
      rw [lookup_empty_write, htree]
      constructor
      · intro h
        rcases (Node.certain_ofSeen hv).lookup_eq q with hnone | hsome
        · rw [h] at hnone
          cases hnone
        · rw [h] at hsome
          exact ⟨Option.some.inj hsome, q, rfl, (Json.lookup_ofSeen_iff hv).1 (h.trans hsome)⟩
      · rintro ⟨rfl, q', hq, hfound⟩
        cases hq
        exact (Json.lookup_ofSeen_iff hv).2 hfound
    · rw [lookup_empty_write_of_ne hs]
      constructor
      · intro h
        cases h
      · rintro ⟨-, q', hq, -⟩
        exact absurd (List.cons.inj hq).1 hs

/-- **All that is known comes from the value.**  When only the value of a variable has been seen, a path that is known
is known for sure; it starts with the variable, and without some of its indices it goes on with the names on the way to
a location of the value.  There is one tree, no node of it may have any child, and besides the root its nodes are at the
names on the way to locations. -/
theorem observed_comes_from_value (source x : String) (v : Json) :
    (∀ p e, (empty.observe source v [x]).lookup p = some e →
      e = .definitely ∧ ∃ q l w, p = x :: q ∧ v.At l w ∧ Json.OmitsIndices q (Json.names l)) ∧
    ∃ tree, (empty.observe source v [x]).sources = [(source, tree)] ∧
      (∀ path c, tree.at? path = some c → c.anyChild = false) ∧
      ∀ path, (tree.at? path).isSome ↔ path = [] ∨ ∃ l w, path = x :: Json.names l ∧ v.At l w := by
  refine ⟨?_, Node.ofVariable x v, rfl, ?_, ?_⟩
  · intro p e h
    obtain ⟨he, q, hp, hfound⟩ := (lookup_observe_iff source x v p e).1 h
    obtain ⟨names, homits, hne⟩ := hfound.exists_place (List.cons_ne_nil v [])
    obtain ⟨l, w, hl, rfl⟩ := Json.place_ne_nil_iff.1 hne
    exact ⟨he, q, l, w, hp, hl, homits⟩
  · intro path c hc
    exact Node.anyChild_of_at?_ofVariable hc
  · intro path
    exact Node.isSome_at?_ofVariable_iff

end Scope

/-- A list of objects that hold different members under one name. -/
def unevenList : Json :=
  .array [.object [("a", .object [("b", .count 1)])], .object [("a", .object [("c", .count 2)])]]

/-- The path goes past the index of the first element and ends in the second one. -/
theorem observed_comes_from_value_unevenList :
    (Scope.empty.observe "s" unevenList ["@x"]).lookup ["@x", "0", "a", "c"] = some .definitely ∧
    ∃ q l w, ["@x", "0", "a", "c"] = "@x" :: q ∧ unevenList.At l w ∧ Json.OmitsIndices q (Json.names l) := by
  have hknown : (Scope.empty.observe "s" unevenList ["@x"]).lookup ["@x", "0", "a", "c"] = some .definitely := by
    decide +kernel
  exact ⟨hknown, ((Scope.observed_comes_from_value "s" "@x" unevenList).1 _ _ hknown).2⟩

end BrickScope
