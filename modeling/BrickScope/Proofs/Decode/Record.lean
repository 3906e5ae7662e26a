import BrickScope.Decode.Format
import Mathlib

/-!
# Reading back what was written

A record is written field by field, and a field that has a default may be left out.  A list is written item by item.

* `Record.Written`: members that stand for the fields of a record;
* `Record.ofMembers_of_written`: reading them gives the record;
* `exists_of_map_eq_ok`, `of_mapError_eq_ok`, `exists_of_mem_mapM_ok`: where a result comes from;
* `mapM_map_eq_pure`, `mapM_map_eq_ok`: lists whose items are read one after the other.
-/

namespace BrickScope

/-! ## results and lists -/

section

variable {α β ε ε' : Type}

theorem exists_of_map_eq_ok {f : α → β} {x : Except ε α} {b : β} (h : x.map f = .ok b) :
    ∃ a, x = .ok a ∧ f a = b := by
  cases x with
  | error e => cases h
  | ok a => exact ⟨a, rfl, Except.ok.inj h⟩

theorem of_mapError_eq_ok {f : ε → ε'} {x : Except ε α} {a : α} (h : x.mapError f = .ok a) : x = .ok a := by
  cases x with
  | error e => cases h
  | ok a' => exact congrArg Except.ok (Except.ok.inj h)

theorem mapM_map_eq_pure {m : Type → Type} [Monad m] [LawfulMonad m] {f : α → β} {g : β → m α} {l : List α}
    (h : ∀ a ∈ l, g (f a) = pure a) : (l.map f).mapM g = pure l := by
  induction l with
  | nil => rfl
  | cons a l ih =>
    obtain ⟨ha, hl⟩ := List.forall_mem_cons.1 h
    rw [List.map_cons, List.mapM_cons, ha, ih hl, pure_bind, pure_bind]

theorem mapM_map_eq_ok {f : α → β} {g : β → Except ε α} {l : List α} (h : ∀ a ∈ l, g (f a) = .ok a) :
    (l.map f).mapM g = .ok l := mapM_map_eq_pure h

theorem exists_of_mem_mapM_ok {f : α → Except ε β} {l : List α} {l' : List β} (h : l.mapM f = .ok l') {b : β}
    (hb : b ∈ l') : ∃ a ∈ l, f a = .ok b := by
  induction l generalizing l' with
  | nil =>
    cases h
    cases hb
  | cons a l ih =>
    rw [List.mapM_cons] at h
    cases ha : f a with
    | error e =>
      rw [ha] at h
      cases h
    | ok b' =>
      cases hl : l.mapM f with
      | error e =>
        rw [ha, hl] at h
        cases h
      | ok bs =>
        rw [ha, hl] at h
        cases h
        rcases List.mem_cons.1 hb with rfl | hb
        · exact ⟨a, List.mem_cons_self, ha⟩
        · obtain ⟨a', ha', hf⟩ := ih hl hb
          exact ⟨a', List.mem_cons_of_mem _ ha', hf⟩

end

/-! ## records -/

namespace Record

variable {ν σ : Type}

/-- The members are written for the fields, in their order and at most one for each; reading them leads from `s` to
`s'`.  A field that must be there is not left out. -/
inductive Written : List (Reader ν σ) → σ → List (String × ν) → σ → Prop
  | done (s : σ) : Written [] s [] s
  | absent {f : Reader ν σ} {fields : List (Reader ν σ)} {s s' : σ} {members : List (String × ν)}
    (hf : f.required = false) (h : Written fields s members s') : Written (f :: fields) s members s'
  | present {f : Reader ν σ} {fields : List (Reader ν σ)} {s s₁ s' : σ} {v : ν} {members : List (String × ν)}
    (hv : f.read v s = .ok s₁) (h : Written fields s₁ members s') :
    Written (f :: fields) s ((f.name, v) :: members) s'

variable {f : Reader ν σ} {all fields : List (Reader ν σ)} {s s' : σ} {members : List (String × ν)}

/-- A member that is written only if it is there. -/
theorem Written.optional {o : Option ν} (s₁ : σ) (hf : f.required = false) (hnone : o = none → s = s₁)
    (hsome : ∀ v, o = some v → f.read v s = .ok s₁) (h : Written fields s₁ members s') :
    Written (f :: fields) s ((o.map fun v => (f.name, v)).toList ++ members) s' := by
  cases o with
  | none =>
    rw [hnone rfl]
    exact h.absent hf
  | some v => exact h.present (hsome v rfl)

theorem find?_name (hn : (all.map Reader.name).Nodup) {done : List (Reader ν σ)} (hall : all = done ++ f :: fields) :
    all.find? (fun g => g.name = f.name) = some f := by
  refine List.find?_eq_some_iff_append.2 ⟨by simp, done, fields, hall, fun g hg => ?_⟩
  rw [hall, List.map_append, List.map_cons] at hn
  have hne : g.name ≠ f.name :=
    (List.nodup_append.1 hn).2.2 g.name (List.mem_map_of_mem hg) f.name List.mem_cons_self
  simpa using hne

/-- Of the fields that have been passed, some have been seen, all that are required among them. -/
structure Passed (passed : List (Reader ν σ)) (seen : List String) : Prop where
  known : ∀ name ∈ seen, name ∈ passed.map Reader.name
  required : ∀ g ∈ passed, g.required = true → g.name ∈ seen

section

variable {passed : List (Reader ν σ)} {seen : List String}

theorem Passed.skip (h : Passed passed seen) (hf : f.required = false) : Passed (passed ++ [f]) seen := by
  refine ⟨fun name hm => ?_, fun g hg hr => ?_⟩
  · rw [List.map_append]
    exact List.mem_append_left _ (h.known name hm)
  · rcases List.mem_append.1 hg with hg | hg
    · exact h.required g hg hr
    · obtain rfl := List.mem_singleton.1 hg
      rw [hf] at hr
      cases hr

theorem Passed.see (h : Passed passed seen) (f : Reader ν σ) : Passed (passed ++ [f]) (f.name :: seen) := by
  refine ⟨fun name hm => ?_, fun g hg hr => ?_⟩
  · rw [List.map_append, List.mem_append]
    rcases List.mem_cons.1 hm with rfl | hm
    · exact .inr (by simp)
    · exact .inl (h.known name hm)
  · rcases List.mem_append.1 hg with hg | hg
    · exact List.mem_cons_of_mem _ (h.required g hg hr)
    · obtain rfl := List.mem_singleton.1 hg
      exact List.mem_cons_self

/-- At the end, no field that is required has been left out. -/
theorem Passed.ofMembers_nil (h : Passed all seen) (s : σ) : ofMembers all s seen [] = .ok s := by
  have hnone : all.find? (fun g => g.required && !seen.contains g.name) = none := by
    refine List.find?_eq_none.2 fun g hg => ?_
    by_cases hr : g.required = true
    · simp [h.required g hg hr]
    · simp [hr]
  rw [ofMembers, hnone]

/-- The next field has not been seen yet. -/
theorem Passed.ofMembers_cons (h : Passed passed seen) (hn : (all.map Reader.name).Nodup)
    (hall : all = passed ++ f :: fields) {v : ν} {s₁ : σ} (hv : f.read v s = .ok s₁) :
    ofMembers all s seen ((f.name, v) :: members) = ofMembers all s₁ (f.name :: seen) members := by
  have hnew : f.name ∉ seen := by
    intro hm
    have hpassed := h.known f.name hm
    rw [hall, List.map_append, List.map_cons] at hn
    exact (List.nodup_append.1 hn).2.2 _ hpassed _ List.mem_cons_self rfl
  rw [ofMembers, find?_name hn hall]
  simp [hnew, hv]

end

theorem ofMembers_of_written_from (hn : (all.map Reader.name).Nodup) (h : Written fields s members s') :
    ∀ (passed : List (Reader ν σ)) (seen : List String), all = passed ++ fields → Passed passed seen →
      ofMembers all s seen members = .ok s' := by
  induction h with
  | done s =>
    intro passed seen hall hp
    obtain rfl : all = passed := by simpa using hall
    exact hp.ofMembers_nil s
  | absent hf _ ih =>
    intro passed seen hall hp
    exact ih _ seen (by simpa using hall) (hp.skip hf)
  | present hv _ ih =>
    intro passed seen hall hp
    rw [hp.ofMembers_cons hn hall hv]
    exact ih _ _ (by simpa using hall) (hp.see _)

/-- Members that are written for the fields of a record are read back. -/
theorem ofMembers_of_written (hn : (all.map Reader.name).Nodup) (h : Written all s members s') :
    ofMembers all s [] members = .ok s' :=
  ofMembers_of_written_from hn h [] [] rfl ⟨by simp, by simp⟩

end Record

end BrickScope
