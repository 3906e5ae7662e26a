/-!
# Tables

A table binds names to values and remembers the order in which the names came in.  Binding a name again replaces its
value and keeps its place.

* `get?_eq_none_iff`, `get?_of_mem`: what is found in a table.
* `get?_insert_self`, `get?_insert_of_ne`: look-up after a binding.
* `keys_insert`: a new name goes to the end, a bound one stays where it is.
* `get?_insertAll_map`, `insertAll_eq_append`, `nodup_keys_ofList`: bindings one after the other.
-/

namespace BrickScope

abbrev Table (α : Type) := List (String × α)

namespace Table

variable {α β : Type}

def keys (t : Table α) : List String := t.map Prod.fst

/-- The value bound to a name. -/
def get? : Table α → String → Option α
  | [], _ => none
  | (k', v) :: t, k => if k' = k then some v else get? t k

def contains (t : Table α) (k : String) : Bool := (get? t k).isSome

/-- Bind a name; a name that is bound already keeps its place. -/
def insert : Table α → String → α → Table α
  | [], k, v => [(k, v)]
  | (k', v') :: t, k, v => if k' = k then (k, v) :: t else (k', v') :: insert t k v

/-- Bind the names of a list one after the other. -/
def insertAll (t : Table α) (bindings : List (String × α)) : Table α :=
  bindings.foldl (fun t b => insert t b.1 b.2) t

def ofList (bindings : List (String × α)) : Table α := insertAll [] bindings

/-- Replace the value of a name by a function of it. -/
def update (t : Table α) (k : String) (f : Option α → α) : Table α := insert t k (f (get? t k))

/-! ## look-up -/

theorem mem_of_get? {t : Table α} {k : String} {a : α} (h : get? t k = some a) : (k, a) ∈ t := by
  induction t with
  | nil => cases h
  | cons x t ih =>
    obtain ⟨k', a'⟩ := x
    rw [get?] at h
    split at h
    · rename_i hk
      cases h
      exact hk ▸ List.mem_cons_self
    · exact List.mem_cons_of_mem _ (ih h)

theorem exists_get?_of_mem {t : Table α} {k : String} {a : α} (h : (k, a) ∈ t) :
    ∃ a', get? t k = some a' ∧ (k, a') ∈ t := by
  induction t with
  | nil => cases h
  | cons b t ih =>
    obtain ⟨k', a'⟩ := b
    by_cases hk : k' = k
    · subst hk
      exact ⟨a', by simp [get?], List.mem_cons_self⟩
    · rcases List.mem_cons.1 h with he | h
      · exact absurd (Prod.mk.inj he).1.symm hk
      · obtain ⟨a'', hg, hm⟩ := ih h
        exact ⟨a'', by rw [get?, if_neg hk, hg], List.mem_cons_of_mem _ hm⟩

theorem get?_eq_none {t : Table α} {k : String} (h : ∀ b ∈ t, k ≠ b.1) : get? t k = none := by
  induction t with
  | nil => rfl
  | cons b t ih =>
    rw [get?, if_neg (h b (by simp)).symm]
    exact ih fun b' hb' => h b' (List.mem_cons_of_mem _ hb')

theorem get?_eq_none_iff {t : Table α} {k : String} : get? t k = none ↔ k ∉ keys t := by
  refine ⟨fun h hk => ?_, fun h => get?_eq_none fun b hb he => h ?_⟩
  · obtain ⟨b, hb, rfl⟩ := List.mem_map.1 hk
    obtain ⟨a, ha, -⟩ := exists_get?_of_mem hb
    rw [h] at ha
    cases ha
  · rw [he]
    exact List.mem_map_of_mem hb

/-- Where no key comes twice, every binding is found. -/
theorem get?_of_mem {t : Table α} {k : String} {a : α} (hn : (keys t).Nodup) (h : (k, a) ∈ t) : get? t k = some a := by
  induction t with
  | nil => cases h
  | cons b t ih =>
    rw [keys, List.map_cons, List.nodup_cons] at hn
    rcases List.mem_cons.1 h with rfl | h
    · rw [get?, if_pos rfl]
    · have hne : b.1 ≠ k := fun he => hn.1 (he ▸ List.mem_map_of_mem (f := Prod.fst) h)
      rw [get?, if_neg hne]
      exact ih hn.2 h

theorem get?_map (f : α → β) (t : Table α) (k : String) :
    get? (t.map fun b => (b.1, f b.2)) k = (get? t k).map f := by
  induction t with
  | nil => rfl
  | cons b t ih =>
    rw [List.map_cons, get?, get?, ih]
    split <;> rfl

/-! ## one binding -/

@[simp] theorem get?_insert_self (t : Table α) (k : String) (v : α) : get? (insert t k v) k = some v := by
  induction t with
  | nil => simp [insert, get?]
  | cons b t ih =>
    obtain ⟨k', v'⟩ := b
    by_cases h : k' = k <;> simp [insert, get?, h, ih]

theorem get?_insert_of_ne {k k' : String} (h : k' ≠ k) (t : Table α) (v : α) :
    get? (insert t k v) k' = get? t k' := by
  induction t with
  | nil => simp [insert, get?, h.symm]
  | cons b t ih =>
    obtain ⟨k₀, v₀⟩ := b
    by_cases h₀ : k₀ = k
    · subst h₀; simp [insert, get?, h.symm]
    · simp [insert, get?, h₀, ih]

theorem insert_of_get?_none {t : Table α} {k : String} (h : get? t k = none) (v : α) :
    insert t k v = t ++ [(k, v)] := by
  induction t with
  | nil => rfl
  | cons b t ih =>
    obtain ⟨k', v'⟩ := b
    by_cases hk : k' = k
    · simp [get?, hk] at h
    · rw [get?, if_neg hk] at h
      rw [insert, if_neg hk, ih h, List.cons_append]

theorem insert_insert (t : Table α) (k : String) (v v' : α) :
    insert (insert t k v) k v' = insert t k v' := by
  induction t with
  | nil => simp [insert]
  | cons b t ih =>
    obtain ⟨k', v₀⟩ := b
    by_cases h : k' = k
    · simp [insert, h]
    · simp [insert, h, ih]

theorem mem_insert {t : Table α} {k : String} {v : α} {b : String × α} (h : b ∈ insert t k v) : b = (k, v) ∨ b ∈ t := by
  induction t with
  | nil => exact .inl (List.mem_singleton.1 h)
  | cons b' t ih =>
    rw [insert] at h
    split at h
    · exact (List.mem_cons.1 h).imp_right (List.mem_cons_of_mem _)
    · rcases List.mem_cons.1 h with rfl | h
      · exact .inr List.mem_cons_self
      · exact (ih h).imp_right (List.mem_cons_of_mem _)

theorem filter_insert (t : Table α) (k : String) (v : α) :
    (insert t k v).filter (fun b => b.1 ≠ k) = t.filter fun b => b.1 ≠ k := by
  induction t with
  | nil => simp [insert]
  | cons b t ih =>
    obtain ⟨k', v'⟩ := b
    by_cases h : k' = k
    · simp [insert, h]
    · simp only [insert, h, if_false, List.filter_cons, ne_eq, not_false_eq_true, decide_true, if_true]
      rw [← ih]

theorem keys_insert (t : Table α) (k : String) (v : α) :
    keys (insert t k v) = if k ∈ keys t then keys t else keys t ++ [k] := by
  induction t with
  | nil => simp [insert, keys]
  | cons b t ih =>
    obtain ⟨k', v'⟩ := b
    by_cases h : k' = k
    · subst h; simp [insert, keys]
    · have h' : k ≠ k' := fun e => h e.symm
      simp only [keys] at ih
      by_cases hk : k ∈ t.map Prod.fst <;>
        simp only [insert, h, h', hk, if_false, if_true, keys, List.map_cons, ih, List.mem_cons, false_or,
          List.cons_append]

theorem nodup_keys_insert {t : Table α} (h : (keys t).Nodup) (k : String) (v : α) : (keys (insert t k v)).Nodup := by
  rw [keys_insert]
  split
  · exact h
  · rename_i hk
    refine List.nodup_append.2 ⟨h, by simp, fun x hx y hy he => hk ?_⟩
    rw [List.mem_singleton] at hy
    exact hy ▸ he ▸ hx

theorem update_update (t : Table α) (k : String) (f g : Option α → α) :
    update (update t k f) k g = update t k fun v => g (some (f v)) := by
  rw [update, update, update, get?_insert_self, insert_insert]

/-! ## many bindings -/

theorem get?_insertAll_of_ne {bindings : List (String × α)} {k : String} (h : ∀ b ∈ bindings, k ≠ b.1)
    (t : Table α) : get? (insertAll t bindings) k = get? t k := by
  induction bindings generalizing t with
  | nil => rfl
  | cons b bindings ih =>
    have hb := ih (fun b' hb' => h b' (List.mem_cons_of_mem _ hb')) (insert t b.1 b.2)
    have hi := get?_insert_of_ne (h b (by simp)) t b.2
    exact hb.trans hi

/-- A binding that no other one of its key contradicts. -/
theorem get?_insertAll_of_mem {bindings : List (String × α)} {k : String} {v : α} (h : (k, v) ∈ bindings)
    (hall : ∀ w, (k, w) ∈ bindings → w = v) (t : Table α) : get? (insertAll t bindings) k = some v := by
  induction bindings generalizing t with
  | nil => cases h
  | cons b bindings ih =>
    by_cases hlater : (k, v) ∈ bindings
    · exact ih hlater (fun w hw => hall w (List.mem_cons_of_mem _ hw)) (insert t b.1 b.2)
    · obtain rfl : (k, v) = b := (List.mem_cons.1 h).resolve_right hlater
      have hne : ∀ b ∈ bindings, k ≠ b.1 := by
        rintro ⟨k', w⟩ hb rfl
        rw [hall w (List.mem_cons_of_mem _ hb)] at hb
        exact hlater hb
      exact (get?_insertAll_of_ne hne (insert t k v)).trans (get?_insert_self t k v)

theorem get?_insertAll_map (f : String → α) (ks : List String) (t : Table α) (k : String) :
    get? (insertAll t (ks.map fun k => (k, f k))) k = if k ∈ ks then some (f k) else get? t k := by
  induction ks generalizing t with
  | nil => simp [insertAll]
  | cons k' ks ih =>
    have h := ih (insert t k' (f k'))
    simp only [insertAll, List.map_cons, List.foldl_cons] at h ⊢
    rw [h]
    by_cases hk : k = k'
    · subst hk
      simp
    · simp [hk, get?_insert_of_ne hk]

theorem mem_insertAll {bindings : List (String × α)} {t : Table α} {b : String × α} (h : b ∈ insertAll t bindings) :
    b ∈ bindings ∨ b ∈ t := by
  induction bindings generalizing t with
  | nil => exact .inr h
  | cons b' bindings ih =>
    rcases ih h with h | h
    · exact .inl (List.mem_cons_of_mem _ h)
    · rcases mem_insert h with rfl | h
      · exact .inl List.mem_cons_self
      · exact .inr h

theorem nodup_keys_insertAll {t : Table α} (h : (keys t).Nodup) (bindings : List (String × α)) :
    (keys (insertAll t bindings)).Nodup := by
  induction bindings generalizing t with
  | nil => exact h
  | cons b bindings ih => exact ih (nodup_keys_insert h b.1 b.2)

theorem insertAll_eq_append {t bindings : Table α} (h : (keys (t ++ bindings)).Nodup) :
    insertAll t bindings = t ++ bindings := by
  induction bindings generalizing t with
  | nil => rw [insertAll, List.foldl_nil, List.append_nil]
  | cons b bindings ih =>
    have hnew : get? t b.1 = none := by
      refine get?_eq_none fun b' hb' he => ?_
      rw [keys, List.map_append, List.map_cons] at h
      exact (List.nodup_append.1 h).2.2 _ (List.mem_map_of_mem hb') _ List.mem_cons_self he.symm
    have hstep : insertAll t (b :: bindings) = insertAll (t ++ [b]) bindings := by
      rw [insertAll, List.foldl_cons, insert_of_get?_none hnew]
      rfl
    rw [hstep, ih (by simpa using h), List.append_assoc]
    rfl

/-- Bindings of different names stay as they are. -/
theorem ofList_eq_self {bindings : Table α} (h : (keys bindings).Nodup) : ofList bindings = bindings :=
  insertAll_eq_append (t := []) h

theorem mem_ofList {bindings : List (String × α)} {b : String × α} (h : b ∈ ofList bindings) : b ∈ bindings :=
  (mem_insertAll h).resolve_right List.not_mem_nil

theorem nodup_keys_ofList (bindings : List (String × α)) : (keys (ofList bindings)).Nodup :=
  have hnil : (keys ([] : Table α)).Nodup := List.nodup_nil
  nodup_keys_insertAll hnil bindings

end Table

end BrickScope
