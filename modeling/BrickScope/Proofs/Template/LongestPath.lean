import BrickScope.Proofs.Template.Agreement

/-!
# The longest path

The length of a path is measured by looking ahead from step to step.  What is measured is a reference as it is written,
and no reference at the front of the text is longer.

* `exists_name`, `exists_quoted`, `exists_index`, `exists_accessor`, `exists_path`: what is measured is written;
* `length_way_le`, `Path.length_le_pathLength`: nothing that is written is longer;
* `IsVariable`, `isLongest_variable`: the sigil with the path behind it.
-/

namespace BrickScope.Reference

open Text Template

/-! ## what is measured is written -/

/-- A text starts with a run of characters of a class. -/
theorem exists_run (f : Char → Bool) (s : List Char) :
    ∃ t rest, s = t ++ rest ∧ (∀ c ∈ t, f c = true) ∧ ∀ c ∈ rest.head?, f c = false := by
  refine ⟨s.takeWhile f, s.dropWhile f, List.takeWhile_append_dropWhile.symm, fun _ => List.mem_takeWhile_imp,
    fun c hc => ?_⟩
  have hhead := List.head?_dropWhile_not f s
  rw [Option.mem_def.1 hc] at hhead
  simpa using hhead

theorem exists_name {s : List Char} (h : nameLength s ≠ 0) :
    ∃ (n : Name) (rest : List Char), s = n.chars ++ rest ∧ EndsName rest := by
  cases s with
  | nil => exact absurd rfl h
  | cons c s =>
    have hc : isNameStart c = true := by
      by_contra hc
      exact h (if_neg hc)
    obtain ⟨t, rest, rfl, ht, hrest⟩ := exists_run isNamePart s
    exact ⟨⟨c, t, hc, ht⟩, rest, rfl, hrest⟩

/-- A quoted text ends at the first quote that is not behind a backslash. -/
theorem exists_quoted {quote : Char} {stop : Char → Bool} {s : List Char} {n : Nat}
    (h : quotedLength? quote stop s = some n) :
    ∃ (cs : List KeyChar) (rest : List Char), s = cs.flatMap KeyChar.spelled ++ quote :: rest ∧
      n = (cs.flatMap KeyChar.spelled).length + 1 ∧
      ∀ c ∈ cs, c.escaped = false → c.char ≠ quote ∧ c.char ≠ '\\' ∧ stop c.char = false := by
  fun_induction quotedLength? quote stop s generalizing n with
  | case1 => cases h
  | case2 => cases h
  | case3 => cases h
  | case4 d s hstop ih =>
    obtain ⟨k, hk, rfl⟩ := Option.map_eq_some_iff.1 h
    obtain ⟨cs, rest, rfl, rfl, hplain⟩ := ih hk
    refine ⟨⟨d, true⟩ :: cs, rest, rfl, ?_, ?_⟩
    · simp only [List.flatMap_cons, KeyChar.spelled, if_true, List.length_append, List.length_cons, List.length_nil]
      omega
    · rintro c (_ | ⟨_, hc⟩) he
      · cases he
      · exact hplain c hc he
  | case5 s hstop hslash =>
    obtain rfl := Option.some.inj h
    exact ⟨[], s, rfl, rfl, by simp⟩
  | case6 c s hstop hslash hquote ih =>
    obtain ⟨k, hk, rfl⟩ := Option.map_eq_some_iff.1 h
    obtain ⟨cs, rest, rfl, rfl, hplain⟩ := ih hk
    refine ⟨⟨c, false⟩ :: cs, rest, rfl, ?_, ?_⟩
    · simp only [List.flatMap_cons, KeyChar.spelled, Bool.false_eq_true, if_false, List.length_append, List.length_cons,
        List.length_nil]
      omega
    · rintro d (_ | ⟨_, hd⟩) he
      · exact ⟨hquote, hslash, by simpa using hstop⟩
      · exact hplain d hd he

/-- A static index is a number or a quoted key, in brackets. -/
theorem exists_index {s : List Char} {n : Nat} (h : indexLength? s = some n) :
    ∃ (place : Place) (rest : List Char), (∀ m, place ≠ .member m) ∧ s = place.bracketed ++ rest ∧
      n = place.bracketed.length := by
  unfold indexLength? at h
  split at h
  · rename_i c s
    by_cases hdigit : c.isDigit = true
    · obtain ⟨t, rest, rfl, ht, hrest⟩ := exists_run Char.isDigit s
      simp only [hdigit, if_true, takeWhile_append_eq ht hrest, List.drop_left] at h
      split at h
      · rename_i hclose
        obtain ⟨rest, rfl⟩ := List.head?_eq_some_iff.1 hclose
        refine ⟨.index ⟨c, t, hdigit, ht⟩, rest, fun m hm => (by cases hm), ?_, ?_⟩
        · simp [Place.bracketed, Index.chars]
        · rw [← Option.some.inj h, Place.length_bracketed_index, Index.chars, List.length_cons]
      · cases h
    · by_cases hquote : isQuote c = true
      · simp only [hdigit, hquote, Bool.false_eq_true, if_false, if_true] at h
        split at h
        · rename_i k hk
          obtain ⟨cs, rest, rfl, rfl, hplain⟩ := exists_quoted hk
          split at h
          · rename_i hclose
            rw [List.drop_length_add_append, List.drop_one, List.tail_cons] at hclose
            obtain ⟨rest, rfl⟩ := List.head?_eq_some_iff.1 hclose
            refine ⟨.key ⟨c, cs, hquote, fun d hd he => ?_⟩, rest, fun m hm => (by cases hm), ?_, ?_⟩
            · simpa using hplain d hd he
            · simp [Place.bracketed, Key.inner]
            · rw [← Option.some.inj h, Place.length_bracketed_key, Key.inner]
          · cases h
        · cases h
      · simp only [hdigit, hquote, Bool.false_eq_true, if_false] at h
        cases h
  · cases h

theorem exists_accessor {s : List Char} {n : Nat} (h : accessorLength? s = some n) :
    ∃ (a : Accessor) (rest : List Char), s = a.chars ++ rest ∧ n = a.chars.length ∧
      ∀ m, a.place = .member m → EndsName rest := by
  unfold accessorLength? at h
  split at h
  · rename_i s
    by_cases hname : nameLength s = 0
    · rw [if_pos hname] at h
      cases h
    · obtain ⟨m, rest, rfl, hrest⟩ := exists_name hname
      rw [if_neg hname, m.nameLength_eq hrest] at h
      exact ⟨⟨false, .member m⟩, rest, rfl, (Option.some.inj h).symm, fun _ _ => hrest⟩
  · rename_i s
    by_cases hname : nameLength s = 0
    · rw [if_pos hname] at h
      obtain ⟨k, hk, rfl⟩ := Option.map_eq_some_iff.1 h
      obtain ⟨place, rest, hplace, rfl, rfl⟩ := exists_index hk
      exact ⟨⟨true, place⟩, rest, rfl, rfl, fun m hm => absurd hm (hplace m)⟩
    · obtain ⟨m, rest, rfl, hrest⟩ := exists_name hname
      rw [if_neg hname, m.nameLength_eq hrest] at h
      exact ⟨⟨true, .member m⟩, rest, rfl, (Option.some.inj h).symm, fun _ _ => hrest⟩
  · obtain ⟨place, rest, hplace, rfl, rfl⟩ := exists_index h
    have hchars : (⟨false, place⟩ : Accessor).chars = place.bracketed := by
      cases place with
      | member m => exact absurd rfl (hplace m)
      | index i => rfl
      | key k => rfl
    exact ⟨⟨false, place⟩, rest, by rw [hchars], by rw [hchars], fun m hm => absurd hm (hplace m)⟩

theorem exists_way (s : List Char) :
    ∃ (accessors : List Accessor) (rest : List Char), s = accessors.flatMap Accessor.chars ++ rest ∧
      accessorsLength s = (accessors.flatMap Accessor.chars).length := by
  fun_induction accessorsLength s with
  | case1 => exact ⟨[], [], rfl, rfl⟩
  | case2 c s n hn ih =>
    obtain ⟨a, rest, hs, hlen, -⟩ := exists_accessor hn
    rw [Nat.succ_eq_add_one] at hlen
    have hdrop : s.drop n = rest := by
      have h := congrArg (List.drop (n + 1)) hs
      rwa [List.drop_succ_cons, hlen, List.drop_left] at h
    rw [hdrop] at ih ⊢
    obtain ⟨accessors, rest', rfl, hway⟩ := ih
    refine ⟨a :: accessors, rest', ?_, ?_⟩
    · rw [hs, List.flatMap_cons, List.append_assoc]
    · rw [hway, hlen, List.flatMap_cons, List.length_append]
  | case3 c s _ => exact ⟨[], c :: s, rfl, rfl⟩

/-- What a variable takes along is a name and a way into it. -/
theorem exists_path {s : List Char} (h : pathLength s ≠ 0) :
    ∃ (p : Path) (rest : List Char), s = p.name.chars ++ p.wayChars ++ rest ∧
      pathLength s = (p.name.chars ++ p.wayChars).length := by
  have hname : nameLength s ≠ 0 := fun h0 => h (by simp only [pathLength, h0, if_true])
  obtain ⟨n, rest, rfl, hrest⟩ := exists_name hname
  obtain ⟨accessors, rest', rfl, hway⟩ := exists_way rest
  refine ⟨⟨n, accessors⟩, rest', by rw [List.append_assoc]; rfl, ?_⟩
  simp only [pathLength, n.nameLength_eq hrest, n.length_chars_ne_zero, if_false, List.drop_left, hway, Path.wayChars,
    List.length_append]

/-! ## nothing that is written is longer -/

/-- The characters behind a name may belong to it. -/
theorem Name.exists_longer (n : Name) (rest : List Char) :
    ∃ (m : Name) (more rest' : List Char), rest = more ++ rest' ∧ m.chars = n.chars ++ more ∧ EndsName rest' := by
  obtain ⟨more, rest', rfl, hmore, hrest⟩ := exists_run isNamePart rest
  refine ⟨⟨n.first, n.rest ++ more, n.isNameStart_first, fun c hc => ?_⟩, more, rest', rfl, rfl, hrest⟩
  rcases List.mem_append.1 hc with hc | hc
  · exact n.isNamePart_rest c hc
  · exact hmore c hc

theorem Accessor.exists_longer (a : Accessor) (rest : List Char) :
    ∃ (b : Accessor) (more rest' : List Char), rest = more ++ rest' ∧ b.chars = a.chars ++ more ∧
      ∀ m, b.place = .member m → EndsName rest' := by
  obtain ⟨optional, place⟩ := a
  cases place with
  | member n =>
    obtain ⟨m, more, rest', hrest, hm, hends⟩ := n.exists_longer rest
    refine ⟨⟨optional, .member m⟩, more, rest', hrest, ?_, fun _ _ => hends⟩
    cases optional <;> simp [Accessor.chars, Place.bracketed, hm]
  | index i => exact ⟨⟨optional, .index i⟩, [], rest, rfl, (List.append_nil _).symm, fun m hm => (by cases hm)⟩
  | key k => exact ⟨⟨optional, .key k⟩, [], rest, rfl, (List.append_nil _).symm, fun m hm => (by cases hm)⟩

/-- Only the last step of a way can be longer than it is written: every other one is ended by the step behind it. -/
theorem length_way_le (accessors : List Accessor) (rest : List Char) :
    (accessors.flatMap Accessor.chars).length ≤ accessorsLength (accessors.flatMap Accessor.chars ++ rest) := by
  induction accessors with
  | nil => exact Nat.zero_le _
  | cons a accessors ih =>
    cases accessors with
    | nil =>
      obtain ⟨b, more, rest', rfl, hb, hends⟩ := a.exists_longer rest
      have hlen := accessorsLength_append b.chars_ne_nil (b.accessorLength?_eq hends)
      rw [List.flatMap_singleton, ← List.append_assoc, ← hb, hlen, hb, List.length_append]
      omega
    | cons a' accessors =>
      have hends : EndsName ((a' :: accessors).flatMap Accessor.chars ++ rest) := by
        rw [List.flatMap_cons, List.append_assoc]
        exact a'.endsName _
      rw [List.flatMap_cons, List.append_assoc,
        accessorsLength_append a.chars_ne_nil (a.accessorLength?_eq fun _ _ => hends), List.length_append]
      exact Nat.add_le_add_left ih _

theorem Path.length_le_pathLength (p : Path) (rest : List Char) :
    (p.name.chars ++ p.wayChars).length ≤ pathLength (p.name.chars ++ p.wayChars ++ rest) := by
  obtain ⟨n, accessors⟩ := p
  cases accessors with
  | nil =>
    obtain ⟨m, more, rest', rfl, hm, hends⟩ := n.exists_longer rest
    have hname : nameLength (n.chars ++ (more ++ rest')) = m.chars.length := by
      rw [← List.append_assoc, ← hm, m.nameLength_eq hends]
    simp only [Path.wayChars, List.flatMap_nil, List.append_nil, pathLength, hname, m.length_chars_ne_zero, if_false]
    rw [hm, List.length_append]
    omega
  | cons a accessors =>
    have hends : EndsName ((a :: accessors).flatMap Accessor.chars ++ rest) := by
      rw [List.flatMap_cons, List.append_assoc]
      exact a.endsName _
    have hname := n.nameLength_eq hends
    simp only [Path.wayChars, List.append_assoc, pathLength, hname, n.length_chars_ne_zero, if_false,
      List.drop_left, List.length_append]
    exact Nat.add_le_add_left (length_way_le _ rest) _

/-! ## variables -/

/-- A variable as it is written: a reference, or the sigil alone. -/
def IsVariable (s : List Char) : Prop := s = [sigil] ∨ ∃ p : Path, s = p.chars

/-- The longest text of a kind at the front of a text. -/
def IsLongest (kind : List Char → Prop) (t s : List Char) : Prop :=
  t <+: s ∧ kind t ∧ ∀ u, u <+: s → kind u → u.length ≤ t.length

theorem isLongest_variable (s : List Char) :
    IsLongest IsVariable (sigil :: s.take (pathLength s)) (sigil :: s) := by
  refine ⟨List.cons_prefix_cons.2 ⟨rfl, List.take_prefix _ _⟩, ?_, ?_⟩
  · by_cases h : pathLength s = 0
    · rw [h]
      exact .inl rfl
    · obtain ⟨p, rest, hs, hlen⟩ := exists_path h
      refine .inr ⟨p, ?_⟩
      rw [hlen, hs, List.take_left]
      rfl
  · rintro u ⟨rest, hu⟩ (rfl | ⟨p, rfl⟩)
    · simp
    · obtain rfl : p.name.chars ++ p.wayChars ++ rest = s := (List.cons.inj hu).2
      have hle := p.length_le_pathLength rest
      have htake : ∀ {n : Nat} {t : List Char}, t.length ≤ n → t.length ≤ ((t ++ rest).take n).length := by
        intro n t ht
        rw [List.length_take, List.length_append]
        omega
      exact Nat.succ_le_succ (htake hle)

end BrickScope.Reference
