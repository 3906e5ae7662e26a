import BrickScope.Proofs.Analysis.Diagnostics
import BrickScope.Proofs.Pipeline.Contents
import BrickScope.Proofs.Pipeline.Coverage
import BrickScope.Proofs.Pipeline.Mentions

/-!
# Every expression is visited once

A walk through a pipeline in the documented format visits the expressions of the pipeline in the order of their
enumeration, each once and at the position that its steps lead to.  A position, taken apart at its dots, is again the
list of these steps.

* `Lists`: a walk visits the expressions of a list of mentions;
* `Listed`: a value does so in every role;
* `Position.stepsFrom_nested`: the steps of a position;
* `Pipeline.expressions_visited`: the walk through a whole pipeline.
-/

namespace BrickScope

/-! ## walks and mentions -/

/-- If the walk comes to its end, it visits the expressions of the mentions, at their positions behind `p`. -/
def Lists (p : Position) (w : Walk Visit) (ms : List Mention) : Prop :=
  w.Complete → w.events.filterMap Visit.expression? = ms.map fun m => (p.nested m.steps, m.expression)

section

variable {p : Position} {w w' : Walk Visit} {ms ms' : List Mention}

theorem lists_nil : Lists p (tour []) [] := fun _ => rfl

theorem lists_violation {v : Violation} : Lists p ((Site.violation v).visits fun _ => true) ms :=
  fun hc => nomatch hc

theorem Lists.append (h : Lists p w ms) (h' : Lists p w' ms') : Lists p (w ++ w') (ms ++ ms') := by
  intro hc
  obtain ⟨hw, hw'⟩ := Walk.complete_append.1 hc
  rw [Walk.events_append hw, List.filterMap_append, h hw, h' hw', List.map_append]

/-- A visit to something else may come first. -/
theorem Lists.cons {v : Visit} (h : Lists p w ms) (hv : v.expression? = none) : Lists p (w.cons v) ms := by
  intro hc
  rw [Walk.events_cons, List.filterMap_cons_none hv]
  exact h hc

theorem Lists.behind {step : String} (h : Lists (p.nested [step]) w ms) : Lists p w (behind step ms) := by
  intro hc
  rw [h hc, BrickScope.behind, List.map_map]
  refine List.map_congr_left fun m _ => ?_
  rw [Position.nested_nested]
  rfl

theorem Lists.behind_config {name : String} (h : Lists (p.nested ["config", name]) w ms) :
    Lists p w (BrickScope.behind "config" (BrickScope.behind name ms)) := by
  have hp : (p.nested ["config"]).nested [name] = p.nested ["config", name] := Position.nested_nested p _ _
  exact Lists.behind (Lists.behind (hp ▸ h))

end

theorem behind_append (step : String) (ms ms' : List Mention) :
    behind step (ms ++ ms') = behind step ms ++ behind step ms' := List.map_append

/-! ## values in their roles -/

section

variable {documents : String → Bool}

theorem ConfigValue.Documented.fits {role : Role} {v : ConfigValue} (h : v.Documented documents role) :
    role.Fits v := by
  cases v with
  | literal value => exact h
  | expression e => exact h
  | _ => exact h.1

theorem ConfigValue.Documented.nodup_keys {role : Role} {v : ConfigValue} {members : List (String × ConfigValue)}
    (h : v.Documented documents role) (hv : v.members? = some members) : (Table.keys members).Nodup := by
  cases v with
  | object members' =>
    cases hv
    exact h.2.1.1
  | _ => cases hv

/-- Whatever a value is looked at as, the walk visits the expressions that it mentions.  Rows are deferred bodies. -/
structure Listed (documents : String → Bool) (v : ConfigValue) : Prop where
  value : ∀ p owner, v.Documented documents .value →
    Lists p (tour (valueSites documents p owner v)) (v.mentions documents .value)
  elements : ∀ p b items, v.items? = some items → v.Documented documents .elements →
    Lists p (tour (elementSites documents p b 0 items)) (v.mentions documents .elements)
  element : ∀ p b, v.Documented documents .element →
    Lists p ((elementSite documents p b v).visits fun _ => true) (v.mentions documents .element)
  settings : ∀ p b e config, v.members? = some config → v.Documented documents (.settings e.isList) →
    (e.isList = true → ∀ m ∈ config, m.1 = Element.rowKey → ∃ body, m.2 = .deferred body) →
    Lists p (tour (elementValueSites documents p b e config))
      (behind "config" (v.mentions documents (.settings e.isList)))
  row : ∀ p b e body, v = .deferred body → v.Documented documents .row →
    Lists p (tour (rowSites documents p b e v)) (v.mentions documents .row)

/-- A value that has no role but that of a plain value. -/
theorem Listed.plain {v : ConfigValue} (hitems : v.items? = none) (hmembers : v.members? = none)
    (hbody : ∀ body, v ≠ .deferred body)
    (helement : ∀ p b, elementSite documents p b v = .violation ⟨p, .elementIsObject⟩)
    (h : ∀ p owner, v.Documented documents .value →
      Lists p (tour (valueSites documents p owner v)) (v.mentions documents .value)) : Listed documents v where
  value := h
  elements p b items he := by rw [hitems] at he; cases he
  element p b _ := by rw [helement]; exact lists_violation
  settings p b e config he := by rw [hmembers] at he; cases he
  row p b e body he := absurd he (hbody body)

theorem listed_literal (value : Scalar) : Listed documents (.literal value) :=
  .plain rfl rfl (fun _ h => nomatch h) (fun _ _ => rfl) fun p owner _ => by
    rw [valueSites, tour_singleton]
    exact fun _ => rfl

theorem listed_expression (e : Expression) : Listed documents (.expression e) :=
  .plain rfl rfl (fun _ h => nomatch h) (fun _ _ => rfl) fun p owner _ => by
    rw [valueSites, tour_singleton]
    intro _
    have hp : p.nested [] = p := p.nested_nil
    simp [Site.visits, Visit.expression?, ConfigValue.mentions, hp]

/-! ### arrays -/

theorem lists_items {items : List ConfigValue} (h : ∀ v ∈ items, Listed documents v)
    (hd : ∀ v ∈ items, v.Documented documents .value) (p : Position) (owner : Owner) (index : Nat) :
    Lists p (tour (itemSites documents p owner index items)) (itemMentions documents .value index items) := by
  induction items generalizing index with
  | nil => exact lists_nil
  | cons v items ih =>
    rw [List.forall_mem_cons] at h hd
    rw [itemSites, itemMentions, tour_append]
    exact (Lists.behind (h.1.value _ owner hd.1)).append (ih h.2 hd.2 (index + 1))

theorem lists_elements {items : List ConfigValue} (h : ∀ v ∈ items, Listed documents v)
    (hd : ∀ v ∈ items, v.Documented documents .element) (p : Position) (b : Brick) (index : Nat) :
    Lists p (tour (elementSites documents p b index items)) (itemMentions documents .element index items) := by
  induction items generalizing index with
  | nil => exact lists_nil
  | cons v items ih =>
    rw [List.forall_mem_cons] at h hd
    rw [elementSites, itemMentions, tour_cons]
    exact (Lists.behind (h.1.element _ b hd.1)).append (ih h.2 hd.2 (index + 1))

theorem listed_array {items : List ConfigValue} (h : ∀ v ∈ items, Listed documents v) :
    Listed documents (.array items) where
  value p owner hd := lists_items h ((itemsDocumented_iff documents).1 hd.2) p owner 0
  elements p b items' he hd := by
    cases he
    exact lists_elements h ((itemsDocumented_iff documents).1 hd.2) p b 0
  element _ _ _ := lists_violation
  settings p b e config he := by cases he
  row p b e body he := by cases he

/-! ### objects -/

theorem lists_members {members : List (String × ConfigValue)} (h : ∀ m ∈ members, Listed documents m.2)
    (hd : ∀ m ∈ members, m.2.Documented documents .value) (p : Position) (owner : Owner) :
    Lists p (tour (memberSites documents p owner members)) (memberMentions documents (fun _ => .value) members) := by
  induction members with
  | nil => exact lists_nil
  | cons m members ih =>
    rw [List.forall_mem_cons] at h hd
    rw [memberSites, memberMentions, tour_append]
    exact (Lists.behind (h.1.value _ owner hd.1)).append (ih h.2 hd.2)

/-- The configuration of an element, member by member. -/
theorem lists_settings {config : List (String × ConfigValue)} {e : Element} (h : ∀ m ∈ config, Listed documents m.2)
    (hd : ∀ m ∈ config, m.2.Documented documents (Role.member false m.1 (.settings e.isList)))
    (hrow : e.isList = true → ∀ m ∈ config, m.1 = Element.rowKey → ∃ body, m.2 = .deferred body)
    (p : Position) (b : Brick) :
    Lists p (tour (elementValueSites documents p b e config))
      (behind "config" (memberMentions documents (Role.member false · (.settings e.isList)) config)) := by
  induction config with
  | nil => exact lists_nil
  | cons m config ih =>
    obtain ⟨name, v⟩ := m
    obtain ⟨hv, h⟩ := List.forall_mem_cons.1 h
    obtain ⟨hdv, hd⟩ := List.forall_mem_cons.1 hd
    have hrest := ih h hd fun he m hm => hrow he m (List.mem_cons_of_mem _ hm)
    rw [elementValueSites, memberMentions, tour_append, behind_append]
    refine Lists.append (Lists.behind_config ?_) hrest
    rw [Role.member] at hdv ⊢
    by_cases hlist : (e.isList && name = Element.rowKey) = true
    · rw [if_pos hlist] at hdv ⊢
      rw [if_pos hlist]
      obtain ⟨he, hname⟩ := Bool.and_eq_true_iff.1 hlist
      obtain ⟨body, hbody⟩ := hrow he (name, v) List.mem_cons_self (by simpa using hname)
      exact hv.row _ b e body hbody hdv
    · rw [if_neg hlist] at hdv ⊢
      rw [if_neg hlist]
      exact hv.value _ _ hdv

/-- Those of the mentions that begin with a name are those of the member with this name. -/
theorem filter_memberMentions {role : String → Role} {members : List (String × ConfigValue)}
    (hn : (Table.keys members).Nodup) (name : String) :
    (memberMentions documents role members).filter (fun m => m.steps.head? = some name) =
      ((Table.get? members name).map fun v => behind name (v.mentions documents (role name))).getD [] := by
  induction members with
  | nil => rfl
  | cons m members ih =>
    obtain ⟨name', v⟩ := m
    obtain ⟨hnew, hn⟩ := List.nodup_cons.1 hn
    rw [memberMentions, List.filter_append, ih hn, Table.get?]
    by_cases he : name' = name
    · subst he
      have hall : (behind name' (v.mentions documents (role name'))).filter
          (fun m => m.steps.head? = some name') = behind name' (v.mentions documents (role name')) :=
        List.filter_eq_self.2 fun m hm => decide_eq_true (head?_of_mem_behind hm)
      have hrest : Table.get? members name' = none := Table.get?_eq_none_iff.2 hnew
      rw [hall, hrest, if_pos rfl]
      simp
    · have hnone : (behind name' (v.mentions documents (role name'))).filter
          (fun m => m.steps.head? = some name) = [] := by
        refine List.filter_eq_nil_iff.2 fun m hm => ?_
        rw [head?_of_mem_behind hm]
        simpa using he
      rw [hnone, if_neg he, List.nil_append]

/-- What an element mentions: its type is a text, so all is in the configuration and in the children. -/
theorem arrange_element {role : String → Role} {members : List (String × ConfigValue)} {type : String}
    (hn : (Table.keys members).Nodup) (hkeys : ∀ name ∈ Table.keys members, name ∈ ["type", "config", "children"])
    (htype : (Table.get? members "type").bind ConfigValue.text? = some type) :
    Role.arrange (memberMentions documents role members) .element =
      ((Table.get? members "config").map fun v => behind "config" (v.mentions documents (role "config"))).getD [] ++
      ((Table.get? members "children").map fun v => behind "children" (v.mentions documents (role "children"))).getD []
      := by
  have hheads : ∀ m ∈ memberMentions documents role members,
      (!decide (m.steps.head? = some "config")) = decide (m.steps.head? = some "children") := by
    intro m hm
    rw [memberMentions_eq] at hm
    obtain ⟨⟨name, v⟩, hmem, hm⟩ := List.mem_flatMap.1 hm
    rw [head?_of_mem_behind hm]
    have hname := hkeys name (List.mem_map_of_mem hmem)
    simp only [List.mem_cons, List.not_mem_nil, or_false] at hname
    rcases hname with rfl | rfl | rfl
    · -- a text mentions nothing
      rw [Table.get?_of_mem hn hmem, Option.bind_some] at htype
      cases v with
      | literal value => cases hm
      | _ => cases htype
    · rfl
    · rfl
  rw [Role.arrange, List.filter_congr hheads, filter_memberMentions hn, filter_memberMentions hn]

/-- The row of a list that does not lack one is a deferred body. -/
theorem deferred_of_row {e : Element} {config : List (String × ConfigValue)} (hn : (Table.keys config).Nodup)
    (hconfig : e.config = some config) (hrow : e.lacksRow = false) :
    e.isList = true → ∀ m ∈ config, m.1 = Element.rowKey → ∃ body, m.2 = .deferred body := by
  rintro hlist ⟨name, v⟩ hm rfl
  have hvalue : e.value? Element.rowKey = some v := by
    rw [Element.value?, hconfig]
    exact Table.get?_of_mem hn hm
  rw [Element.lacksRow, hlist, hvalue] at hrow
  cases v with
  | deferred body => exact ⟨body, rfl⟩
  | _ => cases hrow

/-- The parts of an element that was read. -/
theorem Element.parts_of_ofConfig {members : List (String × ConfigValue)} {e : Element}
    (h : ofConfig (.object members) = .ok e) :
    (Table.get? members "type").bind ConfigValue.text? = some e.type ∧
      e.config = (Table.get? members "config").bind ConfigValue.members? ∧
      e.children = ((Table.get? members "children").bind ConfigValue.items?).getD [] := by
  rw [ofConfig] at h
  split at h
  · cases h
    exact ⟨by assumption, rfl, rfl⟩
  · cases h

theorem isListElement_of_ofConfig {members : List (String × ConfigValue)} {e : Element}
    (h : Element.ofConfig (.object members) = .ok e) : isListElement members = e.isList := by
  unfold isListElement Element.isList
  rw [(Element.parts_of_ofConfig h).1]
  simp

/-- The configuration of an element that was read. -/
theorem lists_elementConfig {config? : Option ConfigValue} {e : Element} (h : ∀ v ∈ config?, Listed documents v)
    (hd : ∀ v ∈ config?, v.Documented documents (.settings e.isList))
    (hconfig : e.config = config?.bind ConfigValue.members?) (hrow : e.lacksRow = false) (p : Position) (b : Brick) :
    Lists p (tour (elementValueSites documents p b e (e.config.getD [])))
      ((config?.map fun v => behind "config" (v.mentions documents (.settings e.isList))).getD []) := by
  cases config? with
  | none =>
    rw [hconfig]
    exact lists_nil
  | some v =>
    have hv := hd v rfl
    obtain ⟨config, hobject⟩ := Option.isSome_iff_exists.1 hv.fits
    have hfound : e.config = some config := by rw [hconfig, Option.bind_some, hobject]
    have hrows := deferred_of_row (hv.nodup_keys hobject) hfound hrow
    rw [hfound]
    exact (h v rfl).settings p b e config hobject hv hrows

/-- The children of an element that was read. -/
theorem lists_elementChildren {children? : Option ConfigValue} (h : ∀ v ∈ children?, Listed documents v)
    (hd : ∀ v ∈ children?, v.Documented documents .elements) (p : Position) (b : Brick) :
    Lists p
      (tour (elementSites documents (p.nested ["children"]) b 0 ((children?.bind ConfigValue.items?).getD [])))
      ((children?.map fun v => behind "children" (v.mentions documents .elements)).getD []) := by
  cases children? with
  | none => exact lists_nil
  | some v =>
    have hv := hd v rfl
    obtain ⟨items, harray⟩ := Option.isSome_iff_exists.1 hv.fits
    rw [Option.bind_some, harray]
    exact Lists.behind ((h v rfl).elements _ b items harray hv)

theorem lists_element {members : List (String × ConfigValue)} (h : ∀ m ∈ members, Listed documents m.2)
    (hd : (ConfigValue.object members).Documented documents .element) (p : Position) (b : Brick) :
    Lists p ((elementSite documents p b (.object members)).visits fun _ => true)
      ((ConfigValue.object members).mentions documents .element) := by
  cases he : Element.ofConfig (.object members) with
  | error rule =>
    rw [elementSite_of_error he]
    exact lists_violation
  | ok e =>
    obtain ⟨⟨_, hm, hkeys⟩, ⟨hn, -⟩, hd⟩ := hd
    cases hm
    rw [membersDocumented_iff] at hd
    obtain ⟨htype, hconfig, hchildren⟩ := Element.parts_of_ofConfig he
    have hlist := isListElement_of_ofConfig he
    rw [elementSite_of_ok he, Site.visits]
    refine Lists.cons ?_ rfl
    by_cases hrow : e.lacksRow = true
    · rw [if_pos hrow]
      exact fun hc => nomatch hc
    rw [if_neg hrow, ← tour, tour_append, ConfigValue.mentions, arrange_element hn hkeys htype, hchildren, hlist]
    rw [hlist] at hd
    refine Lists.append ?_ ?_
    · exact lists_elementConfig (fun v hv => h _ (Table.mem_of_get? hv))
        (fun v hv => hd ("config", v) (Table.mem_of_get? hv)) hconfig (by simpa using hrow) p b
    · exact lists_elementChildren (fun v hv => h _ (Table.mem_of_get? hv))
        (fun v hv => hd ("children", v) (Table.mem_of_get? hv)) p b

theorem listed_object {members : List (String × ConfigValue)} (h : ∀ m ∈ members, Listed documents m.2) :
    Listed documents (.object members) where
  value p owner hd := lists_members h ((membersDocumented_iff documents).1 hd.2.2) p owner
  elements p b items he := by cases he
  element p b hd := lists_element h hd p b
  settings p b e config he hd hrow := by
    cases he
    exact lists_settings h ((membersDocumented_iff documents).1 hd.2.2) hrow p b
  row p b e body he := by cases he

/-! ### deferred bodies and pipelines -/

theorem listed_deferred {body : ConfigValue} (h : Listed documents body) : Listed documents (.deferred body) where
  value p owner hd := by
    rw [valueSites, tour_singleton, Site.visits]
    exact (Lists.behind (h.value _ _ hd.2)).cons rfl
  elements p b items he := by cases he
  element _ _ _ := lists_violation
  settings p b e config he := by cases he
  row p b e body' _ hd := by
    rw [rowSites, tour_singleton, Site.visits, ← tour, tour_singleton]
    exact (Lists.behind (h.element _ b hd.2)).cons rfl

/-- What is visited in a brick. -/
def BrickListed (documents : String → Bool) (b : Brick) : Prop :=
  b.Documented documents → ∀ p,
    Lists p ((brickSite documents p b).visits fun _ => true) (b.mentions documents)

theorem lists_bricks {bricks : List Brick} (h : ∀ b ∈ bricks, BrickListed documents b)
    (hd : ∀ b ∈ bricks, b.Documented documents) (p : Position) (index : Nat) :
    Lists p (bricksVisits (fun _ => true) (brickSites documents p index bricks))
      (brickMentions documents index bricks) := by
  induction bricks generalizing index with
  | nil => exact fun _ => rfl
  | cons b bricks ih =>
    rw [List.forall_mem_cons] at h hd
    rw [brickSites, brickMentions, bricksVisits]
    exact (Lists.behind (h.1 hd.1 _)).append (ih h.2 hd.2 (index + 1))

theorem listed_pipeline {bricks : List Brick} (h : ∀ b ∈ bricks, BrickListed documents b) :
    Listed documents (.pipeline bricks) :=
  .plain rfl rfl (fun _ h => nomatch h) (fun _ _ => rfl) fun p owner hd => by
    rw [valueSites, tour_singleton, Site.visits, Level.visits]
    exact (Lists.behind (lists_bricks h ((bricksDocumented_iff documents).1 hd.2) _ 0)).cons rfl

/-- The configuration of a brick, with the body of a document in its place. -/
theorem lists_config {b : Brick} {members : List (String × ConfigValue)} (h : ∀ m ∈ members, Listed documents m.2)
    (hd : ∀ m ∈ members, m.2.Documented documents (Role.config (documents b.id) m.1)) (p : Position) :
    Lists p (tour (configSites documents p b members))
      (behind "config" (memberMentions documents (Role.config (documents b.id)) members)) := by
  induction members with
  | nil => exact lists_nil
  | cons m members ih =>
    obtain ⟨name, v⟩ := m
    obtain ⟨hv, h⟩ := List.forall_mem_cons.1 h
    obtain ⟨hdv, hd⟩ := List.forall_mem_cons.1 hd
    rw [configSites, memberMentions, tour_append, behind_append]
    refine Lists.append (Lists.behind_config ?_) (ih h hd)
    unfold Role.config at hdv ⊢
    by_cases hbody : (documents b.id && name = bodyKey) = true
    · rw [if_pos hbody] at hdv ⊢
      obtain ⟨items, harray⟩ := Option.isSome_iff_exists.1 hdv.fits
      have hname : name = bodyKey := by simpa using (Bool.and_eq_true_iff.1 hbody).2
      have hsites : bodySites documents p b v = elementSites documents (p.nested ["config", name]) b 0 items := by
        cases v with
        | array items' =>
          cases harray
          rw [bodySites, hname]
        | _ => cases harray
      rw [if_pos hbody, tour_singleton, Site.visits, hsites]
      exact (hv.elements _ b items harray hdv).cons rfl
    · rw [if_neg hbody] at hdv ⊢
      rw [if_neg hbody]
      exact hv.value _ _ hdv

theorem ascends_listed (documents : String → Bool) : Ascends (Listed documents) (BrickListed documents) where
  literal := listed_literal
  object _ h := listed_object h
  array _ h := listed_array h
  expression := listed_expression
  pipeline _ h := listed_pipeline h
  deferred _ h := listed_deferred h
  brick b hguard hconfig hd p := by
    obtain ⟨hdg, -, hdc⟩ := (Brick.documented_iff documents).1 hd
    rw [Brick.mentions_eq]
    have hsite : (brickSite documents p b).visits (fun _ => true) =
        (tour (guardSites documents p b b.condition ++ configSites documents p b b.config)).cons
          (.brick p b (documents b.id)) := by
      obtain ⟨id, instanceId, label, config, outputKey, condition⟩ := b
      rw [brickSite, brick_tour]
    rw [hsite, tour_append]
    refine Lists.cons (Lists.append ?_ (lists_config hconfig hdc p)) rfl
    cases hc : b.condition with
    | none => exact lists_nil
    | some v => exact Lists.behind ((hguard v hc).value _ _ (hdg v hc))

end

/-! ## the steps of a position -/

namespace Position

/-- What is behind the root in a position, taken apart at the dots. -/
def stepsFrom (root p : Position) : List String :=
  ((p.path.toList.drop root.stem.length).splitOn '.').map String.ofList

theorem path_nested {root : Position} {steps : List String} (hne : steps ≠ []) (hs : ∀ step ∈ steps, IsStep step) :
    (root.nested steps).path = root.stem ++ ".".intercalate steps := by
  have hfilter : steps.filter (fun s => !s.isEmpty) = steps := by
    refine List.filter_eq_self.2 fun step hstep => ?_
    simpa using (hs step hstep).1
  unfold nested stem join
  by_cases hroot : root.path = ""
  · simp [hroot, hfilter]
  · obtain ⟨step, rest, rfl⟩ := List.exists_cons_of_ne_nil hne
    rw [List.filter_cons_of_pos (by simpa using hroot), hfilter, if_neg hroot, String.intercalate_cons_cons]

/-- Steps that have no dots in them are found again. -/
theorem stepsFrom_nested {root : Position} {steps : List String} (hne : steps ≠ [])
    (hs : ∀ step ∈ steps, IsStep step) : root.stepsFrom (root.nested steps) = steps := by
  have hlists : ∀ l ∈ steps.map String.toList, '.' ∉ l := by
    intro l hl
    obtain ⟨step, hstep, rfl⟩ := List.mem_map.1 hl
    exact (hs step hstep).2
  have hrest : (root.nested steps).path.toList.drop root.stem.length = ['.'].intercalate (steps.map String.toList) := by
    rw [path_nested hne hs, String.toList_append, ← String.length_toList, List.drop_left, String.toList_intercalate]
    rfl
  rw [stepsFrom, hrest, List.splitOn_intercalate '.' hlists (by simpa using hne), List.map_map]
  exact (List.map_congr_left fun _ _ => String.ofList_toList).trans (List.map_id steps)

end Position

/-! ## whole pipelines -/

namespace Pipeline

variable {documents : String → Bool} {root : Position} {p : Pipeline}

/-- The expressions that a walk visits, with their positions, in the order of the visits. -/
def expressionVisits (documents : String → Bool) (root : Position) (p : Pipeline) : List (Position × Expression) :=
  (outline documents root p).allVisits.events.filterMap Visit.expression?

theorem lists_pipeline (hd : Documented documents p) :
    Lists root (outline documents root p).allVisits (mentions documents p) := by
  have hbricks := (bricksDocumented_iff documents).1 hd
  exact (lists_bricks (fun b _ => (ascends_listed documents).ofBrick b) hbricks root 0).cons rfl

theorem steps_ne_nil {m : Mention} (h : m ∈ mentions documents p) : m.steps ≠ [] := by
  rw [mentions, brickMentions_eq] at h
  obtain ⟨x, -, hm⟩ := List.mem_flatMap.1 h
  intro he
  have hhead := head?_of_mem_behind hm
  rw [he] at hhead
  cases hhead

/-- **Every expression once, at its address.**  If a walk through a pipeline in the documented format comes to its end,
it visits the mentions of the pipeline one after the other, and these are all the expressions of the tree.  No position
comes twice; each begins with the root, and the rest of it, taken apart at the dots, leads to the expression in what is
written for the pipeline. -/
theorem expressions_visited (hd : Documented documents p) (hc : (outline documents root p).allVisits.Complete) :
    expressionVisits documents root p = (mentions documents p).map (fun m => (root.nested m.steps, m.expression)) ∧
    (mentions documents p).Perm (mentions (fun _ => false) p) ∧
    ((expressionVisits documents root p).map Prod.fst).Nodup ∧
    (expressionVisits documents root p).map (fun c => ⟨root.stepsFrom c.1, c.2⟩) = mentions documents p ∧
    ∀ c ∈ expressionVisits documents root p, root.stem.toList <+: c.1.path.toList ∧
      (Format.encode p).follow? (root.stepsFrom c.1) = some (ConfigValue.expression c.2).toJson := by
  have hsound := sound_mentions hd
  have hvisits : expressionVisits documents root p = _ := lists_pipeline hd hc
  have hsteps : ∀ m ∈ mentions documents p, root.stepsFrom (root.nested m.steps) = m.steps := fun m hm =>
    Position.stepsFrom_nested (steps_ne_nil hm) (hsound.single m hm)
  refine ⟨hvisits, mentions_perm documents p, ?_, ?_, ?_⟩
  · rw [hvisits, List.map_map]
    -- equal positions have equal steps
    have hmap : ((mentions documents p).map fun m => root.nested m.steps).map root.stepsFrom =
        (mentions documents p).map Mention.steps := by
      rw [List.map_map]
      exact List.map_congr_left hsteps
    exact List.Nodup.of_map root.stepsFrom (hmap ▸ hsound.different)
  · rw [hvisits, List.map_map]
    refine (List.map_congr_left fun m hm => ?_).trans (List.map_id _)
    rw [Function.comp_apply, hsteps m hm]
    rfl
  · intro c hmem
    rw [hvisits] at hmem
    obtain ⟨m, hm, rfl⟩ := List.mem_map.1 hmem
    refine ⟨?_, ?_⟩
    · rw [Position.path_nested (steps_ne_nil hm) (hsound.single m hm), String.toList_append]
      exact List.prefix_append _ _
    · rw [hsteps m hm]
      exact hsound.leads m hm

/-- A document with a list, whose children come before its configuration and whose row holds a pipeline, and a brick
with a guard and a deferred body. -/
def mixedDocument : Pipeline :=
  [{ id := "doc", config := [("title", .expression (.template .nunjucks "\x7b\x7b @a \x7d\x7d")), ("body", .array
      [.object [("children", .array [.object [("type", .literal (.string "text")), ("config", .object
          [("text", .expression (.reference "@b"))])]]), ("type", .literal (.string "list")), ("config", .object
          [("array", .expression (.reference "@rows")), ("element", .deferred (.object
            [("config", .object [("action", .pipeline [{ id := "show", config :=
              [("text", .expression (.reference "@element.name"))] }])]),
            ("type", .literal (.string "button"))]))])]])] },
    { id := "run", config := [("later", .deferred (.array [.literal .null, .expression (.reference "@c")]))],
      condition := some (.expression (.reference "@go")) }]

/-- A walk through such a document. -/
theorem expressions_visited_mixedDocument :
    Documented (· = "doc") mixedDocument ∧ (outline (· = "doc") ⟨"pipeline"⟩ mixedDocument).allVisits.Complete ∧
    expressionVisits (· = "doc") ⟨"pipeline"⟩ mixedDocument =
      [(⟨"pipeline.0.config.title"⟩, .template .nunjucks "\x7b\x7b @a \x7d\x7d"),
        (⟨"pipeline.0.config.body.0.config.array"⟩, .reference "@rows"),
        (⟨"pipeline.0.config.body.0.config.element.__value__.config.action.__value__.0.config.text"⟩,
          .reference "@element.name"),
        (⟨"pipeline.0.config.body.0.children.0.config.text"⟩, .reference "@b"),
        (⟨"pipeline.1.if"⟩, .reference "@go"),
        (⟨"pipeline.1.config.later.__value__.1"⟩, .reference "@c")] := by
  have hd : Documented (· = "doc") mixedDocument := by
    simp +decide [Documented, mixedDocument, BricksDocumented, Brick.Documented, GuardDocumented, MembersDocumented,
      ItemsDocumented, ConfigValue.Documented, Role.Fits, Role.config, Role.member, Role.item, Role.body,
      isListElement]
  have hc : (outline (· = "doc") ⟨"pipeline"⟩ mixedDocument).allVisits.Complete := rfl
  exact ⟨hd, hc, (expressions_visited hd hc).1.trans (by decide +kernel)⟩

end Pipeline

end BrickScope
