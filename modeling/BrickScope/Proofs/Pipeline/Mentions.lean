import BrickScope.Pipeline.Outline
import BrickScope.Proofs.Pipeline.Position
import BrickScope.Proofs.Pipeline.RoundTrip

/-!
# The expressions of a pipeline

All expressions of a pipeline, each with the steps that lead to it: a guard before the configuration, members and items
in their order, the configuration of a document element before its children, nested pipelines and deferred bodies in
place.  Where no brick counts as a document brick, this is the plain order of the tree.

* `Pipeline.mentions`: the enumeration;
* `Pipeline.mentions_perm`: it holds the same expressions whatever counts as a document;
* `Pipeline.Documented`: the format of pipelines, with names that are single steps;
* `Pipeline.sound_mentions`: in this format, the steps tell the expressions apart, and they lead to them in what is
  written for the pipeline.
-/

namespace BrickScope

/-- An expression with the steps that lead to it. -/
structure Mention where
  steps : List String
  expression : Expression
  deriving DecidableEq

/-- The mentions behind a step. -/
def behind (step : String) (ms : List Mention) : List Mention := ms.map fun m => { m with steps := step :: m.steps }

/-! ## roles -/

/-- What a configuration value is looked at as. -/
inductive Role where
  /-- A value like any other. -/
  | value
  /-- Elements of a document: its body, or the children of an element. -/
  | elements
  | element
  /-- The configuration of an element, which may be a list. -/
  | settings (ofList : Bool)
  /-- The body of the rows of a list. -/
  | row
  deriving DecidableEq

namespace Role

/-- The role of the items of an array. -/
def item : Role → Role
  | elements => element
  | _ => value

/-- The role of a member of an object; `isList` says whether an element is a list. -/
def member (isList : Bool) (name : String) : Role → Role
  | element => if name = "config" then settings isList else if name = "children" then elements else value
  | settings ofList => if ofList && name = Element.rowKey then row else value
  | _ => value

/-- The role of a deferred body. -/
def body : Role → Role
  | row => element
  | _ => value

/-- The role of a member of the configuration of a brick. -/
def config (isDocument : Bool) (name : String) : Role := if isDocument && name = bodyKey then elements else value

/-- The order of what an object mentions: that of its members, but the configuration of an element comes first. -/
def arrange (ms : List Mention) : Role → List Mention
  | element => ms.filter (fun m => m.steps.head? = some "config") ++ ms.filter fun m => !(m.steps.head? = some "config")
  | _ => ms

end Role

/-- The members are those of a list element. -/
def isListElement (members : List (String × ConfigValue)) : Bool :=
  (Table.get? members "type").bind ConfigValue.text? = some "list"

/-! ## the enumeration -/

section

variable (documents : String → Bool)

mutual

/-- What a value in some role mentions. -/
def ConfigValue.mentions (role : Role) : ConfigValue → List Mention
  | .literal _ => []
  | .object members => role.arrange (memberMentions (role.member (isListElement members) ·) members)
  | .array items => itemMentions role.item 0 items
  | .expression e => [⟨[], e⟩]
  | .pipeline bricks => behind contentKey (brickMentions 0 bricks)
  | .deferred body => behind contentKey (body.mentions role.body)
termination_by structural v => v

def memberMentions (role : String → Role) : List (String × ConfigValue) → List Mention
  | [] => []
  | (name, v) :: members => behind name (v.mentions (role name)) ++ memberMentions role members
termination_by structural v => v

def itemMentions (role : Role) (index : Nat) : List ConfigValue → List Mention
  | [] => []
  | v :: items => behind (toString index) (v.mentions role) ++ itemMentions role (index + 1) items
termination_by structural v => v

def brickMentions (index : Nat) : List Brick → List Mention
  | [] => []
  | b :: bricks => behind (toString index) b.mentions ++ brickMentions (index + 1) bricks
termination_by structural v => v

/-- The guard comes before the configuration. -/
def Brick.mentions : Brick → List Mention
  | ⟨id, _, _, config, _, condition⟩ =>
    behind "if" (guardMentions condition) ++ behind "config" (memberMentions (Role.config (documents id)) config)
termination_by structural v => v

def guardMentions : Option ConfigValue → List Mention
  | none => []
  | some v => v.mentions .value
termination_by structural v => v

end

/-- The expressions of a pipeline whose document bricks have the ids `documents`. -/
def Pipeline.mentions (p : Pipeline) : List Mention := brickMentions documents 0 p

/-! ### part by part -/

theorem memberMentions_eq (role : String → Role) (members : List (String × ConfigValue)) :
    memberMentions documents role members =
      members.flatMap fun m => behind m.1 (m.2.mentions documents (role m.1)) := by
  induction members with
  | nil => rfl
  | cons m members ih => rw [memberMentions, List.flatMap_cons, ih]

theorem itemMentions_eq (role : Role) (index : Nat) (items : List ConfigValue) :
    itemMentions documents role index items =
      (items.zipIdx index).flatMap fun x => behind (toString x.2) (x.1.mentions documents role) := by
  induction items generalizing index with
  | nil => rfl
  | cons v items ih => rw [itemMentions, List.zipIdx_cons, List.flatMap_cons, ih]

theorem brickMentions_eq (index : Nat) (bricks : List Brick) :
    brickMentions documents index bricks =
      (bricks.zipIdx index).flatMap fun x => behind (toString x.2) (x.1.mentions documents) := by
  induction bricks generalizing index with
  | nil => rfl
  | cons b bricks ih => rw [brickMentions, List.zipIdx_cons, List.flatMap_cons, ih]

theorem Brick.mentions_eq (b : Brick) :
    b.mentions documents = behind "if" (guardMentions documents b.condition) ++
      behind "config" (memberMentions documents (Role.config (documents b.id)) b.config) := by
  obtain ⟨id, instanceId, label, config, outputKey, condition⟩ := b
  rw [Brick.mentions]

end

/-! ## the same expressions in every order -/

theorem behind_perm {step : String} {ms ms' : List Mention} (h : ms.Perm ms') :
    (behind step ms).Perm (behind step ms') := h.map _

theorem Role.arrange_perm (role : Role) (ms : List Mention) : (role.arrange ms).Perm ms := by
  cases role with
  | element => exact List.filter_append_perm _ _
  | _ => exact .refl _

/-- The order of the tree is the one for which nothing is a document. -/
theorem ascends_mentions_perm (documents : String → Bool) :
    Ascends (fun v => ∀ role, (v.mentions documents role).Perm (v.mentions (fun _ => false) .value))
      (fun b => (b.mentions documents).Perm (b.mentions fun _ => false)) where
  literal _ _ := .refl _
  object members h role := by
    refine (role.arrange_perm _).trans ?_
    have hplain : (ConfigValue.object members).mentions (fun _ => false) .value =
        memberMentions (fun _ => false) (fun _ => .value) members := rfl
    rw [hplain, memberMentions_eq, memberMentions_eq]
    exact .flatMap_left _ fun m hm => behind_perm (h m hm _)
  array items h role := by
    rw [ConfigValue.mentions, ConfigValue.mentions, itemMentions_eq, itemMentions_eq]
    exact .flatMap_left _ fun x hx => behind_perm (h x.1 (List.fst_mem_of_mem_zipIdx hx) _)
  expression _ _ := .refl _
  pipeline bricks h role := by
    rw [ConfigValue.mentions, ConfigValue.mentions, brickMentions_eq, brickMentions_eq]
    exact behind_perm (.flatMap_left _ fun x hx => behind_perm (h x.1 (List.fst_mem_of_mem_zipIdx hx)))
  deferred body h role := behind_perm (h role.body)
  brick b hguard hconfig := by
    rw [Brick.mentions_eq, Brick.mentions_eq, memberMentions_eq, memberMentions_eq]
    refine .append ?_ (behind_perm (.flatMap_left _ fun m hm => behind_perm ?_))
    · cases hc : b.condition with
      | none => exact .refl _
      | some v => exact behind_perm (hguard v hc .value)
    · exact hconfig m hm _

/-- Whatever counts as a document, the same expressions are mentioned, each as often. -/
theorem Pipeline.mentions_perm (documents : String → Bool) (p : Pipeline) :
    (Pipeline.mentions documents p).Perm (Pipeline.mentions (fun _ => false) p) := by
  rw [Pipeline.mentions, Pipeline.mentions, brickMentions_eq, brickMentions_eq]
  exact .flatMap_left _ fun x _ => behind_perm ((ascends_mentions_perm documents).ofBrick x.1)

/-! ## the format of pipelines -/

/-- A text that is one step of a position. -/
def IsStep (step : String) : Prop := step ≠ "" ∧ '.' ∉ step.toList

instance (step : String) : Decidable (IsStep step) := inferInstanceAs (Decidable (_ ∧ _))

/-- Names that are different steps. -/
def AreSteps (names : List String) : Prop := names.Nodup ∧ ∀ name ∈ names, IsStep name

instance (names : List String) : Decidable (AreSteps names) := inferInstanceAs (Decidable (_ ∧ _))

/-- A value that may stand in a role: an element is an object with no other members than its type, its configuration and
its children, of which the configuration is an object and the children are an array. -/
def Role.Fits : Role → ConfigValue → Prop
  | elements, v => v.items?.isSome
  | element, v =>
    ∃ members, v.members? = some members ∧ ∀ name ∈ Table.keys members, name ∈ ["type", "config", "children"]
  | settings _, v => v.members?.isSome
  | _, _ => True

section

variable (documents : String → Bool)

mutual

/-- A value in the format of pipelines, at any depth. -/
def ConfigValue.Documented (role : Role) : ConfigValue → Prop
  | .literal value => role.Fits (.literal value)
  | .object members => role.Fits (.object members) ∧ AreSteps (Table.keys members) ∧
      MembersDocumented (role.member (isListElement members) ·) members
  | .array items => role.Fits (.array items) ∧ ItemsDocumented role.item items
  | .expression e => role.Fits (.expression e)
  | .pipeline bricks => role.Fits (.pipeline bricks) ∧ BricksDocumented bricks
  | .deferred body => role.Fits (.deferred body) ∧ body.Documented role.body
termination_by structural v => v

def MembersDocumented (role : String → Role) : List (String × ConfigValue) → Prop
  | [] => True
  | (name, v) :: members => v.Documented (role name) ∧ MembersDocumented role members
termination_by structural v => v

def ItemsDocumented (role : Role) : List ConfigValue → Prop
  | [] => True
  | v :: items => v.Documented role ∧ ItemsDocumented role items
termination_by structural v => v

def BricksDocumented : List Brick → Prop
  | [] => True
  | b :: bricks => b.Documented ∧ BricksDocumented bricks
termination_by structural v => v

def Brick.Documented : Brick → Prop
  | ⟨id, _, _, config, _, condition⟩ => GuardDocumented condition ∧ AreSteps (Table.keys config) ∧
      MembersDocumented (Role.config (documents id)) config
termination_by structural v => v

def GuardDocumented : Option ConfigValue → Prop
  | none => True
  | some v => v.Documented .value
termination_by structural v => v

end

/-- A pipeline in the documented format, if its document bricks have the ids `documents`. -/
def Pipeline.Documented (p : Pipeline) : Prop := BricksDocumented documents p

theorem membersDocumented_iff {role : String → Role} {members : List (String × ConfigValue)} :
    MembersDocumented documents role members ↔ ∀ m ∈ members, m.2.Documented documents (role m.1) := by
  induction members with
  | nil => simp [MembersDocumented]
  | cons m members ih => simp [MembersDocumented, ih]

theorem itemsDocumented_iff {role : Role} {items : List ConfigValue} :
    ItemsDocumented documents role items ↔ ∀ v ∈ items, v.Documented documents role := by
  induction items with
  | nil => simp [ItemsDocumented]
  | cons v items ih => simp [ItemsDocumented, ih]

theorem bricksDocumented_iff {bricks : List Brick} :
    BricksDocumented documents bricks ↔ ∀ b ∈ bricks, b.Documented documents := by
  induction bricks with
  | nil => simp [BricksDocumented]
  | cons b bricks ih => simp [BricksDocumented, ih]

theorem Brick.documented_iff {b : Brick} :
    b.Documented documents ↔ (∀ v, b.condition = some v → v.Documented documents .value) ∧
      AreSteps (Table.keys b.config) ∧ ∀ m ∈ b.config, m.2.Documented documents (Role.config (documents b.id) m.1) := by
  obtain ⟨id, instanceId, label, config, outputKey, condition⟩ := b
  rw [Brick.Documented, membersDocumented_iff]
  cases condition <;> simp [GuardDocumented]

end

/-! ## following steps -/

namespace Json

/-- The parts of a value by their steps: the items of an array have their indices for names. -/
def parts : Json → List (String × Json)
  | .scalar _ => []
  | .array items => items.zipIdx.map fun x => (toString x.2, x.1)
  | .object members => members

/-- The value that some steps lead to. -/
def follow? : List String → Json → Option Json
  | [], v => some v
  | step :: steps, v => (Table.get? v.parts step).bind (follow? steps)

end Json

theorem keys_indexed {α β : Type} (f : α → β) (items : List α) (index : Nat) :
    Table.keys ((items.zipIdx index).map fun x => (toString x.2, f x.1)) =
      (List.range' index items.length).map toString := by
  rw [Table.keys, List.map_map, ← List.zipIdx_map_snd, List.map_map]
  rfl

theorem areSteps_indices (index size : Nat) : AreSteps ((List.range' index size).map toString) := by
  refine ⟨List.Nodup.map (fun _ _ h => Nat.repr_injective h) (List.nodup_range' 1), fun name h => ?_⟩
  obtain ⟨i, -, rfl⟩ := List.mem_map.1 h
  refine ⟨Position.toString_ne_empty i, fun hdot => ?_⟩
  exact absurd (Position.isDigit_of_mem_toString hdot) (by decide)

theorem areSteps_zipIdx {α : Type} (items : List α) (index : Nat) :
    AreSteps ((items.zipIdx index).map fun x => toString x.2) := by
  have h := keys_indexed (fun a : α => a) items index
  rw [Table.keys, List.map_map] at h
  exact h ▸ areSteps_indices index items.length

/-! ## mentions that lead to their expressions -/

/-- The steps of the mentions are single, no two mentions have the same, and in `j` they lead to the expressions. -/
structure Sound (j : Json) (ms : List Mention) : Prop where
  single : ∀ m ∈ ms, ∀ step ∈ m.steps, IsStep step
  different : (ms.map Mention.steps).Nodup
  leads : ∀ m ∈ ms, j.follow? m.steps = some (ConfigValue.expression m.expression).toJson

theorem sound_nil (j : Json) : Sound j [] where
  single := List.forall_mem_nil _
  different := .nil
  leads := List.forall_mem_nil _

theorem Sound.perm {j : Json} {ms ms' : List Mention} (h : Sound j ms) (hp : ms'.Perm ms) : Sound j ms' where
  single m hm := h.single m (hp.mem_iff.1 hm)
  different := (hp.map _).nodup_iff.2 h.different
  leads m hm := h.leads m (hp.mem_iff.1 hm)

theorem Sound.append {j : Json} {ms ms' : List Mention} (h : Sound j ms) (h' : Sound j ms')
    (hne : ∀ m ∈ ms, ∀ m' ∈ ms', m.steps ≠ m'.steps) : Sound j (ms ++ ms') where
  single m hm := (List.mem_append.1 hm).elim (h.single m) (h'.single m)
  different := by
    rw [List.map_append]
    refine List.Nodup.append h.different h'.different fun steps hs hs' => ?_
    obtain ⟨m, hm, rfl⟩ := List.mem_map.1 hs
    obtain ⟨m', hm', he⟩ := List.mem_map.1 hs'
    exact hne m hm m' hm' he.symm
  leads m hm := (List.mem_append.1 hm).elim (h.leads m) (h'.leads m)

theorem head?_of_mem_behind {step : String} {ms : List Mention} {m : Mention} (h : m ∈ behind step ms) :
    m.steps.head? = some step := by
  obtain ⟨m', -, rfl⟩ := List.mem_map.1 h
  rfl

/-- The mentions of one part. -/
theorem sound_behind {j part : Json} {step : String} {ms : List Mention} (hstep : IsStep step)
    (hpart : Table.get? j.parts step = some part) (h : Sound part ms) : Sound j (behind step ms) where
  single m hm := by
    obtain ⟨m', hm', rfl⟩ := List.mem_map.1 hm
    exact List.forall_mem_cons.2 ⟨hstep, h.single m' hm'⟩
  different := by
    have hmap : (behind step ms).map Mention.steps = (ms.map Mention.steps).map (step :: ·) := by simp [behind]
    rw [hmap]
    exact h.different.map List.cons_injective
  leads m hm := by
    obtain ⟨m', hm', rfl⟩ := List.mem_map.1 hm
    rw [Json.follow?, hpart]
    exact h.leads m' hm'

/-- The mentions of parts with different names. -/
theorem sound_parts {α : Type} {j : Json} {l : List α} {name : α → String} {ms : α → List Mention}
    (hnames : AreSteps (l.map name))
    (h : ∀ a ∈ l, ∃ part, Table.get? j.parts (name a) = some part ∧ Sound part (ms a)) :
    Sound j (l.flatMap fun a => behind (name a) (ms a)) := by
  induction l with
  | nil => exact sound_nil j
  | cons a l ih =>
    rw [List.map_cons, AreSteps, List.nodup_cons, List.forall_mem_cons] at hnames
    obtain ⟨⟨hnew, hn⟩, hstep, hsteps⟩ := hnames
    obtain ⟨⟨part, hpart, ha⟩, h⟩ := List.forall_mem_cons.1 h
    refine (sound_behind hstep hpart ha).append (ih ⟨hn, hsteps⟩ h) fun m hm m' hm' he => hnew ?_
    obtain ⟨a', ha', hm'⟩ := List.mem_flatMap.1 hm'
    have hname : name a = name a' :=
      Option.some.inj ((head?_of_mem_behind hm).symm.trans (he ▸ head?_of_mem_behind hm'))
    exact hname ▸ List.mem_map_of_mem ha'

theorem sound_members {role : String → Role} {documents : String → Bool} {members : List (String × ConfigValue)}
    (hn : AreSteps (Table.keys members))
    (h : ∀ m ∈ members, Sound m.2.toJson (m.2.mentions documents (role m.1))) :
    Sound (.object (configToJson members)) (memberMentions documents role members) := by
  rw [memberMentions_eq, configToJson_eq]
  refine sound_parts hn fun m hm => ⟨m.2.toJson, ?_, h m hm⟩
  rw [Json.parts, Table.get?_map, Table.get?_of_mem hn.1 hm]
  rfl

/-- The parts of an array that is written item by item. -/
theorem sound_items {α : Type} {items : List α} {write : α → Json} {ms : α → List Mention}
    (h : ∀ a ∈ items, Sound (write a) (ms a)) :
    Sound (.array (items.map write)) (items.zipIdx.flatMap fun x => behind (toString x.2) (ms x.1)) := by
  have hparts : (Json.array (items.map write)).parts = items.zipIdx.map fun x => (toString x.2, write x.1) := by
    rw [Json.parts, List.zipIdx_map, List.map_map]
    rfl
  have hkeys : Table.keys (Json.array (items.map write)).parts = (List.range' 0 items.length).map toString := by
    rw [hparts, keys_indexed]
  refine sound_parts (areSteps_zipIdx items 0) fun x hx => ⟨write x.1, ?_, h x.1 (List.fst_mem_of_mem_zipIdx hx)⟩
  refine Table.get?_of_mem ?_ ?_
  · rw [hkeys]
    exact (areSteps_indices 0 items.length).1
  · rw [hparts]
    exact List.mem_map_of_mem hx

theorem sound_marked {mark : String} {content : Json} {ms : List Mention} (h : Sound content ms) :
    Sound (markedJson mark content) (behind contentKey ms) :=
  sound_behind (by decide) rfl h

theorem Brick.get?_config (b : Brick) :
    Table.get? b.toJson.parts "config" = some (.object (configToJson b.config)) := by
  obtain ⟨id, instanceId, label, config, outputKey, condition⟩ := b
  cases instanceId <;> cases label <;> rfl

theorem Brick.get?_if (b : Brick) : Table.get? b.toJson.parts "if" = b.condition.map ConfigValue.toJson := by
  obtain ⟨id, instanceId, label, config, outputKey, condition⟩ := b
  cases instanceId <;> cases label <;> cases outputKey <;> cases condition <;> rfl

theorem ascends_sound (documents : String → Bool) :
    Ascends (fun v => ∀ role, v.Documented documents role → Sound v.toJson (v.mentions documents role))
      (fun b => b.Documented documents → Sound b.toJson (b.mentions documents)) where
  literal _ _ _ := sound_nil _
  object members h role hd := by
    obtain ⟨-, hn, hd⟩ := hd
    rw [membersDocumented_iff] at hd
    exact (sound_members hn fun m hm => h m hm _ (hd m hm)).perm (role.arrange_perm _)
  array items h role hd := by
    have hd := (itemsDocumented_iff documents).1 hd.2
    rw [ConfigValue.mentions, itemMentions_eq, ConfigValue.toJson, valuesToJson_eq]
    exact sound_items fun v hv => h v hv _ (hd v hv)
  expression e _ _ :=
    ⟨by simp [ConfigValue.mentions], by simp [ConfigValue.mentions], by simp [ConfigValue.mentions, Json.follow?]⟩
  pipeline bricks h role hd := by
    have hd := (bricksDocumented_iff documents).1 hd.2
    rw [ConfigValue.mentions, brickMentions_eq, ConfigValue.toJson, bricksToJson_eq]
    exact sound_marked (sound_items fun b hb => h b hb (hd b hb))
  deferred body h role hd := sound_marked (h role.body hd.2)
  brick b hguard hconfig hd := by
    obtain ⟨hdg, hn, hdc⟩ := (Brick.documented_iff documents).1 hd
    have hmembers : Sound (.object (configToJson b.config)) _ := sound_members hn fun m hm => hconfig m hm _ (hdc m hm)
    have hset := sound_behind (by decide) b.get?_config hmembers
    rw [Brick.mentions_eq]
    cases hc : b.condition with
    | none => exact hset
    | some v =>
      have hif : Table.get? b.toJson.parts "if" = some v.toJson := by rw [b.get?_if, hc]; rfl
      have hv : Sound v.toJson (v.mentions documents .value) := hguard v hc .value (hdg v hc)
      refine (sound_behind (by decide) hif hv).append hset fun m hm m' hm' he => ?_
      have hheads := (head?_of_mem_behind hm).symm.trans (he ▸ head?_of_mem_behind hm')
      exact absurd hheads (by decide)

/-- **Addresses.**  In the documented format the steps to an expression tell it apart from all others, and they lead to
it in what is written for the pipeline. -/
theorem Pipeline.sound_mentions {documents : String → Bool} {p : Pipeline} (h : Pipeline.Documented documents p) :
    Sound (Format.encode p) (Pipeline.mentions documents p) := by
  have hd := (bricksDocumented_iff documents).1 h
  rw [Pipeline.mentions, brickMentions_eq]
  exact sound_items fun b hb => (ascends_sound documents).ofBrick b (hd b hb)

end BrickScope
