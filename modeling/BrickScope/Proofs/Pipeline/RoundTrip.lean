import BrickScope.Pipeline.Json
import BrickScope.Proofs.Decode.Record
import BrickScope.Proofs.Schema.Distinct

/-!
# Pipelines that are read back

Pipelines can be spelled in many ways: optional members are missing or `null`, bricks are given by position, unknown
members are skipped.  Writing knows one spelling only.  What is read from any JSON value is written so that the same
pipeline is read again.

* `Ascends`: induction over configuration values and bricks;
* `ConfigValue.Readable`, `Brick.Readable`: what can be read at all, said on the tree;
* `ConfigValue.ofJson_toJson`, `Brick.ofJson_toJson`: it is read back from what is written;
* `Json.readable_configView`: nothing else is ever read;
* `Pipeline.decode_encode`: both for whole pipelines.
-/

namespace BrickScope

/-! ## induction over the tree -/

section

variable {P : ConfigValue → Prop} {Q : Brick → Prop}

/-- What holds of configuration values and of bricks, if it goes from the parts to the whole. -/
structure Ascends (P : ConfigValue → Prop) (Q : Brick → Prop) : Prop where
  literal : ∀ value, P (.literal value)
  object : ∀ members, (∀ m ∈ members, P m.2) → P (.object members)
  array : ∀ items, (∀ v ∈ items, P v) → P (.array items)
  expression : ∀ e, P (.expression e)
  pipeline : ∀ bricks, (∀ b ∈ bricks, Q b) → P (.pipeline bricks)
  deferred : ∀ body, P body → P (.deferred body)
  brick : ∀ b : Brick, (∀ v, b.condition = some v → P v) → (∀ m ∈ b.config, P m.2) → Q b

mutual

theorem Ascends.value (h : Ascends P Q) : ∀ v, P v
  | .literal value => h.literal value
  | .object members => h.object members (Ascends.members h members)
  | .array items => h.array items (Ascends.items h items)
  | .expression e => h.expression e
  | .pipeline bricks => h.pipeline bricks (Ascends.bricks h bricks)
  | .deferred body => h.deferred body (Ascends.value h body)
termination_by structural v => v

theorem Ascends.members (h : Ascends P Q) : ∀ members : List (String × ConfigValue), ∀ m ∈ members, P m.2
  | [] => List.forall_mem_nil _
  | (_, v) :: members => List.forall_mem_cons.2 ⟨Ascends.value h v, Ascends.members h members⟩
termination_by structural v => v

theorem Ascends.items (h : Ascends P Q) : ∀ items : List ConfigValue, ∀ v ∈ items, P v
  | [] => List.forall_mem_nil _
  | v :: items => List.forall_mem_cons.2 ⟨Ascends.value h v, Ascends.items h items⟩
termination_by structural v => v

theorem Ascends.bricks (h : Ascends P Q) : ∀ bricks : List Brick, ∀ b ∈ bricks, Q b
  | [] => List.forall_mem_nil _
  | b :: bricks => List.forall_mem_cons.2 ⟨Ascends.ofBrick h b, Ascends.bricks h bricks⟩
termination_by structural v => v

theorem Ascends.ofBrick (h : Ascends P Q) : ∀ b, Q b
  | ⟨_, _, _, config, _, condition⟩ => h.brick _ (Ascends.guard h condition) (Ascends.members h config)
termination_by structural v => v

theorem Ascends.guard (h : Ascends P Q) : ∀ (condition : Option ConfigValue) (v : ConfigValue), condition = some v → P v
  | none => fun _ he => (nomatch he)
  | some v => fun _ he => Option.some.inj he ▸ Ascends.value h v
termination_by structural v => v

end

end

/-! ## what can be read -/

mutual

/-- No two members of an object have one name, no plain object has a mark, and no guard is `null`, at any depth. -/
def ConfigValue.Readable : ConfigValue → Prop
  | .literal _ => True
  | .object members => (Table.keys members).Nodup ∧ markKey ∉ Table.keys members ∧ MembersReadable members
  | .array items => ItemsReadable items
  | .expression _ => True
  | .pipeline bricks => BricksReadable bricks
  | .deferred body => body.Readable
termination_by structural v => v

def MembersReadable : List (String × ConfigValue) → Prop
  | [] => True
  | (_, v) :: members => v.Readable ∧ MembersReadable members
termination_by structural v => v

def ItemsReadable : List ConfigValue → Prop
  | [] => True
  | v :: items => v.Readable ∧ ItemsReadable items
termination_by structural v => v

def BricksReadable : List Brick → Prop
  | [] => True
  | b :: bricks => b.Readable ∧ BricksReadable bricks
termination_by structural v => v

/-- The configuration of a brick may have a member like a mark. -/
def Brick.Readable : Brick → Prop
  | ⟨_, _, _, config, _, condition⟩ =>
    (Table.keys config).Nodup ∧ MembersReadable config ∧ GuardReadable condition
termination_by structural v => v

def GuardReadable : Option ConfigValue → Prop
  | none => True
  | some v => v ≠ .literal .null ∧ v.Readable
termination_by structural v => v

end

theorem membersReadable_iff {members : List (String × ConfigValue)} :
    MembersReadable members ↔ ∀ m ∈ members, m.2.Readable := by
  induction members with
  | nil => simp [MembersReadable]
  | cons m members ih => simp [MembersReadable, ih]

theorem itemsReadable_iff {items : List ConfigValue} : ItemsReadable items ↔ ∀ v ∈ items, v.Readable := by
  induction items with
  | nil => simp [ItemsReadable]
  | cons v items ih => simp [ItemsReadable, ih]

theorem bricksReadable_iff {bricks : List Brick} : BricksReadable bricks ↔ ∀ b ∈ bricks, b.Readable := by
  induction bricks with
  | nil => simp [BricksReadable]
  | cons b bricks ih => simp [BricksReadable, ih]

theorem Brick.readable_iff {b : Brick} :
    b.Readable ↔ (Table.keys b.config).Nodup ∧ (∀ m ∈ b.config, m.2.Readable) ∧ GuardReadable b.condition := by
  obtain ⟨id, instanceId, label, config, outputKey, condition⟩ := b
  rw [Readable, membersReadable_iff]

/-! ## lists of parts -/

theorem configToJson_eq (members : List (String × ConfigValue)) :
    configToJson members = members.map fun m => (m.1, m.2.toJson) := by
  induction members with
  | nil => rfl
  | cons m members ih => simp [configToJson, ih]

theorem valuesToJson_eq (items : List ConfigValue) : valuesToJson items = items.map ConfigValue.toJson := by
  induction items with
  | nil => rfl
  | cons v items ih => simp [valuesToJson, ih]

theorem bricksToJson_eq (bricks : List Brick) : bricksToJson bricks = bricks.map Brick.toJson := by
  induction bricks with
  | nil => rfl
  | cons b bricks ih => simp [bricksToJson, ih]

namespace Json

theorem foldItems_eq {β : Type} (scalar : Scalar → β) (array : List β → β) (object : List (String × β) → β)
    (items : List Json) : foldItems scalar array object items = items.map (fold scalar array object) := by
  induction items with
  | nil => rfl
  | cons v items ih => simp [foldItems, ih]

theorem foldMembers_eq {β : Type} (scalar : Scalar → β) (array : List β → β) (object : List (String × β) → β)
    (members : List (String × Json)) :
    foldMembers scalar array object members = members.map fun m => (m.1, m.2.fold scalar array object) := by
  induction members with
  | nil => rfl
  | cons m members ih => simp [foldMembers, ih]

theorem configView_array (items : List Json) :
    (Json.array items).configView = .ofItems (items.map configView) := by
  rw [configView, fold, foldItems_eq]

theorem configView_object (members : List (String × Json)) :
    (Json.object members).configView = .ofMembers (members.map fun m => (m.1, m.2.configView)) := by
  rw [configView, fold, foldMembers_eq]

mutual

/-- The view of a value knows the value. -/
theorem json_configView : ∀ v : Json, v.configView.json = v
  | .scalar _ => rfl
  | .array items => by
    have h : (items.map configView).map ConfigView.json = items := by
      rw [List.map_map]
      exact (List.map_congr_left (json_configView_items items)).trans (List.map_id items)
    rw [configView_array, ConfigView.ofItems, h]
  | .object members => by
    have h : (members.map fun m => (m.1, m.2.configView)).map (fun m => (m.1, m.2.json)) = members := by
      rw [List.map_map]
      exact (List.map_congr_left (json_configView_members members)).trans (List.map_id members)
    rw [configView_object, ConfigView.ofMembers, h]

theorem json_configView_items : ∀ (items : List Json), ∀ v ∈ items, v.configView.json = v
  | [] => List.forall_mem_nil _
  | v :: items => List.forall_mem_cons.2 ⟨json_configView v, json_configView_items items⟩

theorem json_configView_members : ∀ (members : List (String × Json)), ∀ m ∈ members, (m.1, m.2.configView.json) = m
  | [] => List.forall_mem_nil _
  | (name, v) :: members =>
    List.forall_mem_cons.2 ⟨congrArg (Prod.mk name) (json_configView v), json_configView_members members⟩

end

end Json

/-! ## reading what was written -/

namespace ConfigView

/-- Members that are written one by one are read one by one. -/
theorem values_map_toJson {members : List (String × ConfigValue)} (hn : (Table.keys members).Nodup)
    (h : ∀ m ∈ members, ConfigValue.ofJson m.2.toJson = .ok m.2) :
    values (members.map fun m => (m.1, m.2.toJson.configView)) = .ok members := by
  have hread : (members.map fun m => (m.1, m.2.toJson.configView)).mapM
      (fun (m : String × ConfigView) => m.2.value.map fun v => (m.1, v)) = .ok members := by
    refine mapM_map_eq_ok fun m hm => ?_
    have hv : m.2.toJson.configView.value = .ok m.2 := h m hm
    rw [hv]
    rfl
  rw [values, hread]
  exact congrArg Except.ok (Table.ofList_eq_self hn)

end ConfigView

/-- What is read from a marked object. -/
theorem value_markedJson (mark : String) (content : Json) :
    (markedJson mark content).configView.value = ConfigView.marked mark content.configView := by
  rw [markedJson, Json.configView_object]
  rfl

theorem TemplateKind.ofMark?_mark (kind : TemplateKind) : ofMark? kind.mark = some kind := by
  cases kind <;> rfl

namespace ConfigValue

theorem ofJson_expression (e : Expression) : ofJson (expression e).toJson = .ok (.expression e) := by
  rw [toJson, ofJson, value_markedJson]
  cases e with
  | reference path => rfl
  | template kind text =>
    rw [ConfigView.marked, Expression.mark, TemplateKind.ofMark?_mark]
    rfl

theorem ofJson_object {members : List (String × ConfigValue)} (hn : (Table.keys members).Nodup)
    (hm : markKey ∉ Table.keys members) (h : ∀ m ∈ members, ofJson m.2.toJson = .ok m.2) :
    ofJson (object members).toJson = .ok (.object members) := by
  rw [toJson, ofJson, configToJson_eq, Json.configView_object, List.map_map]
  have hmark : Table.get? (members.map fun m => (m.1, m.2.toJson.configView)) markKey = none := by
    rw [Table.get?_map fun v : ConfigValue => v.toJson.configView, Table.get?_eq_none_iff.2 hm]
    rfl
  have hvalue : (ConfigView.ofMembers (members.map fun m => (m.1, m.2.toJson.configView))).value =
      (ConfigView.values (members.map fun m => (m.1, m.2.toJson.configView))).map .object := by
    rw [ConfigView.ofMembers, hmark]
  refine hvalue.trans ?_
  rw [ConfigView.values_map_toJson hn h]
  rfl

theorem ofJson_array {items : List ConfigValue} (h : ∀ v ∈ items, ofJson v.toJson = .ok v) :
    ofJson (array items).toJson = .ok (.array items) := by
  rw [toJson, ofJson, valuesToJson_eq, Json.configView_array, List.map_map, ConfigView.ofItems]
  have hread : (items.map (Json.configView ∘ toJson)).mapM ConfigView.value = .ok items := mapM_map_eq_ok h
  rw [hread]
  rfl

theorem ofJson_pipeline {bricks : List Brick} (h : ∀ b ∈ bricks, Brick.ofJson b.toJson = .ok b) :
    ofJson (pipeline bricks).toJson = .ok (.pipeline bricks) := by
  rw [toJson, ofJson, value_markedJson, bricksToJson_eq, Json.configView_array, List.map_map]
  have hread : (bricks.map (Json.configView ∘ Brick.toJson)).mapM ConfigView.brick = .ok bricks := mapM_map_eq_ok h
  have hmarked : ConfigView.marked "pipeline" (.ofItems (bricks.map (Json.configView ∘ Brick.toJson))) =
      (((bricks.map (Json.configView ∘ Brick.toJson)).mapM ConfigView.brick).mapError .brick).map .pipeline := rfl
  rw [hmarked, hread]
  rfl

theorem ofJson_deferred {body : ConfigValue} (h : ofJson body.toJson = .ok body) :
    ofJson (deferred body).toJson = .ok (.deferred body) := by
  rw [toJson, ofJson, value_markedJson]
  have hmarked : ConfigView.marked "defer" body.toJson.configView = body.toJson.configView.value.map .deferred := rfl
  have hbody : body.toJson.configView.value = .ok body := h
  rw [hmarked, hbody]
  rfl

end ConfigValue

/-! ### bricks -/

theorem map_optionalMember (name : String) (o : Option Json) :
    (optionalMember name o).map (fun m => (m.1, m.2.configView)) =
      ((o.map Json.configView).map fun v => (name, v)).toList := by
  cases o <;> rfl

namespace ConfigView

theorem optional_text {o : Option String} {v : ConfigView} (h : (o.map Json.string).map Json.configView = some v) :
    optional text v = .ok o := by
  cases o with
  | none => cases h
  | some s =>
    cases h
    rfl

theorem config_map_toJson {members : List (String × ConfigValue)} (hn : (Table.keys members).Nodup)
    (h : ∀ m ∈ members, ConfigValue.ofJson m.2.toJson = .ok m.2) :
    (Json.object (configToJson members)).configView.config = .ok members := by
  rw [configToJson_eq, Json.configView_object, List.map_map]
  have hvalues := values_map_toJson hn h
  have hconfig : (ofMembers (members.map fun m => (m.1, m.2.toJson.configView))).config =
      (values (members.map fun m => (m.1, m.2.toJson.configView))).mapError ConfigError.toDecodeError := rfl
  refine hconfig.trans ?_
  rw [hvalues]
  rfl

theorem isNull_toJson {c : ConfigValue} (h : c ≠ .literal .null) : c.toJson.isNull = false := by
  cases c with
  | literal value =>
    cases value with
    | null => exact absurd rfl h
    | _ => rfl
  | _ => rfl

/-- A guard that is not `null` is read back as it is. -/
theorem optional_value {condition : Option ConfigValue} {v : ConfigView}
    (h : ∀ c, condition = some c → c ≠ .literal .null ∧ ConfigValue.ofJson c.toJson = .ok c)
    (hv : (conditionToJson condition).map Json.configView = some v) :
    optional (fun v => v.value.mapError ConfigError.toDecodeError) v = .ok condition := by
  cases condition with
  | none => cases hv
  | some c =>
    obtain ⟨hne, hread⟩ := h c rfl
    cases hv
    have hvalue : c.toJson.configView.value = .ok c := hread
    rw [optional, Json.json_configView, isNull_toJson hne, hvalue]
    rfl

end ConfigView

/-- The members that are written for a brick. -/
theorem Brick.written {b : Brick} (hn : (Table.keys b.config).Nodup)
    (hconfig : ∀ m ∈ b.config, ConfigValue.ofJson m.2.toJson = .ok m.2)
    (hguard : ∀ c, b.condition = some c → c ≠ .literal .null ∧ ConfigValue.ofJson c.toJson = .ok c) :
    ∃ members, b.toJson = .object members ∧
      Record.Written ConfigView.brickFields { id := "" } (members.map fun m => (m.1, m.2.configView)) b := by
  obtain ⟨id, instanceId, label, config, outputKey, condition⟩ := b
  refine ⟨_, rfl, ?_⟩
  rw [← List.append_nil (_ ++ optionalMember "if" _)]
  simp only [List.map_append, map_optionalMember, List.append_assoc]
  refine .present rfl (.optional { id := id, instanceId := instanceId } rfl (fun h => ?_) (fun v hv => ?_) ?_)
  · cases instanceId <;> simp_all
  · exact congrArg (Except.map _) (ConfigView.optional_text hv)
  refine .optional { id := id, instanceId := instanceId, label := label } rfl (fun h => ?_) (fun v hv => ?_) ?_
  · cases label <;> simp_all
  · exact congrArg (Except.map _) (ConfigView.optional_text hv)
  refine .present (congrArg (Except.map _) (ConfigView.config_map_toJson hn hconfig)) ?_
  refine .optional { id := id, instanceId := instanceId, label := label, config := config, outputKey := outputKey } rfl
    (fun h => ?_) (fun v hv => ?_) ?_
  · cases outputKey <;> simp_all
  · exact congrArg (Except.map _) (ConfigView.optional_text hv)
  refine .optional _ rfl (fun h => ?_) (fun v hv => ?_) (.done _)
  · cases condition <;> simp_all [conditionToJson]
  · exact congrArg (Except.map _) (ConfigView.optional_value hguard hv)

theorem Brick.ofJson_of_parts {b : Brick} (hn : (Table.keys b.config).Nodup)
    (hconfig : ∀ m ∈ b.config, ConfigValue.ofJson m.2.toJson = .ok m.2)
    (hguard : ∀ c, b.condition = some c → c ≠ .literal .null ∧ ConfigValue.ofJson c.toJson = .ok c) :
    Brick.ofJson b.toJson = .ok b := by
  obtain ⟨members, hjson, hwritten⟩ := Brick.written hn hconfig hguard
  have hnames : (ConfigView.brickFields.map Reader.name).Nodup := by decide
  rw [hjson, ofJson, Json.configView_object]
  exact Record.ofMembers_of_written hnames hwritten

/-- What is readable is read back from what is written for it. -/
theorem ascends_ofJson_toJson : Ascends (fun c => c.Readable → ConfigValue.ofJson c.toJson = .ok c)
    (fun b => b.Readable → Brick.ofJson b.toJson = .ok b) where
  literal _ _ := rfl
  object members ih := by
    rintro ⟨hn, hm, h⟩
    exact ConfigValue.ofJson_object hn hm fun m hmem => ih m hmem (membersReadable_iff.1 h m hmem)
  array items ih h := ConfigValue.ofJson_array fun v hv => ih v hv (itemsReadable_iff.1 h v hv)
  expression e _ := ConfigValue.ofJson_expression e
  pipeline bricks ih h := ConfigValue.ofJson_pipeline fun b hb => ih b hb (bricksReadable_iff.1 h b hb)
  deferred body ih h := ConfigValue.ofJson_deferred (ih h)
  brick b ihGuard ihConfig h := by
    obtain ⟨hn, hconfig, hguard⟩ := Brick.readable_iff.1 h
    refine Brick.ofJson_of_parts hn (fun m hm => ihConfig m hm (hconfig m hm)) fun c hc => ?_
    rw [hc] at hguard
    exact ⟨hguard.1, ihGuard c hc hguard.2⟩

theorem ConfigValue.ofJson_toJson (c : ConfigValue) (h : c.Readable) : ofJson c.toJson = .ok c :=
  ascends_ofJson_toJson.value c h

theorem Brick.ofJson_toJson (b : Brick) (h : b.Readable) : ofJson b.toJson = .ok b := ascends_ofJson_toJson.ofBrick b h

/-! ## what is read -/

namespace ConfigView

/-- Whatever is seen in a value can be read, and only `null` is the literal `null`. -/
structure Readable (v : ConfigView) : Prop where
  value : ∀ c, v.value = .ok c → c.Readable
  literal : v.value = .ok (.literal .null) → v.json.isNull = true
  config : ∀ members, v.config = .ok members → (Table.keys members).Nodup ∧ ∀ m ∈ members, m.2.Readable
  brick : ∀ b, v.brick = .ok b → b.Readable
  bricks : ∀ bs, v.bricks = .ok bs → ∀ b ∈ bs, b.Readable

/-- Each field keeps a brick readable. -/
theorem brickFields_keep : ∀ f ∈ brickFields, f.Keeps Readable Brick.Readable := by
  simp only [brickFields, List.forall_mem_cons]
  refine ⟨?id, ?instanceId, ?label, ?config, ?outputKey, ?condition, List.forall_mem_nil _⟩
  all_goals
    intro v b b' hv hb hread
    obtain ⟨a, ha, rfl⟩ := exists_of_map_eq_ok hread
    obtain ⟨hn, hm, hg⟩ := Brick.readable_iff.1 hb
  case id | instanceId | label | outputKey => exact Brick.readable_iff.2 ⟨hn, hm, hg⟩
  case config =>
    obtain ⟨hn', hm'⟩ := hv.config a ha
    exact Brick.readable_iff.2 ⟨hn', hm', hg⟩
  case condition =>
    refine Brick.readable_iff.2 ⟨hn, hm, ?_⟩
    rw [optional] at ha
    split at ha
    · cases ha
      trivial
    · rename_i hnull
      obtain ⟨c, hc, rfl⟩ := exists_of_map_eq_ok ha
      have hvalue := of_mapError_eq_ok hc
      refine ⟨fun hc' => ?_, hv.value c hvalue⟩
      subst hc'
      exact hnull (hv.literal hvalue)

theorem readable_start : Brick.Readable { id := "" } := Brick.readable_iff.2 ⟨List.nodup_nil, by simp, trivial⟩

theorem readable_ofScalar (s : Scalar) : (ofScalar s).Readable := by
  refine ⟨fun c hc => ?_, fun hc => ?_, fun _ h => (nomatch h), fun _ h => (nomatch h), fun _ h => (nomatch h)⟩
  · cases hc
    trivial
  · cases hc
    rfl

theorem readable_ofItems {items : List ConfigView} (h : ∀ v ∈ items, v.Readable) : (ofItems items).Readable := by
  refine ⟨fun c hc => ?_, fun hc => ?_, fun _ h => (nomatch h), fun b hb => ?_, fun bs hbs b hb => ?_⟩
  · obtain ⟨cs, hcs, rfl⟩ := exists_of_map_eq_ok hc
    refine itemsReadable_iff.2 fun c hc => ?_
    obtain ⟨v, hv, hvc⟩ := exists_of_mem_mapM_ok hcs hc
    exact (h v hv).value c hvc
  · obtain ⟨cs, -, hne⟩ := exists_of_map_eq_ok hc
    cases hne
  · exact Record.ofSlots_keeps brickFields_keep h readable_start hb
  · obtain ⟨v, hv, hvb⟩ := exists_of_mem_mapM_ok hbs hb
    exact (h v hv).brick b hvb

/-- The members of an object: no name comes twice, and no name is new. -/
theorem readable_values {members : List (String × ConfigView)} (h : ∀ m ∈ members, m.2.Readable)
    {cs : List (String × ConfigValue)} (hcs : values members = .ok cs) :
    (Table.keys cs).Nodup ∧ ∀ m ∈ cs, m.2.Readable ∧ m.1 ∈ Table.keys members := by
  obtain ⟨bindings, hbindings, rfl⟩ := exists_of_map_eq_ok hcs
  refine ⟨Table.nodup_keys_ofList bindings, fun m hm => ?_⟩
  obtain ⟨v, hv, hvm⟩ := exists_of_mem_mapM_ok hbindings (Table.mem_ofList hm)
  obtain ⟨c, hc, rfl⟩ := exists_of_map_eq_ok hvm
  exact ⟨(h v hv).value c hc, List.mem_map_of_mem hv⟩

/-- What a marked object stands for; it is never a literal. -/
theorem readable_marked {mark : String} {v : ConfigView} (h : v.Readable) {c : ConfigValue}
    (hc : marked mark v = .ok c) : c.Readable ∧ c ≠ .literal .null := by
  rw [marked] at hc
  split at hc
  · obtain ⟨text, -, rfl⟩ := exists_of_map_eq_ok hc
    exact ⟨trivial, by simp⟩
  split at hc
  · obtain ⟨text, -, rfl⟩ := exists_of_map_eq_ok hc
    exact ⟨trivial, by simp⟩
  split at hc
  · split at hc
    · cases hc
      exact ⟨trivial, by simp⟩
    · obtain ⟨bs, hbs, rfl⟩ := exists_of_map_eq_ok hc
      exact ⟨bricksReadable_iff.2 (h.bricks bs (of_mapError_eq_ok hbs)), by simp⟩
    · cases hc
  split at hc
  · obtain ⟨body, hbody, rfl⟩ := exists_of_map_eq_ok hc
    exact ⟨h.value body hbody, by simp⟩
  · cases hc

theorem readable_ofMembers {members : List (String × ConfigView)} (h : ∀ m ∈ members, m.2.Readable) :
    (ofMembers members).Readable := by
  have hcontent : ((Table.get? members contentKey).getD (ofScalar .null)).Readable := by
    cases hg : Table.get? members contentKey with
    | none => exact readable_ofScalar .null
    | some v => exact h _ (Table.mem_of_get? hg)
  have hvalue : ∀ c, (ofMembers members).value = .ok c → c.Readable ∧ c ≠ .literal .null := by
    intro c hc
    simp only [ofMembers] at hc
    split at hc
    · exact readable_marked hcontent hc
    · cases hc
    · rename_i hmark
      obtain ⟨cs, hcs, rfl⟩ := exists_of_map_eq_ok hc
      obtain ⟨hn, hm⟩ := readable_values h hcs
      refine ⟨⟨hn, fun hmem => ?_, membersReadable_iff.2 fun m hmem => (hm m hmem).1⟩, by simp⟩
      obtain ⟨m, hmem, he⟩ := List.mem_map.1 hmem
      have hkey := (hm m hmem).2
      rw [he] at hkey
      exact Table.get?_eq_none_iff.1 hmark hkey
  refine ⟨fun c hc => (hvalue c hc).1, fun hc => absurd rfl (hvalue _ hc).2, fun cs hcs => ?_, fun b hb => ?_,
    fun _ h => (nomatch h)⟩
  · obtain ⟨hn, hm⟩ := readable_values h (of_mapError_eq_ok hcs)
    exact ⟨hn, fun m hmem => (hm m hmem).1⟩
  · exact Record.ofMembers_keeps brickFields_keep h readable_start hb

end ConfigView

namespace Json

mutual

theorem readable_configView : ∀ v : Json, v.configView.Readable
  | .scalar s => ConfigView.readable_ofScalar s
  | .array items => ConfigView.readable_ofItems (readable_viewItems items)
  | .object members => ConfigView.readable_ofMembers (readable_viewMembers members)

theorem readable_viewItems : ∀ (items : List Json),
    ∀ v ∈ foldItems ConfigView.ofScalar ConfigView.ofItems ConfigView.ofMembers items, v.Readable
  | [] => List.forall_mem_nil _
  | v :: items => List.forall_mem_cons.2 ⟨readable_configView v, readable_viewItems items⟩

theorem readable_viewMembers : ∀ (members : List (String × Json)),
    ∀ m ∈ foldMembers ConfigView.ofScalar ConfigView.ofItems ConfigView.ofMembers members, m.2.Readable
  | [] => List.forall_mem_nil _
  | (_, v) :: members => List.forall_mem_cons.2 ⟨readable_configView v, readable_viewMembers members⟩

end

end Json

/-! ## pipelines -/

namespace Pipeline

theorem readable_of_decode {v : Json} {p : Pipeline} (h : Format.decode v = .ok p) : ∀ b ∈ p, b.Readable := by
  cases v with
  | array items =>
    intro b hb
    obtain ⟨v, -, hv⟩ := exists_of_mem_mapM_ok h hb
    exact v.readable_configView.brick b hv
  | _ => cases h

theorem decode_encode_of_readable {p : Pipeline} (h : ∀ b ∈ p, b.Readable) :
    Format.decode (Format.encode p) = .ok p :=
  mapM_map_eq_ok fun b hb => Brick.ofJson_toJson b (h b hb)

/-- **Reading undoes writing.**  A pipeline that is read from some JSON value is written so that the same pipeline is
read again, and written again in the same way; likewise a configuration value.  What can be read from some value is
just what is readable by its own form. -/
theorem decode_encode :
    (∀ (v : Json) (p : Pipeline), Format.decode v = .ok p →
      Format.decode (Format.encode p) = .ok p ∧
      (Format.decode (α := Pipeline) (Format.encode p)).map Format.encode = .ok (Format.encode p)) ∧
    (∀ (v : Json) (c : ConfigValue), ConfigValue.ofJson v = .ok c → ConfigValue.ofJson c.toJson = .ok c) ∧
    (∀ p : Pipeline, (∃ v : Json, Format.decode v = .ok p) ↔ ∀ b ∈ p, b.Readable) ∧
    ∀ c : ConfigValue, (∃ v : Json, ConfigValue.ofJson v = .ok c) ↔ c.Readable := by
  refine ⟨fun v p h => ?_, fun v c h => ?_, fun p => ⟨?_, fun h => ?_⟩, fun c => ⟨?_, fun h => ?_⟩⟩
  · have hback := decode_encode_of_readable (readable_of_decode h)
    exact ⟨hback, congrArg (Except.map Format.encode) hback⟩
  · exact ConfigValue.ofJson_toJson c (v.readable_configView.value c h)
  · rintro ⟨v, h⟩
    exact readable_of_decode h
  · exact ⟨_, decode_encode_of_readable h⟩
  · rintro ⟨v, h⟩
    exact v.readable_configView.value c h
  · exact ⟨_, ConfigValue.ofJson_toJson c h⟩

/-- A pipeline spelled in other ways than it is written: a brick by position, an unknown member, members that are
`null`, marked objects without content, and a configuration with a member like a mark. -/
def oddlySpelled : Json :=
  .array [
    .array [.string "read", .null, .string "start",
      .object [("b", .count 2), ("a", .object [(markKey, .string "var")])]],
    .object [("note", .bool true), ("if", .object [(markKey, .string "defer")]), ("label", .null),
      ("id", .string "loop"), ("config", .object [(markKey, .string "kept"),
        ("body", .object [(contentKey, .null), (markKey, .string "pipeline")])])]]

/-- What it is read as. -/
def plainlyRead : Pipeline :=
  [{ id := "read", label := some "start",
      config := [("b", .literal (.number (.int 2))), ("a", .expression (.reference ""))] },
    { id := "loop", config := [(markKey, .literal (.string "kept")), ("body", .pipeline [])],
      condition := some (.deferred (.literal .null)) }]

theorem decode_encode_oddlySpelled : Format.decode oddlySpelled = .ok plainlyRead ∧
    Format.decode (Format.encode plainlyRead) = .ok plainlyRead :=
  ⟨rfl, (decode_encode.1 oddlySpelled plainlyRead rfl).1⟩

end Pipeline

end BrickScope
