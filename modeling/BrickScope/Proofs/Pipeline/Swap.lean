import BrickScope.Analysis.Steps

/-!
# Pipelines with other bricks inside

Two pipelines may be the same but for the bricks of a nested pipeline, at any depth.  Seen from outside, bricks and
elements around the nested pipeline are alike: they have the same names, the same literal texts and the same guards.

* `BricksSwap`: the bricks of a nested pipeline are swapped for others;
* `BrickSwap.alike`, `ElementSwap`: what stays the same.
-/

namespace BrickScope

mutual

/-- Somewhere in a value, any number of times, a nested pipeline of the given bricks has others in their place. -/
inductive ValueSwap (bricks others : List Brick) : ConfigValue → ConfigValue → Prop
  | swap : ValueSwap bricks others (.pipeline bricks) (.pipeline others)
  | literal (value : Scalar) : ValueSwap bricks others (.literal value) (.literal value)
  | expression (e : Expression) : ValueSwap bricks others (.expression e) (.expression e)
  | object {members members' : List (String × ConfigValue)} (h : MembersSwap bricks others members members') :
    ValueSwap bricks others (.object members) (.object members')
  | array {items items' : List ConfigValue} (h : ItemsSwap bricks others items items') :
    ValueSwap bricks others (.array items) (.array items')
  | pipeline {inner inner' : List Brick} (h : BricksSwap bricks others inner inner') :
    ValueSwap bricks others (.pipeline inner) (.pipeline inner')
  | deferred {body body' : ConfigValue} (h : ValueSwap bricks others body body') :
    ValueSwap bricks others (.deferred body) (.deferred body')

inductive MembersSwap (bricks others : List Brick) :
    List (String × ConfigValue) → List (String × ConfigValue) → Prop
  | nil : MembersSwap bricks others [] []
  | cons {name : String} {v v' : ConfigValue} {members members' : List (String × ConfigValue)}
    (hv : ValueSwap bricks others v v') (h : MembersSwap bricks others members members') :
    MembersSwap bricks others ((name, v) :: members) ((name, v') :: members')

inductive ItemsSwap (bricks others : List Brick) : List ConfigValue → List ConfigValue → Prop
  | nil : ItemsSwap bricks others [] []
  | cons {v v' : ConfigValue} {items items' : List ConfigValue}
    (hv : ValueSwap bricks others v v') (h : ItemsSwap bricks others items items') :
    ItemsSwap bricks others (v :: items) (v' :: items')

inductive BricksSwap (bricks others : List Brick) : List Brick → List Brick → Prop
  | nil : BricksSwap bricks others [] []
  | cons {b b' : Brick} {inner inner' : List Brick}
    (hb : BrickSwap bricks others b b') (h : BricksSwap bricks others inner inner') :
    BricksSwap bricks others (b :: inner) (b' :: inner')

inductive BrickSwap (bricks others : List Brick) : Brick → Brick → Prop
  | mk {id : String} {instanceId label outputKey : Option String} {config config' : List (String × ConfigValue)}
    {condition condition' : Option ConfigValue}
    (hc : MembersSwap bricks others config config') (hg : MaybeSwap bricks others condition condition') :
    BrickSwap bricks others ⟨id, instanceId, label, config, outputKey, condition⟩
      ⟨id, instanceId, label, config', outputKey, condition'⟩

inductive MaybeSwap (bricks others : List Brick) : Option ConfigValue → Option ConfigValue → Prop
  | none : MaybeSwap bricks others none none
  | some {v v' : ConfigValue} (h : ValueSwap bricks others v v') : MaybeSwap bricks others (some v) (some v')

end

section

variable {bricks others : List Brick}

/-! ## what stays the same in a value -/

theorem ValueSwap.text? {v v' : ConfigValue} (h : ValueSwap bricks others v v') : v.text? = v'.text? := by
  cases h <;> rfl

theorem MaybeSwap.text? {c c' : Option ConfigValue} (h : MaybeSwap bricks others c c') :
    c.bind ConfigValue.text? = c'.bind ConfigValue.text? := by
  cases h with
  | none => rfl
  | some h => exact h.text?

theorem MembersSwap.get? {members members' : List (String × ConfigValue)}
    (h : MembersSwap bricks others members members') (name : String) :
    MaybeSwap bricks others (Table.get? members name) (Table.get? members' name) := by
  induction members generalizing members' with
  | nil =>
    cases h
    exact .none
  | cons m members ih =>
    cases h with
    | cons hv h =>
      rw [Table.get?, Table.get?]
      split
      · exact .some hv
      · exact ih h

/-! ## bricks -/

/-- Bricks that are the same to the pipelines that they own. -/
structure Brick.Alike (b b' : Brick) : Prop where
  id : b.id = b'.id
  text : ∀ name, b.literalText? name = b'.literalText? name

theorem BrickSwap.alike {b b' : Brick} (h : BrickSwap bricks others b b') : b.Alike b' := by
  cases h with
  | mk hc hg => exact ⟨rfl, fun name => (hc.get? name).text?⟩

theorem BrickSwap.instanceId {b b' : Brick} (h : BrickSwap bricks others b b') : b.instanceId = b'.instanceId := by
  cases h
  rfl

theorem BrickSwap.outputVariable? {b b' : Brick} (h : BrickSwap bricks others b b') :
    b.outputVariable? = b'.outputVariable? := by
  cases h
  rfl

theorem BrickSwap.isConditional {b b' : Brick} (h : BrickSwap bricks others b b') :
    b.isConditional = b'.isConditional := by
  cases h with
  | mk hc hg =>
    cases hg with
    | none => rfl
    | some h => cases h <;> rfl

/-! ## elements -/

/-- Elements that are the same but for nested pipelines. -/
structure ElementSwap (bricks others : List Brick) (e e' : Element) : Prop where
  type : e.type = e'.type
  value : ∀ name, MaybeSwap bricks others (e.value? name) (e'.value? name)

theorem ElementSwap.isList {e e' : Element} (h : ElementSwap bricks others e e') : e.isList = e'.isList := by
  rw [Element.isList, Element.isList, h.type]

theorem ElementSwap.rowName {e e' : Element} (h : ElementSwap bricks others e e') : e.rowName = e'.rowName := by
  rw [Element.rowName, Element.rowName, (h.value "elementKey").text?]

theorem ElementSwap.lacksRow {e e' : Element} (h : ElementSwap bricks others e e') : e.lacksRow = e'.lacksRow := by
  have hrow := h.value Element.rowKey
  rw [Element.lacksRow, Element.lacksRow, h.isList]
  generalize e.value? Element.rowKey = c, e'.value? Element.rowKey = c' at hrow
  cases hrow with
  | none => rfl
  | some hv => cases hv <;> rfl

theorem MaybeSwap.member {c c' : Option ConfigValue} (h : MaybeSwap bricks others c c') (name : String) :
    MaybeSwap bricks others ((c.bind ConfigValue.members?).bind (Table.get? · name))
      ((c'.bind ConfigValue.members?).bind (Table.get? · name)) := by
  cases h with
  | none => exact .none
  | some hv =>
    cases hv with
    | object h => exact h.get? name
    | _ => exact .none

/-- Both are elements, or neither is. -/
theorem MembersSwap.ofConfig {members members' : List (String × ConfigValue)}
    (h : MembersSwap bricks others members members') :
    (∃ rule, Element.ofConfig (.object members) = .error rule ∧ Element.ofConfig (.object members') = .error rule) ∨
      ∃ e e', Element.ofConfig (.object members) = .ok e ∧ Element.ofConfig (.object members') = .ok e' ∧
        ElementSwap bricks others e e' := by
  have ht := (h.get? "type").text?
  rw [Element.ofConfig, Element.ofConfig, ← ht]
  cases (Table.get? members "type").bind ConfigValue.text? with
  | none => exact .inl ⟨_, rfl, rfl⟩
  | some type => exact .inr ⟨_, _, rfl, rfl, rfl, fun name => (h.get? "config").member name⟩

end

end BrickScope
