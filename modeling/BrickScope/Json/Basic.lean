import BrickScope.Json.Number

/-!
# JSON values

A value is a scalar, a list of values or an object whose members keep the order in which they came in.

* `Json.fold`: a value is taken apart from the leaves up.
-/

namespace BrickScope

inductive Scalar where
  | null
  | bool (value : Bool)
  | number (value : Number)
  | string (value : String)
  deriving DecidableEq

inductive Json where
  | scalar (value : Scalar)
  | array (items : List Json)
  | object (members : List (String × Json))

namespace Json

abbrev null : Json := .scalar .null

abbrev bool (b : Bool) : Json := .scalar (.bool b)

abbrev string (s : String) : Json := .scalar (.string s)

abbrev count (n : Nat) : Json := .scalar (.number (.int n))

instance : Inhabited Json := ⟨.null⟩

def isNull : Json → Bool
  | .scalar .null => true
  | _ => false

def isArray : Json → Bool
  | .array _ => true
  | _ => false

mutual

/-- Combine the results for the parts of a value. -/
def fold {β : Type} (scalar : Scalar → β) (array : List β → β) (object : List (String × β) → β) : Json → β
  | .scalar s => scalar s
  | .array items => array (foldItems scalar array object items)
  | .object members => object (foldMembers scalar array object members)

def foldItems {β : Type} (scalar : Scalar → β) (array : List β → β) (object : List (String × β) → β) :
    List Json → List β
  | [] => []
  | v :: items => v.fold scalar array object :: foldItems scalar array object items

def foldMembers {β : Type} (scalar : Scalar → β) (array : List β → β) (object : List (String × β) → β) :
    List (String × Json) → List (String × β)
  | [] => []
  | (name, v) :: members => (name, v.fold scalar array object) :: foldMembers scalar array object members

end

end Json

end BrickScope
