import BrickScope.Existence.Basic

/-!
# Evidence from values

A concrete value proves the paths that can be reached in it.  The elements of a list are folded onto the node of the
list.

* `Scope.observe`: record the paths of a value.
-/

namespace BrickScope

mutual

/-- Record a value at a node. -/
def Node.observe (n : Node) : Json → Node
  | .scalar _ => n.stamp .definitely false false
  | .array items =>
    let n := Node.observeItems (n.stamp .definitely false true) items
    { n with isArray := true }
  | .object members => Node.observeMembers (n.stamp .definitely false false) members

def Node.observeItems (n : Node) : List Json → Node
  | [] => n
  | v :: items => Node.observeItems (n.observe v) items

def Node.observeMembers (n : Node) : List (String × Json) → Node
  | [] => n
  | (name, v) :: members => Node.observeMembers (n.updateChild name fun c => c.observe v) members

end

mutual

/-- Some object in a value, list elements aside, has a member. -/
def Json.hasMembers : Json → Bool
  | .scalar _ => false
  | .array items => Json.someHasMembers items
  | .object members => !members.isEmpty

def Json.someHasMembers : List Json → Bool
  | [] => false
  | v :: items => v.hasMembers || Json.someHasMembers items

end

/-- Record the paths of a value, which stands at a path of a source.  At the root, a value without members leaves no
trace. -/
def Scope.observe (m : Scope) (source : String) (v : Json) (path : List String) : Scope :=
  if path.isEmpty && !v.hasMembers then m
  else m.write source path .definitely fun n => n.observe v

end BrickScope
