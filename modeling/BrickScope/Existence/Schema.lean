import BrickScope.Existence.Basic
import BrickScope.Schema.Json

/-!
# Knowledge from schemas

A schema describes values that will be there.  Required members exist definitely, as long as all members above them
do; others may exist.  An override takes the place of both.  A single schema for list elements is folded onto the node
of the list.

* `Scope.describe`: record the paths that a schema describes.
-/

namespace BrickScope

/-- How surely a member exists below a node of existence `e`. -/
def memberExistence (o : ObjectSchema) (override : Option Existence) (e : Existence) (name : String) : Existence :=
  match override with
  | some e => e
  | none => if e = .definitely && o.isRequired name then .definitely else .maybe

mutual

/-- The schema says something of the node it describes: it is not `false`, nor a list of `false`. -/
def Schema.describes : Schema → Bool
  | .bool allowed => allowed
  | .object o => o.describes

def ObjectSchema.describes : ObjectSchema → Bool
  | o@⟨_, _, _, _, _, _, items, _, _, _, _⟩ =>
    if o.isArray && !o.variesByIndex then
      match items with
      | some (.single s) => s.describes
      | _ => true
    else true

end

mutual

/-- Record a schema at a node that exists as surely as `e`. -/
def Node.describe (override : Option Existence) (e : Existence) (isArray : Bool) (n : Node) : Schema → Node
  | .bool allowed => if allowed then n.stamp e true isArray else n
  | .object o => Node.describeObject override e isArray n o

def Node.describeObject (override : Option Existence) (e : Existence) (isArray : Bool) (n : Node) :
    ObjectSchema → Node
  | o@⟨_, _, _, properties, _, _, items, _, _, _, _⟩ =>
    if o.isArray then
      match items with
      | some (.single s) =>
        if o.variesByIndex then n.stamp e true true else Node.describe override e true n s
      | _ => n.stamp e true true
    else if o.isLeaf then n.stamp e false isArray
    else if o.isComposite || properties.isEmpty || o.allowsAdditional then n.stamp e true isArray
    else Node.describeProperties override (memberExistence o override e) (n.stamp e false isArray) properties

def Node.describeProperties (override : Option Existence) (existence : String → Existence) (n : Node) :
    List (String × Schema) → Node
  | [] => n
  | (name, s) :: properties =>
    let n := if s.describes then n.updateChild name fun c => Node.describe override (existence name) false c s else n
    Node.describeProperties override existence n properties

end

/-- Record the paths that a schema describes, for a value at a path of a source. -/
def Scope.describe (m : Scope) (source : String) (s : Schema) (path : List String) (override : Option Existence) :
    Scope :=
  let e := override.getD .definitely
  if s.describes then m.write source path e fun n => n.describe override e false s else m

end BrickScope
