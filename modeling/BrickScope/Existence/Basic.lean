import BrickScope.Decode.Format
import BrickScope.Reference

/-!
# What is known of variables

Each source of knowledge keeps a tree of variable paths.  A node says how surely its path exists, whether any child of
it may exist, and whether it is a list, whose elements share the node.  A scope holds the trees of several sources; a
path exists as surely as the most confident source says.

* `Node.lookup`, `Scope.lookup`: how surely a path exists.
* `Scope.set`: record one path; the paths to it exist at least as surely.
* `Scope.extend`: take over the sources of another scope.
* `Scope.merged`: one tree for all sources.
-/

namespace BrickScope

inductive Existence where
  | maybe
  | definitely
  deriving DecidableEq

namespace Existence

instance : Format Existence := Format.ofNames [("MAYBE", .maybe), ("DEFINITELY", .definitely)]

/-- The surer one; nothing is less sure than `maybe`. -/
def surer : Option Existence → Option Existence → Option Existence
  | some .definitely, _ | _, some .definitely => some .definitely
  | some .maybe, _ | _, some .maybe => some .maybe
  | none, none => none

end Existence

/-! ## Trees -/

structure Node where
  existence : Option Existence := none
  anyChild : Bool := false
  isArray : Bool := false
  children : List (String × Node) := []

namespace Node

instance : Inhabited Node := ⟨{}⟩

def child? (n : Node) (name : String) : Option Node := Table.get? n.children name

/-- How surely the path `segments` below a node exists.  An index is passed over on a list that has no child of that
name; below a node with any child, only its own children are known better than `maybe`. -/
def lookup : Node → List String → Option Existence
  | n, [] => if n.anyChild then n.existence.or (some .maybe) else n.existence
  | n, s :: segments =>
    if n.anyChild then
      match n.child? s with
      | some c => c.existence.or (some .maybe)
      | none => some .maybe
    else match n.child? s with
      | some c => c.lookup segments
      | none => if n.isArray && Reference.isIndex s then n.lookup segments else none

/-- Overwrite what a node says of itself. -/
def stamp (e : Existence) (anyChild isArray : Bool) (n : Node) : Node :=
  { n with existence := some e, anyChild := anyChild, isArray := isArray }

/-- Let a node exist at least as surely as `e`. -/
def raise (e : Existence) (n : Node) : Node := { n with existence := Existence.surer n.existence (some e) }

/-- Change a child, which is made if it is not there. -/
def updateChild (n : Node) (name : String) (f : Node → Node) : Node :=
  { n with children := Table.update n.children name fun c => f (c.getD {}) }

/-- Change the node at the end of a path, and let the nodes before it exist at least as surely as `e`. -/
def writeAt (e : Existence) (f : Node → Node) : List String → Node → Node
  | [], n => f n
  | s :: path, n => (n.raise e).updateChild s (writeAt e f path)

/-- Change the node at a path below the root.  The root stands for no variable, so that nothing is said of it
itself. -/
def write (e : Existence) (f : Node → Node) (root : Node) : List String → Node
  | [] => { root with children := (f root).children }
  | s :: path => root.updateChild s (writeAt e f path)

mutual

/-- The union of two trees: the surer existence, and every mark of either. -/
def merge (a : Node) : Node → Node
  | ⟨existence, anyChild, isArray, children⟩ =>
    ⟨Existence.surer a.existence existence, a.anyChild || anyChild, a.isArray || isArray,
      mergeChildren a.children children⟩

def mergeChildren (merged : List (String × Node)) : List (String × Node) → List (String × Node)
  | [] => merged
  | (name, c) :: children =>
    mergeChildren (Table.insert merged name (merge ((Table.get? merged name).getD {}) c)) children

end

mutual

/-- Equality up to the order of children. -/
def same : Node → Node → Bool
  | ⟨existence, anyChild, isArray, children⟩, b =>
    existence = b.existence && anyChild = b.anyChild && isArray = b.isArray &&
      children.length = b.children.length && sameChildren children b.children

/-- Every child has a partner of the same name. -/
def sameChildren : List (String × Node) → List (String × Node) → Bool
  | [], _ => true
  | (name, c) :: children, others =>
    (match Table.get? others name with
    | some d => c.same d
    | none => false) && sameChildren children others

end

mutual

def toJson : Node → Json
  | ⟨existence, anyChild, isArray, children⟩ =>
    .object [("existence", Format.encode existence), ("allowAnyChild", .bool anyChild), ("isArray", .bool isArray),
      ("children", .object (childrenToJson children))]

def childrenToJson : List (String × Node) → List (String × Json)
  | [] => []
  | (name, c) :: children => (name, c.toJson) :: childrenToJson children

end

end Node

/-! ## Scopes -/

/-- The trees of several sources, in the order in which the sources came in. -/
structure Scope where
  sources : List (String × Node) := []

namespace Scope

instance : Inhabited Scope := ⟨{}⟩

/-- The empty scope. -/
def empty : Scope := {}

def isEmpty (m : Scope) : Bool := m.sources.isEmpty

def source? (m : Scope) (source : String) : Option Node := Table.get? m.sources source

def hasSource (m : Scope) (source : String) : Bool := (m.source? source).isSome

/-- How surely a path exists by the most confident source. -/
def lookup (m : Scope) (segments : List String) : Option Existence :=
  if segments.isEmpty then none
  else m.sources.foldl (fun best s => Existence.surer best (s.2.lookup segments)) none

def existence? (m : Scope) (reference : String) : Option Existence := m.lookup (Reference.segments reference)

/-- Some source knows the reference. -/
def defines (m : Scope) (reference : String) : Bool := (m.existence? reference).isSome

/-- Change the node at a path of a source, which is made if it is not there. -/
def write (m : Scope) (source : String) (path : List String) (e : Existence) (f : Node → Node) : Scope :=
  ⟨Table.update m.sources source fun root => (root.getD {}).write e f path⟩

/-- Record one path of a source. -/
def set (m : Scope) (source : String) (path : List String) (e : Existence) (anyChild isArray : Bool) : Scope :=
  m.write source path e (Node.stamp e anyChild isArray)

/-- Record one variable of a source; the sigil may be left out. -/
def setVariable (m : Scope) (source name : String) (e : Existence) (anyChild : Bool) : Scope :=
  m.set source (Reference.segments (Reference.withSigil name)) e anyChild false

/-- Take over the sources of another scope, which replace those of the same name. -/
def extend (m other : Scope) : Scope := ⟨Table.insertAll m.sources other.sources⟩

/-- One tree for all sources; nothing is said of its root. -/
def merged (m : Scope) : Node :=
  { m.sources.foldl (fun merged s => merged.merge s.2) ({} : Node) with existence := none }

/-- The variables of all sources, in the order in which they came in. -/
def variableNames (m : Scope) : List String := Table.keys m.merged.children

/-- Equality up to the order of sources and children. -/
def same (m other : Scope) : Bool :=
  m.sources.length = other.sources.length && Node.sameChildren m.sources other.sources

def toJson (m : Scope) : Json := .object (Node.childrenToJson m.sources)

end Scope

end BrickScope
