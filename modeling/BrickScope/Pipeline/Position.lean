import BrickScope.Decode.Format

/-!
# Positions in a pipeline

A position is the path from the root to a node: member names and indices, divided by dots.

* `Position.join`: one path from parts, empty ones left out.
* `Position.nested`: the position of a node below another.
-/

namespace BrickScope

structure Position where
  path : String
  deriving DecidableEq

namespace Position

/-- The non-empty parts, divided by dots. -/
def join (parts : List String) : String := ".".intercalate (parts.filter fun p => !p.isEmpty)

/-- The node that some steps lead to from `p`. -/
def nested (p : Position) (steps : List String) : Position := ⟨join (p.path :: steps)⟩

instance : Format Position where
  shape := .string
  decode v := (Format.decode v).map Position.mk
  encode p := .string p.path

end Position

end BrickScope
