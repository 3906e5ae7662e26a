import BrickScope.Text.Class
import BrickScope.Text.Digit

/-!
# Variable references

A reference such as `@foo.bar[0]['a b']?.x` names a place in a variable.  Its segments are the variable and then one
member, index or key per step.  Dots and `?.` divide members, brackets hold an index or a quoted key.  Every text is
split in some way: empty members are dropped, and a bracket that is never closed takes the rest.

* `Reference.segments`: the segments of a reference.
* `Reference.isIndex`: does a segment address an element of a list?
-/

namespace BrickScope.Reference

/-- Where the reading of a reference stands; the characters of the current segment come last first. -/
inductive Part where
  | member (done : List Char)
  | key (quote : Char) (done : List Char)
  /-- Behind a quoted key, up to the bracket. -/
  | keyEnd
  | index (done : List Char)

/-- A segment in front of others, unless it is empty. -/
def consSegment (segment : List Char) (rest : List String) : List String :=
  if segment.isEmpty then rest else String.ofList segment :: rest

/-- The segments from a part on. -/
def segmentsFrom : Part → List Char → List String
  | .member done, [] => consSegment done.reverse []
  | .member done, c :: s =>
    if c = '.' then consSegment done.reverse (segmentsFrom (.member []) s)
    else if c = '?' && s.head? = some '.' then segmentsFrom (.member done) s
    else if c = '[' then
      consSegment done.reverse (match s with
        | [] => []
        | q :: s => if Text.isQuote q then segmentsFrom (.key q []) s else segmentsFrom (.index []) (q :: s))
    else segmentsFrom (.member (c :: done)) s
  | .key _ done, [] => [String.ofList done.reverse]
  | .key quote done, c :: s =>
    if c = '\\' then
      match s with
      | [] => [String.ofList done.reverse]
      | d :: s => segmentsFrom (.key quote (d :: done)) s
    else if c = quote then String.ofList done.reverse :: segmentsFrom .keyEnd s
    else segmentsFrom (.key quote (c :: done)) s
  | .keyEnd, [] => []
  | .keyEnd, c :: s => if c = ']' then segmentsFrom (.member []) s else segmentsFrom .keyEnd s
  | .index done, [] => consSegment (Text.trimChars done.reverse) []
  | .index done, c :: s =>
    if c = ']' then consSegment (Text.trimChars done.reverse) (segmentsFrom (.member []) s)
    else segmentsFrom (.index (c :: done)) s

/-- The segments of a reference, blanks at its ends aside. -/
def segments (reference : String) : List String :=
  segmentsFrom (.member []) (Text.trimChars reference.toList)

/-- A segment of decimal digits addresses an element of a list. -/
def isIndex (segment : String) : Bool := !segment.isEmpty && segment.toList.all Text.isDecimal

/-- The sigil that every variable starts with. -/
def sigil : Char := '@'

/-- A name with the sigil in front, which it may have already. -/
def withSigil (name : String) : String := if name.toList.head? = some sigil then name else "@" ++ name

end BrickScope.Reference
