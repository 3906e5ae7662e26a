import BrickScope.Text.Class
import BrickScope.Text.Offset

/-!
# Template tags

A template is text with tags: `{{ … }}` puts out a value, `{% … %}` is a statement, `{# … #}` a comment.  A tag ends at
the first closer; outside comments a closer inside quotes does not count.  A tag without closer runs to the end.

* `length_rest_lt`: behind a tag less text is left.
* `Tag.split`: all tags of a template.
-/

namespace BrickScope.Template

open Text

inductive TagKind where
  | output
  | statement
  | comment
  deriving DecidableEq

namespace TagKind

/-- The tag that a character behind an opening brace starts. -/
def ofMark? (c : Char) : Option TagKind :=
  if c = '\x7b' then some .output
  else if c = '%' then some .statement
  else if c = '#' then some .comment
  else none

/-- The character in front of the closing brace. -/
def closer : TagKind → Char
  | output => '\x7d'
  | statement => '%'
  | comment => '#'

end TagKind

/-- A tag with its byte offsets; the content lies between opener and closer. -/
structure Tag where
  kind : TagKind
  start : Nat
  stop : Nat
  content : String
  terminated : Bool
  deriving DecidableEq

/-- How many characters stand before the closer, quotes disregarded. -/
def plainLength? (mark : Char) : List Char → Option Nat
  | [] => none
  | c :: s => if c = mark && s.head? = some '\x7d' then some 0 else (plainLength? mark s).map (· + 1)

/-- How many characters stand before the first closer outside quotes; `quote` is the quote that is open. -/
def codeLength? (mark : Char) : Option Char → List Char → Option Nat
  | _, [] => none
  | some q, c :: s =>
    if c = '\\' then
      match s with
      | [] => none
      | _ :: s => (codeLength? mark (some q) s).map (· + 2)
    else (codeLength? mark (if c = q then none else some q) s).map (· + 1)
  | none, c :: s =>
    if isQuote c then (codeLength? mark (some c) s).map (· + 1)
    else if c = mark && s.head? = some '\x7d' then some 0
    else (codeLength? mark none s).map (· + 1)

/-- How many characters of content a tag has, given the text behind its opener. -/
def TagKind.contentLength? (kind : TagKind) (s : List Char) : Option Nat :=
  match kind with
  | comment => plainLength? kind.closer s
  | _ => codeLength? kind.closer none s

/-- A tag, and the text behind it. -/
structure Found where
  tag : Tag
  rest : List Char

/-- The tag that opens at byte `start`; `s` is the text behind its opener. -/
def Found.ofOpener (kind : TagKind) (start : Nat) (s : List Char) : Found :=
  match kind.contentLength? s with
  | some n => ⟨⟨kind, start, start + 2 + width (s.take n) + 2, String.ofList (s.take n), true⟩, s.drop (n + 2)⟩
  | none => ⟨⟨kind, start, start + 2 + width s, String.ofList s, false⟩, []⟩

/-- The first tag of a text that starts at byte `pos`. -/
def nextTag? (pos : Nat) : List Char → Option Found
  | [] => none
  | c :: s =>
    if c = '\x7b' then
      match s with
      | [] => none
      | d :: s' =>
        match TagKind.ofMark? d with
        | some kind => some (.ofOpener kind pos s')
        | none => nextTag? (pos + 1) s
    else nextTag? (pos + c.utf8Size) s

theorem Found.length_rest_le (kind : TagKind) (start : Nat) (s : List Char) :
    (Found.ofOpener kind start s).rest.length ≤ s.length := by
  unfold Found.ofOpener
  split
  · simp
  · simp

theorem length_rest_lt {pos : Nat} {s : List Char} {found : Found} (h : nextTag? pos s = some found) :
    found.rest.length < s.length := by
  fun_induction nextTag? pos s with
  | case1 => simp at h
  | case2 => simp at h
  | case3 pos d s kind hk =>
    obtain rfl := Option.some.inj h
    have := Found.length_rest_le kind pos s
    simp only [List.length_cons]
    omega
  | case4 pos d s hk ih => exact Nat.lt_succ_of_lt (ih h)
  | case5 pos c s hc ih => exact Nat.lt_succ_of_lt (ih h)

/-- The tags of a text that starts at byte `pos`, up to one that is not terminated. -/
def splitTags (pos : Nat) (s : List Char) : List Tag :=
  match h : nextTag? pos s with
  | none => []
  | some found =>
    if found.tag.terminated then
      have := length_rest_lt h
      found.tag :: splitTags found.tag.stop found.rest
    else [found.tag]
termination_by s.length

/-- The tags of a template. -/
def Tag.split (template : String) : List Tag := splitTags 0 template.toList

/-- The first tag that opens at or behind a byte offset. -/
def Tag.next? (template : String) (offset : Nat) : Option Tag :=
  match dropBytes? offset template.toList with
  | some s => (nextTag? offset s).map Found.tag
  | none => none

end BrickScope.Template
