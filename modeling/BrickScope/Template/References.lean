import BrickScope.Distinct
import BrickScope.Template.Token
import BrickScope.Text.Blank

/-!
# References in a template

The references to variables in the tags of a template, each once, in the order in which they first occur.  Comments and
raw blocks are literal text.  Reading never fails: what was found before something is left open is kept.

* `Template.extract`: the references in a template, and what it leaves open.
-/

namespace BrickScope.Template

open Text

/-- The references found, and what was left open first. -/
structure Extraction where
  references : List String
  stop : Option Stop
  deriving DecidableEq

/-! ## Raw blocks -/

/-- Statements whose body is literal text. -/
def rawNames : List String := ["raw", "verbatim"]

/-- The raw block that a tag opens. -/
def rawName? (tag : Tag) (scan : Scan) : Option String :=
  if tag.kind = .statement && tag.terminated then
    match scan.tokens.head? with
    | some t => if t.kind = .identifier && t.text ∈ rawNames then some t.text else none
    | none => none
  else none

/-- A text without a dash at its front. -/
def dropDash : List Char → List Char
  | '-' :: s => s
  | s => s

/-- What follows the characters `p` at the front of a text. -/
def after? : List Char → List Char → Option (List Char)
  | [], s => some s
  | c :: p, d :: s => if c = d then after? p s else none
  | _ :: _, [] => none

/-- What follows the statement that ends the raw block `name`, at the front of a text. -/
def afterRawEnd? (name : String) (s : List Char) : Option (List Char) := do
  let s ← after? ['\x7b', '%'] s
  let s ← after? ("end" ++ name).toList ((dropDash s).dropWhile isBlank)
  after? ['%', '\x7d'] (dropDash (s.dropWhile isBlank))

/-- How many characters a raw block takes, its end included. -/
def rawLength? (name : String) : List Char → Option Nat
  | [] => none
  | c :: s =>
    match afterRawEnd? name (c :: s) with
    | some rest => some (s.length + 1 - rest.length)
    | none => (rawLength? name s).map (· + 1)

/-! ## The tags -/

/-- Extract from the text that starts at byte `pos`; `found` holds the references in the text before. -/
def extractFrom (pos : Nat) (found : List String) (s : List Char) : Extraction :=
  match h : nextTag? pos s with
  | none => ⟨found, none⟩
  | some ⟨tag, rest⟩ =>
    have := length_rest_lt h
    if tag.kind = .comment then
      if tag.terminated then extractFrom tag.stop found rest else ⟨found, some ⟨.comment, tag.start⟩⟩
    else
      let scan := Scan.ofCode tag.content
      match rawName? tag scan with
      | some name =>
        match rawLength? name rest with
        | some n => extractFrom (tag.stop + width (rest.take n)) found (rest.drop n)
        | none => ⟨found, none⟩
      | none =>
        let found := addAllNew found scan.references
        match scan.stop with
        | some f => ⟨found, some ⟨f.opening, tag.start + 2 + f.index⟩⟩
        | none => if tag.terminated then extractFrom tag.stop found rest else ⟨found, some ⟨.tag, tag.start⟩⟩
termination_by s.length
decreasing_by all_goals simp only [List.length_drop] at *; omega

/-- The references in a template, and what it leaves open. -/
def extract (template : String) : Extraction := extractFrom 0 [] template.toList

end BrickScope.Template
