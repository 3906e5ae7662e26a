import BrickScope.Pipeline.Basic
import BrickScope.Pipeline.Position

/-!
# Annotations

An annotation tells the author of a pipeline about a reference that is not known to be defined.  A list of annotations
says nothing twice: a message occurs at most once at each position.

* `Problem.ofReference`: what is wrong with an undefined reference.
* `Annotation.undefined`: the annotation for an undefined reference.
* `Annotation.push`: add to a list.
-/

namespace BrickScope

inductive Severity where
  | error
  | warning
  | info
  deriving DecidableEq

instance : Format Severity := Format.ofNames [("error", .error), ("warning", .warning), ("info", .info)]

/-- The expression that an annotation is about: its text and the mark of its kind. -/
structure Quote where
  expression : String
  kind : String
  deriving DecidableEq

instance : Format Quote := Record.format ⟨"", ""⟩
  [.mandatory "expression" Quote.expression fun v s => { s with expression := v },
    .mandatory "kind" Quote.kind fun v s => { s with kind := v }]

/-- The quote of an expression. -/
def Expression.quote (e : Expression) : Quote := ⟨e.source, e.mark⟩

/-- The quote of a marked value; one that has no text of its own is quoted by the reference. -/
def ConfigValue.quote? (reference : String) : ConfigValue → Option Quote
  | .expression e => some e.quote
  | v => v.mark?.map fun mark => ⟨reference, mark⟩

structure Annotation where
  position : Position
  message : String
  severity : Severity
  analysisId : String
  detail : Quote
  deriving DecidableEq

instance : Format Annotation := Record.format ⟨⟨""⟩, "", .error, "", ⟨"", ""⟩⟩
  [.mandatory "position" Annotation.position fun v s => { s with position := v },
    .mandatory "message" Annotation.message fun v s => { s with message := v },
    .mandatory "severity" Annotation.severity fun v s => { s with severity := v },
    .mandatory "analysisId" Annotation.analysisId fun v s => { s with analysisId := v },
    .mandatory "detail" Annotation.detail fun v s => { s with detail := v }]

/-- What is wrong with an undefined reference. -/
inductive Problem where
  /-- There is nothing but blanks. -/
  | empty
  /-- The sigil stands alone. -/
  | bareSigil
  | missingSigil
  | maybeUndefined
  deriving DecidableEq

namespace Problem

def ofReference (reference : String) : Problem :=
  match (Text.trim reference).toList with
  | [] => empty
  | c :: name =>
    if c ≠ Reference.sigil then missingSigil
    else if name.isEmpty then bareSigil
    else maybeUndefined

def message (reference : String) : Problem → String
  | empty => "No variable provided"
  | bareSigil => "Invalid variable name"
  | missingSigil => "Variable name should start with @"
  | maybeUndefined => "Variable \"" ++ Text.trim reference ++ "\" might not be defined"

/-- Whether a variable exists is only guessed, but a bad name is an error. -/
def severity : Problem → Severity
  | maybeUndefined => .warning
  | _ => .error

end Problem

namespace Annotation

/-- The annotation for an undefined reference in an expression. -/
def undefined (p : Position) (reference : String) (quote : Quote) : Annotation :=
  let problem := Problem.ofReference reference
  ⟨p, problem.message reference, problem.severity, "var", quote⟩

/-- Do two annotations say the same thing of the same place? -/
def repeats (a b : Annotation) : Bool := a.message = b.message && a.position = b.position

/-- Add an annotation, unless it repeats one. -/
def push (list : List Annotation) (a : Annotation) : List Annotation :=
  if list.any a.repeats then list else list ++ [a]

end Annotation

end BrickScope
