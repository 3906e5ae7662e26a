/-!
# Log

What an analysis says of its own work.  A run gives all entries; a sink keeps those that are at least as severe as its
threshold.

* `Sink.lines`, `Sink.stdout`, `Sink.stderr`: what a sink does with the entries it is given.
-/

namespace BrickScope

namespace Log

inductive Level where
  | debug
  | info
  | warn
  | error
  deriving DecidableEq

namespace Level

/-- The place of a level, counted from the least severe one. -/
def rank : Level → Nat
  | debug => 0
  | info => 1
  | warn => 2
  | error => 3

def label : Level → String
  | debug => "DEBUG"
  | info => "INFO"
  | warn => "WARN"
  | error => "ERROR"

end Level

structure Entry where
  level : Level
  message : String
  deriving DecidableEq

def debug (message : String) : Entry := ⟨.debug, message⟩

def warn (message : String) : Entry := ⟨.warn, message⟩

def Entry.line (e : Entry) : String := "[" ++ e.level.label ++ "] " ++ e.message

/-- Where entries go. -/
inductive Sink where
  /-- Nowhere. -/
  | discard
  | memory (threshold : Level)
  | console (threshold : Level)
  deriving DecidableEq

namespace Sink

def threshold : Sink → Level
  | discard => .error
  | memory l | console l => l

def enabled (s : Sink) (l : Level) : Bool := s.threshold.rank ≤ l.rank

/-- The entries that a sink does not drop. -/
def kept (s : Sink) (entries : List Entry) : List Entry :=
  match s with
  | discard => []
  | _ => entries.filter fun e => s.enabled e.level

/-- The lines held in memory. -/
def lines (s : Sink) (entries : List Entry) : List String :=
  match s with
  | memory _ => (s.kept entries).map Entry.line
  | _ => []

/-- What the console shows of the entries that satisfy `p`. -/
def printed (s : Sink) (p : Entry → Bool) (entries : List Entry) : String :=
  match s with
  | console _ => String.join (((s.kept entries).filter p).map fun e => e.line ++ "\n")
  | _ => ""

/-- Information goes to the standard output. -/
def stdout (s : Sink) (entries : List Entry) : String := s.printed (fun e => e.level = .info) entries

/-- All other entries go to the standard error. -/
def stderr (s : Sink) (entries : List Entry) : String := s.printed (fun e => e.level ≠ .info) entries

end Sink

/-- Does `needle` stand somewhere in a text? -/
def occursIn (needle : List Char) : List Char → Bool
  | [] => needle.isEmpty
  | c :: cs => needle.isPrefixOf (c :: cs) || occursIn needle cs

/-- Some line holds `needle`. -/
def mentions (lines : List String) (needle : String) : Bool :=
  lines.any fun line => occursIn needle.toList line.toList

end Log

end BrickScope
