import BrickScope.Log
import BrickScope.Pipeline.Basic
import BrickScope.Schema.Basic

/-!
# Registries

A registry finds an entry by its id, or says why it cannot.  All bricks of a run are looked up once beforehand; a brick
that could not be found, or whose definition says nothing of its output, is taken to have any output.

* `Definitions.output`: what is known of the output of a brick.
* `Definitions.readers`: the common output of several readers.
-/

namespace BrickScope

inductive LookupError where
  | notFound (id : String)
  | failed (id message : String)
  deriving DecidableEq

def LookupError.message : LookupError → String
  | notFound id => "No registry entry for '" ++ id ++ "'"
  | failed id message => "Lookup of '" ++ id ++ "' failed: " ++ message

/-- A source of entries, which may fail for some ids. -/
abbrev Registry (α : Type) := String → Except LookupError α

namespace Registry

variable {α : Type}

/-- The registry that holds the entries of a table. -/
def ofTable (entries : Table α) : Registry α := fun id =>
  match Table.get? entries id with
  | some a => .ok a
  | none => .error (.notFound id)

end Registry

/-- What is known of all bricks with an id.  The output may depend on how the brick is configured. -/
structure Definition where
  id : String
  inputSchema : Schema := .permissive
  outputSchema : Brick → Option Schema := fun _ => none

namespace Definition

/-- A brick whose output does not depend on its configuration. -/
def fixed (id : String) (input output : Option Schema) : Definition where
  id := id
  inputSchema := input.getD .permissive
  outputSchema _ := output

end Definition

/-- The results of looking up some ids. -/
structure Definitions where
  entries : Table (Except LookupError Definition) := []

/-- What is known of the output of a brick. -/
inductive Output where
  | declared (schema : Schema)
  | undeclared
  | unavailable (e : LookupError)

namespace Output

def schema : Output → Schema
  | declared s => s
  | undeclared | unavailable _ => .permissive

/-- What is logged about the output of a brick with the given id. -/
def log (id : String) : Output → List Log.Entry
  | declared _ => []
  | undeclared => [Log.debug ("Brick " ++ id ++ " declares no output schema")]
  | unavailable e => [Log.warn ("Using permissive output schema for " ++ id ++ ": " ++ e.message)]

end Output

namespace Definitions

/-- Look up every id. -/
def resolve (registry : Registry Definition) (ids : List String) : Definitions :=
  ⟨Table.ofList (ids.map fun id => (id, registry id))⟩

def size (d : Definitions) : Nat := d.entries.length

/-- The definition of an id; one that has not been looked up is not found. -/
def get (d : Definitions) (id : String) : Except LookupError Definition :=
  match Table.get? d.entries id with
  | some result => result
  | none => .error (.notFound id)

def output (d : Definitions) (b : Brick) : Output :=
  match d.get b.id with
  | .error e => .unavailable e
  | .ok definition =>
    match definition.outputSchema b with
    | some schema => .declared schema
    | none => .undeclared

/-- The outputs of readers, up to the first that cannot be found. -/
def readerSchemas (d : Definitions) (ids : List String) : Except (String × LookupError) (List Schema) :=
  ids.mapM fun id =>
    match d.get id with
    | .ok definition => .ok ((definition.outputSchema { id := id }).getD .permissive)
    | .error e => .error (id, e)

/-- The common output of readers, and what is logged about it. -/
def readers (d : Definitions) (ids : List String) : Schema × List Log.Entry :=
  if ids.isEmpty then (.permissive, [])
  else match d.readerSchemas ids with
    | .ok schemas => (.mergeObjects schemas, [])
    | .error (id, e) =>
      (.permissive, [Log.warn ("Using permissive @input, reader " ++ id ++ ": " ++ e.message)])

end Definitions

end BrickScope
