import BrickScope.Json.Basic
import BrickScope.Reference
import BrickScope.Table

/-!
# Pipelines

A pipeline is a list of bricks that run one after the other.  Each brick has a configuration, a tree of literals and
expressions, in which further pipelines may stand: those that a brick runs by itself, and those in bodies that are
evaluated later.

* `Brick.outputVariable?`: the variable that a brick defines for the bricks behind it.
* `Brick.isConditional`: does the brick run only sometimes?
-/

namespace BrickScope

inductive TemplateKind where
  | nunjucks
  | mustache
  | handlebars
  deriving DecidableEq

/-- An expression that mentions variables: a reference, or a text with references in it. -/
inductive Expression where
  | reference (path : String)
  | template (kind : TemplateKind) (text : String)
  deriving DecidableEq

mutual

structure Brick where
  id : String
  instanceId : Option String := none
  label : Option String := none
  config : List (String × ConfigValue) := []
  outputKey : Option String := none
  /-- The guard, without which the brick always runs. -/
  condition : Option ConfigValue := none

inductive ConfigValue where
  | literal (value : Scalar)
  | object (members : List (String × ConfigValue))
  | array (items : List ConfigValue)
  | expression (e : Expression)
  /-- A pipeline that the brick runs when it decides to. -/
  | pipeline (bricks : List Brick)
  /-- A body that is evaluated later, perhaps once per row of a list. -/
  | deferred (body : ConfigValue)

end

abbrev Pipeline := List Brick

namespace TemplateKind

def mark : TemplateKind → String
  | nunjucks => "nunjucks"
  | mustache => "mustache"
  | handlebars => "handlebars"

def ofMark? (mark : String) : Option TemplateKind :=
  [nunjucks, mustache, handlebars].find? fun k => k.mark = mark

end TemplateKind

namespace Expression

/-- The word that marks the kind of an expression. -/
def mark : Expression → String
  | reference _ => "var"
  | template kind _ => kind.mark

/-- The reference or the text. -/
def source : Expression → String
  | reference path => path
  | template _ text => text

end Expression

namespace ConfigValue

/-- The word that marks what a value stands for, if it does not stand for itself. -/
def mark? : ConfigValue → Option String
  | expression e => some e.mark
  | pipeline _ => some "pipeline"
  | deferred _ => some "defer"
  | _ => none

def text? : ConfigValue → Option String
  | literal (.string s) => some s
  | _ => none

def members? : ConfigValue → Option (List (String × ConfigValue))
  | object members => some members
  | _ => none

def items? : ConfigValue → Option (List ConfigValue)
  | array items => some items
  | _ => none

end ConfigValue

namespace Brick

/-- A guard that is a literal `true` or `null` always holds. -/
def isConditional (b : Brick) : Bool :=
  match b.condition with
  | none | some (.literal .null) | some (.literal (.bool true)) => false
  | some _ => true

/-- The variable named by the output key, unless that is blank. -/
def outputVariable? (b : Brick) : Option String :=
  b.outputKey.bind fun key =>
    let key := Text.trim key
    if key.isEmpty then none else some (Reference.withSigil key)

/-- A literal text in the configuration. -/
def literalText? (b : Brick) (name : String) : Option String := (Table.get? b.config name).bind ConfigValue.text?

end Brick

/-- A name written in a configuration, blanks at its ends aside; a blank one counts as none. -/
def nameOr (byDefault : String) (written : Option String) : String :=
  match written.map Text.trim with
  | some name => if name.isEmpty then byDefault else name
  | none => byDefault

end BrickScope
