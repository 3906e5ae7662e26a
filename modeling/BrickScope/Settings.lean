import BrickScope.Construct
import BrickScope.Pipeline.Visits

/-!
# Settings

What an analysis has to know besides the pipeline and its surroundings.  Everything has a default, so that `{}` is a
text for the default settings.

* `Settings.read`: settings from a text, in which no document id may be blank.
-/

namespace BrickScope

structure Settings where
  /-- The position of the root pipeline. -/
  rootPath : String := "pipeline"
  documentBrickIds : List String := [defaultDocumentId]
  /-- If given, these take the place of the constructs that every platform has. -/
  constructs : List Construct := Construct.builtin
  checkTemplates : Bool := true
  /-- May bricks be looked up at the same time?  The results are the same either way. -/
  parallelLookups : Bool := true

inductive SettingsError where
  | unreadable (e : ReadError)
  | blankDocumentId

namespace Settings

instance : Format Settings := Record.format {}
  [.defaulted "rootPath" Settings.rootPath fun v s => { s with rootPath := v },
    .defaulted "documentBrickIds" Settings.documentBrickIds fun v s => { s with documentBrickIds := v },
    .defaulted "constructs" Settings.constructs fun v s => { s with constructs := v },
    .defaulted "checkTemplates" Settings.checkTemplates fun v s => { s with checkTemplates := v },
    .defaulted "parallelLookups" Settings.parallelLookups fun v s => { s with parallelLookups := v }]

/-- The text of the error for a blank document id. -/
def blankDocumentIdMessage : String := "documentBrickIds must not contain empty ids"

def read (text : String) : Except SettingsError Settings :=
  match Format.read text with
  | .error e => .error (.unreadable e)
  | .ok (s : Settings) =>
    if s.documentBrickIds.any Text.isBlankText then .error .blankDocumentId else .ok s

/-- The first rule for a brick. -/
def construct? (s : Settings) (brickId : String) : Option Construct := s.constructs.find? fun c => c.brickId = brickId

def isDocument (s : Settings) (brickId : String) : Bool := s.documentBrickIds.contains brickId

end Settings

end BrickScope
