import RenameAudit.Check.AccessLevels
import RenameAudit.Check.ClassNames
import RenameAudit.Check.Constructors
import RenameAudit.Check.OverrideNames
import RenameAudit.Check.UniqueIds
import RenameAudit.Text.Blank
/-!
# Check.Task — the checks by name

A task is one of the six checks.  Its name is read without regard to case, and white space around it does not count.
-/
namespace RenameAudit

/-- A check that can be asked for. -/
inductive Task where
  | accessLevels | overrideNames | uniqueIds | constructors | classNames | unnamedClasses
  deriving DecidableEq, Repr

/-- A text that names no task. -/
structure UnknownTask where
  name : String
  deriving DecidableEq, Repr

namespace Task

/-- The name of a task. -/
def name : Task → String
  | accessLevels => "accesslevels"
  | overrideNames => "overridenames"
  | uniqueIds => "uniqueids"
  | constructors => "constructors"
  | classNames => "classnames"
  | unnamedClasses => "unnamedclasses"

/-- All tasks. -/
def all : List Task :=
  [accessLevels, overrideNames, uniqueIds, constructors, classNames, unnamedClasses]

/-- The tasks that run where none is asked for. -/
def standard : List Task :=
  [accessLevels, overrideNames, uniqueIds]

/-- What a task finds. -/
def findings : Task → CheckContext → List Finding
  | accessLevels => AccessLevels.findings
  | overrideNames => OverrideNames.findings
  | uniqueIds => UniqueIds.findings
  | constructors => Constructors.findings
  | classNames => ClassNames.findings
  | unnamedClasses => ClassNames.unnamedFindings

/-- The task with a name. -/
def parse (text : String) : Except UnknownTask Task :=
  let wanted := Text.trim text.toList
  match all.find? fun t => t.name.toList == wanted.map Char.toLower with
  | some t => .ok t
  | none => .error ⟨String.ofList wanted⟩

end Task

/-- The words of the report. -/
def UnknownTask.message (u : UnknownTask) : String :=
  "unknown task `" ++ u.name ++ "` (known tasks: " ++ Finding.joined ", " (Task.all.map Task.name) ++ ")"

end RenameAudit
