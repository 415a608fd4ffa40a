import RenameAudit.Check.Context
/-!
# Settings — what a user can set

Every setting has a value that holds where nothing is said.
-/
namespace RenameAudit

/-- Where the log goes and how much is logged.  The level is the name of a level or a list of directives. -/
structure LogSettings where
  level : String
  json : Bool
  stderr : Bool
  file : Option String
  deriving DecidableEq, Repr

namespace LogSettings

/-- Lines of text at level `info` on the error stream. -/
def default : LogSettings :=
  ⟨"info", false, true, none⟩

end LogSettings

/-- The settings of an audit.  Without tasks the standard ones run. -/
structure Settings where
  tasks : List String
  strategy : OverrideStrategy
  naming : NamingRules
  logging : LogSettings
  deriving DecidableEq, Repr

namespace Settings

/-- The settings that hold where nothing is said. -/
def default : Settings :=
  ⟨[], .closure, .default, .default⟩

end Settings
end RenameAudit
