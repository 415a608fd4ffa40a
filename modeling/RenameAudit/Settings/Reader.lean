import RenameAudit.Settings.Basic
import RenameAudit.Toml.Parser
/-!
# Settings.Reader — settings from a document

The keys of a document are those of the settings, and of each section those of the section; any other key, or a value of
the wrong kind, makes the whole document unreadable.  A section may also be a list of the values of its keys in their
order: then what is missing at its end is left as it is, and what is too much does not count.
-/
namespace RenameAudit

open Toml

namespace Settings

/-- The keys of a section, each with the way in which its value changes the section. -/
abbrev Keys (α : Type) := List (String × (Value → α → Option α))

/-- A section changed by the members of a table. -/
def readMembers {α : Type} (keys : Keys α) (members : Members) (section₀ : α) : Option α :=
  members.foldlM (fun s (key, value) => (keys.lookup key).bind fun change => change value s) section₀

/-- A section changed by a value. -/
def readSection {α : Type} (keys : Keys α) : Value → α → Option α
  | .table _ members, s => readMembers keys members s
  | .array items, s => (keys.zip items).foldlM (fun s ((_, change), value) => change value s) s
  | _, _ => none

/-- A string. -/
def string? : Value → Option String
  | .string text => some text
  | _ => none

/-- A boolean. -/
def boolean? : Value → Option Bool
  | .boolean b => some b
  | _ => none

/-- A list of strings. -/
def strings? : Value → Option (List String)
  | .array items => items.mapM string?
  | _ => none

/-- The strategy with a name. -/
def strategyOfName? : String → Option OverrideStrategy
  | "closure" => some .closure
  | "quick" => some .quick
  | _ => none

/-- Whether a value has nothing in it. -/
def isEmpty : Value → Bool
  | .array items => items.isEmpty
  | .table _ members => members.isEmpty
  | _ => false

/-- A strategy: its name, or a table with its name as the only key and nothing in it. -/
def strategy? : Value → Option OverrideStrategy
  | .string name => strategyOfName? name
  | .table _ [(name, content)] => if isEmpty content then strategyOfName? name else none
  | _ => none

/-- The keys of the naming rules. -/
def namingKeys : Keys NamingRules :=
  [("method_prefixes", fun v s => (strings? v).map fun x => { s with methodPrefixes := x }),
   ("field_prefixes", fun v s => (strings? v).map fun x => { s with fieldPrefixes := x }),
   ("unnamed_marker", fun v s => (string? v).map fun x => { s with unnamedMarker := x }),
   ("fake_interface_allowlist", fun v s => (strings? v).map fun x => { s with fakeInterfaces := x }),
   ("underscore_exempt", fun v s => (strings? v).map fun x => { s with underscoreExempt := x })]

/-- The keys of the log settings. -/
def loggingKeys : Keys LogSettings :=
  [("level", fun v s => (string? v).map fun x => { s with level := x }),
   ("json", fun v s => (boolean? v).map fun x => { s with json := x }),
   ("stderr", fun v s => (boolean? v).map fun x => { s with stderr := x }),
   ("file", fun v s => (string? v).map fun x => { s with file := some x })]

/-- The keys of the settings. -/
def keys : Keys Settings :=
  [("tasks", fun v s => (strings? v).map fun x => { s with tasks := x }),
   ("override_strategy", fun v s => (strategy? v).map fun x => { s with strategy := x }),
   ("naming", fun v s => (readSection namingKeys v s.naming).map fun x => { s with naming := x }),
   ("logging", fun v s => (readSection loggingKeys v s.logging).map fun x => { s with logging := x })]

/-- The settings that a document writes. -/
def parse (text : String) : Option Settings :=
  (Toml.parse text).bind fun members => readMembers keys members .default

end Settings
end RenameAudit
