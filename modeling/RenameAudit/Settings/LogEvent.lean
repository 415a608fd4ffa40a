import RenameAudit.Json.Basic
import RenameAudit.Settings.LogFilter
/-!
# Settings.LogEvent — what is written to the log

An event of a run has a level and a target, by which a filter takes it or not, and is one line of the log: words, or an
object.
-/
namespace RenameAudit

/-- Something that happened in a run. -/
structure LogEvent where
  level : LogLevel
  target : String
  message : String
  fields : List (String × JsonValue)

namespace LogLevel

/-- The place of a level among all levels, from nothing to everything. -/
def rank (l : LogLevel) : Nat :=
  all.idxOf l

/-- The name of a level in a log. -/
def label (l : LogLevel) : String :=
  String.ofList (l.name.toList.map Char.toUpper)

end LogLevel

namespace LogDirective

/-- Whether an event belongs to the part of the log that a directive is about. -/
def concerns (d : LogDirective) (e : LogEvent) : Bool :=
  d.target.all (fun t => t.toList.isPrefixOf e.target.toList) &&
    d.fields.all fun f => f.name == "message" || e.fields.any (·.1 == f.name)

end LogDirective

namespace LogFilter

/-- Whether an event is logged: the first directive for every span that is about it says up to which level. -/
def takes (filter : List LogDirective) (e : LogEvent) : Bool :=
  (filter.find? fun d => isStatic d && d.concerns e).any fun d => decide (e.level.rank ≤ d.level.rank)

end LogFilter

namespace LogEvent

/-- The text of the value of a field in a line of words. -/
def fieldText : JsonValue → String
  | .string s => s
  | v => v.line

/-- The line of an event in words. -/
def wordsLine (time : String) (e : LogEvent) : String :=
  let label := String.ofList (List.replicate (5 - e.level.label.length) ' ') ++ e.level.label
  let fields := String.join (e.fields.map fun (name, value) => " " ++ name ++ "=" ++ fieldText value)
  time ++ " " ++ label ++ " " ++ e.target ++ ": " ++ e.message ++ fields ++ "\n"

/-- The line of an event as an object. -/
def objectLine (time : String) (e : LogEvent) : String :=
  JsonValue.line (.object
    [("timestamp", .string time), ("level", .string e.level.label),
     ("fields", .object (("message", .string e.message) :: e.fields)), ("target", .string e.target)]) ++ "\n"

/-- The line of an event. -/
def line (json : Bool) (time : String) (e : LogEvent) : String :=
  if json then e.objectLine time else e.wordsLine time

end LogEvent
end RenameAudit
