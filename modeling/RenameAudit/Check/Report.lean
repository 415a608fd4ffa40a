import RenameAudit.Check.Task
/-!
# Check.Report — the outcome of an audit

A task passes when it finds nothing, and an audit when all its tasks pass.  A report is written as lines of text or as
data.
-/
namespace RenameAudit

-- Sums of numbers are those of the core library, whatever else is imported.
attribute [local instance (high)] Zero.ofOfNat0

/-- What one task has found. -/
structure TaskReport where
  task : Task
  findings : List Finding
  deriving DecidableEq, Repr

/-- What the tasks of an audit have found, in the order in which they ran. -/
structure AuditReport where
  tasks : List TaskReport
  deriving DecidableEq, Repr

namespace TaskReport

/-- Whether nothing was found. -/
def passed (r : TaskReport) : Bool :=
  r.findings.isEmpty

/-- A report as data. -/
def toJson (r : TaskReport) : JsonValue :=
  .object [("task", .string r.task.name), ("passed", .bool r.passed), ("findings", .array (r.findings.map (·.toJson)))]

end TaskReport

/-- The end of a line on success or with a number of findings. -/
def outcomeText (passed : Bool) (count : Nat) : String :=
  if passed then "PASS" else "FAIL (" ++ toString count ++ " findings)"

/-- The lines of a task: its outcome, then each finding two blanks in. -/
def TaskReport.lines (r : TaskReport) : List String :=
  (r.task.name ++ ": " ++ outcomeText r.passed r.findings.length) :: r.findings.map fun f => "  " ++ f.line

namespace AuditReport

/-- The report of tasks in a context. -/
def ofTasks (ctx : CheckContext) (tasks : List Task) : AuditReport :=
  ⟨tasks.map fun t => ⟨t, t.findings ctx⟩⟩

/-- Whether every task has passed. -/
def passed (r : AuditReport) : Bool :=
  r.tasks.all (·.passed)

/-- The number of findings. -/
def findingCount (r : AuditReport) : Nat :=
  (r.tasks.map (·.findings.length)).sum

/-- A report as data. -/
def toJson (r : AuditReport) : JsonValue :=
  .object [("passed", .bool r.passed), ("tasks", .array (r.tasks.map (·.toJson)))]

/-- The lines of a report: those of its tasks, then the outcome of the audit. -/
def lines (r : AuditReport) : List String :=
  r.tasks.flatMap (·.lines) ++ ["result: " ++ outcomeText r.passed r.findingCount]

end AuditReport
end RenameAudit
