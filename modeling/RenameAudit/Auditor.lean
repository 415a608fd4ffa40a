import RenameAudit.Check.Report
import RenameAudit.ClassFile.Parser
import RenameAudit.Hierarchy.Ingest
import RenameAudit.Settings.Basic
/-!
# Auditor — an audit in preparation

An auditor collects classes, tables, rules and tasks, and then runs the tasks.  A class that is no class file, or that the
directory refuses, is passed over.  The hierarchy is resolved before the first audit after a class was taken in.
-/
namespace RenameAudit

/-- An audit in preparation.  `resolved` says that the directory is resolved and no class was taken in since.  The table
from the new names to the old ones is made once. -/
structure Auditor where
  dir : Directory
  resolved : Bool
  table : RenameTable
  reverse : RenameTable
  constructors : Option ConstructorTable
  suffixes : Option SuffixTable
  naming : NamingRules
  strategy : OverrideStrategy
  tasks : List Task

namespace Auditor

/-- The auditor of a rename table, with the rules that hold where nothing is said. -/
def new (table : RenameTable) : Auditor where
  dir := .empty
  resolved := false
  table
  reverse := table.reverse
  constructors := none
  suffixes := none
  naming := .default
  strategy := .closure
  tasks := []

/-- The auditor with a class taken in, unless the directory refuses it. -/
def ingest (a : Auditor) (c : ClassFile) (owned : Bool) : Except StructureFault Auditor :=
  (a.dir.ingest c owned).map fun dir => { a with dir, resolved := false }

/-- The auditor with classes taken in, in their order, and those passed over that the directory refuses. -/
def takeAll (a : Auditor) (classes : List (ClassFile × Bool)) : Auditor :=
  classes.foldl (fun a (c, owned) =>
    match a.ingest c owned with
    | .ok a => a
    | .error _ => a) a

/-- The auditor with a class file taken in, and whether it was. -/
def load (a : Auditor) (bytes : Bytes) (owned : Bool) : Auditor × Bool :=
  match ClassFile.parse bytes with
  | .error _ => (a, false)
  | .ok c =>
    match a.ingest c owned with
    | .ok a => (a, true)
    | .error _ => (a, false)

/-- The auditor with class files taken in, and how many were. -/
def loadAll (a : Auditor) (files : List Bytes) (owned : Bool) : Auditor × Nat :=
  files.foldl (fun (a, count) bytes =>
    let (a, taken) := a.load bytes owned
    (a, if taken then count + 1 else count)) (a, 0)

/-- The auditor with one more task; a task is never there twice. -/
def addTask (a : Auditor) (t : Task) : Auditor :=
  if t ∈ a.tasks then a else { a with tasks := a.tasks ++ [t] }

/-- The auditor with more tasks. -/
def addTasks (a : Auditor) (ts : List Task) : Auditor :=
  ts.foldl addTask a

/-- Adds tasks by name, up to the first name of no task. -/
def addNamed (a : Auditor) : List String → Auditor × Option UnknownTask
  | [] => (a, none)
  | name :: rest =>
    match Task.parse name with
    | .ok t => (a.addTask t).addNamed rest
    | .error unknown => (a, some unknown)

/-- Applies settings.  Rules and strategy are applied also where a task is unknown. -/
def configure (a : Auditor) (s : Settings) : Auditor × Option UnknownTask :=
  { a with naming := s.naming, strategy := s.strategy }.addNamed s.tasks

/-- The tasks that run: the standard ones where none was asked for. -/
def tasksToRun (a : Auditor) : List Task :=
  if a.tasks.isEmpty then Task.standard else a.tasks

/-- The auditor with its directory resolved. -/
def resolve (a : Auditor) : Auditor :=
  if a.resolved then a else { a with dir := a.dir.resolve, resolved := true }

/-- What the checks look at. -/
def context (a : Auditor) : CheckContext where
  dir := a.dir
  table := a.table
  reverse := a.reverse
  constructors := a.constructors
  suffixes := a.suffixes
  naming := a.naming
  strategy := a.strategy

/-- Resolves the hierarchy and runs the tasks. -/
def run (a : Auditor) : Auditor × AuditReport :=
  let a := a.resolve
  (a, .ofTasks a.context a.tasksToRun)

end Auditor
end RenameAudit
