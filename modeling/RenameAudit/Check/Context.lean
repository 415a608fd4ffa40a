import RenameAudit.Check.Finding
import RenameAudit.Hierarchy.Resolution
import RenameAudit.Naming.Rules
import RenameAudit.Rename.SideTable
/-!
# Check.Context — what a check may look at

A check is a function from a context to findings.  The directory of a context is resolved, and the reverse table is the
reverse of the rename table.
-/
namespace RenameAudit

/-- How methods that have to share a new name are grouped: by all that the classes under audit expose, or pair by pair. -/
inductive OverrideStrategy where
  | closure
  | quick
  deriving DecidableEq, Repr

/-- What a check may look at. -/
structure CheckContext where
  dir : Directory
  table : RenameTable
  reverse : RenameTable
  constructors : Option ConstructorTable
  suffixes : Option SuffixTable
  naming : NamingRules
  strategy : OverrideStrategy

namespace CheckContext

/-- The new name of a field. -/
def mappedField (ctx : CheckContext) (f : Field) : String :=
  ctx.table.mapField f.ref.owner f.ref.name

/-- The new name of a method. -/
def mappedMethod (ctx : CheckContext) (m : MemberRef) : String :=
  ctx.table.mapMethod m.owner m.name m.descriptor

end CheckContext
end RenameAudit
