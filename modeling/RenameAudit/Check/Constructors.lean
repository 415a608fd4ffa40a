import RenameAudit.Check.Context
/-!
# Check.Constructors — numbered constructors

Every constructor with parameters of a class under audit needs a number, and no constructor may have two.  Without a
table there is nothing to check.
-/
namespace RenameAudit
namespace Constructors

/-- Whether a method is a constructor with parameters. -/
def needsNumber (m : Method) : Bool :=
  m.ref.name == "<init>" && m.ref.descriptor != "()V"

/-- The constructors of a class that have no number. -/
def missingIn (ctx : CheckContext) (table : ConstructorTable) (name : String) : List Finding :=
  let mapped := ctx.table.mapClass name
  ((ctx.dir.methodsOf name).filter needsNumber).filterMap fun m =>
    let descriptor := ctx.table.mapDescriptor m.ref.descriptor
    if table.contains mapped descriptor then none else some (.missingConstructor mapped descriptor)

/-- All findings. -/
def findings (ctx : CheckContext) : List Finding :=
  match ctx.constructors with
  | none => []
  | some table =>
    Finding.sorted (ctx.dir.owned.flatMap (missingIn ctx table) ++
      table.duplicates.map fun (key, numbers) => .duplicateConstructor key numbers)

end Constructors
end RenameAudit
