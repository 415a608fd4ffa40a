import RenameAudit.ClassFile.Basic
import RenameAudit.Hierarchy.Basic
/-!
# Hierarchy.Ingest — taking a class into a directory

A class is refused whole, before anything of it is entered: when it has been read already, when it is its own direct
supertype, or when a descriptor of a member is none.
-/
namespace RenameAudit

open Std ClassFile

/-- Why a class is refused. -/
inductive StructureFault where
  | alreadyRead (name : String)
  | selfInheritance (name : String)
  | invalidDescriptor (className member descriptor : String)
  deriving DecidableEq, Repr

/-- The words of the report. -/
def StructureFault.message : StructureFault → String
  | alreadyRead name => "class " ++ name ++ " was already read"
  | selfInheritance name => "class " ++ name ++ " lists itself as a supertype"
  | invalidDescriptor className member descriptor =>
    "invalid descriptor `" ++ descriptor ++ "` on " ++ className ++ "." ++ member

namespace ClassFile

/-- Whether a descriptor is that of a field. -/
def isFieldDescriptor (descriptor : String) : Bool :=
  match FieldType.parse descriptor with
  | .ok _ => true
  | .error _ => false

/-- The first reason to refuse a class, whatever classes are there. -/
def structureFault? (c : ClassFile) : Option StructureFault :=
  if c.superclass = some c.name ∨ c.name ∈ c.interfaces then some (.selfInheritance c.name)
  else
    match c.fields.find? fun f => !isFieldDescriptor f.descriptor with
    | some f => some (.invalidDescriptor c.name f.name f.descriptor)
    | none =>
      (c.methods.find? fun m => (MethodType.parse? m.descriptor).isNone).map fun m =>
        .invalidDescriptor c.name m.name m.descriptor

/-- The instructions of a member, none where it has no body. -/
def Member.instructions (m : Member) : List Instruction :=
  (m.body.map (·.instructions)).getD []

/-- The keys of the methods that are bodies of lambda expressions in this class. -/
def lambdaKeys (c : ClassFile) : List String :=
  (c.methods.flatMap Member.instructions).filterMap fun
    | .dynamic site =>
      (lambdaBody? site).bind fun h => if h.target.owner = c.name then some h.target.key else none
    | _ => none

/-- The name by which a class knows one of its members. -/
def memberRefOf (c : ClassFile) (m : Member) : MemberRef :=
  ⟨c.name, m.name, m.descriptor⟩

/-- The method that a member of a class is. -/
def methodOf (c : ClassFile) (owned : Bool) (lambdas : List String) (m : Member) : Method :=
  let ref := c.memberRefOf m
  let isLambda := lambdas.contains ref.key
  let code := m.body.map (·.instructions)
  { ref
    access := m.access
    isLambda
    forwards := code.bind fun code => forwardTarget? m.access m.descriptor code isLambda
    code := if owned then code else none }

/-- What a class file says about its class. -/
def toDeclaration (c : ClassFile) (owned : Bool) : Declaration :=
  { access := c.access
    owned
    superclass := c.superclass
    interfaces := c.interfaces
    fields := firstByKey (·.ref.name) (c.fields.map fun f => ⟨c.memberRefOf f, f.access⟩)
    methods := firstByKey Method.key (c.methods.map (c.methodOf owned c.lambdaKeys)) }

end ClassFile

namespace Directory

/-- The directory with a class mentioned. -/
def mention (d : Directory) (name : String) : Directory :=
  if d.knows name then d
  else { d with names := d.names ++ [name], classes := d.classes.insert name .stub }

/-- The directory with the declaration of a class entered.  What was known of its ancestors is kept. -/
def declare (d : Directory) (name : String) (declaration : Declaration) : Directory :=
  let stack := d.classes[name]?.bind (·.stack)
  { d with
    ingested := d.ingested ++ [name]
    classes := d.classes.insert name ⟨some declaration, false, stack⟩ }

/-- The reason to refuse a class, if there is one. -/
def refusal? (d : Directory) (c : ClassFile) : Option StructureFault :=
  if d.wasRead c.name then some (.alreadyRead c.name) else c.structureFault?

/-- The directory with a class read: it is mentioned, then its superclass and its interfaces, then it is declared. -/
def ingest (d : Directory) (c : ClassFile) (owned : Bool) : Except StructureFault Directory :=
  match d.refusal? c with
  | some fault => .error fault
  | none =>
    let declaration := c.toDeclaration owned
    .ok (((c.name :: declaration.supertypes).foldl mention d).declare c.name declaration)

/-- The directory with a class read, or as it is where the class is refused. -/
def takeIn (d : Directory) (c : ClassFile) (owned : Bool) : Directory :=
  match d.ingest c owned with
  | .ok d => d
  | .error _ => d

/-- The directory with classes read in their order.  Those that are refused are passed over. -/
def takeAll (d : Directory) (classes : List (ClassFile × Bool)) : Directory :=
  classes.foldl (fun d (c, owned) => d.takeIn c owned) d

end Directory
end RenameAudit
