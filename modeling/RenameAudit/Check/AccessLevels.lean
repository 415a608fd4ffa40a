import RenameAudit.Check.Context
/-!
# Check.AccessLevels — references that renaming makes illegal

Renaming moves classes between packages.  A reference from the body of a class under audit to a member or class is
reported when its declaration could not be reached any more: a protected one from another package by a class that does
not descend from the declaring one, a package-private one from another package, a private one from another class.
References to classes that have not been read are taken to be legal.
-/
namespace RenameAudit
namespace AccessLevels

open ClassFile

/-- What a reference refers to: the declaring class, the text for reports, and the flags of the declaration. -/
structure Target where
  declaring : String
  display : String
  access : Access
  deriving DecidableEq, Repr

/-- The package of a class: its name up to the last slash. -/
def packageOf (name : String) : String :=
  match Text.splitLast? '/' name.toList with
  | some (package, _) => String.ofList package
  | none => ""

/-- The class of the elements of an array descriptor, and any other name as it is; none where the elements have no
class. -/
def elementClass? (name : String) : Option String :=
  match name.toList with
  | '[' :: rest =>
    match rest.dropWhile (· == '[') with
    | 'L' :: cs =>
      match Text.splitLast? ';' cs with
      | some (element, []) => some (String.ofList element)
      | _ => none
    | _ => none
  | _ => some name

/-- Whether a class refers to a class other than itself that has been read. -/
def isReadable (ctx : CheckContext) (self owner : String) : Bool :=
  owner != self && ctx.dir.wasRead owner

/-- The nearest declaration in a class and its ancestors. -/
def search {α : Type} (d : Directory) (start : String) (find? : String → Option α) : Option α :=
  (start :: d.ancestors start).findSome? find?

/-- The field that a reference refers to. -/
def fieldTarget? (ctx : CheckContext) (self : String) (ref : MemberRef) : Option Target :=
  if isReadable ctx self ref.owner then
    (search ctx.dir ref.owner fun c => ctx.dir.field? c ref.name).map fun f =>
      { declaring := f.ref.owner
        display := ctx.table.mapClass f.ref.owner ++ "/" ++ ctx.table.mapField f.ref.owner ref.name
        access := f.access }
  else none

/-- The method that a reference refers to. -/
def methodTarget? (ctx : CheckContext) (self : String) (ref : MemberRef) : Option Target :=
  if isReadable ctx self ref.owner then
    (search ctx.dir ref.owner fun c => ctx.dir.methodByKey? c ref.key).map fun m =>
      { declaring := m.ref.owner
        display := ctx.table.mapClass m.ref.owner ++ "/" ++
          ctx.table.mapMethod m.ref.owner ref.name ref.descriptor ++ ctx.table.mapDescriptor ref.descriptor
        access := m.access }
  else none

/-- The class that a reference to a type refers to. -/
def typeTarget? (ctx : CheckContext) (self name : String) : Option Target :=
  (elementClass? name).bind fun element =>
    if isReadable ctx self element then
      some { declaring := element, display := ctx.table.mapClass element, access := ctx.dir.accessOf element }
    else none

/-- What an instruction refers to. -/
def target? (ctx : CheckContext) (self : String) : Instruction → Option Target
  | .field _ ref => fieldTarget? ctx self ref
  | .call _ ref _ => methodTarget? ctx self ref
  | .type _ name => typeTarget? ctx self name
  | _ => none

/-- Whether two classes are in one package under their new names. -/
def samePackage (ctx : CheckContext) (c d : String) : Bool :=
  packageOf (ctx.table.mapClass c) == packageOf (ctx.table.mapClass d)

/-- The visibility that forbids a class to refer to a target. -/
def forbidden? (ctx : CheckContext) (self : String) (t : Target) : Option AccessLevel :=
  match Access.visibility t.access with
  | .pub => none
  | .prot =>
    if samePackage ctx self t.declaring || (ctx.dir.ancestors self).contains t.declaring then none else some .prot
  | .priv => if t.declaring = self then none else some .priv
  | .pkg => if t.declaring = self ∨ samePackage ctx self t.declaring then none else some .package

/-- The illegal references in the body of a class under audit, as their texts and levels, in the order of the methods
and their instructions. -/
def illegalIn (ctx : CheckContext) (self : String) : List (String × AccessLevel) :=
  ((ctx.dir.methodsOf self).flatMap fun m => m.code.getD []).filterMap fun i =>
    (target? ctx self i).bind fun t => (forbidden? ctx self t).map fun level => (t.display, level)

/-- The findings of one class: each text once, with the level of its first occurrence. -/
def findingsOf (ctx : CheckContext) (self : String) : List Finding :=
  (firstByKey (·.1) (illegalIn ctx self)).map fun (display, level) =>
    .invalidAccess (ctx.table.mapClass self) display level

/-- All illegal references of the classes under audit. -/
def findings (ctx : CheckContext) : List Finding :=
  Finding.sorted (ctx.dir.owned.flatMap (findingsOf ctx))

end AccessLevels
end RenameAudit
