import RenameAudit.ClassFile.Basic
import RenameAudit.ClassFile.Decode
/-!
# ClassFile.Parser — reading class files

A file is read in two steps.  `Layout.read` takes every part in its order and leaves the bodies of members as octets,
because the bootstrap methods that a body refers to come after all members.  The bodies are decoded from the layout:
those of the fields, then those of the methods, each in its order.
-/
namespace RenameAudit
namespace ClassFile

open Reader ListReader

/-- A member whose body is still octets. -/
structure MemberLayout where
  access : Access
  name : String
  descriptor : String
  code : Option Bytes
  deriving DecidableEq, Repr

/-- A class file whose bodies are still octets. -/
structure Layout where
  minor : UInt16
  major : UInt16
  pool : Pool
  access : Access
  name : String
  superclass : Option String
  interfaces : List String
  fields : List MemberLayout
  methods : List MemberLayout
  bootstraps : List BootstrapMethod

/-- The names and contents of a table of attributes. -/
def readAttributes (pool : Pool) : Reader (List (String × Bytes)) :=
  table do
    let index ← u2
    let name ← lift (pool.text index)
    let length ← u4
    let info ← take length.toNat
    return (name, info)

/-- The contents of the attributes with a name. -/
def attributesNamed (name : String) (attributes : List (String × Bytes)) : List Bytes :=
  (attributes.filter (·.1 == name)).map (·.2)

/-- The contents of the one `Code` attribute, if there is any. -/
def codeOf (attributes : List (String × Bytes)) : Except Fault (Option Bytes) :=
  match attributesNamed "Code" attributes with
  | [] => .ok none
  | [info] => .ok (some info)
  | _ => .error .duplicateCode

/-- A field or method. -/
def MemberLayout.read (pool : Pool) : Reader MemberLayout := do
  let access ← u2
  let index ← u2
  let name ← lift (pool.text index)
  let index ← u2
  let descriptor ← lift (pool.text index)
  let attributes ← readAttributes pool
  let code ← lift (codeOf attributes)
  return ⟨access, name, descriptor, code⟩

/-- The bootstrap methods of a class: those of the last attribute of that name, and all of these are checked. -/
def bootstrapsOf (pool : Pool) (attributes : List (String × Bytes)) : Except Fault (List BootstrapMethod) :=
  (attributesNamed "BootstrapMethods" attributes).foldlM
    (fun _ info => (BootstrapMethod.readTable pool).all .bootstrapMethods info) []

/-- The number that every class file begins with. -/
def magic : UInt32 := 0xCAFEBABE

/-- A class file with the bodies of its members left as octets. -/
def Layout.read : Reader Layout := do
  let found ← u4
  if found ≠ magic then fail (.magic found)
  else
    let minor ← u2
    let major ← u2
    let pool ← Pool.read
    let access ← u2
    let index ← u2
    let name ← lift (pool.className index)
    let index ← u2
    let superclass ← if index = 0 then pure none else lift (some <$> pool.className index)
    let interfaces ← table do
      let index ← u2
      lift (pool.className index)
    let fields ← table (MemberLayout.read pool)
    let methods ← table (MemberLayout.read pool)
    let attributes ← readAttributes pool
    let bootstraps ← lift (bootstrapsOf pool attributes)
    return ⟨minor, major, pool, access, name, superclass, interfaces, fields, methods, bootstraps⟩

/-- The member of a layout, its body decoded. -/
def MemberLayout.decode (pool : Pool) (bootstraps : List BootstrapMethod) (m : MemberLayout) : Except Fault Member :=
  match m.code with
  | none => .ok ⟨m.access, m.name, m.descriptor, none⟩
  | some info => (Body.parse pool bootstraps info).map fun body => ⟨m.access, m.name, m.descriptor, some body⟩

/-- The class of a layout, all bodies decoded. -/
def Layout.decode (l : Layout) : Except Fault ClassFile := do
  let fields ← l.fields.mapM (MemberLayout.decode l.pool l.bootstraps)
  let methods ← l.methods.mapM (MemberLayout.decode l.pool l.bootstraps)
  return ⟨l.minor, l.major, l.access, l.name, l.superclass, l.interfaces, fields, methods⟩

/-- The class that an octet string holds, with nothing after it. -/
def parse (bytes : Bytes) : Except Fault ClassFile := do
  let layout ← Layout.read.all .file bytes
  layout.decode

end ClassFile
end RenameAudit
