import RenameAudit.ClassFile.Access
import RenameAudit.ClassFile.Instruction
/-!
# ClassFile — a class with its members

What the audit needs of a class: its names, its flags, and its fields and methods with their bodies.
-/
namespace RenameAudit
namespace ClassFile

/-- A field or method. -/
structure Member where
  access : Access
  name : String
  descriptor : String
  body : Option Body
  deriving BEq, Repr

end ClassFile

/-- A class. -/
structure ClassFile where
  minor : UInt16
  major : UInt16
  access : Access
  name : String
  superclass : Option String
  interfaces : List String
  fields : List ClassFile.Member
  methods : List ClassFile.Member
  deriving BEq, Repr

end RenameAudit
