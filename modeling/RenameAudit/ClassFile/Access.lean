/-!
# Access — access flags

The flag bits of classes and members, and the visibility that they declare.
-/
namespace RenameAudit

/-- The access flags of a class or member. -/
abbrev Access := UInt16

/-- Who may refer to a class or member: everyone, the package and the subclasses, the package, or the class alone. -/
inductive Visibility where
  | pub
  | prot
  | pkg
  | priv
  deriving DecidableEq, Repr

namespace Access

/-- Whether any of the given bits is set. -/
def has (flags mask : UInt16) : Bool :=
  flags &&& mask != 0

def isPublic (flags : UInt16) : Bool := has flags 0x0001
def isPrivate (flags : UInt16) : Bool := has flags 0x0002
def isProtected (flags : UInt16) : Bool := has flags 0x0004
def isStatic (flags : UInt16) : Bool := has flags 0x0008
def isFinal (flags : UInt16) : Bool := has flags 0x0010
def isBridge (flags : UInt16) : Bool := has flags 0x0040
def isInterface (flags : UInt16) : Bool := has flags 0x0200
def isAbstract (flags : UInt16) : Bool := has flags 0x0400
def isSynthetic (flags : UInt16) : Bool := has flags 0x1000
def isAnnotation (flags : UInt16) : Bool := has flags 0x2000
def isEnum (flags : UInt16) : Bool := has flags 0x4000

/-- The visibility that flags declare; of several flags the first of public, protected, private counts. -/
def visibility (flags : UInt16) : Visibility :=
  if isPublic flags then .pub
  else if isProtected flags then .prot
  else if isPrivate flags then .priv
  else .pkg

end Access
end RenameAudit
