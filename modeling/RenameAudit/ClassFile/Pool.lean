import RenameAudit.ClassFile.Constant
import RenameAudit.MemberRef
/-!
# Pool — constants by index

A pool is a list of constants.  The first has index 1, and each later one the index after those that its predecessor
takes, so the second index of a long or double selects nothing.  Reading and writing share this one definition of an
index: a pool that is written is the list that is read.
-/
namespace RenameAudit
namespace ClassFile

-- Sums of numbers are those of the core library, whatever else is imported.
attribute [local instance (high)] Zero.ofOfNat0

/-- The constants of a class file in their order. -/
abbrev Pool := List Constant

/-- A reference to a method that can be called as a value. -/
structure MethodHandle where
  kind : UInt8
  target : MemberRef
  viaInterface : Bool
  deriving DecidableEq, Repr

/-- A constant argument of a bootstrap method.  A computed constant is kept by name and descriptor only. -/
inductive BootstrapArgument where
  | integer (value : Int32)
  | float (value : Single)
  | long (value : Int64)
  | double (value : Double)
  | classRef (name : String)
  | string (text : String)
  | handle (handle : MethodHandle)
  | methodType (descriptor : String)
  | dynamic (name descriptor : String)
  deriving BEq, Repr

namespace Pool

/-- The number of indices that the constants take. -/
def width (pool : Pool) : Nat :=
  (pool.map Constant.width).sum

/-- The constant at the `n`th index after the first. -/
def at? : Pool → Nat → Option Constant
  | [], _ => none
  | c :: _, 0 => some c
  | c :: rest, n + 1 =>
    match c.isWide, n with
    | true, 0 => none
    | true, m + 1 => at? rest m
    | false, m => at? rest m

/-- The constant that an index selects. -/
def get? (pool : Pool) (index : UInt16) : Option Constant :=
  match index.toNat with
  | 0 => none
  | n + 1 => pool.at? n

/-- Constants until they take `n` indices or more. -/
def readUpTo : Nat → Reader Pool
  | 0 => return []
  | 1 => do
    let c ← Constant.read
    return [c]
  | n + 2 => do
    let c ← Constant.read
    let rest ← if c.isWide then readUpTo n else readUpTo (n + 1)
    return c :: rest

/-- A pool: a number one above that of the indices taken, then the constants. -/
def read : Reader Pool := do
  let count ← Reader.u2
  readUpTo (count.toNat - 1)

/-- The constant that an index selects, or the fault of an index that selects none. -/
def constant (pool : Pool) (index : UInt16) : Except Fault Constant :=
  match pool.get? index with
  | some c => .ok c
  | none => .error (.poolIndex index)

/-- The text at an index. -/
def text (pool : Pool) (index : UInt16) : Except Fault String := do
  match ← pool.constant index with
  | .utf8 s => return s
  | c => throw (.poolKind index .utf8 c.kind)

/-- The name of the class at an index. -/
def className (pool : Pool) (index : UInt16) : Except Fault String := do
  match ← pool.constant index with
  | .classRef name => pool.text name
  | c => throw (.poolKind index .classRef c.kind)

/-- The name and descriptor at an index. -/
def nameAndType (pool : Pool) (index : UInt16) : Except Fault (String × String) := do
  match ← pool.constant index with
  | .nameAndType name descriptor => return (← pool.text name, ← pool.text descriptor)
  | c => throw (.poolKind index .nameAndType c.kind)

/-- The field or method whose owner is the class at one index, and its name and descriptor those at another. -/
def memberOf (pool : Pool) (owner nat : UInt16) : Except Fault MemberRef := do
  let owner ← pool.className owner
  let (name, descriptor) ← pool.nameAndType nat
  return ⟨owner, name, descriptor⟩

/-- The field or method at an index, and whether the constant is that of an interface's method. -/
def memberRef (pool : Pool) (index : UInt16) : Except Fault (MemberRef × Bool) := do
  match ← pool.constant index with
  | .fieldRef owner nat => return (← pool.memberOf owner nat, false)
  | .methodRef owner nat => return (← pool.memberOf owner nat, false)
  | .interfaceMethodRef owner nat => return (← pool.memberOf owner nat, true)
  | c => throw (.poolKind index .memberRef c.kind)

/-- The method handle at an index. -/
def methodHandle (pool : Pool) (index : UInt16) : Except Fault MethodHandle := do
  match ← pool.constant index with
  | .methodHandle kind reference =>
    let (target, viaInterface) ← pool.memberRef reference
    return ⟨kind, target, viaInterface⟩
  | c => throw (.poolKind index .methodHandle c.kind)

/-- The bootstrap method's number, the name and the descriptor of the dynamic call at an index. -/
def invokeDynamic (pool : Pool) (index : UInt16) : Except Fault (UInt16 × String × String) := do
  match ← pool.constant index with
  | .invokeDynamic bootstrap nat => return (bootstrap, ← pool.nameAndType nat)
  | c => throw (.poolKind index .invokeDynamic c.kind)

/-- The bootstrap argument at an index. -/
def loadable (pool : Pool) (index : UInt16) : Except Fault BootstrapArgument := do
  match ← pool.constant index with
  | .integer value => return .integer value
  | .float value => return .float value
  | .long value => return .long value
  | .double value => return .double value
  | .classRef name => return .classRef (← pool.text name)
  | .string s => return .string (← pool.text s)
  | .methodHandle kind reference =>
    let (target, viaInterface) ← pool.memberRef reference
    return .handle ⟨kind, target, viaInterface⟩
  | .methodType descriptor => return .methodType (← pool.text descriptor)
  | .dynamic _ nat =>
    let (name, descriptor) ← pool.nameAndType nat
    return .dynamic name descriptor
  | c => throw (.poolKind index .loadable c.kind)

end Pool
end ClassFile
end RenameAudit
