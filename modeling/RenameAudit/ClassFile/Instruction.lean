import RenameAudit.ClassFile.Pool
/-!
# Instruction — what a method body says about other classes and members

An instruction keeps the operands that name a class, a member or a local variable; of every other instruction the
opcode alone is kept.  Loads and stores have one form: an opcode that has its variable built in is the general opcode
with that variable.
-/
namespace RenameAudit
namespace ClassFile

namespace Opcode

def aload : UInt8 := 0x19
def iinc : UInt8 := 0x84
def invokeinterface : UInt8 := 0xb9
def invokedynamic : UInt8 := 0xba
def checkcast : UInt8 := 0xc0
def instanceof : UInt8 := 0xc1
def wide : UInt8 := 0xc4
def multianewarray : UInt8 := 0xc5

/-- Whether an opcode loads a local variable that it names. -/
def isLoad (op : UInt8) : Bool :=
  0x15 ≤ op.toNat && op.toNat ≤ 0x19

/-- Whether an opcode stores into a local variable that it names. -/
def isStore (op : UInt8) : Bool :=
  0x36 ≤ op.toNat && op.toNat ≤ 0x3a

/-- Whether an opcode names a local variable by an operand: a load, a store or a return from a subroutine. -/
def namesLocal (op : UInt8) : Bool :=
  isLoad op || isStore op || op.toNat == 0xa9

/-- Whether an opcode is one octet and keeps nothing: no operands, no local variable, no return. -/
def isPlain (op : UInt8) : Bool :=
  let n := op.toNat
  n ≤ 0x0f || (0x2e ≤ n && n ≤ 0x35) || (0x4f ≤ n && n ≤ 0x83) || (0x85 ≤ n && n ≤ 0x98) ||
    n == 0xbe || n == 0xbf || n == 0xc2 || n == 0xc3

end Opcode

/-- A method that makes the target of a dynamic call, and the constants it is given. -/
structure BootstrapMethod where
  handle : MethodHandle
  arguments : List BootstrapArgument
  deriving BEq, Repr

/-- A dynamic call. -/
structure CallSite where
  name : String
  descriptor : String
  bootstrap : BootstrapMethod
  deriving BEq, Repr

/-- One instruction of a method body. -/
inductive Instruction where
  /-- A load, a store or a return from a subroutine, and the variable. -/
  | slot (opcode : UInt8) (index : UInt16)
  /-- An instruction on a type: the internal name of a class, or the descriptor of an array. -/
  | type (opcode : UInt8) (name : String)
  /-- An access to a field. -/
  | field (opcode : UInt8) (target : MemberRef)
  /-- A call of a method. -/
  | call (opcode : UInt8) (target : MemberRef) (viaInterface : Bool)
  /-- A dynamic call. -/
  | dynamic (site : CallSite)
  /-- A return from the method. -/
  | ret (opcode : UInt8)
  /-- Any other instruction. -/
  | plain (opcode : UInt8)
  deriving BEq, Repr

/-- A method body. -/
structure Body where
  maxStack : UInt16
  maxLocals : UInt16
  instructions : List Instruction
  deriving BEq, Repr

end ClassFile
end RenameAudit
