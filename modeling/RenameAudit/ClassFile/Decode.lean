import RenameAudit.ClassFile.Instruction
/-!
# Decode — the instructions of a body

Every opcode has one operand shape, and `Shape` lists them; the shape decides how many octets follow and what is kept
of them.  The operands of a switch begin at a multiple of four octets from the start of the body, so an instruction is
read at its offset.
-/
namespace RenameAudit
namespace ClassFile

/-- The operand shapes of opcodes. -/
inductive Shape where
  /-- A local variable by a one-octet operand. -/
  | slot
  /-- A local variable built into the opcode: the general opcode and the variable. -/
  | builtIn (opcode : UInt8) (index : UInt16)
  /-- Operands of a fixed length that are not kept. -/
  | skipped (length : Nat)
  | tableSwitch
  | lookupSwitch
  | ret
  | field
  | call
  | interfaceCall
  | dynamicCall
  | type
  | arrayType
  /-- The wide form of the next opcode. -/
  | wide
  | plain
  | invalid
  deriving DecidableEq, Repr

/-- The form of opcode number `k` in a run of opcodes with the variables 0 to 3 built in, for the general opcodes
from `first` on. -/
def Shape.builtInFrom (first k : Nat) : Shape :=
  .builtIn (UInt8.ofNat (first + k / 4)) (UInt16.ofNat (k % 4))

/-- The operand shape of an opcode. -/
def Shape.of (op : UInt8) : Shape :=
  let n := op.toNat
  if Opcode.namesLocal op then .slot
  else if 0x1a ≤ n ∧ n ≤ 0x2d then .builtInFrom 0x15 (n - 0x1a)
  else if 0x3b ≤ n ∧ n ≤ 0x4e then .builtInFrom 0x36 (n - 0x3b)
  else if n = 0x10 ∨ n = 0x12 ∨ n = 0xbc then .skipped 1
  else if n = 0x11 ∨ n = 0x13 ∨ n = 0x14 ∨ n = 0x84 ∨ (0x99 ≤ n ∧ n ≤ 0xa8) ∨ n = 0xc6 ∨ n = 0xc7 then .skipped 2
  else if n = 0xc8 ∨ n = 0xc9 then .skipped 4
  else if n = 0xaa then .tableSwitch
  else if n = 0xab then .lookupSwitch
  else if 0xac ≤ n ∧ n ≤ 0xb1 then .ret
  else if 0xb2 ≤ n ∧ n ≤ 0xb5 then .field
  else if 0xb6 ≤ n ∧ n ≤ 0xb8 then .call
  else if n = 0xb9 then .interfaceCall
  else if n = 0xba then .dynamicCall
  else if n = 0xbb ∨ n = 0xbd ∨ n = 0xc0 ∨ n = 0xc1 then .type
  else if n = 0xc5 then .arrayType
  else if n = 0xc4 then .wide
  else if Opcode.isPlain op then .plain
  else .invalid

/-- The octets between an opcode at an offset and the next multiple of four. -/
def padding (offset : Nat) : Nat :=
  3 - offset % 4

namespace Instruction

open Reader ListReader

/-- The rest of a table switch: one target for each number from a least to a greatest. -/
def readTableSwitch (op : UInt8) (offset : Nat) : Reader Instruction := do
  skip (padding offset)
  skip 4
  let low ← u4
  let high ← u4
  let low := low.toInt32.toInt
  let high := high.toInt32.toInt
  if high < low then fail .malformedCode
  else
    skip ((high - low + 1).toNat * 4)
    return .plain op

/-- The rest of a lookup switch: a number of pairs of a key and a target. -/
def readLookupSwitch (op : UInt8) (offset : Nat) : Reader Instruction := do
  skip (padding offset)
  skip 4
  let pairs ← u4
  let pairs := pairs.toInt32.toInt
  if pairs < 0 then fail .malformedCode
  else
    skip (pairs.toNat * 8)
    return .plain op

/-- The rest of a dynamic call. -/
def readDynamicCall (pool : Pool) (bootstraps : List BootstrapMethod) : Reader Instruction := do
  let index ← u2
  let (number, name, descriptor) ← lift (pool.invokeDynamic index)
  skip 2
  match bootstraps[number.toNat]? with
  | some bootstrap => return .dynamic ⟨name, descriptor, bootstrap⟩
  | none => fail (.bootstrapIndex number)

/-- The rest of a wide instruction. -/
def readWide (offset : Nat) : Reader Instruction := do
  let op ← u1
  if Opcode.namesLocal op then
    let index ← u2
    return .slot op index
  else if op = Opcode.iinc then
    skip 4
    return .plain op
  else fail (.opcode op (offset + 1))

/-- The rest of an instruction after its opcode, which stands at an offset. -/
def readOperands (pool : Pool) (bootstraps : List BootstrapMethod) (op : UInt8) (offset : Nat) :
    Reader Instruction :=
  match Shape.of op with
  | .slot => do
    let index ← u1
    return .slot op index.toUInt16
  | .builtIn general index => return .slot general index
  | .skipped length => do
    skip length
    return .plain op
  | .tableSwitch => readTableSwitch op offset
  | .lookupSwitch => readLookupSwitch op offset
  | .ret => return .ret op
  | .field => do
    let index ← u2
    let (target, _) ← lift (pool.memberRef index)
    return .field op target
  | .call => do
    let index ← u2
    let (target, viaInterface) ← lift (pool.memberRef index)
    return .call op target viaInterface
  | .interfaceCall => do
    let index ← u2
    let (target, viaInterface) ← lift (pool.memberRef index)
    skip 2
    return .call op target viaInterface
  | .dynamicCall => readDynamicCall pool bootstraps
  | .type => do
    let index ← u2
    let name ← lift (pool.className index)
    return .type op name
  | .arrayType => do
    let index ← u2
    let name ← lift (pool.className index)
    skip 1
    return .type op name
  | .wide => readWide offset
  | .plain => return .plain op
  | .invalid => fail (.opcode op offset)

/-- The instructions from an offset on. -/
def decodeFrom (pool : Pool) (bootstraps : List BootstrapMethod) (offset : Nat) (bytes : Bytes) :
    Except Fault (List Instruction) :=
  match bytes with
  | [] => .ok []
  | op :: rest =>
    match _h : (readOperands pool bootstraps op offset).run rest with
    | .ok (i, rest') =>
      (decodeFrom pool bootstraps (offset + 1 + (rest.length - rest'.length)) rest').map (i :: ·)
    | .error e => .error e
termination_by bytes.length
decreasing_by
  have := ((readOperands pool bootstraps op offset).suffix_of_run _h).length_le
  simp only [List.length_cons]
  omega

/-- The instructions of a body. -/
def decode (pool : Pool) (bootstraps : List BootstrapMethod) (bytes : Bytes) : Except Fault (List Instruction) :=
  decodeFrom pool bootstraps 0 bytes

end Instruction

namespace Body

open Reader ListReader

/-- The limits and the octets of a body; the table of exception handlers and the attributes are left out. -/
def readLayout : Reader (UInt16 × UInt16 × Bytes) := do
  let maxStack ← u2
  let maxLocals ← u2
  let length ← u4
  let bytes ← take length.toNat
  let handlers ← u2
  skip (handlers.toNat * 8)
  let _ ← table do
    skip 2
    let length ← u4
    skip length.toNat
  return (maxStack, maxLocals, bytes)

/-- The body that the contents of a `Code` attribute hold. -/
def parse (pool : Pool) (bootstraps : List BootstrapMethod) (info : Bytes) : Except Fault Body := do
  let (maxStack, maxLocals, bytes) ← readLayout.all .code info
  let instructions ← Instruction.decode pool bootstraps bytes
  return ⟨maxStack, maxLocals, instructions⟩

end Body

/-- The contents of a `BootstrapMethods` attribute. -/
def BootstrapMethod.readTable (pool : Pool) : Reader (List BootstrapMethod) :=
  Reader.table do
    let index ← Reader.u2
    let handle ← ListReader.lift (pool.methodHandle index)
    let arguments ← Reader.table do
      let index ← Reader.u2
      ListReader.lift (pool.loadable index)
    return ⟨handle, arguments⟩

end ClassFile
end RenameAudit
