import RenameAudit.ClassFile.Basic
import RenameAudit.Descriptor.Parser
/-!
# ClassFile.Writer — class files from classes

`ClassFile.encode` writes octets that `ClassFile.parse` reads back.  Constants are collected while the class is written:
each is entered once, after those that it refers to, and gets the next free index.  Bootstrap methods are shared as
well, and written last.

An instruction of which only the opcode is known cannot be written when its opcode has operands, and neither can a
computed constant; these are the refusals, with a pool that has no free index.
-/
namespace RenameAudit
namespace ClassFile

-- Powers of numbers are those of the core library, whatever else is imported.
attribute [local instance (high)] instPowNat

/-- Why a class cannot be written. -/
inductive Unwritable where
  | operandsLost (opcode : UInt8)
  | computedConstant
  | poolFull
  deriving DecidableEq, Repr

/-- The words of the report. -/
def Unwritable.message : Unwritable → String
  | operandsLost op => "opcode " ++ hexText 2 op.toNat ++ " carries operands and cannot be written from Insn::Other"
  | computedConstant => "dynamically-computed constants are not supported in fixtures"
  | poolFull => "attempt to add with overflow"

/-- The octets of a pool's constants. -/
def Pool.encode (pool : Pool) : Bytes :=
  pool.flatMap Constant.encode

/-- The index of the first constant equal to `c`, where the pool's first constant has index `next`. -/
def Pool.indexFrom (c : Constant) : Pool → Nat → Option Nat
  | [], _ => none
  | d :: rest, next => if d = c then some next else Pool.indexFrom c rest (next + d.width)

/-- What has been collected so far. -/
structure Collected where
  pool : Pool
  bootstraps : List BootstrapMethod

/-- A writing step: it may enter constants and bootstrap methods, and may refuse. -/
abbrev Writing := StateT Collected (Except Unwritable)

namespace Writing

/-- The index of a constant, which is entered unless it is in the pool already. -/
def intern (c : Constant) : Writing UInt16 := fun s =>
  match s.pool.indexFrom c 1 with
  | some i => .ok (UInt16.ofNat i, s)
  | none =>
    let next := 1 + s.pool.width
    if next + c.width < 2 ^ (16 : Nat) then .ok (UInt16.ofNat next, { s with pool := s.pool ++ [c] })
    else .error .poolFull

def text (s : String) : Writing UInt16 :=
  intern (.utf8 s)

def className (name : String) : Writing UInt16 := do
  let name ← text name
  intern (.classRef name)

def nameAndType (name descriptor : String) : Writing UInt16 := do
  let name ← text name
  let descriptor ← text descriptor
  intern (.nameAndType name descriptor)

/-- The index of a member reference of the given kind. -/
def memberRef (make : UInt16 → UInt16 → Constant) (m : MemberRef) : Writing UInt16 := do
  let owner ← className m.owner
  let nat ← nameAndType m.name m.descriptor
  intern (make owner nat)

/-- The kind of constant that refers to a method, of an interface or not. -/
def methodKind (viaInterface : Bool) : UInt16 → UInt16 → Constant :=
  if viaInterface then .interfaceMethodRef else .methodRef

/-- The kind of constant that a method handle refers to: a field for the handle kinds 1 to 4. -/
def handleKind (h : MethodHandle) : UInt16 → UInt16 → Constant :=
  if 1 ≤ h.kind.toNat ∧ h.kind.toNat ≤ 4 then .fieldRef else methodKind h.viaInterface

def methodHandle (h : MethodHandle) : Writing UInt16 := do
  let reference ← memberRef (handleKind h) h.target
  intern (.methodHandle h.kind reference)

def argument : BootstrapArgument → Writing UInt16
  | .integer value => intern (.integer value)
  | .float value => intern (.float value)
  | .long value => intern (.long value)
  | .double value => intern (.double value)
  | .classRef name => className name
  | .string s => do intern (.string (← text s))
  | .handle h => methodHandle h
  | .methodType descriptor => do intern (.methodType (← text descriptor))
  | .dynamic _ _ => throw .computedConstant

/-- The number of a bootstrap method, which is added unless an equal one is there. -/
def bootstrap (b : BootstrapMethod) : Writing UInt16 := fun s =>
  match s.bootstraps.findIdx? (· == b) with
  | some i => .ok (UInt16.ofNat i, s)
  | none => .ok (UInt16.ofNat s.bootstraps.length, { s with bootstraps := s.bootstraps ++ [b] })

/-- A count of two octets and the items, written one after another. -/
def table {α : Type} (item : α → Writing Bytes) (items : List α) : Writing Bytes := do
  let parts ← items.mapM item
  return Bytes.ofU16 (UInt16.ofNat items.length) ++ parts.flatten

/-- The words of an interface call after the constant's index: the slots of all arguments, and nothing. -/
def interfaceCount (descriptor : String) : Bytes :=
  let slots := ((MethodType.parse? descriptor).map (·.paramSlots + 1)).getD 1
  [UInt8.ofNat slots, 0]

def instruction : Instruction → Writing Bytes
  | .slot op index =>
    if index.toNat < 256 then return [op, index.toUInt8]
    else return Opcode.wide :: op :: Bytes.ofU16 index
  | .type op name => do
    let index ← className name
    return op :: (Bytes.ofU16 index ++ if op = Opcode.multianewarray then [1] else [])
  | .field op target => do
    let index ← memberRef .fieldRef target
    return op :: Bytes.ofU16 index
  | .call op target viaInterface => do
    let index ← memberRef (methodKind viaInterface) target
    return op :: (Bytes.ofU16 index ++
      if op = Opcode.invokeinterface then interfaceCount target.descriptor else [])
  | .dynamic site => do
    let number ← bootstrap site.bootstrap
    let nat ← nameAndType site.name site.descriptor
    let index ← intern (.invokeDynamic number nat)
    return Opcode.invokedynamic :: (Bytes.ofU16 index ++ [0, 0])
  | .ret op => return [op]
  | .plain op => if Opcode.isPlain op then return [op] else throw (.operandsLost op)

/-- The contents of a body's attribute: no exception handlers, and no attributes of its own. -/
def body (b : Body) : Writing Bytes := do
  let parts ← b.instructions.mapM instruction
  let bytes := parts.flatten
  return Bytes.ofU16 b.maxStack ++ Bytes.ofU16 b.maxLocals ++ Bytes.ofU32 (UInt32.ofNat bytes.length) ++ bytes ++
    Bytes.ofU16 0 ++ Bytes.ofU16 0

/-- An attribute whose name has an index. -/
def namedAttribute (name : UInt16) (info : Bytes) : Bytes :=
  Bytes.ofU16 name ++ Bytes.ofU32 (UInt32.ofNat info.length) ++ info

/-- The attributes of a member: its body, if it has one. -/
def memberAttributes : Option Body → Writing Bytes
  | none => return Bytes.ofU16 0
  | some b => do
    let info ← body b
    let name ← text "Code"
    return Bytes.ofU16 1 ++ namedAttribute name info

def member (m : Member) : Writing Bytes := do
  let name ← text m.name
  let descriptor ← text m.descriptor
  let attributes ← memberAttributes m.body
  return Bytes.ofU16 m.access ++ Bytes.ofU16 name ++ Bytes.ofU16 descriptor ++ attributes

def bootstrapEntry (b : BootstrapMethod) : Writing Bytes := do
  let handle ← methodHandle b.handle
  let arguments ← table (fun a => return Bytes.ofU16 (← argument a)) b.arguments
  return Bytes.ofU16 handle ++ arguments

/-- The attributes of the class: the bootstrap methods collected from the bodies, if there are any. -/
def classAttributes : Writing Bytes := do
  let bootstraps := (← get).bootstraps
  if bootstraps.isEmpty then return Bytes.ofU16 0
  else
    let info ← table bootstrapEntry bootstraps
    let name ← text "BootstrapMethods"
    return Bytes.ofU16 1 ++ namedAttribute name info

/-- Everything after the constant pool. -/
def afterPool (c : ClassFile) : Writing Bytes := do
  let name ← className c.name
  let superclass ← match c.superclass with
    | some s => className s
    | none => pure 0
  let interfaces ← table (fun i => return Bytes.ofU16 (← className i)) c.interfaces
  let fields ← table member c.fields
  let methods ← table member c.methods
  let attributes ← classAttributes
  return Bytes.ofU16 c.access ++ Bytes.ofU16 name ++ Bytes.ofU16 superclass ++ interfaces ++ fields ++ methods ++
    attributes

end Writing

/-- The octets of a class file. -/
def encode (c : ClassFile) : Except Unwritable Bytes := do
  let (rest, collected) ← (Writing.afterPool c).run ⟨[], []⟩
  return Bytes.ofU32 0xCAFEBABE ++ Bytes.ofU16 c.minor ++ Bytes.ofU16 c.major ++
    Bytes.ofU16 (UInt16.ofNat (collected.pool.width + 1)) ++ collected.pool.encode ++ rest

end ClassFile
end RenameAudit
