import RenameAudit.ClassFile.Reader
import RenameAudit.Text.ModifiedUtf8
/-!
# Constant — the entries of a constant pool

A constant refers to others by index.  Its octets are a tag and its parts; `encode` writes what `read` takes, with one
restriction: a text whose octets number more than a two-octet length can hold is written with its length cut.
-/
namespace RenameAudit
namespace ClassFile

-- Powers of numbers are those of the core library, whatever else is imported.
attribute [local instance (high)] instPowNat

/-- The value of a single-precision constant, kept as its bits so that no NaN loses its payload. -/
structure Single where
  bits : UInt32
  deriving DecidableEq, Repr

/-- The value of a double-precision constant, kept as its bits. -/
structure Double where
  bits : UInt64
  deriving DecidableEq, Repr

namespace Single

/-- The bits without the sign. -/
def magnitude (x : Single) : Nat :=
  x.bits.toNat % 2 ^ (31 : Nat)

def isNaN (x : Single) : Bool :=
  0x7F800000 < x.magnitude

/-- Numbers are compared as numbers: a NaN differs from everything, and the two zeros are equal. -/
instance : BEq Single where
  beq x y := !x.isNaN && !y.isNaN && (x.bits == y.bits || (x.magnitude == 0 && y.magnitude == 0))

end Single

namespace Double

/-- The bits without the sign. -/
def magnitude (x : Double) : Nat :=
  x.bits.toNat % 2 ^ (63 : Nat)

def isNaN (x : Double) : Bool :=
  0x7FF0000000000000 < x.magnitude

/-- Numbers are compared as numbers: a NaN differs from everything, and the two zeros are equal. -/
instance : BEq Double where
  beq x y := !x.isNaN && !y.isNaN && (x.bits == y.bits || (x.magnitude == 0 && y.magnitude == 0))

end Double

/-- An entry of a constant pool.  An index selects another entry of the same pool. -/
inductive Constant where
  | utf8 (text : String)
  | integer (value : Int32)
  | float (value : Single)
  | long (value : Int64)
  | double (value : Double)
  | classRef (name : UInt16)
  | string (text : UInt16)
  | fieldRef (owner nameAndType : UInt16)
  | methodRef (owner nameAndType : UInt16)
  | interfaceMethodRef (owner nameAndType : UInt16)
  | nameAndType (name descriptor : UInt16)
  | methodHandle (kind : UInt8) (reference : UInt16)
  | methodType (descriptor : UInt16)
  | dynamic (bootstrap nameAndType : UInt16)
  | invokeDynamic (bootstrap nameAndType : UInt16)
  | module (name : UInt16)
  | package (name : UInt16)
  deriving DecidableEq, Repr

namespace Constant

/-- The kind of a constant. -/
def kind : Constant → ConstantKind
  | utf8 _ => .utf8
  | integer _ => .integer
  | float _ => .float
  | long _ => .long
  | double _ => .double
  | classRef _ => .classRef
  | string _ => .string
  | fieldRef _ _ => .fieldRef
  | methodRef _ _ => .methodRef
  | interfaceMethodRef _ _ => .interfaceMethodRef
  | nameAndType _ _ => .nameAndType
  | methodHandle _ _ => .methodHandle
  | methodType _ => .methodType
  | dynamic _ _ => .dynamic
  | invokeDynamic _ _ => .invokeDynamic
  | module _ => .module
  | package _ => .package

/-- Whether a constant takes two indices, the second of which selects nothing. -/
def isWide : Constant → Bool
  | long _ => true
  | double _ => true
  | _ => false

/-- The number of indices that a constant takes. -/
def width (c : Constant) : Nat :=
  if c.isWide then 2 else 1

/-- The octets of a constant. -/
def encode : Constant → Bytes
  | utf8 text =>
    let octets := ModifiedUtf8.encode text
    1 :: (Bytes.ofU16 (UInt16.ofNat octets.length) ++ octets)
  | integer value => 3 :: Bytes.ofU32 value.toUInt32
  | float value => 4 :: Bytes.ofU32 value.bits
  | long value => 5 :: Bytes.ofU64 value.toUInt64
  | double value => 6 :: Bytes.ofU64 value.bits
  | classRef name => 7 :: Bytes.ofU16 name
  | string text => 8 :: Bytes.ofU16 text
  | fieldRef owner nat => 9 :: (Bytes.ofU16 owner ++ Bytes.ofU16 nat)
  | methodRef owner nat => 10 :: (Bytes.ofU16 owner ++ Bytes.ofU16 nat)
  | interfaceMethodRef owner nat => 11 :: (Bytes.ofU16 owner ++ Bytes.ofU16 nat)
  | nameAndType name descriptor => 12 :: (Bytes.ofU16 name ++ Bytes.ofU16 descriptor)
  | methodHandle kind reference => 15 :: kind :: Bytes.ofU16 reference
  | methodType descriptor => 16 :: Bytes.ofU16 descriptor
  | dynamic bootstrap nat => 17 :: (Bytes.ofU16 bootstrap ++ Bytes.ofU16 nat)
  | invokeDynamic bootstrap nat => 18 :: (Bytes.ofU16 bootstrap ++ Bytes.ofU16 nat)
  | module name => 19 :: Bytes.ofU16 name
  | package name => 20 :: Bytes.ofU16 name

open Reader ListReader in
/-- The text of a constant: a length of two octets and as many octets. -/
def readText : Reader String := do
  let length ← u2
  let octets ← take length.toNat
  match ModifiedUtf8.decode octets with
  | some text => return text
  | none => fail .modifiedUtf8

open Reader ListReader in
/-- The parts of a constant after its tag. -/
def readParts (tag : UInt8) : Reader Constant :=
  match tag.toNat with
  | 1 => utf8 <$> readText
  | 3 => (integer ·.toInt32) <$> u4
  | 4 => (float ⟨·⟩) <$> u4
  | 5 => (long ·.toInt64) <$> u8
  | 6 => (double ⟨·⟩) <$> u8
  | 7 => classRef <$> u2
  | 8 => string <$> u2
  | 9 => fieldRef <$> u2 <*> u2
  | 10 => methodRef <$> u2 <*> u2
  | 11 => interfaceMethodRef <$> u2 <*> u2
  | 12 => nameAndType <$> u2 <*> u2
  | 15 => methodHandle <$> u1 <*> u2
  | 16 => methodType <$> u2
  | 17 => dynamic <$> u2 <*> u2
  | 18 => invokeDynamic <$> u2 <*> u2
  | 19 => module <$> u2
  | 20 => package <$> u2
  | _ => fail (.poolTag tag)

/-- One constant. -/
def read : Reader Constant := do
  let tag ← Reader.u1
  readParts tag

end Constant
end ClassFile
end RenameAudit
