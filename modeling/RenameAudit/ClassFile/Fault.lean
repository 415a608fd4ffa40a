/-!
# Fault — why a class file is refused

One constructor per cause; `Fault.message` has the words.
-/
namespace RenameAudit
namespace ClassFile

/-- The kinds of constants. -/
inductive ConstantKind where
  | utf8 | integer | float | long | double | classRef | string | fieldRef | methodRef | interfaceMethodRef
  | nameAndType | methodHandle | methodType | dynamic | invokeDynamic | module | package
  deriving DecidableEq, Repr

/-- The name of a kind, as a report writes it. -/
def ConstantKind.text : ConstantKind → String
  | .utf8 => "Utf8"
  | .integer => "Integer"
  | .float => "Float"
  | .long => "Long"
  | .double => "Double"
  | .classRef => "Class"
  | .string => "String"
  | .fieldRef => "Fieldref"
  | .methodRef => "Methodref"
  | .interfaceMethodRef => "InterfaceMethodref"
  | .nameAndType => "NameAndType"
  | .methodHandle => "MethodHandle"
  | .methodType => "MethodType"
  | .dynamic => "Dynamic"
  | .invokeDynamic => "InvokeDynamic"
  | .module => "Module"
  | .package => "Package"

/-- What an index into the constant pool is meant to select. -/
inductive Wanted where
  | utf8 | classRef | nameAndType | memberRef | methodHandle | invokeDynamic | loadable
  deriving DecidableEq, Repr

/-- The name of what was wanted, as a report writes it. -/
def Wanted.text : Wanted → String
  | .utf8 => "Utf8"
  | .classRef => "Class"
  | .nameAndType => "NameAndType"
  | .memberRef => "member reference"
  | .methodHandle => "MethodHandle"
  | .invokeDynamic => "InvokeDynamic"
  | .loadable => "loadable constant"

/-- The parts of a file that have to end where their contents end. -/
inductive Region where
  | file | bootstrapMethods | code
  deriving DecidableEq, Repr

/-- The name of a region, as a report writes it. -/
def Region.text : Region → String
  | .file => "class file"
  | .bootstrapMethods => "BootstrapMethods attribute"
  | .code => "Code attribute"

/-- Why octets are no class file. -/
inductive Fault where
  | unexpectedEnd
  | magic (found : UInt32)
  | poolIndex (index : UInt16)
  | poolTag (tag : UInt8)
  | poolKind (index : UInt16) (wanted : Wanted) (found : ConstantKind)
  | modifiedUtf8
  | opcode (opcode : UInt8) (offset : Nat)
  | bootstrapIndex (index : UInt16)
  | malformedCode
  | duplicateCode
  | trailing (region : Region)
  deriving DecidableEq, Repr

/-- The digit with value `n`, for `n` below sixteen. -/
def hexDigit (n : Nat) : Char :=
  if n < 10 then Char.ofNat (48 + n) else Char.ofNat (87 + n)

/-- The last `width` hexadecimal digits of a number. -/
def hex : Nat → Nat → List Char
  | 0, _ => []
  | width + 1, n => hex width (n / 16) ++ [hexDigit (n % 16)]

/-- A number in hexadecimal digits, after `0x`. -/
def hexText (width n : Nat) : String :=
  String.ofList ('0' :: 'x' :: hex width n)

namespace Fault

/-- The words of the report. -/
def message : Fault → String
  | unexpectedEnd => "unexpected end of input"
  | magic found => "invalid classfile magic: " ++ hexText 8 found.toNat
  | poolIndex index => "invalid constant pool index: " ++ toString index.toNat
  | poolTag tag => "invalid constant pool tag: " ++ toString tag.toNat
  | poolKind index wanted found =>
    "constant pool type mismatch at index " ++ toString index.toNat ++ ": expected " ++ wanted.text ++
      ", found " ++ found.text
  | modifiedUtf8 => "invalid modified UTF-8 constant"
  | opcode op offset => "invalid opcode " ++ hexText 2 op.toNat ++ " at offset " ++ toString offset
  | bootstrapIndex index => "invalid bootstrap method index: " ++ toString index.toNat
  | malformedCode => "malformed Code attribute"
  | duplicateCode => "malformed duplicate Code attribute"
  | trailing region => "trailing bytes after " ++ region.text

end Fault
end ClassFile
end RenameAudit
