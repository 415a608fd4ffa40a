import Mathlib
import RenameAudit.Proofs.ClassFile.Entries
/-!
# Proofs.ClassFile.Needs — what a class file of a class has to hold

The entries of the constant pool of a class (`ClassFile.entries`), its bootstrap methods (`ClassFile.bootstraps`) and the
sizes of its parts, all by the class alone.  A class fits the format (`ClassFile.Fits`) if these fit their counts and
lengths.
-/
namespace RenameAudit
namespace ClassFile

/-! ## Entries -/

def namedEntries (kind : NameKind) (s : String) : List Entry :=
  [.text s, .named kind s]

def nameAndTypeEntries (name descriptor : String) : List Entry :=
  [.text name, .text descriptor, .nameAndType name descriptor]

def memberEntries (kind : MemberKind) (m : MemberRef) : List Entry :=
  namedEntries .classRef m.owner ++ nameAndTypeEntries m.name m.descriptor ++ [.member kind m]

/-- The kind of constant that refers to a method, of an interface or not. -/
def MemberKind.ofMethod (viaInterface : Bool) : MemberKind :=
  if viaInterface then .interfaceMethod else .method

/-- The kind of constant that a method handle refers to: a field for the handle kinds 1 to 4. -/
def MethodHandle.reference (h : MethodHandle) : MemberKind :=
  if 1 ≤ h.kind.toNat ∧ h.kind.toNat ≤ 4 then .field else .ofMethod h.viaInterface

def MethodHandle.entries (h : MethodHandle) : List Entry :=
  memberEntries h.reference h.target ++ [.handle h.kind h.reference h.target]

/-- The entries of an argument; a computed constant cannot be written. -/
def BootstrapArgument.entries : BootstrapArgument → List Entry
  | .integer value => [.value (.integer value)]
  | .float value => [.value (.float value)]
  | .long value => [.value (.long value)]
  | .double value => [.value (.double value)]
  | .classRef name => namedEntries .classRef name
  | .string s => namedEntries .string s
  | .handle h => h.entries
  | .methodType descriptor => namedEntries .methodType descriptor
  | .dynamic _ _ => []

def BootstrapMethod.entries (b : BootstrapMethod) : List Entry :=
  b.handle.entries ++ b.arguments.flatMap BootstrapArgument.entries

/-- The entries of an instruction, where the bootstrap methods of the class are given. -/
def Instruction.entries (table : List BootstrapMethod) : Instruction → List Entry
  | .slot _ _ | .ret _ | .plain _ => []
  | .type _ name => namedEntries .classRef name
  | .field _ target => memberEntries .field target
  | .call _ target viaInterface => memberEntries (.ofMethod viaInterface) target
  | .dynamic site =>
    nameAndTypeEntries site.name site.descriptor ++
      [.invokeDynamic (UInt16.ofNat (table.findIdx (· == site.bootstrap))) site.name site.descriptor]

def Body.entries (table : List BootstrapMethod) (b : Body) : List Entry :=
  b.instructions.flatMap (Instruction.entries table) ++ [.text "Code"]

def Member.entries (table : List BootstrapMethod) (m : Member) : List Entry :=
  [.text m.name, .text m.descriptor] ++ m.body.elim [] (Body.entries table)

/-- The entries of the attribute for bootstrap methods, which is there if there are any. -/
def tableEntries (table : List BootstrapMethod) : List Entry :=
  if table.isEmpty then [] else table.flatMap BootstrapMethod.entries ++ [.text "BootstrapMethods"]

/-! ## Bootstrap methods -/

/-- Bootstrap methods with one more, unless an equal one is there. -/
def shared (table : List BootstrapMethod) (b : BootstrapMethod) : List BootstrapMethod :=
  if table.any (· == b) then table else table ++ [b]

/-- The bootstrap methods of an instruction: that of a dynamic call. -/
def Instruction.bootstraps : Instruction → List BootstrapMethod
  | .dynamic site => [site.bootstrap]
  | .slot _ _ | .type _ _ | .field _ _ | .call _ _ _ | .ret _ | .plain _ => []

def Body.bootstraps (b : Body) : List BootstrapMethod :=
  b.instructions.flatMap Instruction.bootstraps

def Member.bootstraps (m : Member) : List BootstrapMethod :=
  m.body.elim [] Body.bootstraps

/-- The bootstrap method that an equal one is written as. -/
def BootstrapMethod.representative (table : List BootstrapMethod) (b : BootstrapMethod) : BootstrapMethod :=
  table.getD (table.findIdx (· == b)) b

/-- An instruction that shares its bootstrap method. -/
def Instruction.sharing (table : List BootstrapMethod) : Instruction → Instruction
  | .dynamic site => .dynamic { site with bootstrap := site.bootstrap.representative table }
  | .slot op index => .slot op index
  | .type op name => .type op name
  | .field op target => .field op target
  | .call op target viaInterface => .call op target viaInterface
  | .ret op => .ret op
  | .plain op => .plain op

def Body.sharing (table : List BootstrapMethod) (b : Body) : Body :=
  { b with instructions := b.instructions.map (Instruction.sharing table) }

def Member.sharing (table : List BootstrapMethod) (m : Member) : Member :=
  { m with body := m.body.map (Body.sharing table) }

/-- The bootstrap methods of a class, each once: those of its fields and then those of its methods. -/
def bootstraps (c : ClassFile) : List BootstrapMethod :=
  ((c.fields ++ c.methods).flatMap Member.bootstraps).foldl shared []

/-- A class whose calls share equal bootstrap methods. -/
def sharing (c : ClassFile) : ClassFile :=
  { c with
    fields := c.fields.map (Member.sharing c.bootstraps)
    methods := c.methods.map (Member.sharing c.bootstraps) }

/-- The entries of the constant pool of a class, with repetitions. -/
def entries (c : ClassFile) : List Entry :=
  namedEntries .classRef c.name ++ c.superclass.elim [] (namedEntries .classRef) ++
    c.interfaces.flatMap (namedEntries .classRef) ++ (c.fields ++ c.methods).flatMap (Member.entries c.bootstraps) ++
    tableEntries c.bootstraps

/-! ## Sizes -/

/-- The number of octets of an instruction. -/
def Instruction.size : Instruction → Nat
  | .slot _ index => if index.toNat < 256 then 2 else 4
  | .type op _ => if op = Opcode.multianewarray then 4 else 3
  | .field _ _ => 3
  | .call op _ _ => if op = Opcode.invokeinterface then 5 else 3
  | .dynamic _ => 5
  | .ret _ | .plain _ => 1

/-- The number of octets of the attribute of a body: its limits, three counts, and its instructions. -/
def Body.size (b : Body) : Nat :=
  12 + (b.instructions.map Instruction.size).sum

/-- The number of octets of the attribute for bootstrap methods. -/
def tableSize (table : List BootstrapMethod) : Nat :=
  2 + (table.map fun b => 4 + 2 * b.arguments.length).sum

/-- **A class fits the format**: its texts, its tables and its constant pool fit counts of two octets, and its attributes
fit lengths of four. -/
@[mk_iff]
structure Fits (c : ClassFile) : Prop where
  texts : ∀ s, .text s ∈ c.entries → (ModifiedUtf8.encode s).length < 65536
  pool : (c.entries.dedup.map Entry.width).sum + 1 < 65536
  interfaces : c.interfaces.length < 65536
  fields : c.fields.length < 65536
  methods : c.methods.length < 65536
  bootstraps : c.bootstraps.length < 65536
  arguments : ∀ b ∈ c.bootstraps, b.arguments.length < 65536
  bodies : ∀ m ∈ c.fields ++ c.methods, ∀ b, m.body = some b → b.size < 4294967296
  table : tableSize c.bootstraps < 4294967296

/-! ## What can be written -/

/-- A handle of a field, of the kinds 1 to 4, is not marked as that of an interface. -/
def MethodHandle.Proper (h : MethodHandle) : Prop :=
  1 ≤ h.kind.toNat ∧ h.kind.toNat ≤ 4 → h.viaInterface = false

/-- No computed constant, and no NaN, which does not equal itself. -/
def BootstrapArgument.Proper : BootstrapArgument → Prop
  | .float value => value.isNaN = false
  | .double value => value.isNaN = false
  | .handle h => h.Proper
  | .dynamic _ _ => False
  | .integer _ | .long _ | .classRef _ | .string _ | .methodType _ => True

def BootstrapMethod.Proper (b : BootstrapMethod) : Prop :=
  b.handle.Proper ∧ ∀ a ∈ b.arguments, a.Proper

/-- An instruction whose opcode is of its own kind. -/
def Instruction.Proper : Instruction → Prop
  | .slot op _ => Opcode.namesLocal op = true
  | .type op _ => op.toNat ∈ [0xbb, 0xbd, 0xc0, 0xc1, 0xc5]
  | .field op _ => 0xb2 ≤ op.toNat ∧ op.toNat ≤ 0xb5
  | .call op _ _ => 0xb6 ≤ op.toNat ∧ op.toNat ≤ 0xb9
  | .dynamic site => site.bootstrap.Proper
  | .ret op => 0xac ≤ op.toNat ∧ op.toNat ≤ 0xb1
  | .plain op => Opcode.isPlain op = true

/-- **A class whose instructions can be written**: each has an opcode of its own kind, and the bootstrap methods are
proper. -/
def Proper (c : ClassFile) : Prop :=
  ∀ m ∈ c.fields ++ c.methods, ∀ b, m.body = some b → ∀ i ∈ b.instructions, i.Proper

/-! ## Deciding both -/

instance : DecidablePred MethodHandle.Proper :=
  fun h => inferInstanceAs (Decidable (1 ≤ h.kind.toNat ∧ h.kind.toNat ≤ 4 → h.viaInterface = false))

instance : DecidablePred BootstrapArgument.Proper
  | .float value => inferInstanceAs (Decidable (value.isNaN = false))
  | .double value => inferInstanceAs (Decidable (value.isNaN = false))
  | .handle h => inferInstanceAs (Decidable h.Proper)
  | .dynamic _ _ => instDecidableFalse
  | .integer _ | .long _ | .classRef _ | .string _ | .methodType _ => instDecidableTrue

instance : DecidablePred BootstrapMethod.Proper :=
  fun b => inferInstanceAs (Decidable (b.handle.Proper ∧ ∀ a ∈ b.arguments, a.Proper))

instance : DecidablePred Instruction.Proper
  | .slot op _ => inferInstanceAs (Decidable (Opcode.namesLocal op = true))
  | .type op _ => inferInstanceAs (Decidable (op.toNat ∈ [0xbb, 0xbd, 0xc0, 0xc1, 0xc5]))
  | .field op _ => inferInstanceAs (Decidable (0xb2 ≤ op.toNat ∧ op.toNat ≤ 0xb5))
  | .call op _ _ => inferInstanceAs (Decidable (0xb6 ≤ op.toNat ∧ op.toNat ≤ 0xb9))
  | .dynamic site => inferInstanceAs (Decidable site.bootstrap.Proper)
  | .ret op => inferInstanceAs (Decidable (0xac ≤ op.toNat ∧ op.toNat ≤ 0xb1))
  | .plain op => inferInstanceAs (Decidable (Opcode.isPlain op = true))

/-- A property of the body of a member, if there is one. -/
instance decidableBody {P : Body → Prop} [DecidablePred P] (m : Member) : Decidable (∀ b, m.body = some b → P b) :=
  decidable_of_iff (∀ b ∈ m.body.toList, P b) (by simp only [Option.mem_toList])

instance : DecidablePred Proper :=
  fun c => inferInstanceAs (Decidable (∀ m ∈ c.fields ++ c.methods, ∀ b, m.body = some b → ∀ i ∈ b.instructions, i.Proper))

/-- The text of an entry that is one. -/
def Entry.text? : Entry → Option String
  | .value (.utf8 s) => some s
  | _ => none

theorem Entry.text?_eq_some {e : Entry} {s : String} : e.text? = some s ↔ e = .text s := by
  unfold Entry.text? Entry.text
  split <;> simp_all

instance decidableTexts {P : String → Prop} [DecidablePred P] (entries : List Entry) :
    Decidable (∀ s, .text s ∈ entries → P s) :=
  decidable_of_iff (∀ s ∈ entries.filterMap Entry.text?, P s) (by simp [Entry.text?_eq_some])

instance : DecidablePred Fits :=
  fun c => decidable_of_iff _ (fits_iff c).symm

end ClassFile
end RenameAudit
