import Mathlib
import RenameAudit.ClassFile.Decode
import RenameAudit.Proofs.ClassFile.Equality
import RenameAudit.Proofs.ClassFile.Interning
import RenameAudit.Proofs.ClassFile.ReadingBack
/-!
# Proofs.ClassFile.Instructions — written bodies are decoded

The opcode of a written instruction has the shape of its kind (`Shape.of_field` and its siblings), so the operands that
follow are read as they were written (`Written`).  Since that does not depend on the offset, instructions written one
after another are decoded one after another (`decodeFrom_written`).
-/
namespace RenameAudit
namespace ClassFile

open ListReader Reader

/-! ## The shapes of opcodes -/

namespace Opcode

variable {op : UInt8}

theorem namesLocal_iff : namesLocal op = true ↔
    (0x15 ≤ op.toNat ∧ op.toNat ≤ 0x19) ∨ (0x36 ≤ op.toNat ∧ op.toNat ≤ 0x3a) ∨ op.toNat = 0xa9 := by
  simp [namesLocal, isLoad, isStore, or_assoc]

theorem isPlain_iff : isPlain op = true ↔
    op.toNat ≤ 0x0f ∨ (0x2e ≤ op.toNat ∧ op.toNat ≤ 0x35) ∨ (0x4f ≤ op.toNat ∧ op.toNat ≤ 0x83) ∨
      (0x85 ≤ op.toNat ∧ op.toNat ≤ 0x98) ∨ op.toNat = 0xbe ∨ op.toNat = 0xbf ∨ op.toNat = 0xc2 ∨ op.toNat = 0xc3 := by
  simp [isPlain, or_assoc]

end Opcode

namespace Shape

variable {op : UInt8}

theorem of_slot (h : Opcode.namesLocal op = true) : Shape.of op = .slot :=
  if_pos h

theorem of_type (h : op.toNat ∈ [0xbb, 0xbd, 0xc0, 0xc1]) : Shape.of op = .type := by
  simp only [List.mem_cons, List.not_mem_nil, or_false] at h
  simp (disch := omega) only [Shape.of, Opcode.namesLocal_iff, if_neg, if_pos]

theorem of_field (h : 0xb2 ≤ op.toNat ∧ op.toNat ≤ 0xb5) : Shape.of op = .field := by
  simp (disch := omega) only [Shape.of, Opcode.namesLocal_iff, if_neg, if_pos]

theorem of_call (h : 0xb6 ≤ op.toNat ∧ op.toNat ≤ 0xb8) : Shape.of op = .call := by
  simp (disch := omega) only [Shape.of, Opcode.namesLocal_iff, if_neg, if_pos]

theorem of_ret (h : 0xac ≤ op.toNat ∧ op.toNat ≤ 0xb1) : Shape.of op = .ret := by
  simp (disch := omega) only [Shape.of, Opcode.namesLocal_iff, if_neg, if_pos]

theorem of_plain (h : Opcode.isPlain op = true) : Shape.of op = .plain := by
  have hplain := h
  rw [Opcode.isPlain_iff] at hplain
  simp (disch := omega) only [Shape.of, Opcode.namesLocal_iff, if_neg, if_pos]

end Shape

/-! ## One instruction -/

/-- **An instruction is written**: its octets are as many as it needs, and after its opcode its operands are read back, at
any offset. -/
def Instruction.Written (pool : Pool) (table : List BootstrapMethod) (i : Instruction) (bytes : Bytes) : Prop :=
  bytes.length = i.size ∧ ∃ op operands, bytes = op :: operands ∧
    ∀ offset, Reads (Instruction.readOperands pool table op offset) operands (i.sharing table)

namespace Instruction

variable {pool : Pool} {table : List BootstrapMethod}

theorem written_slot {op : UInt8} (hop : Opcode.namesLocal op = true) {index : UInt16} (h : index.toNat < 256) :
    Written pool table (.slot op index) [op, index.toUInt8] := by
  refine ⟨(if_pos h).symm, op, [index.toUInt8], rfl, fun offset => ?_⟩
  have hindex : index.toUInt8.toUInt16 = index := by
    apply UInt16.toNat_inj.1
    rw [UInt8.toNat_toUInt16, UInt16.toNat_toUInt8]
    omega
  rw [readOperands, Shape.of_slot hop]
  refine (reads_u1 index.toUInt8).bind_last ?_
  rw [hindex]
  exact reads_pure _

theorem written_wide {op : UInt8} (hop : Opcode.namesLocal op = true) {index : UInt16} (h : ¬ index.toNat < 256) :
    Written pool table (.slot op index) (Opcode.wide :: op :: Bytes.ofU16 index) := by
  refine ⟨(if_neg h).symm, Opcode.wide, op :: Bytes.ofU16 index, rfl, fun offset => ?_⟩
  refine (reads_u1 op).bind (f := fun op => _) ?_
  rw [if_pos hop]
  exact (reads_u2 index).bind_last (reads_pure _)

theorem written_ret {op : UInt8} (hop : 0xac ≤ op.toNat ∧ op.toNat ≤ 0xb1) : Written pool table (.ret op) [op] := by
  refine ⟨rfl, op, [], rfl, fun offset => ?_⟩
  rw [readOperands, Shape.of_ret hop]
  exact reads_pure _

theorem written_plain {op : UInt8} (hop : Opcode.isPlain op = true) : Written pool table (.plain op) [op] := by
  refine ⟨rfl, op, [], rfl, fun offset => ?_⟩
  rw [readOperands, Shape.of_plain hop]
  exact reads_pure _

theorem written_field {op : UInt8} (hop : 0xb2 ≤ op.toNat ∧ op.toNat ≤ 0xb5) {target : MemberRef} {index : UInt16}
    (h : Stands pool index (.member .field target)) :
    Written pool table (.field op target) (op :: Bytes.ofU16 index) := by
  refine ⟨rfl, op, Bytes.ofU16 index, rfl, fun offset => ?_⟩
  rw [readOperands, Shape.of_field hop]
  exact (reads_u2 index).bind_last (Reads.after_lift h.memberRef (reads_pure _))

theorem written_type {op : UInt8} (hop : op.toNat ∈ [0xbb, 0xbd, 0xc0, 0xc1, 0xc5]) {name : String} {index : UInt16}
    (h : Stands pool index (.named .classRef name)) :
    Written pool table (.type op name)
      (op :: (Bytes.ofU16 index ++ if op = Opcode.multianewarray then [1] else [])) := by
  by_cases harray : op = Opcode.multianewarray
  · subst harray
    refine ⟨rfl, Opcode.multianewarray, Bytes.ofU16 index ++ [1], rfl, fun offset => ?_⟩
    exact (reads_u2 index).bind (Reads.after_lift h.className ((reads_skip [1] rfl).bind_last (reads_pure _)))
  · have hother : op.toNat ∈ [0xbb, 0xbd, 0xc0, 0xc1] := by
      have hne : op.toNat ≠ 0xc5 := fun heq => harray (UInt8.toNat_inj.1 heq)
      simpa only [List.mem_cons, List.not_mem_nil, or_false, hne] using hop
    rw [if_neg harray]
    refine ⟨(if_neg harray).symm, op, Bytes.ofU16 index ++ [], rfl, fun offset => ?_⟩
    rw [readOperands, Shape.of_type hother]
    exact (reads_u2 index).bind (Reads.after_lift h.className (reads_pure _))

theorem written_call {op : UInt8} (hop : 0xb6 ≤ op.toNat ∧ op.toNat ≤ 0xb9) {target : MemberRef} {viaInterface : Bool}
    {index : UInt16} (h : Stands pool index (.member (.ofMethod viaInterface) target)) :
    Written pool table (.call op target viaInterface)
      (op :: (Bytes.ofU16 index ++
        if op = Opcode.invokeinterface then Writing.interfaceCount target.descriptor else [])) := by
  have href := h.memberRef
  have hvia : (MemberKind.ofMethod viaInterface == .interfaceMethod) = viaInterface := by cases viaInterface <;> rfl
  rw [hvia] at href
  by_cases hinterface : op = Opcode.invokeinterface
  · subst hinterface
    refine ⟨rfl, Opcode.invokeinterface, Bytes.ofU16 index ++ Writing.interfaceCount target.descriptor, rfl,
      fun offset => ?_⟩
    refine (reads_u2 index).bind (Reads.after_lift href ?_)
    exact (reads_skip (Writing.interfaceCount target.descriptor) rfl).bind_last (reads_pure _)
  · have hother : 0xb6 ≤ op.toNat ∧ op.toNat ≤ 0xb8 := by
      have hne : op.toNat ≠ 0xb9 := fun heq => hinterface (UInt8.toNat_inj.1 heq)
      omega
    rw [if_neg hinterface]
    refine ⟨(if_neg hinterface).symm, op, Bytes.ofU16 index ++ [], rfl, fun offset => ?_⟩
    rw [readOperands, Shape.of_call hother]
    exact (reads_u2 index).bind (Reads.after_lift href (reads_pure _))

theorem written_dynamic {site : CallSite} {index number : UInt16}
    (h : Stands pool index (.invokeDynamic number site.name site.descriptor))
    (htable : table[number.toNat]? = some (site.bootstrap.representative table)) :
    Written pool table (.dynamic site) (Opcode.invokedynamic :: (Bytes.ofU16 index ++ [0, 0])) := by
  refine ⟨rfl, Opcode.invokedynamic, Bytes.ofU16 index ++ [0, 0], rfl, fun offset => ?_⟩
  refine (reads_u2 index).bind (Reads.after_lift h.lookup_invokeDynamic ((reads_skip [0, 0] rfl).bind_last ?_))
  rw [htable]
  exact reads_pure _

end Instruction

/-- **A proper instruction is written.** -/
theorem writes_instruction {plan : Plan} {pre : Pool → Prop} {bs : List BootstrapMethod} {i : Instruction}
    (hproper : i.Proper) (hneeded : i.entries plan.table ⊆ plan.needed)
    (htable : i.bootstraps.foldl shared bs <+: plan.table) :
    Writes plan pre bs (Writing.instruction i) (i.bootstraps.foldl shared bs)
      fun pool bytes => i.Written pool plan.table bytes := by
  cases i with
  | slot op index =>
    rw [Writing.instruction]
    split
    · exact .pure fun _ _ => Instruction.written_slot hproper ‹_›
    · exact .pure fun _ _ => Instruction.written_wide hproper ‹_›
  | type op name =>
    exact (writes_className hneeded).bind fun _ => .pure fun _ hpre => Instruction.written_type hproper hpre.2
  | field op target =>
    exact (writes_memberRef hneeded).bind fun _ => .pure fun _ hpre => Instruction.written_field hproper hpre.2
  | call op target viaInterface =>
    rw [Writing.instruction, methodKind_eq]
    exact (writes_memberRef hneeded).bind fun _ => .pure fun _ hpre => Instruction.written_call hproper hpre.2
  | dynamic site =>
    rw [Instruction.entries, List.append_subset] at hneeded
    obtain ⟨hnat, hsite⟩ := hneeded
    have hb : (site.bootstrap == site.bootstrap) = true := hproper.beq_self
    refine (writes_bootstrap hb htable).bind_known ?_
    refine (writes_nameAndType hnat).bind fun nat => (writes_intern (hsite List.mem_cons_self)
      fun _ _ hpre hget => .invokeDynamic hget hpre.2).bind fun index => .pure fun pool hpre => ?_
    obtain ⟨hrep, -⟩ := getElem?_representative hb htable
    have hlt := (List.getElem?_eq_some_iff.1 hrep).1
    have hnumber : (UInt16.ofNat (plan.table.findIdx (· == site.bootstrap))).toNat =
        plan.table.findIdx (· == site.bootstrap) := UInt16.toNat_ofNat_of_lt' (hlt.trans plan.table_fits)
    exact Instruction.written_dynamic hpre.2 (by rw [hnumber]; exact hrep)
  | ret op => exact .pure fun _ _ => Instruction.written_ret hproper
  | plain op =>
    rw [Writing.instruction, if_pos (show Opcode.isPlain op = true from hproper)]
    exact .pure fun _ _ => Instruction.written_plain hproper

/-! ## Bodies -/

theorem Instruction.decodeFrom_written {pool : Pool} {table : List BootstrapMethod} {is : List Instruction}
    {parts : List Bytes} (h : List.Forall₂ (Instruction.Written pool table) is parts) (offset : Nat) :
    decodeFrom pool table offset parts.flatten = .ok (is.map (Instruction.sharing table)) := by
  induction h generalizing offset with
  | nil => rw [List.flatten_nil, decodeFrom]; rfl
  | @cons i part is parts hpart _ ih =>
    obtain ⟨-, op, operands, rfl, hreads⟩ := hpart
    have hrun := hreads offset parts.flatten
    rw [List.flatten_cons, List.cons_append, decodeFrom]
    split
    · rename_i hrun'
      cases hrun.symm.trans hrun'
      rw [ih]
      rfl
    · rename_i hrun'
      cases hrun.symm.trans hrun'

theorem length_flatten_of_sizes {α : Type} {size : α → Nat} {as : List α} {parts : List Bytes}
    (h : List.Forall₂ (fun a part => part.length = size a) as parts) :
    parts.flatten.length = (as.map size).sum := by
  induction h with
  | nil => rfl
  | cons hpart _ ih => rw [List.flatten_cons, List.length_append, hpart, ih, List.map_cons, List.sum_cons]

theorem Reader.all_of_reads {α : Type} {p : Reader α} {bytes : Bytes} {a : α} (h : Reads p bytes a) (region : Region) :
    p.all region bytes = .ok a := by
  have hrun := h []
  rw [List.append_nil] at hrun
  rw [Reader.all, hrun]

theorem Body.reads_layout (maxStack maxLocals : UInt16) {bytes : Bytes} (h : bytes.length < 4294967296) :
    Reads Body.readLayout (Bytes.ofU16 maxStack ++ Bytes.ofU16 maxLocals ++
      Bytes.ofU32 (UInt32.ofNat bytes.length) ++ bytes ++ Bytes.ofU16 0 ++ Bytes.ofU16 0)
      (maxStack, maxLocals, bytes) := by
  have hlength : (UInt32.ofNat bytes.length).toNat = bytes.length := UInt32.toNat_ofNat_of_lt' h
  simp only [List.append_assoc]
  refine (reads_u2 maxStack).bind ((reads_u2 maxLocals).bind ((reads_u4 _).bind ((reads_take bytes hlength).bind
    ((reads_u2 0).bind ?_))))
  have hattributes {item : Reader Unit} : Reads (Reader.table item) (Bytes.ofU16 0) [] :=
    (reads_u2 0).bind_last (reads_pure [])
  have hhandlers : Reads (skip ((0 : UInt16).toNat * 8)) [] () := reads_skip [] rfl
  exact hhandlers.bind (hattributes.bind_last (reads_pure _))

/-- **A written body is read back**, its attribute as long as it needs. -/
theorem writes_body {plan : Plan} {pre : Pool → Prop} {bs : List BootstrapMethod} {b : Body}
    (hproper : ∀ i ∈ b.instructions, i.Proper) (hneeded : b.entries plan.table ⊆ plan.needed)
    (hsize : b.size < 4294967296) (htable : b.bootstraps.foldl shared bs <+: plan.table) :
    Writes plan pre bs (Writing.body b) (b.bootstraps.foldl shared bs) fun pool info =>
      info.length = b.size ∧ Body.parse pool plan.table info = .ok (b.sharing plan.table) := by
  rw [Body.bootstraps, List.foldl_flatMap] at htable ⊢
  refine (Writes.mapM _ (fun bs i => prefix_foldl_shared bs i.bootstraps) (fun i hi bs htable => writes_instruction
    (hproper i hi) ?_ htable) htable).bind fun parts => .pure fun pool hpre => ?_
  · exact fun e he => hneeded (List.mem_append_left _ (List.mem_flatMap.2 ⟨i, hi, he⟩))
  · have hlength : parts.flatten.length = (b.instructions.map Instruction.size).sum :=
      length_flatten_of_sizes (hpre.2.imp fun _ _ hpart => hpart.1)
    rw [Body.size] at hsize
    refine ⟨?_, ?_⟩
    · simp only [List.length_append, Bytes.length_ofU16, Bytes.length_ofU32, hlength, Body.size]
      omega
    · have hfits : parts.flatten.length < 4294967296 := by omega
      rw [Body.parse, Reader.all_of_reads (Body.reads_layout b.maxStack b.maxLocals hfits)]
      change (do return Body.mk _ _ (← Instruction.decode pool plan.table parts.flatten)) = _
      rw [Instruction.decode, Instruction.decodeFrom_written hpre.2]
      rfl

end ClassFile
end RenameAudit
