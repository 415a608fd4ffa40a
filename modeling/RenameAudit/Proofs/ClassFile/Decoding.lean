import Mathlib
import RenameAudit.Proofs.ClassFile.SelfDelimiting
import RenameAudit.Proofs.ClassFile.Instructions
/-!
# Proofs.ClassFile.Decoding — bodies one after another

Every instruction takes exactly its own octets (`Instruction.delimited_readOperands`), and the place where it stands matters
in two ways only: for the padding of a switch, which is the same at places a multiple of four apart, and in the report of an
invalid opcode (`Instruction.readOperands_moved`).  So the instructions of two bodies one after the other are those of the
first and then those of the second, and faults of the second are reported at their new places (`decode_append`).
-/
namespace RenameAudit
namespace ClassFile

open Reader ListReader

/-- A fault of octets that stand `n` places further on: an invalid opcode is reported there. -/
def Fault.movedBy (n : Nat) : Fault → Fault
  | opcode op offset => opcode op (offset + n)
  | e => e

/-! ## Faults without a place -/

variable {α β : Type}

/-- The faults of a computation name no place. -/
def Placeless (x : Except Fault α) : Prop :=
  ∀ e, x = .error e → ∀ n, e.movedBy n = e

theorem placeless_ok (a : α) : Placeless (.ok a : Except Fault α) :=
  nofun

theorem Placeless.bind {x : Except Fault α} {f : α → Except Fault β} (hx : Placeless x) (hf : ∀ a, Placeless (f a)) :
    Placeless (x >>= f) := by
  cases x with
  | ok a => exact hf a
  | error e => exact fun e' h => hx e' (by cases h; rfl)

theorem exists_ok_of_map {x : Except Fault α} {f : α → β} {b : β} (h : x.map f = .ok b) : ∃ a, x = .ok a ∧ f a = b := by
  cases x with
  | ok a => exact ⟨a, rfl, Except.ok.inj h⟩
  | error e => cases h

namespace Pool

variable (pool : Pool)

theorem placeless_constant (index : UInt16) : Placeless (pool.constant index) := by
  unfold Pool.constant
  split
  · exact placeless_ok _
  · intro e h n
    cases h
    rfl

theorem placeless_kind {index : UInt16} {wanted : Wanted} {found : ConstantKind} :
    Placeless (throw (.poolKind index wanted found) : Except Fault α) := by
  intro e h n
  cases h
  rfl

theorem placeless_text (index : UInt16) : Placeless (pool.text index) := by
  refine (pool.placeless_constant index).bind fun c => ?_
  split
  · exact placeless_ok _
  · exact placeless_kind

theorem placeless_className (index : UInt16) : Placeless (pool.className index) := by
  refine (pool.placeless_constant index).bind fun c => ?_
  split
  · exact pool.placeless_text _
  · exact placeless_kind

theorem placeless_nameAndType (index : UInt16) : Placeless (pool.nameAndType index) := by
  refine (pool.placeless_constant index).bind fun c => ?_
  split
  · exact (pool.placeless_text _).bind fun _ => (pool.placeless_text _).bind fun _ => placeless_ok _
  · exact placeless_kind

theorem placeless_memberOf (owner nat : UInt16) : Placeless (pool.memberOf owner nat) :=
  (pool.placeless_className owner).bind fun _ => (pool.placeless_nameAndType nat).bind fun _ => placeless_ok _

theorem placeless_memberRef (index : UInt16) : Placeless (pool.memberRef index) := by
  refine (pool.placeless_constant index).bind fun c => ?_
  split
  · exact (pool.placeless_memberOf _ _).bind fun _ => placeless_ok _
  · exact (pool.placeless_memberOf _ _).bind fun _ => placeless_ok _
  · exact (pool.placeless_memberOf _ _).bind fun _ => placeless_ok _
  · exact placeless_kind

theorem placeless_invokeDynamic (index : UInt16) : Placeless (pool.invokeDynamic index) := by
  refine (pool.placeless_constant index).bind fun c => ?_
  split
  · exact (pool.placeless_nameAndType _).bind fun _ => placeless_ok _
  · exact placeless_kind

end Pool

/-! ## Readers at another place -/

/-- **A reader and the same reader `n` places on**: it looks at nothing but what it takes, its values have a property, and
`n` places on nothing differs but its faults, which are reported there. -/
structure Relocates (n : Nat) (P : α → Prop) (p q : Reader α) : Prop where
  delimited : Delimited Fault.unexpectedEnd p
  gives : ∀ b a rest, p.run b = .ok (a, rest) → P a
  moved : ∀ b, q.run b = (p.onFault (Fault.movedBy n)).run b

section Relocates

variable {n : Nat} {P : α → Prop} {Q : β → Prop} {p q : Reader α}

theorem Relocates.bind {f g : α → Reader β} (hp : Relocates n P p q) (hf : ∀ a, Relocates n Q (f a) (g a)) :
    Relocates n Q (p >>= f) (q >>= g) where
  delimited := hp.delimited.bind fun a => (hf a).delimited
  gives b c rest h := by
    rw [run_bind] at h
    split at h
    · exact (hf _).gives _ c rest h
    · cases h
  moved b := by
    rw [run_bind, hp.moved b]
    simp only [onFault, run_bind]
    cases p.run b with
    | ok r => exact (hf r.1).moved r.2
    | error e => rfl

theorem relocates_pure {a : α} (ha : P a) : Relocates n P (pure a) (pure a) where
  delimited := delimited_pure a
  gives b a' rest h := by
    cases h
    exact ha
  moved b := rfl

theorem relocates_fail (e : Fault) : Relocates n P (fail e) (fail (e.movedBy n)) :=
  ⟨delimited_fail e, nofun, fun _ => rfl⟩

theorem relocates_lift {x : Except Fault α} (hx : Placeless x) : Relocates n (fun _ => True) (lift x) (lift x) := by
  cases x with
  | ok a => exact relocates_pure trivial
  | error e =>
    have hfail := relocates_fail (n := n) (P := fun _ : α => True) e
    rwa [hx e rfl n] at hfail

theorem relocates_u1 : Relocates n (fun _ => True) u1 u1 where
  delimited := delimited_u1
  gives _ _ _ _ := trivial
  moved b := by cases b <;> rfl

theorem relocates_u2 : Relocates n (fun _ => True) u2 u2 where
  delimited := delimited_u2
  gives _ _ _ _ := trivial
  moved b := by
    match b with
    | [] | [_] => rfl
    | _ :: _ :: _ => rfl

theorem relocates_u4 : Relocates n (fun _ => True) u4 u4 where
  delimited := delimited_u4
  gives _ _ _ _ := trivial
  moved b := by
    match b with
    | [] | [_] | [_, _] | [_, _, _] => rfl
    | _ :: _ :: _ :: _ :: _ => rfl

theorem relocates_take (length : Nat) : Relocates n (fun _ => True) (take length) (take length) where
  delimited := delimited_take length
  gives _ _ _ _ := trivial
  moved b := by
    simp only [take, takeOr, onFault]
    split <;> rfl

theorem relocates_skip (length : Nat) : Relocates n (fun _ => True) (skip length) (skip length) :=
  (relocates_take length).bind fun _ => relocates_pure trivial

end Relocates

/-! ## One instruction -/

/-- A load, a store or a return from a subroutine has the opcode that names its variable. -/
def Instruction.Canonical : Instruction → Prop
  | slot op _ => Opcode.namesLocal op = true
  | _ => True

/-- The opcode that a shape keeps with a local variable names it: the opcode read, or the general one for which it stands. -/
def Shape.NamesLocal (op : UInt8) : Shape → Prop
  | .slot => Opcode.namesLocal op = true
  | .builtIn general _ => Opcode.namesLocal general = true
  | _ => True

theorem Shape.namesLocal_of (op : UInt8) : (Shape.of op).NamesLocal op := by
  unfold Shape.of
  refine iteInduction (motive := NamesLocal op) (fun h => h) fun _ => ?_
  refine iteInduction (motive := NamesLocal op) (fun h => ?_) fun _ => ?_
  · change Opcode.namesLocal (UInt8.ofNat _) = true
    rw [Opcode.namesLocal_iff, UInt8.toNat_ofNat']
    omega
  refine iteInduction (motive := NamesLocal op) (fun h => ?_) fun _ => ?_
  · change Opcode.namesLocal (UInt8.ofNat _) = true
    rw [Opcode.namesLocal_iff, UInt8.toNat_ofNat']
    omega
  -- No other shape has a local variable.
  repeat' refine iteInduction (motive := NamesLocal op) (fun _ => trivial) fun _ => ?_
  trivial

theorem padding_moved (offset : Nat) {n : Nat} (h : 4 ∣ n) : padding (offset + n) = padding offset := by
  unfold padding
  omega

namespace Instruction

variable (pool : Pool) (table : List BootstrapMethod) (op : UInt8) (offset : Nat) {n : Nat}

theorem relocates_readTableSwitch (h : 4 ∣ n) :
    Relocates n Canonical (readTableSwitch op offset) (readTableSwitch op (offset + n)) := by
  unfold readTableSwitch
  rw [padding_moved offset h]
  refine (relocates_skip _).bind fun _ => (relocates_skip 4).bind fun _ => relocates_u4.bind fun low =>
    relocates_u4.bind fun high => ?_
  dsimp only
  split
  · exact relocates_fail .malformedCode
  · exact (relocates_skip _).bind fun _ => relocates_pure trivial

theorem relocates_readLookupSwitch (h : 4 ∣ n) :
    Relocates n Canonical (readLookupSwitch op offset) (readLookupSwitch op (offset + n)) := by
  unfold readLookupSwitch
  rw [padding_moved offset h]
  refine (relocates_skip _).bind fun _ => (relocates_skip 4).bind fun _ => relocates_u4.bind fun pairs => ?_
  dsimp only
  split
  · exact relocates_fail .malformedCode
  · exact (relocates_skip _).bind fun _ => relocates_pure trivial

theorem relocates_readDynamicCall :
    Relocates n Canonical (readDynamicCall pool table) (readDynamicCall pool table) := by
  refine relocates_u2.bind fun index => (relocates_lift (pool.placeless_invokeDynamic index)).bind fun site =>
    (relocates_skip 2).bind fun _ => ?_
  split
  · exact relocates_pure trivial
  · exact relocates_fail (.bootstrapIndex _)

theorem relocates_readWide : Relocates n Canonical (readWide offset) (readWide (offset + n)) := by
  refine relocates_u1.bind fun op => ?_
  split
  · exact relocates_u2.bind fun _ => relocates_pure ‹_›
  · split
    · exact (relocates_skip 4).bind fun _ => relocates_pure trivial
    · rw [Nat.add_right_comm]
      exact relocates_fail (.opcode op (offset + 1))

/-- **An instruction takes exactly its own octets**, and a multiple of four places on it is read as here. -/
theorem relocates_readOperands (h : 4 ∣ n) :
    Relocates n Canonical (readOperands pool table op offset) (readOperands pool table op (offset + n)) := by
  have hlocal := Shape.namesLocal_of op
  unfold readOperands
  split
  · rename_i hshape
    rw [hshape] at hlocal
    exact relocates_u1.bind fun _ => relocates_pure hlocal
  · rename_i hshape
    rw [hshape] at hlocal
    exact relocates_pure hlocal
  · exact (relocates_skip _).bind fun _ => relocates_pure trivial
  · exact relocates_readTableSwitch op offset h
  · exact relocates_readLookupSwitch op offset h
  · exact relocates_pure trivial
  · exact relocates_u2.bind fun index => (relocates_lift (pool.placeless_memberRef index)).bind fun _ =>
      relocates_pure trivial
  · exact relocates_u2.bind fun index => (relocates_lift (pool.placeless_memberRef index)).bind fun _ =>
      relocates_pure trivial
  · exact relocates_u2.bind fun index => (relocates_lift (pool.placeless_memberRef index)).bind fun _ =>
      (relocates_skip 2).bind fun _ => relocates_pure trivial
  · exact relocates_readDynamicCall pool table
  · exact relocates_u2.bind fun index => (relocates_lift (pool.placeless_className index)).bind fun _ =>
      relocates_pure trivial
  · exact relocates_u2.bind fun index => (relocates_lift (pool.placeless_className index)).bind fun _ =>
      (relocates_skip 1).bind fun _ => relocates_pure trivial
  · exact relocates_readWide offset
  · exact relocates_pure trivial
  · exact relocates_fail (.opcode op offset)

/-! ## Bodies -/

variable {pool table op offset}

theorem decodeFrom_cons {rest rest' : Bytes} {i : Instruction}
    (h : (readOperands pool table op offset).run rest = .ok (i, rest')) :
    decodeFrom pool table offset (op :: rest) =
      (decodeFrom pool table (offset + 1 + (rest.length - rest'.length)) rest').map (i :: ·) := by
  rw [decodeFrom]
  split
  · rename_i h'
    cases h.symm.trans h'
    rfl
  · rename_i h'
    cases h.symm.trans h'

theorem decodeFrom_cons_error {rest : Bytes} {e : Fault} (h : (readOperands pool table op offset).run rest = .error e) :
    decodeFrom pool table offset (op :: rest) = .error e := by
  rw [decodeFrom]
  split
  · rename_i h'
    cases h.symm.trans h'
  · rename_i h'
    cases h.symm.trans h'
    rfl

/-- **What follows a body is decoded where the body ends.** -/
theorem decodeFrom_append {a : Bytes} {xs : List Instruction} (b : Bytes) (h : decodeFrom pool table offset a = .ok xs) :
    decodeFrom pool table offset (a ++ b) = (decodeFrom pool table (offset + a.length) b).map (xs ++ ·) := by
  fun_induction decodeFrom pool table offset a generalizing xs with
  | case1 offset =>
    cases h
    change decodeFrom pool table offset b = (decodeFrom pool table offset b).map ([] ++ ·)
    cases decodeFrom pool table offset b <;> rfl
  | case2 offset op rest i rest' hrun ih =>
    obtain ⟨xs', hxs', rfl⟩ := exists_ok_of_map h
    have hreads := relocates_readOperands pool table op offset (Nat.dvd_zero 4)
    have hle := ((readOperands pool table op offset).suffix_of_run hrun).length_le
    have hend : offset + 1 + ((rest ++ b).length - (rest' ++ b).length) = offset + 1 + (rest.length - rest'.length) := by
      simp only [List.length_append]
      omega
    have hlength : offset + 1 + (rest.length - rest'.length) + rest'.length = offset + (op :: rest).length := by
      rw [List.length_cons]
      omega
    rw [List.cons_append, decodeFrom_cons (hreads.delimited.append b hrun), hend, ih hxs', hlength]
    cases decodeFrom pool table (offset + (op :: rest).length) b <;> rfl
  | case3 offset op rest e hrun => cases h

/-- **A body a multiple of four places further on is decoded as here**, its faults reported there. -/
theorem decodeFrom_moved (h : 4 ∣ n) (b : Bytes) :
    decodeFrom pool table (offset + n) b = (decodeFrom pool table offset b).mapError (Fault.movedBy n) := by
  fun_induction decodeFrom pool table offset b with
  | case1 offset =>
    rw [decodeFrom]
    rfl
  | case2 offset op rest i rest' hrun ih =>
    have hmoved := (relocates_readOperands pool table op offset h).moved rest
    simp only [onFault, hrun] at hmoved
    have hend : offset + n + 1 + (rest.length - rest'.length) = offset + 1 + (rest.length - rest'.length) + n := by omega
    rw [decodeFrom_cons hmoved, hend, ih]
    cases decodeFrom pool table (offset + 1 + (rest.length - rest'.length)) rest' <;> rfl
  | case3 offset op rest e hrun =>
    have hmoved := (relocates_readOperands pool table op offset h).moved rest
    simp only [onFault, hrun] at hmoved
    rw [decodeFrom_cons_error hmoved]
    rfl

theorem canonical_of_decodeFrom {b : Bytes} {is : List Instruction} (h : decodeFrom pool table offset b = .ok is) :
    ∀ i ∈ is, i.Canonical := by
  fun_induction decodeFrom pool table offset b generalizing is with
  | case1 offset =>
    cases h
    exact nofun
  | case2 offset op rest i rest' hrun ih =>
    obtain ⟨is', his', rfl⟩ := exists_ok_of_map h
    exact List.forall_mem_cons.2
      ⟨(relocates_readOperands pool table op offset (Nat.dvd_zero 4)).gives _ _ _ hrun, ih his'⟩
  | case3 offset op rest e hrun => cases h

/-- **Bodies one after another are decoded one after another.**  Where the first body ends at a multiple of four, the
instructions of both are those of the first and then those of the second, and a fault of the second is the fault of both,
an invalid opcode being reported as many octets further on as the first body has.  A decoded load, store or return from a
subroutine has the opcode that names its variable, never one with the variable built in. -/
theorem decode_append (pool : Pool) (table : List BootstrapMethod) :
    (∀ a xs, decode pool table a = .ok xs → 4 ∣ a.length →
      (∀ b ys, decode pool table b = .ok ys → decode pool table (a ++ b) = .ok (xs ++ ys)) ∧
      ∀ b e, decode pool table b = .error e → decode pool table (a ++ b) = .error (e.movedBy a.length)) ∧
    ∀ a xs, decode pool table a = .ok xs → ∀ op index, slot op index ∈ xs → Opcode.namesLocal op = true := by
  have hboth : ∀ a xs, decode pool table a = .ok xs → 4 ∣ a.length → ∀ b,
      decode pool table (a ++ b) = ((decode pool table b).mapError (Fault.movedBy a.length)).map (xs ++ ·) := by
    intro a xs ha hlength b
    rw [decode, decodeFrom_append b ha, decodeFrom_moved hlength b]
    rfl
  refine ⟨fun a xs ha hlength => ⟨fun b ys hb => ?_, fun b e hb => ?_⟩, fun a xs ha op index hi => ?_⟩
  · rw [hboth a xs ha hlength b, hb]
    rfl
  · rw [hboth a xs ha hlength b, hb]
    rfl
  · exact canonical_of_decodeFrom ha _ hi

/-- Four loads of one octet. -/
def fourLoads : Bytes :=
  [0x2a, 0x2b, 0x2c, 0x2d]

/-- A load, a switch with two octets of padding, and a return. -/
def switchBody : Bytes :=
  [0x1a, 0xaa, 0, 0, 0, 0, 0, 16, 0, 0, 0, 0, 0, 0, 0, 1, 0, 0, 0, 16, 0, 0, 0, 16, 0xac]

/-- After four loads the switch has as much padding as alone, and an invalid opcode is reported four octets further on. -/
theorem fourLoads_append :
    decode [] [] fourLoads = .ok [.slot 0x19 0, .slot 0x19 1, .slot 0x19 2, .slot 0x19 3] ∧ 4 ∣ fourLoads.length ∧
      decode [] [] switchBody = .ok [.slot 0x15 0, .plain 0xaa, .ret 0xac] ∧
      decode [] [] (fourLoads ++ switchBody) = .ok ([.slot 0x19 0, .slot 0x19 1, .slot 0x19 2, .slot 0x19 3] ++
        [.slot 0x15 0, .plain 0xaa, .ret 0xac]) ∧
      decode [] [] [0x00, 0xcb] = .error (.opcode 0xcb 1) ∧
      decode [] [] (fourLoads ++ [0x00, 0xcb]) = .error (.opcode 0xcb 5) ∧ Opcode.namesLocal 0x15 = true := by
  have hloads : decode [] [] fourLoads = .ok [.slot 0x19 0, .slot 0x19 1, .slot 0x19 2, .slot 0x19 3] := by cbv
  have hswitch : decode [] [] switchBody = .ok [.slot 0x15 0, .plain 0xaa, .ret 0xac] := by cbv
  have hinvalid : decode [] [] [0x00, 0xcb] = .error (.opcode 0xcb 1) := by cbv
  have hlength : 4 ∣ fourLoads.length := by decide
  obtain ⟨happend, hlocal⟩ := decode_append [] []
  obtain ⟨hok, herror⟩ := happend fourLoads _ hloads hlength
  exact ⟨hloads, hlength, hswitch, hok _ _ hswitch, hinvalid, herror _ _ hinvalid,
    hlocal _ _ hswitch 0x15 0 List.mem_cons_self⟩

end Instruction
end ClassFile
end RenameAudit
