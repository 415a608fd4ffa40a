import Mathlib
import RenameAudit.Hierarchy.Forwarding
import RenameAudit.Proofs.Descriptor.Grammar
/-!
# Proofs.Hierarchy.ForwardingShape — which methods forward

The code of a forwarding method loads its receiver, then loads parameters from the first on with casts anywhere between
them (`LoadsFrom`), makes one call and returns.  Checking the code from left to right finds exactly these
(`loadsInOrder_iff`, `callShape?_eq_some`), and the one number that packs the space of arguments and result tells both
apart (`footprint_inj`), so `forwardTarget?` finds a target exactly for that shape (`forwards_iff`).
-/
namespace RenameAudit

open ClassFile

/-! ## Loads and casts -/

namespace ClassFile.Instruction

/-- The local variable that an instruction loads. -/
def loaded? : Instruction → Option Nat
  | slot op index => if Opcode.isLoad op then some index.toNat else none
  | _ => none

/-- An instruction that checks the type of an object. -/
def IsCast : Instruction → Prop
  | type op _ => op = Opcode.checkcast ∨ op = Opcode.instanceof
  | _ => False

end ClassFile.Instruction

open ClassFile.Instruction (loaded? IsCast)

theorem exists_slot_of_loaded? {i : Instruction} {slot : Nat} (h : loaded? i = some slot) :
    ∃ op index, i = .slot op index := by
  cases i with
  | slot op index => exact ⟨op, index, rfl⟩
  | _ => cases h

theorem exists_type_of_isCast {i : Instruction} (h : IsCast i) : ∃ op name, i = .type op name := by
  cases i with
  | type op name => exact ⟨op, name, rfl⟩
  | _ => exact h.elim

/-- **Loads of parameters in their order**, the first of them in a given slot: nothing but loads and casts, no more loads
than parameters, and each load from the slot after those of the parameters before it. -/
structure LoadsFrom (first : Nat) (params : List FieldType) (code : List Instruction) : Prop where
  only : ∀ i ∈ code, IsCast i ∨ (loaded? i).isSome
  length_le : (code.filterMap loaded?).length ≤ params.length
  slot : ∀ k slot, (code.filterMap loaded?)[k]? = some slot → slot = first + ((params.take k).map FieldType.slots).sum

namespace LoadsFrom

variable {first slot : Nat} {p : FieldType} {params : List FieldType} {i : Instruction} {code : List Instruction}

theorem nil : LoadsFrom first params [] :=
  ⟨nofun, Nat.zero_le _, fun k slot h => by cases h⟩

theorem cons_cast_iff (hi : loaded? i = none) :
    LoadsFrom first params (i :: code) ↔ IsCast i ∧ LoadsFrom first params code := by
  have hloads : (i :: code).filterMap loaded? = code.filterMap loaded? := List.filterMap_cons_none hi
  constructor
  · intro h
    have hcast := h.only i List.mem_cons_self
    rw [hi, Option.isSome_none] at hcast
    exact ⟨hcast.resolve_right Bool.false_ne_true, fun j hj => h.only j (List.mem_cons_of_mem i hj), hloads ▸ h.length_le,
      hloads ▸ h.slot⟩
  · rintro ⟨hcast, h⟩
    exact ⟨List.forall_mem_cons.2 ⟨.inl hcast, h.only⟩, hloads ▸ h.length_le, hloads ▸ h.slot⟩

theorem not_cons_load (hi : loaded? i = some slot) : ¬ LoadsFrom first [] (i :: code) := fun h => by
  have hlength := h.length_le
  rw [List.filterMap_cons_some hi] at hlength
  exact absurd hlength (by simp)

theorem cons_load_iff (hi : loaded? i = some slot) :
    LoadsFrom first (p :: params) (i :: code) ↔ slot = first ∧ LoadsFrom (first + p.slots) params code := by
  have hloads : (i :: code).filterMap loaded? = slot :: code.filterMap loaded? := List.filterMap_cons_some hi
  constructor
  · intro h
    have hlength := h.length_le
    have hslot := h.slot
    rw [hloads] at hlength hslot
    refine ⟨hslot 0 slot rfl, fun j hj => h.only j (List.mem_cons_of_mem i hj), Nat.le_of_succ_le_succ hlength, ?_⟩
    intro k slot' hk
    rw [hslot (k + 1) slot' hk, List.take_succ_cons, List.map_cons, List.sum_cons, Nat.add_assoc]
  · rintro ⟨rfl, h⟩
    refine ⟨List.forall_mem_cons.2 ⟨.inr (hi ▸ rfl), h.only⟩, ?_, ?_⟩
    · rw [hloads]
      exact Nat.succ_le_succ h.length_le
    · intro k slot' hk
      rw [hloads] at hk
      cases k with
      | zero => exact (Option.some.inj hk).symm
      | succ k =>
        rw [h.slot k slot' hk, List.take_succ_cons, List.map_cons, List.sum_cons, Nat.add_assoc]

end LoadsFrom

/-- **The check from left to right accepts exactly the loads in order.** -/
theorem loadsInOrder_iff {first : Nat} {params : List FieldType} {code : List Instruction} :
    loadsInOrder first params code = true ↔ LoadsFrom first params code := by
  fun_induction loadsInOrder first params code with
  | case1 first params => exact iff_of_true rfl .nil
  | case2 first p params op index rest ih =>
    by_cases hop : Opcode.isLoad op = true
    · have hi : loaded? (.slot op index) = some index.toNat := if_pos hop
      rw [LoadsFrom.cons_load_iff hi, hop, Bool.true_and, Bool.and_eq_true, beq_iff_eq, ih]
    · have hi : loaded? (.slot op index) = none := if_neg hop
      rw [LoadsFrom.cons_cast_iff hi, Bool.eq_false_iff.2 hop]
      exact iff_of_false Bool.false_ne_true fun h => h.1
  | case3 first params op name rest ih =>
    rw [LoadsFrom.cons_cast_iff rfl, Bool.and_eq_true, Bool.or_eq_true, beq_iff_eq, beq_iff_eq, ih]
    rfl
  | case4 code first params hnil hslot htype =>
    refine iff_of_false Bool.false_ne_true fun h => ?_
    cases code with
    | nil => exact hnil rfl
    | cons i rest =>
      cases hi : loaded? i with
      | some slot =>
        cases params with
        | nil => exact LoadsFrom.not_cons_load hi h
        | cons p params =>
          obtain ⟨op, index, rfl⟩ := exists_slot_of_loaded? hi
          exact hslot p params op index rest rfl rfl
      | none =>
        obtain ⟨op, name, rfl⟩ := exists_type_of_isCast ((LoadsFrom.cons_cast_iff hi).1 h).1
        exact htype op name rest rfl

/-! ## The code -/

/-- **The shape of a call**: the receiver, other instructions, one call, one return. -/
theorem callShape?_eq_some {code loads : List Instruction} {target : MemberRef} :
    callShape? code = some (loads, target) ↔ ∃ op viaInterface ret,
      code = .slot Opcode.aload 0 :: (loads ++ [.call op target viaInterface, .ret ret]) := by
  constructor
  · intro h
    unfold callShape? at h
    split at h
    · rename_i op index rest
      split at h
      · rename_i hfirst
        obtain ⟨rfl, rfl⟩ := hfirst
        split at h
        · rename_i ret op target' viaInterface reversed hrest
          cases h
          refine ⟨op, viaInterface, ret, congrArg _ ?_⟩
          rw [← List.reverse_reverse rest, hrest]
          simp
        · cases h
      · cases h
    · cases h
  · rintro ⟨op, viaInterface, ret, rfl⟩
    simp [callShape?]

/-! ## The space of arguments and results -/

namespace MethodType

/-- **The packed number tells arguments and result apart.** -/
theorem footprint_inj {m m' : MethodType} :
    m.footprint = m'.footprint ↔ m.paramSlots = m'.paramSlots ∧ m.result.slots = m'.result.slots := by
  have hm := m.result.slots_le_two
  have hm' := m'.result.slots_le_two
  simp only [footprint]
  omega

theorem paramSlots_le (m : MethodType) : m.paramSlots ≤ 2 * m.text.length := by
  -- Every parameter has a letter of its own and takes two slots at the most.
  have hparams : ∀ params : List FieldType,
      (params.map FieldType.slots).sum ≤ 2 * (params.flatMap FieldType.chars).length := by
    intro params
    induction params with
    | nil => exact Nat.zero_le _
    | cons t params ih =>
      have hslots := t.slots_le_two
      have hchars := List.length_pos_iff.2 t.chars_ne_nil
      rw [List.map_cons, List.sum_cons, List.flatMap_cons, List.length_append]
      omega
  have hlength : m.text.length = m.chars.length := by rw [text, String.length_ofList]
  have hm := hparams m.params
  simp only [hlength, chars, List.length_cons, List.length_append]
  rw [paramSlots]
  omega

/-- **The packed number has the space of the result in its two low bits** and that of the arguments above them, and for a
descriptor that a class file can hold it fits 32 bits. -/
theorem footprint_packed (m : MethodType) :
    m.footprint = (m.paramSlots + 1) <<< 2 ||| m.result.slots ∧ (m.text.length ≤ 65535 → m.footprint < 4294967296) := by
  have hresult := m.result.slots_le_two
  have hparams := m.paramSlots_le
  constructor
  · rw [← Nat.shiftLeft_add_eq_or_of_lt (by omega), Nat.shiftLeft_eq, footprint]
    omega
  · intro hlength
    rw [footprint]
    omega

end MethodType

/-! ## Methods that forward -/

/-- The flags of a method that may forward. -/
theorem mayForward_iff {access : Access} {isLambda : Bool} :
    (isLambda || !(Access.isSynthetic access || Access.isBridge access) || Access.isStatic access) = false ↔
      isLambda = false ∧ (Access.isSynthetic access = true ∨ Access.isBridge access = true) ∧
        Access.isStatic access = false := by
  rw [Bool.or_eq_false_iff, Bool.or_eq_false_iff, Bool.not_eq_false', Bool.or_eq_true, and_assoc]

/-- The checks of the arguments against the parameters, and of the space that both methods take. -/
theorem passesOn_iff {own called : MethodType} {loads : List Instruction} :
    (loadsInOrder 1 own.params loads && called.footprint == own.footprint) = true ↔
      LoadsFrom 1 own.params loads ∧ called.paramSlots = own.paramSlots ∧ called.result.slots = own.result.slots := by
  rw [Bool.and_eq_true, beq_iff_eq, MethodType.footprint_inj, loadsInOrder_iff]

/-- **The methods that forward, exactly.**  A method forwards to a target if and only if it is no lambda body, is made by the
compiler and has a receiver, has a method descriptor, and its code loads the receiver, loads parameters in their order with
casts anywhere between them, calls the target, whose arguments and result take the space of its own, and returns. -/
theorem forwards_iff (access : Access) (descriptor : String) (code : List Instruction) (isLambda : Bool)
    (target : MemberRef) :
    forwardTarget? access descriptor code isLambda = some target ↔
      (isLambda = false ∧ (Access.isSynthetic access = true ∨ Access.isBridge access = true) ∧
        Access.isStatic access = false) ∧
      ∃ own called : MethodType, MethodType.parse descriptor = .ok own ∧ MethodType.parse target.descriptor = .ok called ∧
        (∃ loads op viaInterface ret,
          code = .slot Opcode.aload 0 :: (loads ++ [.call op target viaInterface, .ret ret]) ∧
          LoadsFrom 1 own.params loads) ∧
        called.paramSlots = own.paramSlots ∧ called.result.slots = own.result.slots := by
  simp only [MethodType.parse_eq_ok_iff]
  constructor
  · intro h
    unfold forwardTarget? at h
    split at h
    · cases h
    · rename_i hflags
      split at h
      · rename_i own loads target' hown hshape
        split at h
        · rename_i called hcalled
          split at h
          · rename_i hchecks
            cases h
            obtain ⟨hloads, hspace⟩ := passesOn_iff.1 hchecks
            obtain ⟨op, viaInterface, ret, hcode⟩ := callShape?_eq_some.1 hshape
            exact ⟨mayForward_iff.1 (Bool.eq_false_iff.2 hflags), own, called, hown, hcalled,
              ⟨loads, op, viaInterface, ret, hcode, hloads⟩, hspace⟩
          · cases h
        · cases h
      · cases h
  · rintro ⟨hflags, own, called, hown, hcalled, ⟨loads, op, viaInterface, ret, hcode, hloads⟩, hspace⟩
    have hshape := callShape?_eq_some.2 ⟨op, viaInterface, ret, hcode⟩
    simp only [forwardTarget?, mayForward_iff.2 hflags, hown, hshape, hcalled, passesOn_iff.2 ⟨hloads, hspace⟩,
      Bool.false_eq_true, if_false, if_true]

/-- A cast may stand before the first load, and the last parameter may be left out. -/
example : forwardTarget? 0x1040 "(Ljava/lang/Object;JI)Ljava/lang/Object;"
    [.slot 0x19 0, .type 0xc0 "a/B", .slot 0x19 1, .slot 0x16 2, .call 0xb6 ⟨"a/B", "m", "(La/C;JI)La/D;"⟩ false, .ret 0xb0]
    false = some ⟨"a/B", "m", "(La/C;JI)La/D;"⟩ := by
  cbv

end RenameAudit
