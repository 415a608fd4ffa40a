import RenameAudit.Proofs.ClassFile.Interning
/-!
# Proofs.ClassFile.Equality — what equals itself

Numbers are compared as numbers, so a class with a NaN among its constants does not equal itself.  Proper bootstrap methods
do (`BootstrapMethod.Proper.beq_self`).
-/
namespace RenameAudit
namespace ClassFile

theorem Single.beq_self {x : Single} (h : x.isNaN = false) : (x == x) = true := by
  change (!x.isNaN && !x.isNaN && (x.bits == x.bits || (x.magnitude == 0 && x.magnitude == 0))) = true
  rw [h, beq_self_eq_true]
  rfl

theorem Double.beq_self {x : Double} (h : x.isNaN = false) : (x == x) = true := by
  change (!x.isNaN && !x.isNaN && (x.bits == x.bits || (x.magnitude == 0 && x.magnitude == 0))) = true
  rw [h, beq_self_eq_true]
  rfl

theorem BootstrapArgument.Proper.beq_self {a : BootstrapArgument} (h : a.Proper) : (a == a) = true := by
  cases a with
  | integer value => exact beq_self_eq_true value
  | float value => exact Single.beq_self h
  | long value => exact beq_self_eq_true value
  | double value => exact Double.beq_self h
  | classRef name => exact beq_self_eq_true name
  | string s => exact beq_self_eq_true s
  | handle handle => exact beq_self_eq_true handle
  | methodType d => exact beq_self_eq_true d
  | dynamic name descriptor => exact h.elim

theorem beq_map_of_forall {α : Type} [BEq α] {f : α → α} {as : List α} (h : ∀ a ∈ as, (f a == a) = true) :
    (as.map f == as) = true := by
  induction as with
  | nil => rfl
  | cons a as ih =>
    rw [List.map_cons, List.cons_beq_cons, h a List.mem_cons_self, ih fun b hb => h b (List.mem_cons_of_mem a hb)]
    rfl

theorem BootstrapMethod.Proper.beq_self {b : BootstrapMethod} (h : b.Proper) : (b == b) = true := by
  have harguments : (b.arguments.map id == b.arguments) = true :=
    beq_map_of_forall fun a ha => (h.2 a ha).beq_self
  rw [List.map_id] at harguments
  change (b.handle == b.handle && b.arguments == b.arguments) = true
  rw [harguments, beq_self_eq_true]
  rfl

/-! ## Shared bootstrap methods -/

section Sharing

variable {table : List BootstrapMethod}

theorem Instruction.sharing_beq {i : Instruction} (h : ∀ b ∈ i.bootstraps, (b.representative table == b) = true) :
    (i.sharing table == i) = true := by
  cases i with
  | dynamic site =>
    have hsite := h site.bootstrap List.mem_cons_self
    change (site.name == site.name && (site.descriptor == site.descriptor &&
      site.bootstrap.representative table == site.bootstrap)) = true
    rw [hsite, beq_self_eq_true, beq_self_eq_true]
    rfl
  | slot op index =>
    change (op == op && index == index) = true
    simp only [beq_self_eq_true, Bool.and_self]
  | type op name =>
    change (op == op && name == name) = true
    simp only [beq_self_eq_true, Bool.and_self]
  | field op target =>
    change (op == op && target == target) = true
    simp only [beq_self_eq_true, Bool.and_self]
  | call op target viaInterface =>
    change (op == op && (target == target && viaInterface == viaInterface)) = true
    simp only [beq_self_eq_true, Bool.and_self]
  | ret op | plain op =>
    change (op == op) = true
    exact beq_self_eq_true op

theorem Body.sharing_beq {b : Body} (h : ∀ m ∈ b.bootstraps, (m.representative table == m) = true) :
    (b.sharing table == b) = true := by
  have hinstructions : (b.instructions.map (Instruction.sharing table) == b.instructions) = true :=
    beq_map_of_forall fun i hi => Instruction.sharing_beq fun m hm => h m (List.mem_flatMap.2 ⟨i, hi, hm⟩)
  change (b.maxStack == b.maxStack && (b.maxLocals == b.maxLocals &&
    b.instructions.map (Instruction.sharing table) == b.instructions)) = true
  simp only [hinstructions, beq_self_eq_true, Bool.and_self]

theorem Member.sharing_beq {m : Member} (h : ∀ b ∈ m.bootstraps, (b.representative table == b) = true) :
    (m.sharing table == m) = true := by
  have hbody : (m.body.map (Body.sharing table) == m.body) = true := by
    rw [Member.bootstraps] at h
    cases hbody : m.body with
    | none => rfl
    | some b =>
      rw [hbody] at h
      exact Body.sharing_beq h
  change (m.access == m.access && (m.name == m.name && (m.descriptor == m.descriptor &&
    m.body.map (Body.sharing table) == m.body))) = true
  simp only [hbody, beq_self_eq_true, Bool.and_self]

end Sharing

/-- A bootstrap method that was shared was so with some of those before it. -/
theorem exists_shared {new : List BootstrapMethod} {b : BootstrapMethod} (h : b ∈ new) (bs : List BootstrapMethod) :
    ∃ earlier, shared earlier b <+: new.foldl shared bs := by
  induction new generalizing bs with
  | nil => cases h
  | cons b' new ih =>
    rcases List.mem_cons.1 h with rfl | h
    · exact ⟨bs, prefix_foldl_shared (shared bs b) new⟩
    · exact ih h (shared bs b')

theorem Proper.bootstrap {c : ClassFile} (h : c.Proper) {m : Member} (hm : m ∈ c.fields ++ c.methods) {b : BootstrapMethod}
    (hb : b ∈ m.bootstraps) : b.Proper := by
  rw [Member.bootstraps] at hb
  cases hbody : m.body with
  | none =>
    rw [hbody] at hb
    cases hb
  | some body =>
    rw [hbody] at hb
    obtain ⟨i, hi, hb⟩ := List.mem_flatMap.1 hb
    have hproper := h m hm body hbody i hi
    cases i with
    | dynamic site =>
      cases List.mem_singleton.1 hb
      exact hproper
    | slot op index | type op name | field op target | call op target viaInterface | ret op | plain op => cases hb

/-- **A class equals the class whose calls share their bootstrap methods.** -/
theorem sharing_beq {c : ClassFile} (h : c.Proper) : (c.sharing == c) = true := by
  have hmember : ∀ m ∈ c.fields ++ c.methods, (m.sharing c.bootstraps == m) = true := by
    intro m hm
    refine Member.sharing_beq fun b hb => ?_
    obtain ⟨earlier, hearlier⟩ := exists_shared (List.mem_flatMap.2 ⟨m, hm, hb⟩) []
    exact (getElem?_representative (h.bootstrap hm hb).beq_self hearlier).2
  have hfields : (c.fields.map (Member.sharing c.bootstraps) == c.fields) = true :=
    beq_map_of_forall fun m hm => hmember m (List.mem_append_left _ hm)
  have hmethods : (c.methods.map (Member.sharing c.bootstraps) == c.methods) = true :=
    beq_map_of_forall fun m hm => hmember m (List.mem_append_right _ hm)
  change (c.minor == c.minor && (c.major == c.major && (c.access == c.access && (c.name == c.name &&
    (c.superclass == c.superclass && (c.interfaces == c.interfaces &&
      (c.fields.map (Member.sharing c.bootstraps) == c.fields &&
        c.methods.map (Member.sharing c.bootstraps) == c.methods))))))) = true
  simp only [hfields, hmethods, beq_self_eq_true, Bool.and_self]

end ClassFile
end RenameAudit
