import Mathlib
import RenameAudit.Proofs.Descriptor.Grammar
import RenameAudit.Proofs.Rename.Descriptors
/-!
# Proofs.Rename.RenamedTypes — a renamed descriptor is that of the renamed type

`RenamedBy` says when a type is another with its classes renamed and nothing else changed.  A rename table takes the
descriptor of a type to that of such a type, as long as the new names can stand in a descriptor, so the space that
parameters and results take stays, and two descriptors become one only where two of their classes do
(`mapDescriptor_renames_classes`).
-/
namespace RenameAudit

/-! ## Renamed types -/

variable {f : String → String}

/-- **The same type but for its classes**, each of which has its new name. -/
inductive FieldType.RenamedBy (f : String → String) : FieldType → FieldType → Prop
  | base (b : BaseType) : RenamedBy f (.base b) (.base b)
  | object (name : String) : RenamedBy f (.object name) (.object (f name))
  | array {t t' : FieldType} (h : RenamedBy f t t') : RenamedBy f (.array t) (.array t')

/-- **The same return type but for its classes.** -/
inductive ReturnType.RenamedBy (f : String → String) : ReturnType → ReturnType → Prop
  | void : RenamedBy f .void .void
  | value {t t' : FieldType} (h : t.RenamedBy f t') : RenamedBy f (.value t) (.value t')

/-- **The same method type but for its classes**: as many parameters, in the same order. -/
structure MethodType.RenamedBy (f : String → String) (m m' : MethodType) : Prop where
  params : List.Forall₂ (FieldType.RenamedBy f) m.params m'.params
  result : m.result.RenamedBy f m'.result

namespace FieldType

theorem renamedBy_mapClasses (t : FieldType) : t.RenamedBy f (t.mapClasses f) := by
  induction t with
  | base b => exact .base b
  | object name => exact .object name
  | array t ih => exact .array ih

theorem RenamedBy.slots {t t' : FieldType} (h : t.RenamedBy f t') : t'.slots = t.slots := by
  cases h <;> rfl

/-- A renaming that keeps the classes of two types apart keeps the types apart. -/
theorem mapClasses_injOn {t t' : FieldType} {names : Set String} (hf : Set.InjOn f names)
    (ht : ∀ c ∈ t.classNames, c ∈ names) (ht' : ∀ c ∈ t'.classNames, c ∈ names) (h : t.mapClasses f = t'.mapClasses f) : t = t' := by
  have hback := hf.leftInvOn_invFunOn
  rw [← mapClasses_back fun c hc => hback (ht c hc), h, mapClasses_back fun c hc => hback (ht' c hc)]

end FieldType

theorem ReturnType.renamedBy_mapClasses (t : ReturnType) : t.RenamedBy f (t.mapClasses f) := by
  cases t with
  | void => exact .void
  | value t => exact .value t.renamedBy_mapClasses

theorem ReturnType.RenamedBy.slots {t t' : ReturnType} (h : t.RenamedBy f t') : t'.slots = t.slots := by
  cases h with
  | void => rfl
  | value h => exact h.slots

namespace MethodType

theorem renamedBy_mapClasses (m : MethodType) : m.RenamedBy f (m.mapClasses f) where
  params := List.forall₂_map_right_iff.2 (List.forall₂_same.2 fun t _ => t.renamedBy_mapClasses)
  result := m.result.renamedBy_mapClasses

theorem mapClasses_injOn {m m' : MethodType} {names : Set String} (hf : Set.InjOn f names)
    (hm : ∀ c ∈ m.classNames, c ∈ names) (hm' : ∀ c ∈ m'.classNames, c ∈ names)
    (h : m.mapClasses f = m'.mapClasses f) : m = m' := by
  have hback := hf.leftInvOn_invFunOn
  rw [← mapClasses_back fun c hc => hback (hm c hc), h, mapClasses_back fun c hc => hback (hm' c hc)]

namespace RenamedBy

variable {m m' : MethodType} (h : m.RenamedBy f m')
include h

/-- **The parameters take the space that they took.** -/
theorem paramSlots : m'.paramSlots = m.paramSlots := by
  have hslots : m'.params.map FieldType.slots = m.params.map FieldType.slots := by
    rw [← List.forall₂_eq_eq_eq, List.forall₂_map_left_iff, List.forall₂_map_right_iff]
    exact h.params.flip.imp fun _ _ ht => ht.slots
  rw [MethodType.paramSlots, MethodType.paramSlots, hslots]

theorem footprint : m'.footprint = m.footprint := by
  rw [MethodType.footprint, MethodType.footprint, h.paramSlots, h.result.slots]

end RenamedBy
end MethodType

/-! ## Renamed descriptors -/

/-- A field or method descriptor. -/
def IsDescriptor (s : String) : Prop :=
  FieldDescriptor s.toList ∨ MethodDescriptor s.toList

theorem exists_fieldType {s : String} (h : FieldDescriptor s.toList) : ∃ t : FieldType, t.Writable ∧ s = t.text := by
  obtain ⟨t, ht, hchars⟩ := fieldDescriptor_iff.1 h
  exact ⟨t, ht, by rw [FieldType.text, hchars, String.ofList_toList]⟩

theorem exists_methodType {s : String} (h : MethodDescriptor s.toList) : ∃ m : MethodType, m.Writable ∧ s = m.text := by
  obtain ⟨m, hm, hchars⟩ := methodDescriptor_iff.1 h
  exact ⟨m, hm, by rw [MethodType.text, hchars, String.ofList_toList]⟩

theorem FieldType.isDescriptor_text {t : FieldType} (h : t.Writable) : FieldDescriptor t.text.toList := by
  rw [FieldType.text, String.toList_ofList]
  exact t.fieldDescriptor_chars h

theorem MethodType.isDescriptor_text {m : MethodType} (h : m.Writable) : MethodDescriptor m.text.toList :=
  methodDescriptor_iff.2 ⟨m, h, by rw [MethodType.text, String.toList_ofList]⟩

theorem MethodType.text_ne_text (m : MethodType) (t : FieldType) : m.text ≠ t.text := fun h => by
  have hopen := m.startsWith_text
  rw [h, t.startsWith_text] at hopen
  cases hopen

theorem FieldType.text_inj {t t' : FieldType} (ht : t.Writable) (ht' : t'.Writable) (h : t.text = t'.text) : t = t' := by
  have hparse := t.parse_text ht
  rw [h, t'.parse_text ht'] at hparse
  exact (Except.ok.inj hparse).symm

theorem MethodType.text_inj {m m' : MethodType} (hm : m.Writable) (hm' : m'.Writable) (h : m.text = m'.text) : m = m' := by
  have hparse := m.parse?_text hm
  rw [h, m'.parse?_text hm'] at hparse
  exact (Option.some.inj hparse).symm

/-- A text that is no descriptor by the grammar is not read as one. -/
theorem isMalformed_of_not {s : String} (h : ¬ IsDescriptor s) : IsMalformed s := by
  rcases descriptor_cases s with ⟨m, hm, rfl⟩ | ⟨t, ht, rfl⟩ | hnone
  · exact absurd (.inr (MethodType.isDescriptor_text hm)) h
  · exact absurd (.inl (FieldType.isDescriptor_text ht)) h
  · exact hnone

namespace RenameTable

variable {t : RenameTable}

/-- The new names of the classes in a descriptor can stand in one: none is empty and none has a semicolon. -/
def CanRename (t : RenameTable) (descriptor : String) : Prop :=
  ∀ c ∈ descriptorClasses descriptor, IsClassName (t.mapClass c)

/-- **The new descriptor is that of the renamed type.** -/
theorem mapDescriptor_fieldType {d : String} (hd : FieldDescriptor d.toList) (hnew : t.CanRename d) :
    FieldDescriptor (t.mapDescriptor d).toList ∧
      ∃ old new, FieldType.parse d = .ok old ∧ FieldType.parse (t.mapDescriptor d) = .ok new ∧
        old.RenamedBy t.mapClass new := by
  obtain ⟨f, hf, rfl⟩ := exists_fieldType hd
  rw [CanRename, f.descriptorClasses_text hf] at hnew
  have hwritable := FieldType.writable_mapClasses hnew
  rw [mapDescriptor_field t hf]
  exact ⟨FieldType.isDescriptor_text hwritable, f, f.mapClasses t.mapClass, f.parse_text hf,
    FieldType.parse_text _ hwritable, f.renamedBy_mapClasses⟩

/-- **The new descriptor is that of the renamed type.** -/
theorem mapDescriptor_methodType {d : String} (hd : MethodDescriptor d.toList) (hnew : t.CanRename d) :
    MethodDescriptor (t.mapDescriptor d).toList ∧
      ∃ old new, MethodType.parse d = .ok old ∧ MethodType.parse (t.mapDescriptor d) = .ok new ∧
        old.RenamedBy t.mapClass new := by
  obtain ⟨m, hm, rfl⟩ := exists_methodType hd
  rw [CanRename, m.descriptorClasses_text hm] at hnew
  have hwritable := MethodType.writable_mapClasses hnew
  rw [mapDescriptor_method t hm]
  exact ⟨MethodType.isDescriptor_text hwritable, m, m.mapClasses t.mapClass, MethodType.parse_eq_ok.2 ⟨hm, rfl⟩,
    MethodType.parse_eq_ok.2 ⟨hwritable, rfl⟩, m.renamedBy_mapClasses⟩

/-- **Descriptors whose classes keep apart keep apart.** -/
theorem mapDescriptor_injOn {names : Set String} (hnames : Set.InjOn t.mapClass names) :
    Set.InjOn t.mapDescriptor
      {d | IsDescriptor d ∧ t.CanRename d ∧ ∀ c ∈ descriptorClasses d, c ∈ names} := by
  rintro d ⟨hd, hnew, hin⟩ d' ⟨hd', hnew', hin'⟩ h
  rcases hd with hd | hd <;> rcases hd' with hd' | hd'
  case inl.inl =>
    obtain ⟨f, hf, rfl⟩ := exists_fieldType hd
    obtain ⟨f', hf', rfl⟩ := exists_fieldType hd'
    rw [CanRename, FieldType.descriptorClasses_text ‹_›] at hnew hnew'
    rw [FieldType.descriptorClasses_text ‹_›] at hin hin'
    rw [mapDescriptor_field t hf, mapDescriptor_field t hf'] at h
    have htypes := FieldType.text_inj (FieldType.writable_mapClasses hnew) (FieldType.writable_mapClasses hnew') h
    rw [FieldType.mapClasses_injOn hnames hin hin' htypes]
  case inr.inr =>
    obtain ⟨m, hm, rfl⟩ := exists_methodType hd
    obtain ⟨m', hm', rfl⟩ := exists_methodType hd'
    rw [CanRename, MethodType.descriptorClasses_text ‹_›] at hnew hnew'
    rw [MethodType.descriptorClasses_text ‹_›] at hin hin'
    rw [mapDescriptor_method t hm, mapDescriptor_method t hm'] at h
    have htypes := MethodType.text_inj (MethodType.writable_mapClasses hnew) (MethodType.writable_mapClasses hnew') h
    rw [MethodType.mapClasses_injOn hnames hin hin' htypes]
  -- A method descriptor begins with a parenthesis and a field descriptor does not, before and after.
  case inl.inr =>
    obtain ⟨f, hf, rfl⟩ := exists_fieldType hd
    obtain ⟨m, hm, rfl⟩ := exists_methodType hd'
    rw [mapDescriptor_field t hf, mapDescriptor_method t hm] at h
    exact absurd h.symm (MethodType.text_ne_text _ _)
  case inr.inl =>
    obtain ⟨m, hm, rfl⟩ := exists_methodType hd
    obtain ⟨f, hf, rfl⟩ := exists_fieldType hd'
    rw [mapDescriptor_method t hm, mapDescriptor_field t hf] at h
    exact absurd h (MethodType.text_ne_text _ _)

/-- **Renaming a descriptor renames its classes and nothing else.**  Where the new names of its classes can stand in a
descriptor, a descriptor becomes that of its type with these classes renamed, and parameters and result take the space that
they took; descriptors of classes that keep apart keep apart; and a text that is no descriptor is kept. -/
theorem mapDescriptor_renames_classes (t : RenameTable) :
    (∀ d, FieldDescriptor d.toList → t.CanRename d → FieldDescriptor (t.mapDescriptor d).toList ∧
      ∃ old new, FieldType.parse d = .ok old ∧ FieldType.parse (t.mapDescriptor d) = .ok new ∧
        old.RenamedBy t.mapClass new) ∧
    (∀ d, MethodDescriptor d.toList → t.CanRename d → MethodDescriptor (t.mapDescriptor d).toList ∧
      ∃ old new, MethodType.parse d = .ok old ∧ MethodType.parse (t.mapDescriptor d) = .ok new ∧
        old.RenamedBy t.mapClass new ∧ new.paramSlots = old.paramSlots ∧ new.footprint = old.footprint) ∧
    (∀ names, Set.InjOn t.mapClass names → Set.InjOn t.mapDescriptor
      {d | IsDescriptor d ∧ t.CanRename d ∧ ∀ c ∈ descriptorClasses d, c ∈ names}) ∧
    ∀ d, ¬ IsDescriptor d → t.mapDescriptor d = d := by
  refine ⟨fun d hd hnew => mapDescriptor_fieldType hd hnew, fun d hd hnew => ?_, fun names => mapDescriptor_injOn,
    fun d hd => t.mapDescriptor_malformed (isMalformed_of_not hd)⟩
  obtain ⟨hnewDescriptor, old, new, hold, hparse, hrenamed⟩ := mapDescriptor_methodType hd hnew
  exact ⟨hnewDescriptor, old, new, hold, hparse, hrenamed, hrenamed.paramSlots, hrenamed.footprint⟩

/-- A class by its name, and all others of its package by the package. -/
def blockTable : RenameTable :=
  ofEntries [.classEntry "a/b" "n/Block", .package "a" "x/"]

/-- Both classes of this descriptor have new names, and all else in it stays. -/
theorem block_descriptor_renamed :
    MethodDescriptor "(J[La/b;La/c$d;)La/b;".toList ∧ blockTable.CanRename "(J[La/b;La/c$d;)La/b;" ∧
      ∃ old new, MethodType.parse "(J[La/b;La/c$d;)La/b;" = .ok old ∧
        MethodType.parse "(J[Ln/Block;Lx/c$d;)Ln/Block;" = .ok new ∧ old.RenamedBy blockTable.mapClass new ∧
        new.paramSlots = old.paramSlots ∧ new.footprint = old.footprint := by
  have hparse : MethodType.parse "(J[La/b;La/c$d;)La/b;" =
      .ok ⟨[.base .long, .array (.object "a/b"), .object "a/c$d"], .value (.object "a/b")⟩ := by cbv
  obtain ⟨hwritable, htext⟩ := MethodType.parse_eq_ok.1 hparse
  have hd : MethodDescriptor "(J[La/b;La/c$d;)La/b;".toList := htext ▸ MethodType.isDescriptor_text hwritable
  have hclasses : descriptorClasses "(J[La/b;La/c$d;)La/b;" = ["a/b", "a/c$d", "a/b"] := by cbv
  have hblock : blockTable.mapClass "a/b" = "n/Block" := by cbv
  have hinner : blockTable.mapClass "a/c$d" = "x/c$d" := by cbv
  have hnew : blockTable.CanRename "(J[La/b;La/c$d;)La/b;" := by
    rw [CanRename, hclasses]
    simp [IsClassName, hblock, hinner]
  have hmapped : blockTable.mapDescriptor "(J[La/b;La/c$d;)La/b;" = "(J[Ln/Block;Lx/c$d;)Ln/Block;" := by cbv
  have hrenamed := ((mapDescriptor_renames_classes blockTable).2.1 _ hd hnew).2
  rw [hmapped] at hrenamed
  exact ⟨hd, hnew, hrenamed⟩

end RenameTable
end RenameAudit
