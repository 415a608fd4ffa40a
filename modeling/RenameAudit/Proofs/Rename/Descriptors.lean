import RenameAudit.Proofs.Descriptor.ClassNames
import RenameAudit.Rename.Table
/-!
# Proofs.Rename.Descriptors — descriptors under a rename table

A table renames the classes of a descriptor and leaves every other text alone, so the new descriptor names the new classes
(`descriptorClasses_mapDescriptor`), and a table that renames those classes back renames the descriptor back
(`mapDescriptor_back`).
-/
namespace RenameAudit
namespace RenameTable

variable {t u : RenameTable} {descriptor : String}

theorem mapDescriptor_method (t : RenameTable) {m : MethodType} (h : m.Writable) :
    t.mapDescriptor m.text = (m.mapClasses t.mapClass).text := by
  have hparse : MethodType.parse m.text = .ok m := by rw [MethodType.parse, m.parse?_text h]
  rw [mapDescriptor, if_pos m.startsWith_text, hparse]

theorem mapDescriptor_field (t : RenameTable) {f : FieldType} (h : f.Writable) :
    t.mapDescriptor f.text = (f.mapClasses t.mapClass).text := by
  rw [mapDescriptor, if_neg (Bool.eq_false_iff.1 f.startsWith_text), f.parse_text h]

/-- **A text that is no descriptor is kept.** -/
theorem mapDescriptor_malformed (t : RenameTable) (h : IsMalformed descriptor) : t.mapDescriptor descriptor = descriptor := by
  unfold IsMalformed at h
  unfold mapDescriptor
  split at h
  · rename_i hopen
    rw [if_pos hopen, MethodType.parse, h]
  · rename_i hopen
    rw [if_neg hopen]
    cases hparse : FieldType.parse descriptor with
    | ok f => exact absurd hparse (h f)
    | error e => rfl

/-- **The new descriptor names the new classes**, where these can stand in one. -/
theorem descriptorClasses_mapDescriptor (h : ∀ c ∈ descriptorClasses descriptor, IsClassName (t.mapClass c)) :
    descriptorClasses (t.mapDescriptor descriptor) = (descriptorClasses descriptor).map t.mapClass := by
  rcases descriptor_cases descriptor with ⟨m, hm, rfl⟩ | ⟨f, hf, rfl⟩ | hnone
  · rw [m.descriptorClasses_text hm] at h ⊢
    have hnew := MethodType.writable_mapClasses h
    rw [mapDescriptor_method t hm, MethodType.descriptorClasses_text hnew, MethodType.classNames_mapClasses]
  · rw [f.descriptorClasses_text hf] at h ⊢
    have hnew := FieldType.writable_mapClasses h
    rw [mapDescriptor_field t hf, FieldType.descriptorClasses_text hnew, FieldType.classNames_mapClasses]
  · rw [mapDescriptor_malformed t hnone, descriptorClasses_malformed hnone, List.map_nil]

/-- **A table that renames the classes of a descriptor back renames the descriptor back.** -/
theorem mapDescriptor_back (h : ∀ c ∈ descriptorClasses descriptor, IsClassName (t.mapClass c))
    (hback : ∀ c ∈ descriptorClasses descriptor, u.mapClass (t.mapClass c) = c) :
    u.mapDescriptor (t.mapDescriptor descriptor) = descriptor := by
  rcases descriptor_cases descriptor with ⟨m, hm, rfl⟩ | ⟨f, hf, rfl⟩ | hnone
  · rw [m.descriptorClasses_text hm] at h hback
    have hnew := MethodType.writable_mapClasses h
    rw [mapDescriptor_method t hm, mapDescriptor_method u hnew, MethodType.mapClasses_back hback]
  · rw [f.descriptorClasses_text hf] at h hback
    have hnew := FieldType.writable_mapClasses h
    rw [mapDescriptor_field t hf, mapDescriptor_field u hnew, FieldType.mapClasses_back hback]
  · rw [mapDescriptor_malformed t hnone, mapDescriptor_malformed u hnone]

end RenameTable
end RenameAudit
