import Mathlib
import RenameAudit.Proofs.Rename.Descriptors
import RenameAudit.Proofs.Rename.WayBack
/-!
# Proofs.Rename.ReversedTwice — the reverse of the reverse

In an `Invertible` table every owner of a member, and every class that a member's descriptor names, has an entry of its
own, so the reverse files each member under names that it can turn back.  What the reverse then holds is said entry by
entry (`reverse_fields_iff`, `reverse_methods_iff`), it is invertible itself (`Invertible.reverse`), and reversing it
gives the table again (`reversed_twice`).
-/
namespace RenameAudit

open Std

namespace RenameTable

/-- **A table that can be reversed twice**: no two classes and no two packages have one new name, the names of classes can
stand in descriptors, all classes that the members mention have entries, and the members of a class keep apart. -/
structure Invertible (t : RenameTable) : Prop where
  classes : OneToOne t.classes
  packages : OneToOne t.packages
  names : ∀ old mapped, t.classes[old]? = some mapped → IsClassName old ∧ IsClassName mapped
  fieldOwners : ∀ f ∈ t.fields, f.owner ∈ t.classes
  methodOwners : ∀ m ∈ t.methods, m.owner ∈ t.classes
  named : ∀ m ∈ t.methods, ∀ c ∈ descriptorClasses m.descriptor, c ∈ t.classes
  fields : ∀ owner f f' mapped, t.fields[FieldRef.mk owner f]? = some mapped →
    t.fields[FieldRef.mk owner f']? = some mapped → f = f'
  methods : ∀ owner m m' descriptor mapped, t.methods[MemberRef.mk owner m descriptor]? = some mapped →
    t.methods[MemberRef.mk owner m' descriptor]? = some mapped → m = m'

theorem mapClass_entry {t : RenameTable} {name mapped : String} (h : t.classes[name]? = some mapped) :
    t.mapClass name = mapped :=
  mapClassChars_entry (by rwa [String.ofList_toList])

/-- A class with an entry is renamed by it. -/
theorem classes_eq_mapClass {t : RenameTable} {name : String} (h : name ∈ t.classes) :
    t.classes[name]? = some (t.mapClass name) := by
  obtain ⟨mapped, hmapped⟩ := Option.isSome_iff_exists.1 (ExtTreeMap.mem_iff_isSome_getElem?.1 h)
  rw [mapClass_entry hmapped, hmapped]

namespace Invertible

variable {t : RenameTable} (h : t.Invertible) (hw : t.PackagesWritten)

include h in
theorem isClassName_mapClass {name : String} (hname : name ∈ t.classes) : IsClassName (t.mapClass name) :=
  (h.names _ _ (classes_eq_mapClass hname)).2

include h in
theorem mapClass_inj {a b : String} (ha : a ∈ t.classes) (hb : b ∈ t.classes) (heq : t.mapClass a = t.mapClass b) :
    a = b :=
  h.classes a b (t.mapClass a) (classes_eq_mapClass ha) (heq ▸ classes_eq_mapClass hb)

include h hw

theorem reversible : t.Reversible :=
  ⟨h.classes, h.packages, hw⟩

/-- The new name of a class with an entry has an entry in the reverse, for the old name. -/
theorem reverse_classes_mapClass {name : String} (hname : name ∈ t.classes) :
    t.reverse.classes[t.mapClass name]? = some name :=
  (h.reversible hw).reverse_classes_iff.2 (classes_eq_mapClass hname)

/-- **The new name of a class with an entry goes back to the old one.** -/
theorem mapClass_back {name : String} (hname : name ∈ t.classes) : t.reverse.mapClass (t.mapClass name) = name :=
  mapClass_entry (h.reverse_classes_mapClass hw hname)

/-- **The new descriptor of a method goes back to the old one.** -/
theorem descriptor_back {owner name descriptor : String} (hm : MemberRef.mk owner name descriptor ∈ t.methods) :
    t.reverse.mapDescriptor (t.mapDescriptor descriptor) = descriptor :=
  RenameTable.mapDescriptor_back (fun c hc => h.isClassName_mapClass (h.named _ hm c hc))
    fun c hc => h.mapClass_back hw (h.named _ hm c hc)

/-! ## The members of the reverse -/

omit hw in
/-- **The reverse has each field under its new name and the new name of its class.** -/
theorem reverse_fields_iff {owner mapped old : String} :
    t.reverse.fields[FieldRef.mk owner mapped]? = some old ↔
      ∃ o, t.fields[FieldRef.mk o old]? = some mapped ∧ t.mapClass o = owner := by
  have hkeys : ∀ a v b w, t.fields[a]? = some v → t.fields[b]? = some w → (t.fieldBack (a, v)).1 = (t.fieldBack (b, w)).1 →
      a = b := by
    rintro ⟨o, f⟩ v ⟨o', f'⟩ w hv hw heq
    obtain ⟨howner, rfl⟩ := FieldRef.mk.inj heq
    obtain rfl : o = o' :=
      h.mapClass_inj (h.fieldOwners _ (mem_of_getElem? hv)) (h.fieldOwners _ (mem_of_getElem? hw)) howner
    rw [h.fields o f f' v hv hw]
  rw [fields_reverse, getElem?_ofList_map hkeys]
  constructor
  · rintro ⟨⟨o, f⟩, v, hv, heq⟩
    cases heq
    exact ⟨o, hv, rfl⟩
  · rintro ⟨o, hv, rfl⟩
    exact ⟨_, _, hv, rfl⟩

omit hw in
theorem reverse_fields_entry {owner old mapped : String} (hf : t.fields[FieldRef.mk owner old]? = some mapped) :
    t.reverse.fields[FieldRef.mk (t.mapClass owner) mapped]? = some old :=
  h.reverse_fields_iff.2 ⟨owner, hf, rfl⟩

/-- **The reverse has each method under its new name, the new name of its class and its new descriptor.** -/
theorem reverse_methods_iff {owner mapped descriptor old : String} :
    t.reverse.methods[MemberRef.mk owner mapped descriptor]? = some old ↔
      ∃ o d, t.methods[MemberRef.mk o old d]? = some mapped ∧ t.mapClass o = owner ∧ t.mapDescriptor d = descriptor := by
  have hkeys : ∀ a v b w, t.methods[a]? = some v → t.methods[b]? = some w →
      (t.methodBack (a, v)).1 = (t.methodBack (b, w)).1 → a = b := by
    rintro ⟨o, n, d⟩ v ⟨o', n', d'⟩ w hv hv' heq
    obtain ⟨howner, rfl, hdescriptor⟩ := MemberRef.mk.inj heq
    have hm := mem_of_getElem? hv
    have hm' := mem_of_getElem? hv'
    obtain rfl : o = o' := h.mapClass_inj (h.methodOwners _ hm) (h.methodOwners _ hm') howner
    obtain rfl : d = d' := by
      rw [← h.descriptor_back hw hm, hdescriptor, h.descriptor_back hw hm']
    rw [h.methods o n n' d v hv hv']
  rw [methods_reverse, getElem?_ofList_map hkeys]
  constructor
  · rintro ⟨⟨o, n, d⟩, v, hv, heq⟩
    cases heq
    exact ⟨o, d, hv, rfl, rfl⟩
  · rintro ⟨o, d, hv, rfl, rfl⟩
    exact ⟨_, _, hv, rfl⟩

theorem reverse_methods_entry {owner old descriptor mapped : String}
    (hm : t.methods[MemberRef.mk owner old descriptor]? = some mapped) :
    t.reverse.methods[MemberRef.mk (t.mapClass owner) mapped (t.mapDescriptor descriptor)]? = some old :=
  (h.reverse_methods_iff hw).2 ⟨owner, descriptor, hm, rfl, rfl⟩

/-! ## The reverse of the reverse -/

/-- **The reverse can be reversed twice as well.** -/
theorem reverse : t.reverse.Invertible where
  classes a b v ha hb := by
    have hr := h.reversible hw
    rw [hr.reverse_classes_iff] at ha hb
    exact Option.some.inj (ha.symm.trans hb)
  packages a b v ha hb := by
    have hr := h.reversible hw
    rw [hr.reverse_packages_iff] at ha hb
    exact Option.some.inj (ha.symm.trans hb)
  names old mapped hc := (h.names _ _ ((h.reversible hw).reverse_classes_iff.1 hc)).symm
  fieldOwners f hf := by
    obtain ⟨old, hold⟩ := Option.isSome_iff_exists.1 (ExtTreeMap.mem_iff_isSome_getElem?.1 hf)
    obtain ⟨o, ho, howner⟩ := h.reverse_fields_iff.1 hold
    exact howner ▸ mem_of_getElem? (h.reverse_classes_mapClass hw (h.fieldOwners _ (mem_of_getElem? ho)))
  methodOwners m hm := by
    obtain ⟨old, hold⟩ := Option.isSome_iff_exists.1 (ExtTreeMap.mem_iff_isSome_getElem?.1 hm)
    obtain ⟨o, d, ho, howner, -⟩ := (h.reverse_methods_iff hw).1 hold
    exact howner ▸ mem_of_getElem? (h.reverse_classes_mapClass hw (h.methodOwners _ (mem_of_getElem? ho)))
  named m hm c hc := by
    obtain ⟨old, hold⟩ := Option.isSome_iff_exists.1 (ExtTreeMap.mem_iff_isSome_getElem?.1 hm)
    obtain ⟨o, d, ho, -, hdescriptor⟩ := (h.reverse_methods_iff hw).1 hold
    have hnamed := h.named _ (mem_of_getElem? ho)
    rw [← hdescriptor, descriptorClasses_mapDescriptor fun c hc => h.isClassName_mapClass (hnamed c hc)] at hc
    obtain ⟨c', hc', rfl⟩ := List.mem_map.1 hc
    exact mem_of_getElem? (h.reverse_classes_mapClass hw (hnamed c' hc'))
  fields owner f f' old hf hf' := by
    obtain ⟨o, ho, howner⟩ := h.reverse_fields_iff.1 hf
    obtain ⟨o', ho', howner'⟩ := h.reverse_fields_iff.1 hf'
    obtain rfl := h.mapClass_inj (h.fieldOwners _ (mem_of_getElem? ho)) (h.fieldOwners _ (mem_of_getElem? ho'))
      (howner.trans howner'.symm)
    exact Option.some.inj (ho.symm.trans ho')
  methods owner m m' descriptor old hm hm' := by
    obtain ⟨o, d, ho, howner, hdescriptor⟩ := (h.reverse_methods_iff hw).1 hm
    obtain ⟨o', d', ho', howner', hdescriptor'⟩ := (h.reverse_methods_iff hw).1 hm'
    obtain rfl := h.mapClass_inj (h.methodOwners _ (mem_of_getElem? ho)) (h.methodOwners _ (mem_of_getElem? ho'))
      (howner.trans howner'.symm)
    obtain rfl : d = d' := by
      rw [← h.descriptor_back hw (mem_of_getElem? ho), hdescriptor, ← hdescriptor',
        h.descriptor_back hw (mem_of_getElem? ho')]
    exact Option.some.inj (ho.symm.trans ho')

theorem reverse_reverse_fields : t.reverse.reverse.fields = t.fields := by
  refine ExtTreeMap.ext_getElem? fun ⟨owner, f⟩ => Option.ext fun mapped => ?_
  rw [(h.reverse hw).reverse_fields_iff]
  constructor
  · rintro ⟨o, ho, rfl⟩
    obtain ⟨o', ho', rfl⟩ := h.reverse_fields_iff.1 ho
    rwa [h.mapClass_back hw (h.fieldOwners _ (mem_of_getElem? ho'))]
  · intro hf
    exact ⟨t.mapClass owner, h.reverse_fields_entry hf, h.mapClass_back hw (h.fieldOwners _ (mem_of_getElem? hf))⟩

theorem reverse_reverse_methods : t.reverse.reverse.methods = t.methods := by
  refine ExtTreeMap.ext_getElem? fun ⟨owner, m, descriptor⟩ => Option.ext fun mapped => ?_
  rw [(h.reverse hw).reverse_methods_iff (packagesWritten_reverse t)]
  constructor
  · rintro ⟨o, d, ho, rfl, rfl⟩
    obtain ⟨o', d', ho', rfl, rfl⟩ := (h.reverse_methods_iff hw).1 ho
    rwa [h.mapClass_back hw (h.methodOwners _ (mem_of_getElem? ho')), h.descriptor_back hw (mem_of_getElem? ho')]
  · intro hm
    exact ⟨t.mapClass owner, t.mapDescriptor descriptor, h.reverse_methods_entry hw hm,
      h.mapClass_back hw (h.methodOwners _ (mem_of_getElem? hm)), h.descriptor_back hw (mem_of_getElem? hm)⟩

theorem reverse_reverse : t.reverse.reverse = t := by
  have hr := h.reversible hw
  have hr' := (h.reverse hw).reversible (packagesWritten_reverse t)
  have hclasses : t.reverse.reverse.classes = t.classes :=
    ExtTreeMap.ext_getElem? fun name => Option.ext fun mapped => by rw [hr'.reverse_classes_iff, hr.reverse_classes_iff]
  have hpackages : t.reverse.reverse.packages = t.packages :=
    ExtTreeMap.ext_getElem? fun name => Option.ext fun mapped => by rw [hr'.reverse_packages_iff, hr.reverse_packages_iff]
  have hfields := h.reverse_reverse_fields hw
  have hmethods := h.reverse_reverse_methods hw
  cases hback : t.reverse.reverse
  cases t
  rw [hback] at hclasses hpackages hfields hmethods
  rw [mk.injEq]
  exact ⟨hpackages, hclasses, hfields, hmethods⟩

end Invertible

/-- **Reversing a table twice gives it back**, and every entry is found back in the reverse: packages and classes by their
new names, members by their new names under the new names of their classes and in their new descriptors. -/
theorem reversed_twice (entries : List RenameEntry) (h : (ofEntries entries).Invertible) :
    let t := ofEntries entries
    t.reverse.reverse = t ∧
      (∀ old mapped, t.packages[old]? = some mapped → t.reverse.mapPackage mapped = old) ∧
      (∀ old mapped, t.classes[old]? = some mapped → t.reverse.mapClass mapped = old) ∧
      (∀ owner old mapped, t.fields[FieldRef.mk owner old]? = some mapped →
        t.reverse.mapField (t.mapClass owner) mapped = old) ∧
      ∀ owner old descriptor mapped, t.methods[MemberRef.mk owner old descriptor]? = some mapped →
        t.reverse.mapMethod (t.mapClass owner) mapped (t.mapDescriptor descriptor) = old := by
  intro t
  have hw : t.PackagesWritten := packagesWritten_ofEntries entries
  have hr := h.reversible hw
  refine ⟨h.reverse_reverse hw, fun old mapped hp => ?_, fun old mapped hc => ?_, fun owner old mapped hf => ?_,
    fun owner old descriptor mapped hm => ?_⟩
  · rw [mapPackage, ExtTreeMap.getD_eq_getD_getElem?, hr.reverse_packages_iff.2 hp, Option.getD_some]
  · exact mapClass_entry (hr.reverse_classes_iff.2 hc)
  · rw [mapField, ExtTreeMap.getD_eq_getD_getElem?, h.reverse_fields_entry hf, Option.getD_some]
  · rw [mapMethod, ExtTreeMap.getD_eq_getD_getElem?, h.reverse_methods_entry hw hm, Option.getD_some]

/-- Two classes, a field, and two methods with one new name, of which one has no descriptor. -/
def memberEntries : List RenameEntry :=
  [.package "a" "n", .classEntry "a/b" "n/B", .classEntry "c" "n/C", .field "a/b" "f" "g",
    .method "a/b" "m" "(Lc;)La/b;" "func", .method "a/b" "k" "(L" "func"]

theorem invertible_memberEntries : (ofEntries memberEntries).Invertible := by
  have hclasses : (ofEntries memberEntries).classes.toList = [("a/b", "n/B"), ("c", "n/C")] := by cbv
  have hpackages : (ofEntries memberEntries).packages.toList = [("a/", "n/")] := by cbv
  have hfields : (ofEntries memberEntries).fields.toList = [(⟨"a/b", "f"⟩, "g")] := by cbv
  have hmethods : (ofEntries memberEntries).methods.toList =
      [(⟨"a/b", "k", "(L"⟩, "func"), (⟨"a/b", "m", "(Lc;)La/b;"⟩, "func")] := by cbv
  have hknown : ∀ c ∈ ["a/b", "c"], c ∈ (ofEntries memberEntries).classes := fun c hc => by
    rw [← ExtTreeMap.mem_keys, ← ExtTreeMap.map_fst_toList_eq_keys, hclasses]
    exact hc
  have hfield : ∀ f ∈ (ofEntries memberEntries).fields, f = ⟨"a/b", "f"⟩ := fun f hf => by
    rw [← ExtTreeMap.mem_keys, ← ExtTreeMap.map_fst_toList_eq_keys, hfields] at hf
    exact List.mem_singleton.1 hf
  have hmethod : ∀ m ∈ (ofEntries memberEntries).methods,
      m ∈ [MemberRef.mk "a/b" "k" "(L", MemberRef.mk "a/b" "m" "(Lc;)La/b;"] := fun m hm => by
    rw [← ExtTreeMap.mem_keys, ← ExtTreeMap.map_fst_toList_eq_keys, hmethods] at hm
    exact hm
  have hnames : descriptorClasses "(L" = [] ∧ descriptorClasses "(Lc;)La/b;" = ["c", "a/b"] := by
    constructor <;> cbv
  refine ⟨oneToOne_of_nodup hclasses (by decide), oneToOne_of_nodup hpackages (by decide), fun old mapped h => ?_,
    fun f hf => ?_, fun m hm => ?_, fun m hm c hc => ?_, fun owner f f' mapped hf hf' => ?_,
    fun owner m m' descriptor mapped hm hm' => ?_⟩
  · rw [← ExtTreeMap.mem_toList_iff_getElem?_eq_some, hclasses] at h
    simp only [List.mem_cons, Prod.mk.injEq, List.not_mem_nil, or_false] at h
    rcases h with ⟨rfl, rfl⟩ | ⟨rfl, rfl⟩ <;> exact ⟨⟨by decide, by decide⟩, by decide, by decide⟩
  · exact hknown _ (hfield f hf ▸ List.mem_cons_self)
  · have howner : m.owner = "a/b" := by
      rcases List.mem_cons.1 (hmethod m hm) with rfl | hm
      · rfl
      · rw [List.mem_singleton.1 hm]
    exact hknown _ (howner ▸ List.mem_cons_self)
  · rcases List.mem_cons.1 (hmethod m hm) with rfl | hm
    · rw [hnames.1] at hc
      cases hc
    · rw [List.mem_singleton.1 hm, hnames.2] at hc
      exact hknown c (List.mem_cons.2 (.symm (by simpa using hc)))
  · rw [(FieldRef.mk.inj (hfield _ (mem_of_getElem? hf))).2, (FieldRef.mk.inj (hfield _ (mem_of_getElem? hf'))).2]
  · have hm := hmethod _ (mem_of_getElem? hm)
    have hm' := hmethod _ (mem_of_getElem? hm')
    simp only [List.mem_cons, List.not_mem_nil, or_false, MemberRef.mk.injEq] at hm hm'
    rcases hm with ⟨-, rfl, rfl⟩ | ⟨-, rfl, rfl⟩ <;> rcases hm' with ⟨-, rfl, hd⟩ | ⟨-, rfl, hd⟩
    · rfl
    · exact absurd hd (by decide)
    · exact absurd hd (by decide)
    · rfl

/-- The table of two classes comes back, and both methods are found under their common new name. -/
theorem memberEntries_reversed :
    (ofEntries memberEntries).Invertible ∧ (ofEntries memberEntries).reverse.reverse = ofEntries memberEntries ∧
      (ofEntries memberEntries).reverse.mapMethod "n/B" "func" "(Ln/C;)Ln/B;" = "m" ∧
      (ofEntries memberEntries).reverse.mapMethod "n/B" "func" "(L" = "k" := by
  obtain ⟨htwice, -, -, -, hmethod⟩ := reversed_twice memberEntries invertible_memberEntries
  have hclass : (ofEntries memberEntries).mapClass "a/b" = "n/B" := by cbv
  have hdescriptor : (ofEntries memberEntries).mapDescriptor "(Lc;)La/b;" = "(Ln/C;)Ln/B;" := by cbv
  have hkept : (ofEntries memberEntries).mapDescriptor "(L" = "(L" := by cbv
  refine ⟨invertible_memberEntries, htwice, ?_, ?_⟩
  · rw [← hclass, ← hdescriptor]
    exact hmethod "a/b" "m" "(Lc;)La/b;" "func" (by cbv)
  · rw [← hclass, ← hkept]
    exact hmethod "a/b" "k" "(L" "func" (by cbv)

end RenameTable
end RenameAudit
