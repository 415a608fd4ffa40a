import Mathlib.Data.List.Nodup
import RenameAudit.Proofs.Sets.Members
import RenameAudit.Rename.Table
/-!
# Proofs.Rename.Reverse — the table from the new names to the old ones

Where no two entries share a new name, the reverse of a table has the same entries with their sides exchanged
(`Reversible.reverse_classes_iff`, `Reversible.reverse_packages_iff`).  A table writes its packages in one way only
(`packagesWritten_ofEntries`), so this holds of them as they stand.
-/
namespace RenameAudit

open Std

section Maps

variable {α β : Type} [Ord α] [TransOrd α] [LawfulEqOrd α]

/-- No two keys of a map have one value. -/
def OneToOne (m : ExtTreeMap α β) : Prop :=
  ∀ (a b : α) (v : β), m[a]? = some v → m[b]? = some v → a = b

theorem oneToOne_of_nodup {m : ExtTreeMap α β} {l : List (α × β)} (hm : m.toList = l) (hl : (l.map Prod.snd).Nodup) :
    OneToOne m := by
  intro a b v ha hb
  have ha' := ExtTreeMap.mem_toList_iff_getElem?_eq_some.2 ha
  have hb' := ExtTreeMap.mem_toList_iff_getElem?_eq_some.2 hb
  rw [hm] at ha' hb'
  exact congrArg Prod.fst (List.inj_on_of_nodup_map hl ha' hb' rfl)

/-- **A map with its pairs replaced** has the new pairs, where no two keys come under one new key. -/
theorem getElem?_ofList_map {γ δ : Type} [Ord γ] [TransOrd γ] [LawfulEqOrd γ] {m : ExtTreeMap α β} {f : α × β → γ × δ}
    (h : ∀ a v b w, m[a]? = some v → m[b]? = some w → (f (a, v)).1 = (f (b, w)).1 → a = b) {k : γ} {d : δ} :
    (ExtTreeMap.ofList (m.toList.map f) : ExtTreeMap γ δ)[k]? = some d ↔ ∃ a v, m[a]? = some v ∧ f (a, v) = (k, d) := by
  constructor
  · intro hk
    obtain ⟨⟨a, v⟩, hmem, hf⟩ := List.mem_map.1 (mem_of_getElem?_ofList hk)
    exact ⟨a, v, ExtTreeMap.mem_toList_iff_getElem?_eq_some.1 hmem, hf⟩
  · rintro ⟨a, v, hv, hf⟩
    have hmem : (k, d) ∈ m.toList.map f :=
      List.mem_map.2 ⟨(a, v), ExtTreeMap.mem_toList_iff_getElem?_eq_some.2 hv, hf⟩
    refine ExtTreeMap.getElem?_ofList_of_mem (Std.compare_eq_iff_eq.2 rfl) ?_ hmem
    rw [List.pairwise_map]
    refine ExtTreeMap.distinct_keys_toList.imp_of_mem fun {p q} hp hq hne heq => hne ?_
    rw [Std.compare_eq_iff_eq]
    exact h p.1 p.2 q.1 q.2 (ExtTreeMap.mem_toList_iff_getElem?_eq_some.1 hp)
      (ExtTreeMap.mem_toList_iff_getElem?_eq_some.1 hq) (Std.compare_eq_iff_eq.1 heq)

/-- **A map with its sides exchanged** has the same pairs, where no two keys have one value. -/
theorem getElem?_ofList_swap [Ord β] [TransOrd β] [LawfulEqOrd β] {m : ExtTreeMap α β} (h : OneToOne m) {k : α} {v : β} :
    (ExtTreeMap.ofList (m.toList.map Prod.swap) : ExtTreeMap β α)[v]? = some k ↔ m[k]? = some v := by
  have hkeys : ∀ a v b w, m[a]? = some v → m[b]? = some w → (Prod.swap (a, v)).1 = (Prod.swap (b, w)).1 → a = b :=
    fun a v b w ha hb (heq : v = w) => h a b v ha (heq ▸ hb)
  rw [getElem?_ofList_map hkeys]
  constructor
  · rintro ⟨a, w, ha, heq⟩
    cases heq
    exact ha
  · exact fun hk => ⟨k, v, hk, rfl⟩

end Maps

/-! ## Entries by kind -/

namespace RenameEntry

/-- The old and the new name of a class entry. -/
def classPair? : RenameEntry → Option (String × String)
  | classEntry old mapped => some (old, mapped)
  | _ => none

/-- The old and the new name of a package entry, as a table writes them. -/
def packagePair? : RenameEntry → Option (String × String)
  | package old mapped => some (RenameTable.packageName old, RenameTable.packageName mapped)
  | _ => none

/-- The field of a field entry and its new name. -/
def fieldPair? : RenameEntry → Option (FieldRef × String)
  | field owner old mapped => some (⟨owner, old⟩, mapped)
  | _ => none

/-- The method of a method entry and its new name. -/
def methodPair? : RenameEntry → Option (MemberRef × String)
  | method owner old descriptor mapped => some (⟨owner, old, descriptor⟩, mapped)
  | _ => none

end RenameEntry

namespace RenameTable

/-- **Entries of one kind are inserted in their order**, whatever entries of other kinds stand between them. -/
theorem addAll_eq {α : Type} [Ord α] [TransOrd α] (part : RenameTable → ExtTreeMap α String)
    (pair? : RenameEntry → Option (α × String))
    (hadd : ∀ t e, part (add t e) = (pair? e).elim (part t) fun p => (part t).insert p.1 p.2) (t : RenameTable)
    (entries : List RenameEntry) : part (t.addAll entries) = (part t).insertMany (entries.filterMap pair?) := by
  induction entries generalizing t with
  | nil => rfl
  | cons e entries ih =>
    have hstep : t.addAll (e :: entries) = (t.add e).addAll entries := rfl
    rw [hstep, ih, hadd]
    cases he : pair? e with
    | none => rw [List.filterMap_cons_none he, Option.elim_none]
    | some p => rw [List.filterMap_cons_some he, Option.elim_some, ExtTreeMap.insertMany_cons]

theorem classes_addAll (t : RenameTable) (entries : List RenameEntry) :
    (t.addAll entries).classes = t.classes.insertMany (entries.filterMap RenameEntry.classPair?) :=
  addAll_eq classes RenameEntry.classPair? (fun _ e => by cases e <;> rfl) t entries

theorem packages_addAll (t : RenameTable) (entries : List RenameEntry) :
    (t.addAll entries).packages = t.packages.insertMany (entries.filterMap RenameEntry.packagePair?) :=
  addAll_eq packages RenameEntry.packagePair? (fun _ e => by cases e <;> rfl) t entries

theorem fields_addAll (t : RenameTable) (entries : List RenameEntry) :
    (t.addAll entries).fields = t.fields.insertMany (entries.filterMap RenameEntry.fieldPair?) :=
  addAll_eq fields RenameEntry.fieldPair? (fun _ e => by cases e <;> rfl) t entries

theorem methods_addAll (t : RenameTable) (entries : List RenameEntry) :
    (t.addAll entries).methods = t.methods.insertMany (entries.filterMap RenameEntry.methodPair?) :=
  addAll_eq methods RenameEntry.methodPair? (fun _ e => by cases e <;> rfl) t entries

/-! ## Packages as a table writes them -/

/-- The default package, or a name with a slash at its end. -/
def IsPackageName (package : String) : Prop :=
  package = "" ∨ Text.endsWith '/' package = true

theorem isPackageName_packageName (package : String) : IsPackageName (packageName package) := by
  unfold packageName
  split
  · exact .inl rfl
  · split
    · exact .inr ‹_›
    · exact .inr (by simp [Text.endsWith])

theorem packageName_eq {package : String} (h : IsPackageName package) : packageName package = package := by
  unfold packageName
  rcases h with rfl | h
  · exact if_pos (.inr rfl)
  · rw [if_neg, if_pos h]
    rintro (rfl | rfl) <;> exact absurd h (by decide)

/-- All packages of a table, old and new, are written as packages. -/
def PackagesWritten (t : RenameTable) : Prop :=
  ∀ old mapped : String, t.packages[old]? = some mapped → IsPackageName old ∧ IsPackageName mapped

theorem packagesWritten_ofEntries (entries : List RenameEntry) : (ofEntries entries).PackagesWritten := by
  intro old mapped h
  rw [ofEntries, packages_addAll, empty, ← ExtTreeMap.ofList_eq_insertMany_empty] at h
  obtain ⟨e, -, he⟩ := List.mem_filterMap.1 (mem_of_getElem?_ofList h)
  cases e with
  | package o m =>
    cases he
    exact ⟨isPackageName_packageName o, isPackageName_packageName m⟩
  | classEntry o m | field owner o m | method owner o d m => cases he

theorem packagesWritten_reverse (t : RenameTable) : t.reverse.PackagesWritten :=
  packagesWritten_ofEntries t.reverseEntries

theorem PackagesWritten.mapPackage {t : RenameTable} (h : t.PackagesWritten) {package : String}
    (hp : IsPackageName package) : IsPackageName (t.mapPackage package) := by
  rw [RenameTable.mapPackage, ExtTreeMap.getD_eq_getD_getElem?]
  cases hentry : t.packages[package]? with
  | none => exact hp
  | some mapped => exact (h package mapped hentry).2

/-! ## The way back -/

theorem classes_reverse (t : RenameTable) : t.reverse.classes = ExtTreeMap.ofList (t.classes.toList.map Prod.swap) := by
  have hpairs : t.reverseEntries.filterMap RenameEntry.classPair? = t.classes.toList.map Prod.swap := by
    simp [reverseEntries, List.filterMap_append, List.filterMap_map, Function.comp_def, RenameEntry.classPair?]
  rw [reverse, ofEntries, classes_addAll, hpairs, empty, ExtTreeMap.ofList_eq_insertMany_empty]

theorem packages_reverse (t : RenameTable) : t.reverse.packages =
    ExtTreeMap.ofList (t.packages.toList.map fun p => (packageName p.2, packageName p.1)) := by
  have hpairs : t.reverseEntries.filterMap RenameEntry.packagePair? =
      t.packages.toList.map fun p => (packageName p.2, packageName p.1) := by
    simp [reverseEntries, List.filterMap_append, List.filterMap_map, Function.comp_def, RenameEntry.packagePair?]
  rw [reverse, ofEntries, packages_addAll, hpairs, empty, ExtTreeMap.ofList_eq_insertMany_empty]

/-- A field under its new name, with its old one. -/
def fieldBack (t : RenameTable) (p : FieldRef × String) : FieldRef × String :=
  (⟨t.mapClass p.1.owner, p.2⟩, p.1.name)

/-- A method under its new name, with its old one. -/
def methodBack (t : RenameTable) (p : MemberRef × String) : MemberRef × String :=
  (⟨t.mapClass p.1.owner, p.2, t.mapDescriptor p.1.descriptor⟩, p.1.name)

theorem fields_reverse (t : RenameTable) : t.reverse.fields = ExtTreeMap.ofList (t.fields.toList.map t.fieldBack) := by
  have hpairs : t.reverseEntries.filterMap RenameEntry.fieldPair? = t.fields.toList.map t.fieldBack := by
    simp [reverseEntries, List.filterMap_append, List.filterMap_map, Function.comp_def, RenameEntry.fieldPair?, fieldBack]
  rw [reverse, ofEntries, fields_addAll, hpairs, empty, ExtTreeMap.ofList_eq_insertMany_empty]

theorem methods_reverse (t : RenameTable) : t.reverse.methods = ExtTreeMap.ofList (t.methods.toList.map t.methodBack) := by
  have hpairs : t.reverseEntries.filterMap RenameEntry.methodPair? = t.methods.toList.map t.methodBack := by
    simp [reverseEntries, List.filterMap_append, List.filterMap_map, Function.comp_def, RenameEntry.methodPair?, methodBack]
  rw [reverse, ofEntries, methods_addAll, hpairs, empty, ExtTreeMap.ofList_eq_insertMany_empty]

/-- **A table that can be read backwards**: no two class entries and no two package entries have one new name. -/
structure Reversible (t : RenameTable) : Prop where
  classes : OneToOne t.classes
  packages : OneToOne t.packages
  written : t.PackagesWritten

namespace Reversible

variable {t : RenameTable} {old mapped : String}

/-- **The reverse has the class entries with their sides exchanged.** -/
theorem reverse_classes_iff (h : t.Reversible) :
    t.reverse.classes[mapped]? = some old ↔ t.classes[old]? = some mapped := by
  rw [classes_reverse, getElem?_ofList_swap h.classes]

/-- **The reverse has the package entries with their sides exchanged.** -/
theorem reverse_packages_iff (h : t.Reversible) :
    t.reverse.packages[mapped]? = some old ↔ t.packages[old]? = some mapped := by
  have hswap : t.packages.toList.map (fun p => (packageName p.2, packageName p.1)) =
      t.packages.toList.map Prod.swap := by
    refine List.map_congr_left fun p hmem => ?_
    obtain ⟨hold, hmapped⟩ := h.written p.1 p.2 (ExtTreeMap.mem_toList_iff_getElem?_eq_some.1 hmem)
    rw [packageName_eq hold, packageName_eq hmapped]
    rfl
  rw [packages_reverse, hswap, getElem?_ofList_swap h.packages]

/-- **A new package goes back to a package that is renamed to it again.** -/
theorem mapPackage_back (h : t.Reversible) (package : String) :
    t.mapPackage (t.reverse.mapPackage (t.mapPackage package)) = t.mapPackage package := by
  generalize hmapped : t.mapPackage package = mapped
  rw [mapPackage, ExtTreeMap.getD_eq_getD_getElem?] at hmapped
  have hback : t.reverse.mapPackage mapped = t.reverse.packages[mapped]?.getD mapped :=
    ExtTreeMap.getD_eq_getD_getElem?
  cases hold : t.reverse.packages[mapped]? with
  | some old =>
    rw [hback, hold, Option.getD_some, mapPackage, ExtTreeMap.getD_eq_getD_getElem?,
      h.reverse_packages_iff.1 hold, Option.getD_some]
  | none =>
    rw [hback, hold, Option.getD_none, mapPackage, ExtTreeMap.getD_eq_getD_getElem?]
    -- A new name of an entry would go back, so the package has kept its name.
    cases hentry : t.packages[package]? with
    | some m =>
      rw [hentry, Option.getD_some] at hmapped
      rw [hmapped, ← h.reverse_packages_iff, hold] at hentry
      cases hentry
    | none =>
      rw [hentry, Option.getD_none] at hmapped
      rw [← hmapped, hentry, Option.getD_none]

end Reversible

end RenameTable
end RenameAudit
