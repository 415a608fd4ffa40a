import Std.Data.ExtTreeMap
import Std.Data.ExtTreeSet
/-!
# Proofs.Sets.Members — maps and sets by their members

The laws of sorted maps with equality of keys for the comparison of keys.
-/
namespace RenameAudit

open Std

variable {α β γ : Type} [Ord α] [TransOrd α] [LawfulEqOrd α]

theorem getElem?_insert_eq [DecidableEq α] {m : ExtTreeMap α β} {k a : α} {v : β} :
    (m.insert k v)[a]? = if a = k then some v else m[a]? := by
  rw [ExtTreeMap.getElem?_insert]
  by_cases h : a = k
  · rw [if_pos h, if_pos (Std.compare_eq_iff_eq.2 h.symm)]
  · rw [if_neg h, if_neg (fun hc => h (Std.compare_eq_iff_eq.1 hc).symm)]

theorem getD_insert_eq [DecidableEq α] {m : ExtTreeMap α β} {k a : α} {v fallback : β} :
    (m.insert k v).getD a fallback = if a = k then v else m.getD a fallback := by
  rw [ExtTreeMap.getD_insert]
  by_cases h : a = k
  · rw [if_pos h, if_pos (Std.compare_eq_iff_eq.2 h.symm)]
  · rw [if_neg h, if_neg (fun hc => h (Std.compare_eq_iff_eq.1 hc).symm)]

theorem getElem?_modify_eq [DecidableEq α] {m : ExtTreeMap α β} {k a : α} {f : β → β} :
    (m.modify k f)[a]? = if a = k then m[a]?.map f else m[a]? := by
  rw [ExtTreeMap.getElem?_modify]
  by_cases h : a = k
  · subst h
    rw [if_pos rfl, if_pos (Std.compare_eq_iff_eq.2 rfl)]
  · rw [if_neg h, if_neg (fun hc => h (Std.compare_eq_iff_eq.1 hc).symm)]

theorem mem_insert_iff {m : ExtTreeMap α β} {k a : α} {v : β} : a ∈ m.insert k v ↔ a = k ∨ a ∈ m := by
  rw [ExtTreeMap.mem_insert, Std.compare_eq_iff_eq, eq_comm]

theorem mem_erase_iff {m : ExtTreeMap α β} {k a : α} : a ∈ m.erase k ↔ a ∈ m ∧ a ≠ k := by
  rw [ExtTreeMap.mem_erase, ne_eq, Std.compare_eq_iff_eq]
  exact ⟨fun h => ⟨h.2, fun he => h.1 he.symm⟩, fun h => ⟨fun he => h.2 he.symm, h.1⟩⟩

omit [LawfulEqOrd α] in
theorem mem_of_getElem? {m : ExtTreeMap α β} {a : α} {v : β} (h : m[a]? = some v) : a ∈ m := by
  rw [ExtTreeMap.mem_iff_isSome_getElem?, h]
  rfl

omit [LawfulEqOrd α] in
theorem getElem?_eq_none_iff {m : ExtTreeMap α β} {a : α} : m[a]? = none ↔ a ∉ m := by
  rw [ExtTreeMap.mem_iff_isSome_getElem?, Option.not_isSome_iff_eq_none]

/-- **The list of keys is determined by what is a key.** -/
theorem keys_congr {m : ExtTreeMap α β} {m' : ExtTreeMap α γ} (h : ∀ a, a ∈ m ↔ a ∈ m') : m.keys = m'.keys := by
  have hunit : m.map (fun _ _ => ()) = m'.map fun _ _ => () :=
    ExtTreeMap.ext_mem_unit fun a => by rw [ExtTreeMap.mem_map, ExtTreeMap.mem_map, h]
  rw [← ExtTreeMap.keys_map (f := fun _ _ => ()), hunit, ExtTreeMap.keys_map]

/-- **What a map holds after insertions** was there before or is one of them. -/
theorem mem_of_getElem?_insertMany {m : ExtTreeMap α β} {l : List (α × β)} {k : α} {v : β}
    (h : (m.insertMany l)[k]? = some v) : (k, v) ∈ l ∨ m[k]? = some v := by
  classical
  induction l generalizing m with
  | nil => exact .inr h
  | cons p l ih =>
    obtain ⟨a, w⟩ := p
    rw [ExtTreeMap.insertMany_cons] at h
    rcases ih h with hl | hm
    · exact .inl (List.mem_cons_of_mem _ hl)
    · rw [getElem?_insert_eq] at hm
      split at hm
      · rename_i hk
        cases hm
        exact .inl (hk ▸ List.mem_cons_self)
      · exact .inr hm

theorem mem_of_getElem?_ofList {l : List (α × β)} {k : α} {v : β}
    (h : (ExtTreeMap.ofList l : ExtTreeMap α β)[k]? = some v) : (k, v) ∈ l := by
  rw [ExtTreeMap.ofList_eq_insertMany_empty] at h
  rcases mem_of_getElem?_insertMany h with hl | hempty
  · exact hl
  · cases ExtTreeMap.getElem?_empty.symm.trans hempty

theorem mem_set_insert_iff {s : ExtTreeSet α} {k a : α} : a ∈ s.insert k ↔ a = k ∨ a ∈ s := by
  rw [ExtTreeSet.mem_insert, Std.compare_eq_iff_eq, eq_comm]

theorem mem_set_erase_iff {s : ExtTreeSet α} {k a : α} : a ∈ s.erase k ↔ a ∈ s ∧ a ≠ k := by
  rw [ExtTreeSet.mem_erase, ne_eq, Std.compare_eq_iff_eq]
  exact ⟨fun h => ⟨h.2, fun he => h.1 he.symm⟩, fun h => ⟨fun he => h.2 he.symm, h.1⟩⟩

theorem mem_ofList_iff [BEq α] [LawfulBEq α] {l : List α} {a : α} : a ∈ (ExtTreeSet.ofList l : ExtTreeSet α) ↔ a ∈ l := by
  rw [ExtTreeSet.mem_ofList, List.contains_iff_mem]

theorem set_ne_empty_iff {s : ExtTreeSet α} : s ≠ ∅ ↔ ∃ a, a ∈ s := by
  constructor
  · intro h
    have hne : s.toList ≠ [] := fun hnil => h (ExtTreeSet.toList_eq_nil_iff.1 hnil)
    obtain ⟨a, ha⟩ := List.exists_mem_of_ne_nil _ hne
    exact ⟨a, ExtTreeSet.mem_toList.1 ha⟩
  · rintro ⟨a, ha⟩ rfl
    exact ExtTreeSet.not_mem_empty ha

end RenameAudit
