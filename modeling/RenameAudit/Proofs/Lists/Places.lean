import Mathlib.Data.List.Nodup
/-!
# Proofs.Lists.Places — items by their places

What stands at a place of a list after an item was added or changed there, and what two lists have at one place whose
images are the same.
-/
namespace RenameAudit

theorem getElem?_snoc {α : Type} {l : List α} {x y : α} {i : Nat} :
    (l ++ [x])[i]? = some y ↔ l[i]? = some y ∨ i = l.length ∧ x = y := by
  grind

theorem exists_getElem?_append {α : Type} {l kept : List α} {p : α → Prop} :
    (∃ i, l.length ≤ i ∧ ∃ x, (l ++ kept)[i]? = some x ∧ p x) ↔ ∃ x ∈ kept, p x := by
  constructor
  · rintro ⟨i, hi, x, hx, hp⟩
    rw [List.getElem?_append_right hi] at hx
    exact ⟨x, List.mem_of_getElem? hx, hp⟩
  · rintro ⟨x, hx, hp⟩
    obtain ⟨j, hj⟩ := List.mem_iff_getElem?.1 hx
    refine ⟨l.length + j, Nat.le_add_right _ _, x, ?_, hp⟩
    rwa [List.getElem?_append_right (Nat.le_add_right _ _), Nat.add_sub_cancel_left]

theorem map_modify {α β : Type} {f : α → α} {g : α → β} (h : ∀ x, g (f x) = g x) (l : List α) (i : Nat) :
    (l.modify i f).map g = l.map g := by
  refine List.ext_getElem? fun j => ?_
  rw [List.getElem?_map, List.getElem?_modify, List.getElem?_map]
  cases l[j]? with
  | none => rfl
  | some x =>
    by_cases hij : i = j
    · simp [hij, h]
    · simp [hij]

theorem exists_of_map_eq {α β : Type} {g : α → β} {l l' : List α} (h : l.map g = l'.map g) {i : Nat} {x : α}
    (hx : l[i]? = some x) : ∃ y, l'[i]? = some y ∧ g y = g x := by
  have hi : (l.map g)[i]? = (l'.map g)[i]? := by rw [h]
  rw [List.getElem?_map, List.getElem?_map, hx] at hi
  exact Option.map_eq_some_iff.1 hi.symm

/-- **Each item gives one pair at most**, with the item's key, so keys are not repeated where the items do not repeat them. -/
theorem map_fst_filterMap_sublist {α β γ : Type} {f : α → Option (β × γ)} {key : α → β}
    (h : ∀ a p, f a = some p → p.1 = key a) (l : List α) : ((l.filterMap f).map Prod.fst).Sublist (l.map key) := by
  induction l with
  | nil => exact List.Sublist.refl _
  | cons a rest ih =>
    rw [List.filterMap_cons]
    split
    · exact ih.cons _
    · rename_i p hp
      rw [List.map_cons, List.map_cons, h a p hp]
      exact ih.cons_cons _

/-- **What is found first under a key is what stands there**, where keys are not repeated. -/
theorem find?_fst_eq_some {α β : Type} [DecidableEq α] {l : List (α × β)} (hl : (l.map Prod.fst).Nodup) {a : α} {b : β} :
    (l.find? (·.1 == a)).map (·.2) = some b ↔ (a, b) ∈ l := by
  rw [Option.map_eq_some_iff]
  constructor
  · rintro ⟨p, hp, rfl⟩
    have hfst : p.1 = a := by simpa using List.find?_some hp
    exact hfst ▸ List.mem_of_find?_eq_some hp
  · intro hmem
    cases hfind : l.find? (·.1 == a) with
    | none => exact absurd (List.find?_eq_none.1 hfind _ hmem) (by simp)
    | some p =>
      have hfst : p.1 = a := by simpa using List.find?_some hfind
      exact ⟨p, rfl, congrArg Prod.snd (List.inj_on_of_nodup_map hl (List.mem_of_find?_eq_some hfind) hmem hfst)⟩

theorem takeWhile_congr {α : Type} {p q : α → Bool} {l : List α} (h : ∀ x ∈ l, p x = q x) :
    l.takeWhile p = l.takeWhile q := by
  induction l with
  | nil => rfl
  | cons x rest ih =>
    rw [List.takeWhile_cons, List.takeWhile_cons, h x List.mem_cons_self, ih fun y hy => h y (List.mem_cons_of_mem _ hy)]

end RenameAudit
