import Mathlib.Data.List.Sort
/-!
# Proofs.Lists.Ascending — lists in a strict order

Items with distinct keys ascend once they are sorted by them (`pairwise_lt_mergeSort`), and lists that ascend are equal
where they have the same items (`eq_of_ascending`).
-/
namespace RenameAudit

/-- **A list in a strict order is determined by its members.** -/
theorem eq_of_ascending {α : Type} {before : α → α → Prop} (hasymm : ∀ a b, before a b → ¬ before b a) {l l' : List α}
    (h : l.Pairwise before) (h' : l'.Pairwise before) (hmem : ∀ a, a ∈ l ↔ a ∈ l') : l = l' := by
  have : Std.Irrefl before := ⟨fun a ha => hasymm a a ha ha⟩
  have : Std.Antisymm before := ⟨fun a b hab hba => absurd hba (hasymm a b hab)⟩
  exact h.eq_of_mem_iff h' hmem

/-- **Items with distinct keys ascend** once they are sorted by them. -/
theorem pairwise_lt_mergeSort {α : Type} (key : α → String) {items : List α}
    (h : items.Pairwise fun a b => key a ≠ key b) :
    (items.mergeSort fun a b => decide (key a ≤ key b)).Pairwise fun a b => key a < key b := by
  have hle : (items.mergeSort fun a b => decide (key a ≤ key b)).Pairwise fun a b => key a ≤ key b := by
    have htrans : ∀ a b c, decide (key a ≤ key b) = true → decide (key b ≤ key c) = true →
        decide (key a ≤ key c) = true := by
      simp only [decide_eq_true_eq]
      exact fun a b c => String.le_trans
    have htotal : ∀ a b, (decide (key a ≤ key b) || decide (key b ≤ key a)) = true := by
      simp only [Bool.or_eq_true, decide_eq_true_eq]
      exact fun a b => String.le_total _ _
    exact (List.pairwise_mergeSort htrans htotal items).imp of_decide_eq_true
  have hne : (items.mergeSort fun a b => decide (key a ≤ key b)).Pairwise fun a b => key a ≠ key b :=
    (List.mergeSort_perm items _).symm.pairwise h fun hab => hab.symm
  exact (hle.and hne).imp fun hab => Std.lt_of_le_of_ne hab.1 hab.2

end RenameAudit
