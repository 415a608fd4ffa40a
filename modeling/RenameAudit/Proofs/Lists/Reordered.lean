import Mathlib.Data.List.Basic
/-!
# Proofs.Lists.Reordered — lists that differ in the order of some neighbours

`Reordered may l l'` says that neighbours `x`, `y` with `may x y` can be swapped until `l` has become `l'`.  A loop over
such lists ends in related states when its step keeps states related and two swapped steps lead to related states
(`Reordered.foldl`).
-/
namespace RenameAudit

variable {β σ : Type}

/-- A list becomes another when certain neighbours are swapped. -/
inductive Reordered (may : β → β → Prop) : List β → List β → Prop where
  | nil : Reordered may [] []
  | cons (x : β) {l l' : List β} : Reordered may l l' → Reordered may (x :: l) (x :: l')
  | swap {x y : β} (l : List β) : may x y → Reordered may (x :: y :: l) (y :: x :: l)
  | trans {l l' l'' : List β} : Reordered may l l' → Reordered may l' l'' → Reordered may l l''

namespace Reordered

variable {may : β → β → Prop} {l l' m m' : List β}

theorem refl (l : List β) : Reordered may l l := by
  induction l with
  | nil => exact .nil
  | cons x _ ih => exact .cons x ih

theorem append_left (l : List β) (h : Reordered may m m') : Reordered may (l ++ m) (l ++ m') := by
  induction l with
  | nil => exact h
  | cons x _ ih => exact .cons x ih

theorem append (h : Reordered may l l') (hm : Reordered may m m') : Reordered may (l ++ m) (l' ++ m') := by
  induction h generalizing m m' with
  | nil => exact hm
  | cons x _ ih => exact .cons x (ih hm)
  | @swap x y l hxy => exact .trans (.swap _ hxy) (append_left (y :: x :: l) hm)
  | trans _ _ ih₁ ih₂ => exact .trans (ih₁ hm) (ih₂ (.refl m'))

theorem filter (p : β → Bool) (h : Reordered may l l') : Reordered may (l.filter p) (l'.filter p) := by
  induction h with
  | nil => exact .nil
  | cons x _ ih =>
    rw [List.filter_cons, List.filter_cons]
    split
    · exact .cons x ih
    · exact ih
  | @swap x y l hxy =>
    simp only [List.filter_cons]
    split
    · split
      · exact .swap _ hxy
      · exact .refl _
    · exact .refl _
  | trans _ _ ih₁ ih₂ => exact .trans ih₁ ih₂

theorem of_perm (hsymm : ∀ x y, may x y → may y x) (h : l.Perm l') (hl : l.Pairwise may) : Reordered may l l' := by
  induction h with
  | nil => exact .nil
  | cons x _ ih => exact .cons x (ih (List.pairwise_cons.1 hl).2)
  | swap x y l => exact .swap l ((List.pairwise_cons.1 hl).1 x List.mem_cons_self)
  | trans h _ ih₁ ih₂ => exact .trans (ih₁ hl) (ih₂ (hl.perm h fun hxy => hsymm _ _ hxy))

/-- **Loops over reordered lists end in related states.** -/
theorem foldl {step : σ → β → σ} {related : σ → σ → Prop}
    (htrans : ∀ {s t u}, related s t → related t u → related s u)
    (hstep : ∀ {s t} x, related s t → related (step s x) (step t x))
    (hswap : ∀ {s x y}, related s s → may x y → related (step (step s x) y) (step (step s y) x))
    (h : Reordered may l l') {s t : σ} (hst : related s t) (ht : related t t) :
    related (l.foldl step s) (l'.foldl step t) := by
  have hsame : ∀ (l : List β) {s t}, related s t → related (l.foldl step s) (l.foldl step t) := by
    intro l
    induction l with
    | nil => exact fun hst => hst
    | cons x _ ih => exact fun hst => ih (hstep x hst)
  induction h generalizing s t with
  | nil => exact hst
  | cons x _ ih => exact ih (hstep x hst) (hstep x ht)
  | @swap x y l hxy => exact hsame l (htrans (hstep y (hstep x hst)) (hswap ht hxy))
  | trans _ _ ih₁ ih₂ => exact htrans (ih₁ hst ht) (ih₂ ht ht)

end Reordered
end RenameAudit
