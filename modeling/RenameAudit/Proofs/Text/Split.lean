import Mathlib.Data.List.Basic
import RenameAudit.Text.Split
/-!
# Proofs.Text.Split — a text and its parts

What stands on the two sides of the last occurrence of a character (`splitLast?_eq_some_iff`), before the first one
(`takeWhile_bne_eq_iff`), and after a text at the start (`after?_eq_some_iff`).
-/
namespace RenameAudit
namespace Text

variable {sep : Char} {cs before after : List Char}

theorem splitLast?_eq_none_iff : splitLast? sep cs = none ↔ sep ∉ cs := by
  induction cs with
  | nil => simp [splitLast?]
  | cons c cs ih =>
    rw [List.mem_cons, not_or, ← ih, splitLast?]
    cases splitLast? sep cs with
    | some parts => simp
    | none => simp [eq_comm]

theorem not_mem_of_splitLast? (h : splitLast? sep cs = some (before, after)) : sep ∉ after := by
  induction cs generalizing before with
  | nil => simp [splitLast?] at h
  | cons c cs ih =>
    unfold splitLast? at h
    split at h
    · rename_i hcs
      cases h
      exact ih hcs
    · rename_i hnone
      split at h
      · cases h
        exact splitLast?_eq_none_iff.1 hnone
      · cases h

theorem splitLast?_append (before : List Char) (h : sep ∉ after) :
    splitLast? sep (before ++ sep :: after) = some (before, after) := by
  induction before with
  | nil => rw [List.nil_append, splitLast?, splitLast?_eq_none_iff.2 h]; simp
  | cons c before ih => rw [List.cons_append, splitLast?, ih]

/-- **The last occurrence divides a text** into what is before it and what is after it, where there is no other. -/
theorem splitLast?_eq_some_iff :
    splitLast? sep cs = some (before, after) ↔ cs = before ++ sep :: after ∧ sep ∉ after :=
  ⟨fun h => ⟨eq_of_splitLast? h, not_mem_of_splitLast? h⟩, fun ⟨hcs, h⟩ => hcs ▸ splitLast?_append before h⟩

/-- **What stands before the first occurrence of a character** is followed by it or by nothing. -/
theorem takeWhile_bne_eq_iff {part : List Char} (hsep : sep ∉ part) :
    cs.takeWhile (· != sep) = part ↔ ∃ rest, cs = part ++ rest ∧ (rest = [] ∨ rest.head? = some sep) := by
  constructor
  · rintro rfl
    refine ⟨cs.dropWhile (· != sep), List.takeWhile_append_dropWhile.symm, ?_⟩
    cases hrest : cs.dropWhile (· != sep) with
    | nil => exact .inl rfl
    | cons c rest =>
      have hhead := List.head?_dropWhile_not (· != sep) cs
      rw [hrest] at hhead
      exact .inr (congrArg some (by simpa using hhead))
  · rintro ⟨rest, rfl, hrest⟩
    have hpart : ∀ c ∈ part, (c != sep) = true := fun c hc => bne_iff_ne.2 fun heq => hsep (heq ▸ hc)
    have hnone : rest.takeWhile (· != sep) = [] := by
      rcases hrest with rfl | hhead
      · rfl
      · obtain ⟨rest', rfl⟩ := List.head?_eq_some_iff.1 hhead
        exact List.takeWhile_cons_of_neg (by simp)
    rw [List.takeWhile_append_of_pos hpart, hnone, List.append_nil]

theorem after?_eq_some_iff {start rest : List Char} : after? start cs = some rest ↔ cs = start ++ rest := by
  rw [after?]
  by_cases h : start.isPrefixOf cs = true
  · obtain ⟨rest', rfl⟩ := List.isPrefixOf_iff_prefix.1 h
    rw [if_pos h, List.drop_left, Option.some.injEq, List.append_cancel_left_eq]
  · rw [if_neg h]
    exact ⟨nofun, fun heq => absurd (List.isPrefixOf_iff_prefix.2 ⟨rest, heq.symm⟩) h⟩

theorem after?_eq_none_iff {start : List Char} : after? start cs = none ↔ ¬ start <+: cs := by
  rw [after?, ← List.isPrefixOf_iff_prefix]
  split <;> simp [*]

end Text
end RenameAudit
