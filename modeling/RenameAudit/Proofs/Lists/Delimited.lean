import Mathlib.Data.List.Basic
import RenameAudit.ListReader
/-!
# Proofs.Lists.Delimited — readers that look at nothing but what they take

A reader that looks no further than what it takes gives the same value whatever follows (`append`), and with a part of
what it takes missing it has nothing to report but the end of the list (`cut`).  Both survive sequences, choices and
repetition, so every reader that is put together from such readers is one.
-/
namespace RenameAudit
namespace ListReader

variable {τ ε α β : Type}

/-- **A reader looks at what it takes and at nothing else**; `e` is its fault where that is cut off. -/
structure Delimited (e : ε) (p : ListReader τ ε α) : Prop where
  append : ∀ {b : List τ} {a : α} {rest : List τ} (more : List τ), p.run b = .ok (a, rest) →
    p.run (b ++ more) = .ok (a, rest ++ more)
  cut : ∀ {b more : List τ} {a : α} {rest : List τ}, p.run (b ++ more) = .ok (a, rest) →
    p.run b = .error e ∨ ∃ left, p.run b = .ok (a, left) ∧ rest = left ++ more

variable {e : ε}

theorem delimited_pure (a : α) : Delimited e (pure a : ListReader τ ε α) where
  append more h := by cases h; rfl
  cut {b} _ _ _ h := by cases h; exact .inr ⟨b, rfl, rfl⟩

theorem delimited_lift (x : Except ε α) : Delimited e (lift x : ListReader τ ε α) := by
  cases x with
  | ok a => exact delimited_pure a
  | error e' => exact ⟨fun _ h => (nomatch h), fun h => (nomatch h)⟩

theorem delimited_fail (e' : ε) : Delimited e (fail e' : ListReader τ ε α) :=
  delimited_lift _

theorem delimited_next : Delimited e (next e : ListReader τ ε τ) where
  append {b _ _} more h := by
    cases b with
    | nil => cases h
    | cons x xs => cases h; rfl
  cut {b _ _ _} h := by
    cases b with
    | nil => exact .inl rfl
    | cons x xs => cases h; exact .inr ⟨xs, rfl, rfl⟩

theorem delimited_takeOr (n : Nat) : Delimited e (takeOr e n : ListReader τ ε (List τ)) where
  append {b _ _} more h := by
    simp only [takeOr] at h ⊢
    split at h
    · rename_i hn
      cases h
      rw [if_pos (by rw [List.length_append]; omega), List.take_append_of_le_length hn,
        List.drop_append_of_le_length hn]
    · cases h
  cut {b _ _ _} h := by
    simp only [takeOr] at h ⊢
    by_cases hn : n ≤ b.length
    · rw [if_pos (by rw [List.length_append]; omega), List.take_append_of_le_length hn,
        List.drop_append_of_le_length hn] at h
      cases h
      exact .inr ⟨b.drop n, if_pos hn, rfl⟩
    · exact .inl (if_neg hn)

namespace Delimited

variable {p : ListReader τ ε α} {f : α → ListReader τ ε β}

theorem bind (hp : Delimited e p) (hf : ∀ a, Delimited e (f a)) : Delimited e (p >>= f) where
  append {b _ _} more h := by
    rw [run_bind] at h ⊢
    split at h
    · rename_i a mid hmid
      rw [hp.append more hmid]
      exact (hf a).append more h
    · cases h
  cut {b more _ _} h := by
    rw [run_bind] at h ⊢
    split at h
    · rename_i a mid hmid
      rcases hp.cut hmid with hend | ⟨left, hleft, rfl⟩
      · exact .inl (by rw [hend])
      · rw [hleft]
        exact (hf a).cut h
    · cases h

theorem map (hp : Delimited e p) (g : α → β) : Delimited e (g <$> p) :=
  map_eq_pure_bind g p ▸ hp.bind fun a => delimited_pure (g a)

theorem seq {q : ListReader τ ε (α → β)} (hq : Delimited e q) (hp : Delimited e p) : Delimited e (q <*> p) := by
  rw [seq_eq_bind_map]
  exact hq.bind fun g => hp.map g

theorem times (hp : Delimited e p) : ∀ n, Delimited e (p.times n)
  | 0 => delimited_pure []
  | n + 1 => hp.bind fun _ => (hp.times n).bind fun _ => delimited_pure _

end Delimited
end ListReader
end RenameAudit
