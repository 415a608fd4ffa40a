import Mathlib.Data.List.Basic
import Mathlib.Data.List.Forall2
import RenameAudit.ListReader
/-!
# Proofs.Lists.Reads — readers of what was written

A reader reads a value from items when it takes exactly those, whatever follows (`Reads`).  Items written one after
another are read by readers one after another (`Reads.bind`, `Reads.times`).
-/
namespace RenameAudit
namespace ListReader

variable {τ ε α β : Type}

/-- **A reader takes certain items and gives a value**, whatever follows them. -/
def Reads (p : ListReader τ ε α) (items : List τ) (a : α) : Prop :=
  ∀ rest, p.run (items ++ rest) = .ok (a, rest)

theorem reads_pure (a : α) : Reads (pure a : ListReader τ ε α) [] a :=
  fun _ => rfl

theorem reads_lift {x : Except ε α} {a : α} (h : x = .ok a) : Reads (lift x : ListReader τ ε α) [] a :=
  fun _ => h ▸ rfl

theorem reads_next (e : ε) (x : τ) : Reads (next e) [x] x :=
  fun _ => rfl

theorem reads_takeOr (e : ε) {n : Nat} {items : List τ} (h : n = items.length) : Reads (takeOr e n) items items := by
  intro rest
  rw [h]
  simp only [takeOr]
  rw [if_pos (by rw [List.length_append]; omega), List.take_left', List.drop_left'] <;> rfl

namespace Reads

variable {p : ListReader τ ε α} {items more : List τ} {a : α}

theorem bind {f : α → ListReader τ ε β} {b : β} (hp : Reads p items a) (hf : Reads (f a) more b) :
    Reads (p >>= f) (items ++ more) b := by
  intro rest
  rw [run_bind, List.append_assoc, hp]
  exact hf rest

/-- The last reader may take nothing. -/
theorem bind_last {f : α → ListReader τ ε β} {b : β} (hp : Reads p items a) (hf : Reads (f a) [] b) :
    Reads (p >>= f) items b := by
  have hbind := hp.bind hf
  rwa [List.append_nil] at hbind

/-- A reader after a computation that reads nothing. -/
theorem after_lift {x : Except ε α} {f : α → ListReader τ ε β} {b : β} (hx : x = .ok a) (hf : Reads (f a) items b) :
    Reads (lift x >>= f) items b :=
  (reads_lift hx).bind hf

theorem map (hp : Reads p items a) (g : α → β) : Reads (g <$> p) items (g a) := by
  rw [map_eq_pure_bind]
  exact hp.bind_last (reads_pure (g a))

theorem seq {q : ListReader τ ε (α → β)} {g : α → β} (hq : Reads q items g) (hp : Reads p more a) :
    Reads (q <*> p) (items ++ more) (g a) := by
  rw [seq_eq_bind_map]
  exact hq.bind (hp.map g)

/-- Values written one after another are read one after another. -/
theorem times {parts : List (List τ)} {as : List α} (h : List.Forall₂ (Reads p) parts as) {n : Nat}
    (hn : n = as.length) : Reads (p.times n) parts.flatten as := by
  subst hn
  induction h with
  | nil => exact reads_pure []
  | @cons part a parts as hpart _ ih => exact hpart.bind (ih.bind_last (reads_pure (a :: as)))

end Reads
end ListReader
end RenameAudit
