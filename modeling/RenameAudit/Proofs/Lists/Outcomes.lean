import Mathlib.Data.List.Basic
import RenameAudit.Proofs.Lists.Reads
/-!
# Proofs.Lists.Outcomes — what readers make of the items that they take

A reader makes of certain items a value or a fault, whatever follows them (`Makes`); items one after another are made into
what is computed from their outcomes one after another (`Makes.bind`, `Makes.times`).  A reader is exact when the items that
it took before some others it takes before any others (`Exact`).
-/
namespace RenameAudit
namespace ListReader

variable {τ ε α β ω : Type}

/-! ## Outcomes -/

/-- **A reader makes a value or a fault of certain items**, whatever follows them. -/
def Makes (p : ListReader τ ε α) (items : List τ) (x : Except ε α) : Prop :=
  ∀ rest, p.run (items ++ rest) = x.map (·, rest)

theorem Reads.makes {p : ListReader τ ε α} {items : List τ} {a : α} (h : Reads p items a) : Makes p items (.ok a) :=
  h

theorem makes_lift (x : Except ε α) : Makes (lift x : ListReader τ ε α) [] x :=
  fun _ => rfl

namespace Makes

variable {p : ListReader τ ε α} {f : α → ListReader τ ε β} {items more : List τ} {x : Except ε α} {g : α → Except ε β}

theorem bind (hp : Makes p items x) (hf : ∀ a, Makes (f a) more (g a)) : Makes (p >>= f) (items ++ more) (x >>= g) := by
  intro rest
  rw [run_bind, List.append_assoc, hp]
  cases x with
  | ok a => exact hf a rest
  | error e => rfl

/-- The last reader may take nothing. -/
theorem bind_last (hp : Makes p items x) (hf : ∀ a, Makes (f a) [] (g a)) : Makes (p >>= f) items (x >>= g) := by
  have hbind := hp.bind hf
  rwa [List.append_nil] at hbind

/-- A reader after a computation that reads nothing. -/
theorem after_lift {y : Except ε α} (hf : ∀ a, Makes (f a) items (g a)) : Makes (lift y >>= f) items (y >>= g) :=
  (makes_lift y).bind hf

/-- A reader after one that reads a known value. -/
theorem after {a : α} {y : Except ε β} (hp : Reads p items a) (hf : Makes (f a) more y) :
    Makes (p >>= f) (items ++ more) y := by
  intro rest
  rw [run_bind, List.append_assoc, hp]
  exact hf rest

/-- Parts one after another make the list of what each makes. -/
theorem times {part : ω → List τ} {value : ω → Except ε α} {parts : List ω} (h : ∀ o ∈ parts, Makes p (part o) (value o)) :
    Makes (p.times parts.length) (parts.flatMap part) (parts.mapM value) := by
  induction parts with
  | nil => exact makes_lift (.ok [])
  | cons o parts ih =>
    obtain ⟨ho, hparts⟩ := List.forall_mem_cons.1 h
    rw [List.mapM_cons, List.flatMap_cons]
    exact ho.bind fun a => (ih hparts).bind_last fun as => makes_lift (.ok (a :: as))

end Makes

/-! ## Exact readers -/

/-- **An exact reader takes the same items before anything else**, for the same value. -/
def Exact (p : ListReader τ ε α) : Prop :=
  ∀ b a rest, p.run b = .ok (a, rest) → ∃ items, b = items ++ rest ∧ Reads p items a

theorem exists_of_run_bind {p : ListReader τ ε α} {f : α → ListReader τ ε β} {b rest : List τ} {c : β}
    (h : (p >>= f).run b = .ok (c, rest)) : ∃ a mid, p.run b = .ok (a, mid) ∧ (f a).run mid = .ok (c, rest) := by
  rw [run_bind] at h
  split at h
  · rename_i a mid hp
    exact ⟨a, mid, hp, h⟩
  · cases h

theorem of_run_lift {x : Except ε α} {b rest : List τ} {a : α} (h : (lift x).run b = .ok (a, rest)) :
    x = .ok a ∧ b = rest := by
  cases x with
  | ok a' =>
    cases h
    exact ⟨rfl, rfl⟩
  | error e => cases h

theorem of_run_takeOr {e : ε} {n : Nat} {b items rest : List τ} (h : (takeOr e n).run b = .ok (items, rest)) :
    b = items ++ rest ∧ items.length = n := by
  simp only [takeOr] at h
  split at h
  · rename_i hn
    cases h
    exact ⟨(List.take_append_drop n b).symm, List.length_take_of_le hn⟩
  · cases h

/-- Parts that are each read are read from the parts of the whole. -/
theorem exists_parts_of_times {p : ListReader τ ε α} {part : ω → List τ} {P : ω → Prop}
    (hp : ∀ b a rest, p.run b = .ok (a, rest) → ∃ o, P o ∧ b = part o ++ rest) :
    ∀ {n : Nat} {b rest : List τ} {as : List α}, (p.times n).run b = .ok (as, rest) →
      ∃ parts : List ω, parts.length = n ∧ (∀ o ∈ parts, P o) ∧ b = parts.flatMap part ++ rest
  | 0, b, rest, as, h => by
    cases h
    exact ⟨[], rfl, nofun, rfl⟩
  | n + 1, b, rest, as, h => by
    obtain ⟨a, mid, ha, h⟩ := exists_of_run_bind h
    obtain ⟨as', mid', has, h⟩ := exists_of_run_bind h
    cases h
    obtain ⟨o, ho, rfl⟩ := hp b a mid ha
    obtain ⟨parts, hlength, hparts, rfl⟩ := exists_parts_of_times hp has
    exact ⟨o :: parts, congrArg Nat.succ hlength, List.forall_mem_cons.2 ⟨ho, hparts⟩,
      by rw [List.flatMap_cons, List.append_assoc]⟩

theorem exact_lift (x : Except ε α) : Exact (lift x : ListReader τ ε α) := by
  intro b a rest h
  obtain ⟨hx, rfl⟩ := of_run_lift h
  exact ⟨[], rfl, reads_lift hx⟩

theorem exact_next (e : ε) : Exact (next e : ListReader τ ε τ) := by
  intro b a rest h
  cases b with
  | nil => cases h
  | cons x xs =>
    cases h
    exact ⟨[a], rfl, reads_next e a⟩

theorem exact_takeOr (e : ε) (n : Nat) : Exact (takeOr e n : ListReader τ ε (List τ)) := by
  intro b items rest h
  obtain ⟨hb, hlength⟩ := of_run_takeOr h
  exact ⟨items, hb, reads_takeOr e hlength.symm⟩

namespace Exact

variable {p : ListReader τ ε α}

/-- What is read to the end is read before anything else. -/
theorem reads {items : List τ} {a : α} (hp : Exact p) (h : p.run items = .ok (a, [])) : Reads p items a := by
  obtain ⟨items', rfl, hreads⟩ := hp items a [] h
  rwa [List.append_nil]

theorem bind {f : α → ListReader τ ε β} (hp : Exact p) (hf : ∀ a, Exact (f a)) : Exact (p >>= f) := by
  intro b c rest h
  obtain ⟨a, mid, ha, hc⟩ := exists_of_run_bind h
  obtain ⟨items, rfl, hitems⟩ := hp b a mid ha
  obtain ⟨more, rfl, hmore⟩ := hf a mid c rest hc
  exact ⟨items ++ more, (List.append_assoc ..).symm, hitems.bind hmore⟩

theorem map (hp : Exact p) (g : α → β) : Exact (g <$> p) := by
  rw [map_eq_pure_bind]
  exact hp.bind fun a => exact_lift (.ok (g a))

theorem seq {q : ListReader τ ε (α → β)} (hq : Exact q) (hp : Exact p) : Exact (q <*> p) := by
  rw [seq_eq_bind_map]
  exact hq.bind fun g => hp.map g

end Exact
end ListReader
end RenameAudit
