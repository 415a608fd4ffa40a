/-!
# ListReader — taking parts off the front of a list

A reader takes some items off the front of a list and gives a value and the items that are left, or a fault.  What is
left is a suffix of what there was, and this is part of the type: a loop that reads until nothing is left ends because
each round leaves less.  The octets of a file and the bits of a compressed stream are read in this way.
-/
namespace RenameAudit

/-- A reader of a value from the front of a list of `τ`, with faults of type `ε`. -/
structure ListReader (τ ε α : Type) where
  run : List τ → Except ε (α × List τ)
  suffix_of_run : ∀ {b : List τ} {a : α} {rest : List τ}, run b = .ok (a, rest) → rest <:+ b

namespace ListReader

variable {τ ε α β γ : Type}

/-- Takes nothing. -/
protected def pure (a : α) : ListReader τ ε α where
  run b := .ok (a, b)
  suffix_of_run h := by cases h; exact List.suffix_refl _

/-- Reads on with what the first reader left. -/
protected def bind (p : ListReader τ ε α) (f : α → ListReader τ ε β) : ListReader τ ε β where
  run b :=
    match p.run b with
    | .ok (a, rest) => (f a).run rest
    | .error e => .error e
  suffix_of_run {b c rest} h := by
    split at h
    · rename_i a mid hp
      exact ((f a).suffix_of_run h).trans (p.suffix_of_run hp)
    · cases h

instance : Monad (ListReader τ ε) where
  pure := ListReader.pure
  bind := ListReader.bind

/-- Takes nothing and gives the value, or the fault, of a computation that reads nothing. -/
def lift (x : Except ε α) : ListReader τ ε α where
  run b := x.map (·, b)
  suffix_of_run h := by
    cases x with
    | error e => cases h
    | ok a => cases h; exact List.suffix_refl _

/-- Refuses. -/
def fail (e : ε) : ListReader τ ε α :=
  lift (.error e)

/-- The next item; `e` is the fault where there is none. -/
def next (e : ε) : ListReader τ ε τ where
  run
    | a :: rest => .ok (a, rest)
    | [] => .error e
  suffix_of_run {b a rest} h := by
    cases b with
    | nil => cases h
    | cons x xs => cases h; exact List.suffix_cons ..

/-- The next `n` items; `e` is the fault where there are fewer. -/
def takeOr (e : ε) (n : Nat) : ListReader τ ε (List τ) where
  run b := if n ≤ b.length then .ok (b.take n, b.drop n) else .error e
  suffix_of_run {b a rest} h := by
    split at h
    · cases h; exact List.drop_suffix ..
    · cases h

/-- The items at the front, up to `n` of them, which stay there. -/
def peek (n : Nat) : ListReader τ ε (List τ) where
  run b := .ok (b.take n, b)
  suffix_of_run h := by cases h; exact List.suffix_refl _

/-- Whether no item is left. -/
def atEnd : ListReader τ ε Bool where
  run b := .ok (b.isEmpty, b)
  suffix_of_run h := by cases h; exact List.suffix_refl _

/-- The longest run of items at the front with a property. -/
def takeWhile (q : τ → Bool) : ListReader τ ε (List τ) where
  run b := .ok (b.takeWhile q, b.dropWhile q)
  suffix_of_run h := by cases h; exact List.dropWhile_suffix _

/-- `n` values, one after another. -/
def times (item : ListReader τ ε α) : Nat → ListReader τ ε (List α)
  | 0 => return []
  | n + 1 => do
    let a ← item
    let as ← times item n
    return a :: as

/-- The same reader, its faults changed. -/
def onFault {ε' : Type} (f : ε → ε') (p : ListReader τ ε α) : ListReader τ ε' α where
  run b :=
    match p.run b with
    | .ok r => .ok r
    | .error e => .error (f e)
  suffix_of_run {b a rest} h := by
    split at h
    · rename_i r hr
      cases h
      exact p.suffix_of_run hr
    · cases h

theorem length_le_of_run (p : ListReader τ ε α) {b rest : List τ} {a : α} (h : p.run b = .ok (a, rest)) :
    rest.length ≤ b.length :=
  (p.suffix_of_run h).length_le

@[simp] theorem run_pure (a : α) (b : List τ) : (pure a : ListReader τ ε α).run b = .ok (a, b) := rfl

theorem run_bind (p : ListReader τ ε α) (f : α → ListReader τ ε β) (b : List τ) :
    (p >>= f).run b =
      match p.run b with
      | .ok (a, rest) => (f a).run rest
      | .error e => .error e := rfl

@[ext] theorem ext {p q : ListReader τ ε α} (h : ∀ b, p.run b = q.run b) : p = q := by
  cases p; cases q; simp only [mk.injEq]; exact funext h

theorem id_map (p : ListReader τ ε α) : id <$> p = p := by
  ext1 b
  show (match p.run b with | .ok (a, rest) => Except.ok (a, rest) | .error e => .error e) = p.run b
  split <;> simp_all

theorem bind_assoc (p : ListReader τ ε α) (f : α → ListReader τ ε β) (g : β → ListReader τ ε γ) :
    p >>= f >>= g = p >>= fun a => f a >>= g := by
  ext1 b
  simp only [run_bind]
  cases p.run b <;> rfl

instance : LawfulMonad (ListReader τ ε) :=
  LawfulMonad.mk' (ListReader τ ε) id_map (fun _ _ => rfl) bind_assoc

/-! ## Loops -/

/-- Whether a reader always takes something. -/
def Consumes (p : ListReader τ ε α) : Prop :=
  ∀ (b : List τ) (a : α) (rest : List τ), p.run b = .ok (a, rest) → rest.length < b.length

theorem consumes_next (e : ε) : Consumes (next e : ListReader τ ε τ) := by
  intro b a rest h
  cases b with
  | nil => cases h
  | cons x xs => cases h; simp

theorem consumes_takeOr (e : ε) {n : Nat} (hn : 0 < n) : Consumes (takeOr e n : ListReader τ ε (List τ)) := by
  intro b a rest h
  simp only [takeOr] at h
  split at h
  · cases h
    simp only [List.length_drop]
    omega
  · cases h

theorem Consumes.bind {p : ListReader τ ε α} (hp : Consumes p) (f : α → ListReader τ ε β) : Consumes (p >>= f) := by
  intro b c rest h
  rw [run_bind] at h
  split at h
  · rename_i a mid hm
    exact Nat.lt_of_le_of_lt ((f a).length_le_of_run h) (hp _ _ _ hm)
  · cases h

theorem Consumes.bind_right (p : ListReader τ ε α) {f : α → ListReader τ ε β} (hf : ∀ a, Consumes (f a)) :
    Consumes (p >>= f) := by
  intro b c rest h
  rw [run_bind] at h
  split at h
  · rename_i a mid hm
    exact Nat.lt_of_lt_of_le (hf a _ _ _ h) (p.length_le_of_run hm)
  · cases h

/-- The rounds of a loop: each gives the state for the next round or the value of the loop. -/
def rounds {σ : Type} (step : σ → ListReader τ ε (σ ⊕ α)) (hs : ∀ s, Consumes (step s)) (s : σ) (b : List τ) :
    Except ε (α × List τ) :=
  match _h : (step s).run b with
  | .ok (.inl s', rest) => rounds step hs s' rest
  | .ok (.inr a, rest) => .ok (a, rest)
  | .error e => .error e
termination_by b.length
decreasing_by exact hs s _ _ _ _h

/-- A loop of rounds that each take something. -/
def loop {σ : Type} (step : σ → ListReader τ ε (σ ⊕ α)) (hs : ∀ s, Consumes (step s)) (s : σ) :
    ListReader τ ε α where
  run := rounds step hs s
  suffix_of_run {b a rest} h := by
    fun_induction rounds step hs s b with
    | case1 s b s' rest' hr ih => exact (ih h).trans ((step s).suffix_of_run hr)
    | case2 s b a' rest' hr => cases h; exact (step s).suffix_of_run hr
    | case3 => cases h

theorem length_lt_of_rounds {σ : Type} {step : σ → ListReader τ ε (σ ⊕ α)} {hs : ∀ s, Consumes (step s)} {s : σ}
    {b rest : List τ} {a : α} (h : rounds step hs s b = .ok (a, rest)) : rest.length < b.length := by
  fun_induction rounds step hs s b with
  | case1 s b s' rest' hr ih => exact Nat.lt_trans (ih h) (hs s _ _ _ hr)
  | case2 s b a' rest' hr => cases h; exact hs s _ _ _ hr
  | case3 => cases h

theorem consumes_loop {σ : Type} (step : σ → ListReader τ ε (σ ⊕ α)) (hs : ∀ s, Consumes (step s)) (s : σ) :
    Consumes (loop step hs s) :=
  fun _ _ _ => length_lt_of_rounds

end ListReader
end RenameAudit
