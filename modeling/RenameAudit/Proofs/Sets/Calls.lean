import RenameAudit.Proofs.Sets.Partition
/-!
# Proofs.Sets.Calls — disjoint sets after any calls

Elements are looked up and joined in any order, from no sets on.  A look-up is two loops, one that goes up to the root and
one that hangs what was passed under it (`LooksUp`), and both end.  After any calls the sets are those that the joined
pairs connect (`represents_after`), the elements are the arguments of the calls, and every element has a rank (`Ranked`).
-/
namespace RenameAudit
namespace DisjointSets

open Std Relation

variable {α : Type} [Ord α] [TransOrd α] [DecidableEq α]

/-! ## The two loops of a look-up -/

/-- **The second loop**: from an element up to the root, each passed element is hung under the root. -/
inductive Shortens (root : α) : ExtTreeMap α α → α → ExtTreeMap α α → Prop where
  | done {parent : ExtTreeMap α α} : Shortens root parent root parent
  | next {parent parent' : ExtTreeMap α α} {x p : α} : x ≠ root → parent[x]? = some p →
      Shortens root (parent.insert x root) p parent' → Shortens root parent x parent'

/-- **A look-up, loop by loop**: an element that is not there is entered, and from one that is there the first loop climbs to
the root. -/
inductive LooksUp (s : DisjointSets α) (x : α) : α → DisjointSets α → Prop where
  | enter : s.parent[x]? = none → LooksUp s x x ⟨s.parent.insert x x, s.rank.insert x 0⟩
  | climb {root : α} {parent : ExtTreeMap α α} : Climbs s.parent x root → Shortens root s.parent x parent →
      LooksUp s x root { s with parent }

omit [DecidableEq α] in
theorem Shortens.unique {root x : α} {parent parent' parent'' : ExtTreeMap α α} (h : Shortens root parent x parent')
    (h' : Shortens root parent x parent'') : parent' = parent'' := by
  induction h with
  | done =>
    cases h' with
    | done => rfl
    | next hne _ _ => exact absurd rfl hne
  | next hne hp _ ih =>
    cases h' with
    | done => exact absurd rfl hne
    | next _ hp' h =>
      rw [hp] at hp'
      cases hp'
      exact ih h

omit [DecidableEq α] in
/-- A look-up ends in one way at most. -/
theorem LooksUp.unique {s t t' : DisjointSets α} {x r r' : α} (h : s.LooksUp x r t) (h' : s.LooksUp x r' t') :
    r = r' ∧ t = t' := by
  cases h with
  | enter hnone =>
    cases h' with
    | enter => exact ⟨rfl, rfl⟩
    | climb hclimbs _ => exact absurd hclimbs.mem (getElem?_eq_none_iff.1 hnone)
  | climb hclimbs hshortens =>
    cases h' with
    | enter hnone => exact absurd hclimbs.mem (getElem?_eq_none_iff.1 hnone)
    | climb hclimbs' hshortens' =>
      obtain rfl := hclimbs.unique hclimbs'
      obtain rfl := hshortens.unique hshortens'
      exact ⟨rfl, rfl⟩

variable [LawfulEqOrd α]

/-- **The second loop ends** where the way of the first has been hung under its root.  Elements from `x` on have not been
touched before, since ranks grow on the way. -/
theorem shortens_climb {s : DisjointSets α} (hs : s.Forest) (remaining : ExtTreeMap α α) (x : α) :
    ∀ current : ExtTreeMap α α, x ∈ s.parent → (∀ y ∈ s.parent, s.rank.getD x 0 ≤ s.rank.getD y 0 → y ∈ remaining) →
      (∀ y : α, s.rank.getD x 0 ≤ s.rank.getD y 0 → current[y]? = s.parent[y]?) →
      Shortens (climb s.parent remaining x).2 current x
        ((climb s.parent remaining x).1.foldl (fun parent y => parent.insert y (climb s.parent remaining x).2) current) := by
  fun_induction climb s.parent remaining x with
  | case1 remaining x hnone =>
    intro current hx _ _
    exact absurd hx (getElem?_eq_none_iff.1 hnone)
  | case2 remaining x hself =>
    intro current _ _ _
    exact .done
  | case3 remaining x p hp hne _hin way ih =>
    intro current hx hrem hcurrent
    have hlt := hs.rank_lt x p hp hne
    have hrem' : ∀ y ∈ s.parent, s.rank.getD p 0 ≤ s.rank.getD y 0 → y ∈ remaining.erase x := fun y hy hle =>
      mem_erase_iff.2 ⟨hrem y hy (by omega), fun he => by subst he; omega⟩
    have hclimbs := (climb_climbs hs (remaining.erase x) p (hs.parent_mem x p hp) hrem').1
    have hxr : x ≠ way.2 := by
      intro he
      have hle := hs.rank_le hclimbs
      change s.rank.getD p 0 ≤ s.rank.getD way.2 0 at hle
      rw [← he] at hle
      omega
    refine .next hxr ((hcurrent x (Nat.le_refl _)).trans hp) ?_
    refine ih (current.insert x way.2) (hs.parent_mem x p hp) hrem' fun y hle => ?_
    have hyx : y ≠ x := fun he => by subst he; omega
    rw [getElem?_insert_eq, if_neg hyx, hcurrent y (by omega)]
  | case4 remaining x p hp hne hnot =>
    intro current hx hrem _
    exact absurd (ExtTreeMap.contains_iff_mem.2 (hrem x hx (Nat.le_refl _))) hnot

/-- **Both loops of a look-up end**, and what they leave is the result. -/
theorem looksUp_find {s : DisjointSets α} (hs : s.Forest) (x : α) : s.LooksUp x (s.find x).1 (s.find x).2 := by
  unfold find
  split
  · rename_i hx
    have hx := ExtTreeMap.contains_iff_mem.1 hx
    have hall : ∀ y ∈ s.parent, s.rank.getD x 0 ≤ s.rank.getD y 0 → y ∈ s.parent := fun _ hy _ => hy
    exact .climb (climb_climbs hs s.parent x hx hall).1 (shortens_climb hs s.parent x s.parent hx hall fun _ _ => rfl)
  · rename_i hx
    exact .enter (getElem?_eq_none_iff.2 fun h => hx (ExtTreeMap.contains_iff_mem.2 h))

theorem looksUp_iff {s t : DisjointSets α} (hs : s.Forest) {x r : α} : s.LooksUp x r t ↔ s.find x = (r, t) := by
  constructor
  · intro h
    obtain ⟨hr, ht⟩ := (looksUp_find hs x).unique h
    exact Prod.ext hr ht
  · intro h
    have hfind := looksUp_find hs x
    rwa [h] at hfind

/-! ## Ranks -/

/-- Every element has a rank. -/
def Ranked (s : DisjointSets α) : Prop :=
  ∀ x ∈ s.parent, x ∈ s.rank

theorem ranked_find {s : DisjointSets α} (hs : s.Forest) (h : s.Ranked) (x : α) : (s.find x).2.Ranked := by
  intro y hy
  rw [mem_find hs] at hy
  unfold find
  split
  · rename_i hx
    rcases hy with rfl | hy
    · exact h y (ExtTreeMap.contains_iff_mem.1 hx)
    · exact h y hy
  · exact mem_insert_iff.2 (hy.imp_right (h y))

omit [DecidableEq α] in
theorem mem_rank_link {s : DisjointSets α} {a b x : α} (h : x ∈ s.rank) : x ∈ (s.link a b).rank := by
  simp only [link]
  split
  · exact h
  · split
    · exact h
    · exact mem_insert_iff.2 (.inr h)

theorem ranked_union {s : DisjointSets α} (hs : s.Forest) (h : s.Ranked) (x y : α) : (s.union x y).2.Ranked := by
  have hx := ranked_find hs h x
  have hy := ranked_find (forest_find hs x) hx y
  intro z hz
  have hfound : z ∈ ((s.find x).2.find y).2.parent := by
    rw [mem_find (forest_find hs x), mem_find hs, or_left_comm]
    exact (mem_union hs x y z).1 hz
  rw [union_eq hs]
  split
  · exact hy z hfound
  · exact mem_rank_link (hy z hfound)

/-! ## Calls -/

/-- A call: an element is looked up, or two are joined. -/
inductive Call (α : Type) where
  | find (x : α)
  | union (x y : α)
  deriving DecidableEq, Repr

/-- The arguments of a call. -/
def Call.arguments : Call α → List α
  | find x => [x]
  | union x y => [x, y]

/-- The sets after a call. -/
def Call.run (s : DisjointSets α) : Call α → DisjointSets α
  | find x => (s.find x).2
  | union x y => (s.union x y).2

/-- The sets after calls, of which the first finds no sets. -/
def after (calls : List (Call α)) : DisjointSets α :=
  calls.foldl Call.run empty

/-- Whether a chain of pairs that were joined leads from one element to another. -/
def Joined (calls : List (Call α)) : α → α → Prop :=
  EqvGen fun x y => .union x y ∈ calls

/-- Whether two elements have been entered and are in one set. -/
def Together (s : DisjointSets α) (x y : α) : Prop :=
  x ∈ s.elements ∧ y ∈ s.elements ∧ (s.find x).1 = (s.find y).1

theorem Represents.call {s : DisjointSets α} {member : α → Prop} {r : α → α → Prop} (c : Call α)
    (h : s.Represents member r) :
    (c.run s).Represents (fun x => member x ∨ x ∈ c.arguments) (fun x y => r x y ∨ c = .union x y) := by
  cases c with
  | find a => exact (h.find a).congr (fun x => by simp [Call.arguments]) fun x y => by simp
  | union a b =>
    refine (h.union a b).congr (fun x => by simp [Call.arguments]) fun x y => ?_
    simp only [Call.union.injEq, eq_comm]

/-- **After any calls the sets are those that the joined pairs connect**, and the elements are the arguments. -/
theorem represents_after (calls : List (Call α)) :
    (after calls).Represents (fun x => ∃ c ∈ calls, x ∈ c.arguments) (fun x y => .union x y ∈ calls) := by
  have hstep : ∀ {s : DisjointSets α} {member : α → Prop} {r : α → α → Prop} (c : Call α), s.Represents member r →
      (Call.run s c).Represents (fun x => member x ∨ x ∈ c.arguments) (fun x y => r x y ∨ c = .union x y) :=
    fun c h => h.call c
  exact (represents_empty.foldl hstep calls).congr (fun x => by simp) fun x y => by simp

theorem ranked_after (calls : List (Call α)) : (after calls).Ranked := by
  have hrun : ∀ (calls : List (Call α)) (s : DisjointSets α), s.Forest → s.Ranked → (calls.foldl Call.run s).Ranked := by
    intro calls
    induction calls with
    | nil => exact fun _ _ h => h
    | cons c calls ih =>
      intro s hs h
      cases c with
      | find x => exact ih _ (forest_find hs x) (ranked_find hs h x)
      | union x y => exact ih _ (forest_union hs x y) (ranked_union hs h x y)
  exact hrun calls empty represents_empty.forest fun x hx => absurd hx ExtTreeMap.not_mem_empty

omit [DecidableEq α] in
theorem mem_elements {s : DisjointSets α} {x : α} : x ∈ s.elements ↔ x ∈ s.parent :=
  ExtTreeMap.mem_keys

theorem union_fst {s : DisjointSets α} (hs : s.Forest) (x y : α) :
    (s.union x y).1 = true ↔ s.root x ≠ s.root y := by
  have hx : (s.find x).1 = s.root x := find_fst x
  have hy : ((s.find x).2.find y).1 = s.root y := by rw [find_fst, root_find hs]
  simp only [union, hx, hy]
  split
  · simp [*]
  · simp [*]

/-- **Looking an element up changes no set**, but for a new element, which is a set of its own. -/
theorem together_find {s : DisjointSets α} (hs : s.Forest) (x y z : α) :
    (s.find x).2.Together y z ↔ s.Together y z ∨ x ∉ s.elements ∧ y = x ∧ z = x := by
  simp only [Together, mem_elements, mem_find hs, find_fst, root_find hs]
  -- A new element is no root of the others.
  have hroot : ∀ {y}, y ∈ s.parent → s.root y = x → x ∈ s.parent := fun hy he => he ▸ root_mem hs hy
  constructor
  · rintro ⟨hy, hz, heq⟩
    by_cases hx : x ∈ s.parent
    · exact .inl ⟨hy.elim (fun he => he ▸ hx) id, hz.elim (fun he => he ▸ hx) id, heq⟩
    · have hself := root_of_not_mem hx
      rcases hy with rfl | hy
      · refine .inr ⟨hx, rfl, hz.resolve_right fun hz => hx (hroot hz ?_)⟩
        rw [← heq, hself]
      · rcases hz with rfl | hz
        · exact absurd (hroot hy (heq.trans hself)) hx
        · exact .inl ⟨hy, hz, heq⟩
  · rintro (⟨hy, hz, heq⟩ | ⟨-, rfl, rfl⟩)
    · exact ⟨.inr hy, .inr hz, heq⟩
    · exact ⟨.inl rfl, .inl rfl, rfl⟩

theorem together_root {s : DisjointSets α} (hs : s.Forest) (x : α) : (s.find x).2.Together x (s.find x).1 := by
  have hx : x ∈ (s.find x).2.parent := (mem_find hs x x).2 (.inl rfl)
  have hroot := root_mem (forest_find hs x) hx
  rw [root_find hs] at hroot
  refine ⟨mem_elements.2 hx, ?_, ?_⟩
  · rwa [find_fst, mem_elements]
  · simp only [find_fst, root_find hs, root_root hs]

/-- **Disjoint sets are what their calls make them**, after any calls from no sets on. -/
theorem sets_of_calls (calls : List (Call α)) :
    (∀ x r t, (after calls).LooksUp x r t ↔ (after calls).find x = (r, t)) ∧
    (∀ x y, ((after calls).find x).1 = (((after calls).find x).2.find y).1 ↔ Joined calls x y) ∧
    (∀ x, ((after calls).find x).2.Together x ((after calls).find x).1) ∧
    (∀ x y z, ((after calls).find x).2.Together y z ↔
      (after calls).Together y z ∨ x ∉ (after calls).elements ∧ y = x ∧ z = x) ∧
    (∀ x y, ((after calls).union x y).1 = true ↔ ¬ Joined calls x y) ∧
    ((∀ x, x ∈ (after calls).elements ↔ ∃ c ∈ calls, x ∈ c.arguments) ∧ (after calls).elements.Nodup) ∧
    ∀ x y, ((after calls).find x).1 ∈ (((after calls).find x).2.find y).2.rank ∧
      (((after calls).find x).2.find y).1 ∈ (((after calls).find x).2.find y).2.rank := by
  have h := represents_after calls
  have hs := h.forest
  refine ⟨fun x r t => looksUp_iff hs, fun x y => ?_, together_root hs, together_find hs, fun x y => ?_,
    ⟨fun x => ?_, ExtTreeMap.nodup_keys⟩, fun x y => ?_⟩
  · rw [find_fst, find_fst, root_find hs, h.same]
    rfl
  · rw [union_fst hs, ne_eq, h.same]
    rfl
  · rw [mem_elements, h.mem]
  · have hranked := ranked_find (forest_find hs x) (ranked_find hs (ranked_after calls) x) y
    obtain ⟨hx, hy⟩ := roots_entered hs x y
    rw [find_fst, find_fst, root_find hs]
    exact ⟨hranked _ (mem_of_getElem? hx), hranked _ (mem_of_getElem? hy)⟩

/-- Two pairs, one of them joined twice, that are then joined through one element of each. -/
def pairsJoined : List (Call Nat) :=
  [.union 1 2, .union 3 4, .union 2 1, .union 2 4]

/-- Their first elements are in one set, and an element that was in no call is apart from them. -/
theorem pairsJoined_sets :
    ((after pairsJoined).find 1).1 = (((after pairsJoined).find 1).2.find 3).1 ∧
    ((after pairsJoined).union 9 1).1 = true ∧ 9 ∉ (after pairsJoined).elements := by
  obtain ⟨-, hsame, -, -, hunion, ⟨helements, -⟩, -⟩ := sets_of_calls pairsJoined
  have hpair : ∀ x y, .union x y ∈ pairsJoined → Joined pairsJoined x y := fun x y h => .rel x y h
  have hchain : Joined pairsJoined 1 3 :=
    ((hpair 1 2 (by decide)).trans _ _ _ (hpair 2 4 (by decide))).trans _ _ _ ((hpair 3 4 (by decide)).symm _ _)
  have hapart : ¬ Joined pairsJoined 9 1 := by
    intro h
    have hnine : Equivalence fun x y : Nat => x = 9 ↔ y = 9 := ⟨fun _ => .rfl, .symm, .trans⟩
    have hclosed : ∀ x y, Call.union x y ∈ pairsJoined → (x = 9 ↔ y = 9) := by
      intro x y hxy
      simp only [pairsJoined, List.mem_cons, Call.union.injEq, List.not_mem_nil, or_false] at hxy
      omega
    exact absurd ((connected_le hnine hclosed h).1 rfl) (by decide)
  exact ⟨(hsame 1 3).2 hchain, (hunion 9 1).2 hapart, fun h => absurd ((helements 9).1 h) (by decide)⟩

end DisjointSets
end RenameAudit
