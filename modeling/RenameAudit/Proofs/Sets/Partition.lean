import Mathlib.Logic.Relation
import RenameAudit.Proofs.Sets.Forest
/-!
# Proofs.Sets.Partition — the partition that disjoint sets stand for

`Represents s member r` says what disjoint sets stand for and leaves out their trees: the elements are those with
`member`, and two elements have one root exactly when pairs of `r` connect them.  Every operation adds its own elements
and its own pairs, in whatever order, so what was joined first and which element is a root cannot be seen
(`mem_components`).
-/
namespace RenameAudit
namespace DisjointSets

open Std Relation

variable {α γ : Type} [Ord α] [TransOrd α] [DecidableEq α]

/-- **What disjoint sets stand for**: their elements, and the pairs that connect those of one set. -/
structure Represents (s : DisjointSets α) (member : α → Prop) (r : α → α → Prop) : Prop where
  forest : s.Forest
  mem : ∀ x : α, x ∈ s.parent ↔ member x
  same : ∀ x y : α, s.root x = s.root y ↔ EqvGen r x y

omit [Ord α] [TransOrd α] [DecidableEq α] in
/-- What pairs connect, every equivalence with these pairs connects. -/
theorem connected_le {r e : α → α → Prop} (he : Equivalence e) (hr : ∀ x y, r x y → e x y) {x y : α}
    (h : EqvGen r x y) : e x y :=
  have := he.isEquiv
  EqvGen.eqvGen_le hr x y h

omit [Ord α] [TransOrd α] [DecidableEq α] in
/-- Pairs that connect each other's pairs connect the same elements. -/
theorem connected_congr {r r' : α → α → Prop} (h : ∀ x y, r x y → EqvGen r' x y) (h' : ∀ x y, r' x y → EqvGen r x y)
    (x y : α) : EqvGen r x y ↔ EqvGen r' x y :=
  ⟨connected_le (EqvGen.is_equivalence r') h, connected_le (EqvGen.is_equivalence r) h'⟩

theorem root_equivalence (s : DisjointSets α) : Equivalence fun x y => s.root x = s.root y :=
  ⟨fun _ => rfl, fun h => h.symm, fun h₁ h₂ => h₁.trans h₂⟩

theorem represents_empty : (empty : DisjointSets α).Represents (fun _ => False) (fun _ _ => False) := by
  have hnone : ∀ x : α, x ∉ (empty : DisjointSets α).parent := fun x => ExtTreeMap.not_mem_empty
  refine ⟨⟨fun x p hp => (hnone x (mem_of_getElem? hp)).elim, fun x p hp => (hnone x (mem_of_getElem? hp)).elim⟩,
    fun x => ⟨hnone x, False.elim⟩, fun x y => ?_⟩
  rw [root_of_not_mem (hnone x), root_of_not_mem (hnone y)]
  exact ⟨fun h => h ▸ .refl x, connected_le (e := Eq) ⟨.refl, .symm, .trans⟩ fun _ _ h => h.elim⟩

variable [LawfulEqOrd α]

namespace Represents

variable {s : DisjointSets α} {member member' : α → Prop} {r r' : α → α → Prop}

omit [LawfulEqOrd α] in
theorem congr (h : s.Represents member r) (hm : ∀ x, member x ↔ member' x) (hr : ∀ x y, EqvGen r x y ↔ EqvGen r' x y) :
    s.Represents member' r' :=
  ⟨h.forest, fun x => (h.mem x).trans (hm x), fun x y => (h.same x y).trans (hr x y)⟩

theorem find (h : s.Represents member r) (x : α) : (s.find x).2.Represents (fun z => member z ∨ z = x) r :=
  ⟨forest_find h.forest x, fun z => by rw [mem_find h.forest, h.mem, or_comm],
    fun u v => by rw [root_find h.forest, root_find h.forest, h.same]⟩

/-- **Joining two elements** enters both and connects them. -/
theorem union (h : s.Represents member r) (x y : α) :
    (s.union x y).2.Represents (fun z => member z ∨ z = x ∨ z = y) (fun u v => r u v ∨ (u = x ∧ v = y)) := by
  refine ⟨forest_union h.forest x y, fun z => ?_, fun u v => ?_⟩
  · rw [mem_union h.forest, h.mem, ← or_assoc, or_comm]
  · constructor
    · have hle : ∀ {u v}, s.root u = s.root v → EqvGen (fun u v => r u v ∨ (u = x ∧ v = y)) u v := fun he =>
        connected_le (EqvGen.is_equivalence _) (fun _ _ hr => .rel _ _ (.inl hr)) ((h.same _ _).1 he)
      have hxy : EqvGen (fun u v => r u v ∨ (u = x ∧ v = y)) x y := .rel _ _ (.inr ⟨rfl, rfl⟩)
      rw [root_union h.forest]
      rintro (he | ⟨hu, hv⟩ | ⟨hu, hv⟩)
      · exact hle he
      · exact ((hle hu).trans _ _ _ hxy).trans _ _ _ ((hle hv).symm _ _)
      · exact ((hle hu).trans _ _ _ (hxy.symm _ _)).trans _ _ _ ((hle hv).symm _ _)
    · refine connected_le (root_equivalence _) fun u v huv => (root_union h.forest x y u v).2 ?_
      rcases huv with hr | ⟨rfl, rfl⟩
      · exact .inl ((h.same u v).2 (.rel _ _ hr))
      · exact .inr (.inl ⟨rfl, rfl⟩)

omit [LawfulEqOrd α] in
/-- Steps that each enter elements and connect pairs of their own. -/
theorem foldl {step : DisjointSets α → γ → DisjointSets α} {entered : γ → α → Prop} {joined : γ → α → α → Prop}
    (hstep : ∀ {s member r} (c : γ), s.Represents member r →
      (step s c).Represents (fun x => member x ∨ entered c x) (fun x y => r x y ∨ joined c x y))
    (items : List γ) (h : s.Represents member r) :
    (items.foldl step s).Represents (fun x => member x ∨ ∃ c ∈ items, entered c x)
      (fun x y => r x y ∨ ∃ c ∈ items, joined c x y) := by
  induction items generalizing s member r with
  | nil => exact h.congr (fun x => by simp) (fun x y => connected_congr (fun _ _ h => .rel _ _ (.inl h))
      (fun _ _ h => .rel _ _ (by simpa using h)) x y)
  | cons c rest ih =>
    refine (ih (hstep c h)).congr (fun x => ?_) (connected_congr (fun x y hr => .rel _ _ ?_) fun x y hr => .rel _ _ ?_)
    · simp [or_assoc]
    · simpa [or_assoc] using hr
    · simpa [or_assoc] using hr

/-- **Joining listed elements** enters them and connects each with each. -/
theorem joinAll (h : s.Represents member r) (xs : List α) :
    (s.joinAll xs).Represents (fun z => member z ∨ z ∈ xs) (fun u v => r u v ∨ (u ∈ xs ∧ v ∈ xs)) := by
  cases xs with
  | nil => exact h.congr (fun x => by simp) (connected_congr (fun _ _ h => .rel _ _ (.inl h))
      (fun _ _ h => .rel _ _ (by simpa using h)))
  | cons a rest =>
    have hfold := foldl (fun c hs => hs.union a c) rest (h.find a)
    refine hfold.congr (fun z => ?_) (connected_congr (fun u v hr => ?_) fun u v hr => ?_)
    · constructor
      · rintro ((hz | hz) | ⟨c, hc, hz | hz⟩)
        · exact .inl hz
        · exact .inr (hz ▸ List.mem_cons_self)
        · exact .inr (hz ▸ List.mem_cons_self)
        · exact .inr (hz ▸ List.mem_cons_of_mem _ hc)
      · rintro (hz | hz)
        · exact .inl (.inl hz)
        · exact (List.mem_cons.1 hz).elim (fun he => .inl (.inr he)) fun hz => .inr ⟨z, hz, .inr rfl⟩
    · rcases hr with hr | ⟨c, hc, rfl, rfl⟩
      · exact .rel _ _ (.inl hr)
      · exact .rel _ _ (.inr ⟨List.mem_cons_self, List.mem_cons_of_mem _ hc⟩)
    · rcases hr with hr | ⟨hu, hv⟩
      · exact .rel _ _ (.inl hr)
      · -- both are joined with the first
        have hfirst : ∀ w ∈ a :: rest, EqvGen (fun u v => r u v ∨ ∃ c ∈ rest, u = a ∧ v = c) a w := fun w hw =>
          (List.mem_cons.1 hw).elim (fun he => he ▸ .refl w) fun hw => .rel _ _ (.inr ⟨w, hw, rfl, rfl⟩)
        exact ((hfirst u hu).symm _ _).trans _ _ _ (hfirst v hv)

end Represents

/-! ## The sets as lists -/

theorem getElem?_byRoot (s : DisjointSets α) (r : α) :
    s.byRoot[r]? = if r ∈ s.elements.map s.root then some (s.elements.filter fun x => s.root x = r) else none := by
  have hgo : ∀ (items : List α) (sets : ExtTreeMap α (List α)),
      (items.foldl (fun sets x => sets.insert (s.root x) (sets.getD (s.root x) [] ++ [x])) sets)[r]? =
        if r ∈ items.map s.root then some (sets.getD r [] ++ items.filter fun x => s.root x = r) else sets[r]? := by
    intro items
    induction items with
    | nil => intro sets; simp
    | cons x rest ih =>
      intro sets
      rw [List.foldl_cons, ih, getElem?_insert_eq, getD_insert_eq, List.map_cons, List.filter_cons]
      by_cases hx : r = s.root x
      · subst hx
        by_cases hr : s.root x ∈ rest.map s.root
        · simp [hr]
        · have hnil : rest.filter (fun y => s.root y = s.root x) = [] :=
            List.filter_eq_nil_iff.2 fun y hy he => hr (List.mem_map.2 ⟨y, hy, by simpa using he⟩)
          rw [if_neg hr, if_pos rfl, if_pos List.mem_cons_self]
          simp [hnil]
      · have hx' : ¬ s.root x = r := fun he => hx he.symm
        simp [hx, hx']
  rw [byRoot, hgo]
  simp [ExtTreeMap.getD_empty]

/-- **The sets as lists**: for each element, the elements that have its root. -/
theorem mem_components {s : DisjointSets α} {c : List α} :
    c ∈ s.components ↔ ∃ x ∈ s.parent, c = s.elements.filter fun y => s.root y = s.root x := by
  rw [components, List.mem_map]
  simp only [Prod.exists, ExtTreeMap.mem_toList_iff_getElem?_eq_some, getElem?_byRoot]
  constructor
  · rintro ⟨r, c', h, rfl⟩
    split at h
    · rename_i hr
      obtain ⟨x, hx, rfl⟩ := List.mem_map.1 hr
      exact ⟨x, ExtTreeMap.mem_keys.1 hx, (Option.some.inj h).symm⟩
    · cases h
  · rintro ⟨x, hx, rfl⟩
    exact ⟨s.root x, _, if_pos (List.mem_map.2 ⟨x, ExtTreeMap.mem_keys.2 hx, rfl⟩), rfl⟩

/-- **Disjoint sets that stand for the same have the same sets.** -/
theorem mem_components_congr {s t : DisjointSets α} {member : α → Prop} {r r' : α → α → Prop}
    (hs : s.Represents member r) (ht : t.Represents member r') (hr : ∀ x y, EqvGen r x y ↔ EqvGen r' x y) (c : List α) :
    c ∈ s.components ↔ c ∈ t.components := by
  have hkeys : s.elements = t.elements := keys_congr fun a => by rw [hs.mem, ht.mem]
  have hroot : ∀ x y : α, s.root x = s.root y ↔ t.root x = t.root y := fun x y => by rw [hs.same, ht.same, hr]
  rw [mem_components, mem_components, hkeys]
  refine exists_congr fun x => and_congr (by rw [hs.mem, ht.mem]) ?_
  simp only [hroot]

end DisjointSets
end RenameAudit
