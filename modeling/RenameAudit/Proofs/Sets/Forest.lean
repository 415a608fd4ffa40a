import RenameAudit.Proofs.Sets.Members
import RenameAudit.Sets.DisjointSets
/-!
# Proofs.Sets.Forest — which elements disjoint sets join

The parents of disjoint sets make a forest: each parent has been entered, and ranks grow on the way up
(`Forest`).  So every climb ends at a root (`climb_climbs`), and what an operation does is said by what it does to the
roots alone:

- `root_find`: looking an element up moves no element to another set;
- `root_union`: joining two elements joins their two sets and no others.
-/
namespace RenameAudit
namespace DisjointSets

open Std

variable {α : Type} [Ord α] [TransOrd α] [DecidableEq α]

/-- **Parents make a forest**: they have been entered, and ranks grow from an element to its parent. -/
structure Forest (s : DisjointSets α) : Prop where
  parent_mem : ∀ x p : α, s.parent[x]? = some p → p ∈ s.parent
  rank_lt : ∀ x p : α, s.parent[x]? = some p → p ≠ x → s.rank.getD x 0 < s.rank.getD p 0

/-- An element lies below a root, or is it. -/
inductive Climbs (parent : ExtTreeMap α α) : α → α → Prop where
  | root {x : α} : parent[x]? = some x → Climbs parent x x
  | up {x p r : α} : parent[x]? = some p → p ≠ x → Climbs parent p r → Climbs parent x r

namespace Climbs

variable {parent : ExtTreeMap α α} {x r r' : α}

omit [DecidableEq α] in
theorem end_root (h : Climbs parent x r) : parent[r]? = some r := by
  induction h with
  | root h => exact h
  | up _ _ _ ih => exact ih

omit [DecidableEq α] in
theorem unique (h : Climbs parent x r) (h' : Climbs parent x r') : r = r' := by
  induction h with
  | root h =>
    cases h' with
    | root => rfl
    | up hp hne _ => rw [h] at hp; exact absurd (Option.some.inj hp).symm hne
  | up hp hne _ ih =>
    cases h' with
    | root h => rw [h] at hp; exact absurd (Option.some.inj hp).symm hne
    | up hp' _ hc => rw [hp] at hp'; cases hp'; exact ih hc

omit [DecidableEq α] in
theorem mem (h : Climbs parent x r) : x ∈ parent := by
  cases h with
  | root h => exact mem_of_getElem? h
  | up h _ _ => exact mem_of_getElem? h

end Climbs

omit [DecidableEq α] in
theorem Forest.rank_le {s : DisjointSets α} (hs : s.Forest) {x r : α} (h : Climbs s.parent x r) :
    s.rank.getD x 0 ≤ s.rank.getD r 0 := by
  induction h with
  | root => exact Nat.le_refl _
  | up hp hne _ ih => exact Nat.le_trans (Nat.le_of_lt (hs.rank_lt _ _ hp hne)) ih

section Lawful

variable [LawfulEqOrd α]

/-! ## Climbing -/

/-- **A climb ends at a root, and passes only elements below it**, as long as all that rank no lower than its start
remain. -/
theorem climb_climbs {s : DisjointSets α} (hs : s.Forest) (remaining : ExtTreeMap α α) (x : α) :
    x ∈ s.parent → (∀ y ∈ s.parent, s.rank.getD x 0 ≤ s.rank.getD y 0 → y ∈ remaining) →
      Climbs s.parent x (climb s.parent remaining x).2 ∧
        ∀ y ∈ (climb s.parent remaining x).1, Climbs s.parent y (climb s.parent remaining x).2 := by
  fun_induction climb s.parent remaining x with
  | case1 remaining x hnone =>
    intro hx
    rw [ExtTreeMap.mem_iff_isSome_getElem?, hnone] at hx
    cases hx
  | case2 remaining x hself =>
    exact fun _ _ => ⟨.root hself, fun y hy => by cases hy⟩
  | case3 remaining x p hp hne _hin way ih =>
    intro hx hrem
    have hlt := hs.rank_lt x p hp hne
    obtain ⟨hc, hway⟩ := ih (hs.parent_mem x p hp) fun y hy hle =>
      mem_erase_iff.2 ⟨hrem y hy (by omega), fun he => by subst he; omega⟩
    refine ⟨.up hp hne hc, fun y hy => ?_⟩
    rcases List.mem_cons.1 hy with rfl | hy
    · exact .up hp hne hc
    · exact hway y hy
  | case4 remaining x p hp hne hnot =>
    intro hx hrem
    exact absurd (ExtTreeMap.contains_iff_mem.2 (hrem x hx (Nat.le_refl _))) hnot

theorem climbs_root {s : DisjointSets α} (hs : s.Forest) {x : α} (hx : x ∈ s.parent) :
    Climbs s.parent x (s.root x) :=
  (climb_climbs hs s.parent x hx fun _ hy _ => hy).1

theorem root_eq {s : DisjointSets α} (hs : s.Forest) {x r : α} (h : Climbs s.parent x r) : s.root x = r :=
  (climbs_root hs h.mem).unique h

omit [LawfulEqOrd α] in
theorem root_of_not_mem {s : DisjointSets α} {x : α} (hx : x ∉ s.parent) : s.root x = x := by
  rw [root, climb, ExtTreeMap.getElem?_eq_none hx]

theorem root_mem {s : DisjointSets α} (hs : s.Forest) {x : α} (hx : x ∈ s.parent) : s.root x ∈ s.parent :=
  hs.parent_mem _ _ (climbs_root hs hx).end_root

theorem root_root {s : DisjointSets α} (hs : s.Forest) (x : α) : s.root (s.root x) = s.root x := by
  by_cases hx : x ∈ s.parent
  · exact root_eq hs (.root (climbs_root hs hx).end_root)
  · rw [root_of_not_mem hx, root_of_not_mem hx]

/-! ## Changing one parent -/

/-- **To hang an element directly under its root** keeps the forest and every root. -/
theorem shorten {s : DisjointSets α} (hs : s.Forest) {y r : α} (hy : Climbs s.parent y r) :
    Forest { s with parent := s.parent.insert y r } ∧
      ∀ {x t}, Climbs s.parent x t → Climbs (s.parent.insert y r) x t := by
  have hr : (s.parent.insert y r)[r]? = some r := by
    rw [getElem?_insert_eq, hy.end_root]
    exact ite_self _
  refine ⟨⟨fun x p hp => ?_, fun x p hp hne => ?_⟩, fun {x t} h => ?_⟩
  · rw [getElem?_insert_eq] at hp
    rw [mem_insert_iff]
    split at hp
    · cases hp
      exact .inr (hs.parent_mem _ _ hy.end_root)
    · exact .inr (hs.parent_mem _ _ hp)
  · rw [getElem?_insert_eq] at hp
    split at hp
    · rename_i hxy
      cases hp
      subst hxy
      cases hy with
      | root => exact absurd rfl hne
      | up hp hne' hc => exact Nat.lt_of_lt_of_le (hs.rank_lt _ _ hp hne') (hs.rank_le hc)
    · exact hs.rank_lt _ _ hp hne
  · induction h with
    | @root x hx =>
      by_cases hxy : x = y
      · obtain rfl : x = r := (Climbs.root hx).unique (hxy ▸ hy)
        exact .root hr
      · exact .root (by rw [getElem?_insert_eq, if_neg hxy, hx])
    | @up x p t hp hne hc ih =>
      by_cases hxy : x = y
      · subst hxy
        rw [(Climbs.up hp hne hc).unique hy] at ih ⊢
        by_cases hxr : r = x
        · subst hxr; exact .root hr
        · exact .up (by rw [getElem?_insert_eq, if_pos rfl]) hxr (.root hr)
      · exact .up (by rw [getElem?_insert_eq, if_neg hxy, hp]) hne ih

theorem shorten_all {s : DisjointSets α} (hs : s.Forest) {r : α} (way : List α)
    (hway : ∀ y ∈ way, Climbs s.parent y r) :
    Forest { s with parent := way.foldl (fun parent y => parent.insert y r) s.parent } ∧
      ∀ {x t}, Climbs s.parent x t → Climbs (way.foldl (fun parent y => parent.insert y r) s.parent) x t := by
  induction way generalizing s with
  | nil => exact ⟨hs, id⟩
  | cons y rest ih =>
    obtain ⟨hf, hc⟩ := shorten hs (hway y List.mem_cons_self)
    obtain ⟨hf', hc'⟩ := ih hf fun z hz => hc (hway z (List.mem_cons_of_mem _ hz))
    exact ⟨hf', fun h => hc' (hc h)⟩

omit [DecidableEq α] in
theorem mem_shorten_all {parent : ExtTreeMap α α} {r : α} (way : List α) (hway : ∀ y ∈ way, y ∈ parent) (x : α) :
    x ∈ way.foldl (fun parent y => parent.insert y r) parent ↔ x ∈ parent := by
  induction way generalizing parent with
  | nil => exact Iff.rfl
  | cons y rest ih =>
    rw [List.foldl_cons, ih fun z hz => mem_insert_iff.2 (.inr (hway z (List.mem_cons_of_mem _ hz))), mem_insert_iff]
    exact ⟨fun h => h.elim (fun he => he ▸ hway y List.mem_cons_self) id, .inr⟩

/-! ## Looking up -/

omit [LawfulEqOrd α] in
theorem find_fst {s : DisjointSets α} (x : α) : (s.find x).1 = s.root x := by
  unfold find
  split
  · rfl
  · rename_i hx
    exact (root_of_not_mem fun h => hx (ExtTreeMap.contains_iff_mem.2 h)).symm

/-- A new element is entered as a tree of its own. -/
theorem forest_enter {s : DisjointSets α} (hs : s.Forest) {x : α} (hx : x ∉ s.parent) :
    Forest ⟨s.parent.insert x x, s.rank.insert x 0⟩ := by
  refine ⟨fun y p hp => ?_, fun y p hp hne => ?_⟩
  · rw [getElem?_insert_eq] at hp
    rw [mem_insert_iff]
    split at hp
    · cases hp; exact .inl rfl
    · exact .inr (hs.parent_mem _ _ hp)
  · rw [getElem?_insert_eq] at hp
    split at hp
    · rename_i hyx
      cases hp
      exact absurd hyx.symm hne
    · rename_i hyx
      have hpx : p ≠ x := fun he => hx (he ▸ hs.parent_mem _ _ hp)
      have h := hs.rank_lt _ _ hp hne
      rw [ExtTreeMap.getD_insert, ExtTreeMap.getD_insert, if_neg (fun hc => hyx (Std.compare_eq_iff_eq.1 hc).symm),
        if_neg (fun hc => hpx (Std.compare_eq_iff_eq.1 hc).symm)]
      exact h

theorem climbs_enter {parent : ExtTreeMap α α} {x y t : α} (hx : x ∉ parent) (h : Climbs parent y t) :
    Climbs (parent.insert x x) y t := by
  induction h with
  | @root y hy =>
    have hyx : y ≠ x := fun he => hx (he ▸ (Climbs.root hy).mem)
    exact .root (by rw [getElem?_insert_eq, if_neg hyx, hy])
  | @up y p t hp hne hc ih =>
    have hyx : y ≠ x := fun he => hx (he ▸ (Climbs.up hp hne hc).mem)
    exact .up (by rw [getElem?_insert_eq, if_neg hyx, hp]) hne ih

theorem forest_find {s : DisjointSets α} (hs : s.Forest) (x : α) : (s.find x).2.Forest := by
  unfold find
  split
  · rename_i hx
    exact (shorten_all hs _ (climb_climbs hs s.parent x (ExtTreeMap.contains_iff_mem.1 hx) fun _ hy _ => hy).2).1
  · rename_i hx
    exact forest_enter hs fun h => hx (ExtTreeMap.contains_iff_mem.2 h)

theorem mem_find {s : DisjointSets α} (hs : s.Forest) (x y : α) :
    y ∈ (s.find x).2.parent ↔ y = x ∨ y ∈ s.parent := by
  unfold find
  split
  · rename_i hx
    have hx := ExtTreeMap.contains_iff_mem.1 hx
    have hway := (climb_climbs hs s.parent x hx fun _ hy _ => hy).2
    rw [mem_shorten_all _ fun z hz => (hway z hz).mem]
    exact ⟨.inr, fun h => h.elim (fun he => he ▸ hx) id⟩
  · exact mem_insert_iff

/-- **Looking an element up moves no element to another set.** -/
theorem root_find {s : DisjointSets α} (hs : s.Forest) (x y : α) : (s.find x).2.root y = s.root y := by
  have hf := forest_find hs x
  by_cases hy : y ∈ s.parent
  · refine root_eq hf ?_
    unfold find
    split
    · rename_i hx
      exact (shorten_all hs _ (climb_climbs hs s.parent x (ExtTreeMap.contains_iff_mem.1 hx) fun _ hy _ => hy).2).2
        (climbs_root hs hy)
    · rename_i hx
      exact climbs_enter (fun h => hx (ExtTreeMap.contains_iff_mem.2 h)) (climbs_root hs hy)
  · rw [root_of_not_mem hy]
    by_cases hyx : y = x
    · subst hyx
      have hc : ¬ s.parent.contains y = true := fun h => hy (ExtTreeMap.contains_iff_mem.1 h)
      refine root_eq hf (.root ?_)
      rw [find, if_neg hc, getElem?_insert_eq, if_pos rfl]
    · exact root_of_not_mem fun h => ((mem_find hs x y).1 h).elim hyx hy

/-! ## Joining -/

theorem climbs_hang {parent : ExtTreeMap α α} {a b x t : α} (ha : parent[a]? = some a) (hb : parent[b]? = some b)
    (hab : a ≠ b) (h : Climbs parent x t) : Climbs (parent.insert a b) x (if t = a then b else t) := by
  have hroot : Climbs (parent.insert a b) b b := .root (by rw [getElem?_insert_eq, if_neg hab.symm, hb])
  induction h with
  | @root x hx =>
    by_cases hxa : x = a
    · subst hxa
      rw [if_pos rfl]
      exact .up (by rw [getElem?_insert_eq, if_pos rfl]) hab.symm hroot
    · rw [if_neg hxa]
      exact .root (by rw [getElem?_insert_eq, if_neg hxa, hx])
  | @up x p t hp hne _ ih =>
    have hxa : x ≠ a := by
      rintro rfl
      exact hne (Option.some.inj (hp.symm.trans ha))
    exact .up (by rw [getElem?_insert_eq, if_neg hxa, hp]) hne ih

/-- A root may be hung under another where ranks, as they are now, grow on that way too. -/
theorem forest_hang {s : DisjointSets α} (hs : s.Forest) {a b : α} (ha : s.parent[a]? = some a)
    (hb : s.parent[b]? = some b) (rank : ExtTreeMap α Nat) (hlt : rank.getD a 0 < rank.getD b 0)
    (hrank : ∀ x, x ≠ b → rank.getD x 0 = s.rank.getD x 0) (hge : s.rank.getD b 0 ≤ rank.getD b 0) :
    Forest ⟨s.parent.insert a b, rank⟩ := by
  refine ⟨fun x p hp => ?_, fun x p hp hne => ?_⟩
  · rw [getElem?_insert_eq] at hp
    rw [mem_insert_iff]
    split at hp
    · cases hp
      exact .inr (hs.parent_mem _ _ hb)
    · exact .inr (hs.parent_mem _ _ hp)
  · rw [getElem?_insert_eq] at hp
    split at hp
    · rename_i hxa
      cases hp
      subst hxa
      exact hlt
    · have hxb : x ≠ b := by
        rintro rfl
        exact hne (Option.some.inj (hp.symm.trans hb))
      have h := hs.rank_lt _ _ hp hne
      show rank.getD x 0 < rank.getD p 0
      rw [hrank x hxb]
      by_cases hpb : p = b
      · subst hpb
        omega
      · rw [hrank p hpb]
        exact h

theorem root_hang {s t : DisjointSets α} (hs : s.Forest) (ht : t.Forest) {a b : α} (ha : s.parent[a]? = some a)
    (hb : s.parent[b]? = some b) (hab : a ≠ b) (hparent : t.parent = s.parent.insert a b) (x : α) :
    t.root x = if s.root x = a then b else s.root x := by
  by_cases hx : x ∈ s.parent
  · exact root_eq ht (hparent ▸ climbs_hang ha hb hab (climbs_root hs hx))
  · have hxa : x ≠ a := fun he => hx (he ▸ hs.parent_mem _ _ ha)
    have hxt : x ∉ t.parent := by
      rw [hparent, mem_insert_iff]
      exact fun h => h.elim hxa hx
    rw [root_of_not_mem hx, root_of_not_mem hxt, if_neg hxa]

/-- **Linking two roots makes a forest in which one stands for the other.** -/
theorem link_hangs {s : DisjointSets α} (hs : s.Forest) {a b : α} (ha : s.parent[a]? = some a)
    (hb : s.parent[b]? = some b) (hab : a ≠ b) :
    (s.link a b).Forest ∧ ((s.link a b).parent = s.parent.insert a b ∨ (s.link a b).parent = s.parent.insert b a) := by
  simp only [link]
  split
  · exact ⟨forest_hang hs ha hb s.rank ‹_› (fun _ _ => rfl) (Nat.le_refl _), .inl rfl⟩
  · split
    · exact ⟨forest_hang hs hb ha s.rank ‹_› (fun _ _ => rfl) (Nat.le_refl _), .inr rfl⟩
    · have hself : (s.rank.insert a (s.rank.getD a 0 + 1)).getD a 0 = s.rank.getD a 0 + 1 := ExtTreeMap.getD_insert_self
      have hother : ∀ x, x ≠ a → (s.rank.insert a (s.rank.getD a 0 + 1)).getD x 0 = s.rank.getD x 0 := fun x hx => by
        rw [ExtTreeMap.getD_insert, if_neg (fun hc => hx (Std.compare_eq_iff_eq.1 hc).symm)]
      refine ⟨forest_hang hs hb ha _ ?_ hother ?_, .inr rfl⟩
      · rw [hself, hother b hab.symm]
        omega
      · rw [hself]
        omega

theorem union_eq {s : DisjointSets α} (hs : s.Forest) (x y : α) :
    (s.union x y).2 =
      if s.root x = s.root y then ((s.find x).2.find y).2 else ((s.find x).2.find y).2.link (s.root x) (s.root y) := by
  rw [← root_find hs x y, ← find_fst, ← find_fst]
  simp only [union]
  split <;> rfl

/-- The two roots that are joined, as roots of the sets with both elements entered. -/
theorem roots_entered {s : DisjointSets α} (hs : s.Forest) (x y : α) :
    ((s.find x).2.find y).2.parent[s.root x]? = some (s.root x) ∧
      ((s.find x).2.find y).2.parent[s.root y]? = some (s.root y) := by
  have hx := forest_find hs x
  have hy := forest_find hx y
  have hroot : ∀ z, ((s.find x).2.find y).2.root z = s.root z := fun z => by rw [root_find hx, root_find hs]
  have hmem : ∀ z, z = y ∨ z = x → z ∈ ((s.find x).2.find y).2.parent := fun z hz => by
    rw [mem_find hx, mem_find hs]
    exact hz.imp id .inl
  rw [← hroot x, ← hroot y]
  exact ⟨(climbs_root hy (hmem x (.inr rfl))).end_root, (climbs_root hy (hmem y (.inl rfl))).end_root⟩

theorem forest_union {s : DisjointSets α} (hs : s.Forest) (x y : α) : (s.union x y).2.Forest := by
  rw [union_eq hs]
  have hy := forest_find (forest_find hs x) y
  split
  · exact hy
  · obtain ⟨ha, hb⟩ := roots_entered hs x y
    exact (link_hangs hy ha hb ‹_›).1

theorem mem_union {s : DisjointSets α} (hs : s.Forest) (x y z : α) :
    z ∈ (s.union x y).2.parent ↔ z = x ∨ z = y ∨ z ∈ s.parent := by
  have hx := forest_find hs x
  have hy := forest_find hx y
  have hfound : z ∈ ((s.find x).2.find y).2.parent ↔ z = x ∨ z = y ∨ z ∈ s.parent := by
    rw [mem_find hx, mem_find hs, or_left_comm]
  rw [union_eq hs]
  split
  · exact hfound
  · obtain ⟨ha, hb⟩ := roots_entered hs x y
    rw [← hfound]
    rcases (link_hangs hy ha hb ‹_›).2 with h | h
    · rw [h, mem_insert_iff]
      exact ⟨fun h => h.elim (fun he => he ▸ hy.parent_mem _ _ ha) id, .inr⟩
    · rw [h, mem_insert_iff]
      exact ⟨fun h => h.elim (fun he => he ▸ hy.parent_mem _ _ hb) id, .inr⟩

/-- **Joining two elements joins their two sets**, and no others. -/
theorem root_union {s : DisjointSets α} (hs : s.Forest) (x y u v : α) :
    (s.union x y).2.root u = (s.union x y).2.root v ↔
      s.root u = s.root v ∨ (s.root u = s.root x ∧ s.root v = s.root y) ∨
        (s.root u = s.root y ∧ s.root v = s.root x) := by
  have hx := forest_find hs x
  have hy := forest_find hx y
  have hroot : ∀ z, ((s.find x).2.find y).2.root z = s.root z := fun z => by rw [root_find hx, root_find hs]
  have hne : ∀ {a b : α}, a ≠ b → ∀ p q : α,
      ((if p = a then b else p) = if q = a then b else q) ↔ p = q ∨ (p = a ∧ q = b) ∨ (p = b ∧ q = a) := by
    intro a b hab p q
    grind
  obtain ⟨ha, hb⟩ := roots_entered hs x y
  rw [union_eq hs]
  split
  · rename_i he
    rw [hroot, hroot, he]
    exact ⟨.inl, fun h => h.elim id fun h => h.elim (fun h => h.1.trans h.2.symm) fun h => h.1.trans h.2.symm⟩
  · rename_i hab
    have hlink := link_hangs hy ha hb hab
    rcases hlink.2 with h | h
    · rw [root_hang hy hlink.1 ha hb hab h, root_hang hy hlink.1 ha hb hab h, hroot, hroot, hne hab]
    · rw [root_hang hy hlink.1 hb ha (Ne.symm hab) h, root_hang hy hlink.1 hb ha (Ne.symm hab) h, hroot, hroot,
        hne (Ne.symm hab), or_comm (a := s.root u = s.root y ∧ s.root v = s.root x)]

end Lawful

end DisjointSets
end RenameAudit
