import Mathlib.Order.WellFounded
import RenameAudit.Hierarchy.Resolution
import RenameAudit.Proofs.Graph.Reach
/-!
# Proofs.Hierarchy.OverrideGraph — the graph of overrides

A directory is *grounded* when no method has an empty set of overrides and no chain of overrides goes on for ever.  Then
the overrides of every method lead to methods that override nothing (`mem_rootSet`), and the search for them never comes
back with none (`leaves_ne_nil`).

The step that all passes of a resolution share is `Grounded.addOverrides`: a grounded directory stays grounded when a
method comes to override methods other than itself that override nothing.
-/
namespace RenameAudit
namespace Directory

open Std Relation

/-- A method directly overrides another. -/
def Overrides (d : Directory) (m r : MemberRef) : Prop :=
  r ∈ d.overridesOf m

/-- **The graph of overrides is grounded.** -/
structure Grounded (d : Directory) : Prop where
  nonempty : ∀ m ∈ d.overrides, ∃ r, d.Overrides m r
  wellFounded : WellFounded fun r m => d.Overrides m r

/-- The graph of overrides has no circles. -/
def OverridesAcyclic (d : Directory) : Prop :=
  ∀ m, ¬ TransGen d.Overrides m m

theorem Grounded.acyclic {d : Directory} (h : d.Grounded) : d.OverridesAcyclic := by
  intro m hm
  have hwf : WellFounded (TransGen fun r m => d.Overrides m r) := h.wellFounded.transGen
  exact hwf.irrefl.irrefl m (transGen_swap.1 hm)

theorem hasOverrides_iff {d : Directory} {m : MemberRef} : d.hasOverrides m = true ↔ m ∈ d.overrides :=
  ExtTreeMap.contains_iff_mem

theorem overridesOf_of_not_mem {d : Directory} {m : MemberRef} (h : m ∉ d.overrides) : d.overridesOf m = ∅ :=
  ExtTreeMap.getD_eq_fallback h

theorem Overrides.mem {d : Directory} {m r : MemberRef} (h : d.Overrides m r) : m ∈ d.overrides := by
  by_cases hm : m ∈ d.overrides
  · exact hm
  · rw [Overrides, overridesOf_of_not_mem hm] at h
    exact absurd h ExtTreeSet.not_mem_empty

theorem Grounded.overridesOf_eq_empty {d : Directory} (h : d.Grounded) {m : MemberRef} :
    d.overridesOf m = ∅ ↔ m ∉ d.overrides := by
  refine ⟨fun he hm => ?_, overridesOf_of_not_mem⟩
  obtain ⟨r, hr⟩ := h.nonempty m hm
  rw [Overrides, he] at hr
  exact ExtTreeSet.not_mem_empty hr

theorem mem_targetsOf {d : Directory} {m r : MemberRef} : r ∈ Graph.targetsOf d.overrides m ↔ d.Overrides m r := by
  rw [Graph.targetsOf, Overrides, overridesOf, ExtTreeMap.getD_eq_getD_getElem?]
  cases d.overrides[m]? with
  | none => exact iff_of_false List.not_mem_nil ExtTreeSet.not_mem_empty
  | some targets => exact ExtTreeSet.mem_toList

/-! ## Roots -/

theorem mem_leaves_overrides {d : Directory} {m r : MemberRef} :
    r ∈ Graph.leaves d.overrides d.overrides [m] ↔ r ∉ d.overrides ∧ ReflTransGen d.Overrides m r := by
  rw [Graph.mem_leaves_iff, getElem?_eq_none_iff]
  have hedges : (fun a b => b ∈ Graph.targetsOf d.overrides a) = d.Overrides := by
    funext a b
    exact propext mem_targetsOf
  rw [hedges]

/-- **Overrides lead to a method that overrides nothing.** -/
theorem Grounded.exists_root {d : Directory} (h : d.Grounded) (m : MemberRef) :
    ∃ r, r ∉ d.overrides ∧ ReflTransGen d.Overrides m r := by
  induction m using h.wellFounded.induction with
  | _ m ih =>
    by_cases hm : m ∈ d.overrides
    · obtain ⟨r, hr⟩ := h.nonempty m hm
      obtain ⟨t, ht, hp⟩ := ih r hr
      exact ⟨t, ht, .head hr hp⟩
    · exact ⟨m, hm, .refl⟩

/-- **The search for roots never comes back empty-handed.** -/
theorem Grounded.leaves_ne_nil {d : Directory} (h : d.Grounded) (m : MemberRef) :
    Graph.leaves d.overrides d.overrides [m] ≠ [] := by
  obtain ⟨r, hr⟩ := h.exists_root m
  exact List.ne_nil_of_mem (mem_leaves_overrides.2 hr)

/-- **The roots of a method are the methods that override nothing to which its overrides lead.** -/
theorem Grounded.mem_rootSet {d : Directory} (h : d.Grounded) {m r : MemberRef} :
    r ∈ d.rootSet m ↔ r ∉ d.overrides ∧ ReflTransGen d.Overrides m r := by
  have hne : (ExtTreeSet.ofList (Graph.leaves d.overrides d.overrides [m]) : MethodSet).isEmpty ≠ true := by
    rw [ne_eq, ExtTreeSet.isEmpty_iff, ExtTreeSet.ofList_eq_empty_iff]
    exact h.leaves_ne_nil m
  rw [rootSet, if_neg hne, mem_ofList_iff, mem_leaves_overrides]

theorem Grounded.root_of_not_mem {d : Directory} (h : d.Grounded) {m r : MemberRef} (hm : m ∉ d.overrides) :
    r ∈ d.rootSet m ↔ r = m := by
  rw [h.mem_rootSet]
  constructor
  · rintro ⟨-, hp⟩
    rcases hp.cases_head with rfl | ⟨x, hx, -⟩
    · rfl
    · exact absurd hx.mem hm
  · rintro rfl
    exact ⟨hm, .refl⟩

theorem mem_roots {d : Directory} {m r : MemberRef} : r ∈ d.roots m ↔ r ∈ d.rootSet m :=
  ExtTreeSet.mem_toList

/-! ## More overrides -/

theorem overrides_addOverrides {d : Directory} {m : MemberRef} {more : MethodSet} {a r : MemberRef} :
    (d.addOverrides m more).Overrides a r ↔ d.Overrides a r ∨ (a = m ∧ r ∈ more) := by
  unfold addOverrides
  split
  · rename_i hempty
    rw [ExtTreeSet.isEmpty_iff] at hempty
    subst hempty
    exact ⟨.inl, fun h => h.elim id fun h => absurd h.2 ExtTreeSet.not_mem_empty⟩
  · unfold Overrides overridesOf
    rw [getD_insert_eq]
    split
    · rename_i ham
      subst ham
      rw [ExtTreeSet.mem_union_iff]
      exact or_congr Iff.rfl ⟨fun h => ⟨rfl, h⟩, fun h => h.2⟩
    · rename_i ham
      exact ⟨.inl, fun h => h.elim id fun h => absurd h.1 ham⟩

theorem mem_addOverrides {d : Directory} {m : MemberRef} {more : MethodSet} {a : MemberRef} :
    a ∈ (d.addOverrides m more).overrides ↔ a ∈ d.overrides ∨ (a = m ∧ ∃ r, r ∈ more) := by
  unfold addOverrides
  split
  · rename_i hempty
    rw [ExtTreeSet.isEmpty_iff] at hempty
    subst hempty
    exact ⟨.inl, fun h => h.elim id fun ⟨_, _, hr⟩ => absurd hr ExtTreeSet.not_mem_empty⟩
  · rename_i hne
    have hmore : ∃ r, r ∈ more := by
      rw [ExtTreeSet.isEmpty_iff] at hne
      exact set_ne_empty_iff.1 hne
    rw [mem_insert_iff, or_comm]
    exact or_congr Iff.rfl ⟨fun h => ⟨h, hmore⟩, fun h => h.1⟩

/-- **Overriding methods that override nothing closes no circle.** -/
theorem Grounded.addOverrides {d : Directory} (h : d.Grounded) {m : MemberRef} {more : MethodSet}
    (hmore : ∀ r ∈ more, r ∉ d.overrides ∧ r ≠ m) : (d.addOverrides m more).Grounded := by
  refine ⟨fun a ha => ?_, ⟨fun a => ?_⟩⟩
  · rcases mem_addOverrides.1 ha with ha | ⟨rfl, r, hr⟩
    · exact (h.nonempty a ha).imp fun r hr => overrides_addOverrides.2 (.inl hr)
    · exact ⟨r, overrides_addOverrides.2 (.inr ⟨rfl, hr⟩)⟩
  · -- down the old chains; a new edge ends at once
    have hend : ∀ r ∈ more, Acc (fun r m' => (d.addOverrides m more).Overrides m' r) r := fun r hr =>
      ⟨r, fun t ht => by
        rcases overrides_addOverrides.1 ht with ht | ⟨rfl, -⟩
        · exact absurd ht.mem (hmore r hr).1
        · exact absurd rfl (hmore r hr).2⟩
    induction a using h.wellFounded.induction with
    | _ a ih =>
      refine ⟨a, fun r hr => ?_⟩
      rcases overrides_addOverrides.1 hr with hr | ⟨-, hr⟩
      · exact ih r hr
      · exact hend r hr

theorem Grounded.addRoots {d : Directory} (h : d.Grounded) (m p : MemberRef) :
    (d.addOverrides m ((d.rootSet p).erase m)).Grounded :=
  h.addOverrides fun _ hr =>
    have hr := mem_set_erase_iff.1 hr
    ⟨(h.mem_rootSet.1 hr.1).1, hr.2⟩

theorem Grounded.of_overrides_eq {d e : Directory} (h : d.Grounded) (he : e.overrides = d.overrides) : e.Grounded := by
  have ho : ∀ a r, e.Overrides a r ↔ d.Overrides a r := fun a r => by simp only [Overrides, overridesOf, he]
  refine ⟨fun a ha => ?_, ?_⟩
  · obtain ⟨r, hr⟩ := h.nonempty a (he ▸ ha)
    exact ⟨r, (ho a r).2 hr⟩
  · have hrel : (fun r m => e.Overrides m r) = fun r m => d.Overrides m r := by
      funext r m
      exact propext (ho m r)
    rw [hrel]
    exact h.wellFounded

theorem grounded_of_empty {d : Directory} (h : d.overrides = ∅) : d.Grounded := by
  have hnone : ∀ a, a ∉ d.overrides := fun a ha => by
    rw [h] at ha
    exact ExtTreeMap.not_mem_empty ha
  exact ⟨fun a ha => absurd ha (hnone a), ⟨fun a => ⟨a, fun r hr => absurd (Overrides.mem hr) (hnone a)⟩⟩⟩

end Directory
end RenameAudit
