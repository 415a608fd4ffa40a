import RenameAudit.Proofs.Check.Groups
import RenameAudit.Proofs.Check.Mismatch
/-!
# Proofs.Check.Closure — what the closure reports

By closure, two exposed methods that pairs of linked methods connect have to get one new name, and a finding says where
they do not (`closure_reports`, `mapped_eq_of_connected`).  Methods are linked when a class under audit exposes them with
one key, or with a key that forwards and the key that it forwards to (`linked_of_exposes`, `linked_of_bounces`).
-/
namespace RenameAudit
namespace OverrideNames

open Std Relation DisjointSets

/-- Only exposed methods are connected with others. -/
theorem eq_or_grouped {d : Directory} {a b : MemberRef} (hab : EqvGen (Linked d) a b) :
    a = b ∨ (Grouped d a ∧ Grouped d b) := by
  refine connected_le (e := fun a b => a = b ∨ (Grouped d a ∧ Grouped d b)) ⟨fun _ => .inl rfl, ?_, ?_⟩ ?_ hab
  · rintro a b (rfl | ⟨ha, hb⟩)
    · exact .inl rfl
    · exact .inr ⟨hb, ha⟩
  · rintro a b c (rfl | ⟨ha, hb⟩) hbc
    · exact hbc
    · exact .inr ⟨ha, hbc.elim (fun he => he ▸ hb) fun h => h.2⟩
  · rintro a b ⟨name, hname, ⟨ha, hb⟩ | ⟨-, ha, hb⟩⟩
    · exact .inr ⟨⟨name, hname, _, ha⟩, name, hname, _, hb⟩
    · exact .inr ⟨⟨name, hname, _, ha⟩, name, hname, _, hb⟩

/-- A set has both of two different methods that are connected. -/
theorem exists_component {d : Directory} {a b : MemberRef} (hab : EqvGen (Linked d) a b) (hne : a ≠ b) :
    ∃ c ∈ (overrideGroups d).components, a ∈ c ∧ b ∈ c := by
  have h := overrideGroups_represents d
  obtain ⟨ha, hb⟩ := (eq_or_grouped hab).resolve_left hne
  have hroot := (h.same a b).2 hab
  have hmem : ∀ x, Grouped d x → (overrideGroups d).root x = (overrideGroups d).root a →
      x ∈ (overrideGroups d).elements.filter fun y => (overrideGroups d).root y = (overrideGroups d).root a := by
    intro x hx he
    exact List.mem_filter.2 ⟨ExtTreeMap.mem_keys.2 ((h.mem x).2 hx), decide_eq_true he⟩
  exact ⟨_, mem_components.2 ⟨a, (h.mem a).2 ha, rfl⟩, hmem a ha rfl, hmem b hb hroot.symm⟩

/-- **The closure reports connected methods with different new names.** -/
theorem closure_reports {ctx : CheckContext} {a b : MemberRef} (hab : EqvGen (Linked ctx.dir) a b)
    (hne : ctx.mappedMethod a ≠ ctx.mappedMethod b) :
    ∃ groups, .overrideMismatch groups ∈ closureFindings ctx ∧ ∃ g ∈ groups, ∃ h ∈ groups,
      g.mapped ≠ h.mapped ∧ a.text ∈ g.methods ∧ b.text ∈ h.methods := by
  obtain ⟨c, hc, hac, hbc⟩ := exists_component hab fun he => hne (he ▸ rfl)
  obtain ⟨groups, hf, hgroups⟩ := mismatch_of_mapped_ne hac hbc hne
  exact ⟨groups, List.mem_filterMap.2 ⟨c, hc, hf⟩, hgroups⟩

/-- Where the closure reports no mismatch, connected methods have one new name. -/
theorem mapped_eq_of_connected {ctx : CheckContext} (hstrategy : ctx.strategy = .closure)
    (hclean : ∀ groups, .overrideMismatch groups ∉ findings ctx) {a b : MemberRef}
    (hab : EqvGen (Linked ctx.dir) a b) : ctx.mappedMethod a = ctx.mappedMethod b := by
  refine Classical.byContradiction fun hne => ?_
  obtain ⟨groups, hf, -⟩ := closure_reports hab hne
  refine hclean groups (mem_findings.2 (.inr ?_))
  rw [hstrategy]
  exact hf

section Acyclic

variable {d : Directory} {name k k' : String} {u v : MemberRef}

theorem linked_of_exposes (h : d.Sound) (hacyclic : d.SupertypesAcyclic) (hname : name ∈ d.owned)
    (hu : Exposes d name k u) (hv : Exposes d name k v) : Linked d u v :=
  have hshows := exposures_shows h hacyclic hname
  ⟨name, hname, .key ((hshows.methods k u).2 hu) ((hshows.methods k v).2 hv)⟩

/-- Methods that a class under audit exposes with a key that forwards and the key that it forwards to are linked. -/
theorem linked_of_bounces (h : d.Sound) (hacyclic : d.SupertypesAcyclic) (hname : name ∈ d.owned)
    (hk : Bounces d name k k') (hu : Exposes d name k u) (hv : Exposes d name k' v) : Linked d u v :=
  have hshows := exposures_shows h hacyclic hname
  ⟨name, hname, .bounce ((hshows.bounces k k').2 hk) ((hshows.methods k u).2 hu) ((hshows.methods k' v).2 hv)⟩

/-- A method of a class or of one of its ancestors that takes part in overriding is exposed by the class. -/
theorem exposes_of_mem (h : d.Sound) {c : String} (hc : c ∈ name :: d.ancestors name) {m : Method}
    (hm : m ∈ d.methodsOf c) (hexp : isExposed m = true) : Exposes d name m.key m.ref :=
  ⟨c, (Directory.mem_scope h).1 hc, m, hm, hexp, rfl, rfl⟩

end Acyclic

end OverrideNames
end RenameAudit
