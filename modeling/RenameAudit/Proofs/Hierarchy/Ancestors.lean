import RenameAudit.Proofs.Graph.DepthFirst
import RenameAudit.Proofs.Hierarchy.Reading
/-!
# Proofs.Hierarchy.Ancestors — ancestors as what supertypes lead to

The ancestors of a class are the other classes to which direct supertypes lead (`mem_ancestors`), and the classes that
are resolved are those to which they lead from classes under audit (`owner_of_resolved`).
-/
namespace RenameAudit
namespace Directory

open Std Relation

/-- A class lists another as a direct supertype. -/
def Extends (d : Directory) (c s : String) : Prop :=
  s ∈ d.supertypesOf c

/-- No class inherits from itself. -/
def SupertypesAcyclic (d : Directory) : Prop :=
  ∀ c, ¬ TransGen d.Extends c c

variable {d : Directory}

/-- **The ancestors of a class are the other classes to which its supertypes lead.** -/
theorem mem_ancestors (h : d.Sound) {c s : String} : s ∈ d.ancestors c ↔ s ≠ c ∧ TransGen d.Extends c s := by
  rw [ancestors, Graph.mem_breadthFirst]
  constructor
  · intro hr
    obtain ⟨a, ha, hp⟩ := hr.path
    exact ⟨(mem_erase_iff.1 hr.is_inside).2, .head' ha hp⟩
  · rintro ⟨hne, hp⟩
    have hin : ∀ {a b : String}, d.Extends a b → b ≠ c → b ∈ d.classes.erase c := fun hab hb =>
      mem_erase_iff.2 ⟨h.supertypes_known _ _ hab, hb⟩
    induction hp with
    | single hs => exact .first hs (hin hs hne)
    | @tail b s _ hs ih =>
      -- a way that comes back to the class may start again from there
      by_cases hb : b = c
      · subst hb
        exact .first hs (hin hs hne)
      · exact .onward (ih hb) hs (hin hs hne)

theorem mem_scope (h : d.Sound) {c s : String} : s ∈ c :: d.ancestors c ↔ ReflTransGen d.Extends c s := by
  rw [List.mem_cons, mem_ancestors h, reflTransGen_iff_eq_or_transGen]
  by_cases hs : s = c
  · exact iff_of_true (.inl hs) (.inl hs)
  · exact or_congr Iff.rfl ⟨fun h => h.2, fun h => ⟨hs, h⟩⟩

theorem extends_congr {e : Directory} (h : d.SameClasses e) : e.Extends = d.Extends := by
  funext c s
  rw [Extends, h.supertypesOf, ← Extends]

theorem SupertypesAcyclic.of_sameClasses {e : Directory} (hd : d.SupertypesAcyclic) (h : d.SameClasses e) :
    e.SupertypesAcyclic := by
  rw [SupertypesAcyclic, extends_congr h]
  exact hd

/-- A class that is resolved is under audit, or an ancestor of a class that is. -/
theorem owner_of_resolved {name : String} (h : name ∈ d.prepare.resolutionOrder) :
    ∃ o ∈ d.owned, ReflTransGen d.Extends o name := by
  have hs := sameClasses_prepare d
  obtain ⟨o, ho, hp⟩ := ((Graph.mem_depthFirst _ _ _ _).1 h).path
  rw [hs.owned] at ho
  rw [hs.supertypesOf] at hp
  exact ⟨o, ho, hp⟩

/-! ## Looking for circles -/

/-- Whether a class inherits from itself. -/
def inheritsItself (d : Directory) (name : String) : Bool :=
  (Graph.breadthFirst d.supertypesOf d.classes (d.supertypesOf name)).contains name

theorem inheritsItself_iff (h : d.Sound) {name : String} :
    d.inheritsItself name = true ↔ TransGen d.Extends name name := by
  rw [inheritsItself, List.contains_iff_mem, Graph.mem_breadthFirst]
  constructor
  · intro hr
    obtain ⟨a, ha, hp⟩ := hr.path
    exact .head' ha hp
  · intro hp
    obtain ⟨a, ha, hp⟩ := TransGen.head'_iff.1 hp
    exact .of_path (fun b _ => h.supertypes_known b) ha (h.supertypes_known name a ha) hp

/-- **To see that no class inherits from itself it is enough to look at the known ones.** -/
theorem acyclic_iff (h : d.Sound) : d.SupertypesAcyclic ↔ d.classes.keys.all (fun c => !d.inheritsItself c) = true := by
  rw [List.all_eq_true]
  constructor
  · intro hacyclic c _
    rw [Bool.not_eq_true', ← Bool.not_eq_true, inheritsItself_iff h]
    exact hacyclic c
  · intro hall c hc
    obtain ⟨b, -, hb⟩ := TransGen.tail'_iff.1 hc
    have hnone := hall c (ExtTreeMap.mem_keys.2 (h.supertypes_known b c hb))
    rw [(inheritsItself_iff h).2 hc] at hnone
    cases hnone

end Directory
end RenameAudit
