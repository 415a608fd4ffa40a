import Mathlib
import RenameAudit.Proofs.Check.Closure
import RenameAudit.Proofs.Hierarchy.Runs
/-!
# Proofs.Check.QuickWithinClosure — what is reported quickly is reported by closure

The quick strategy compares methods two by two: a method with one of an ancestor, and a method of an interface with one
of a class that lists the interface or of an ancestor of such a class.  In both cases there is a class under audit that
exposes the two with one key (`SharedKey`), so the closure links them.
-/
namespace RenameAudit
namespace OverrideNames

open Std Relation Directory

/-- A class under audit exposes two methods with one key. -/
def SharedKey (d : Directory) (a b : MemberRef) : Prop :=
  ∃ name ∈ d.owned, ∃ k, Exposes d name k a ∧ Exposes d name k b

variable {ctx : CheckContext}

/-! ## Where quick mismatches come from -/

theorem sharedKey_of_ancestorMismatch (h : ctx.dir.Sound) {name parent : String} (hname : name ∈ ctx.dir.owned)
    (hparent : parent ∈ ctx.dir.ancestors name) {m : Method} (hm : m ∈ ctx.dir.methodsOf name)
    (hstatic : m.isStatic = false) (hinit : m.isInitializer = false) {f : Finding}
    (hf : ancestorMismatch? ctx m parent = some f) :
    ∃ a b, SharedKey ctx.dir a b ∧ mismatch? ctx [a, b] = some f := by
  unfold ancestorMismatch? at hf
  split at hf
  · cases hf
  · rename_i hprivate
    split at hf
    · rename_i overridden hover
      split at hf
      · rename_i hexp
        obtain ⟨hmem, hkey⟩ := h.methodByKey?_eq_some.1 hover
        have hself : isExposed m = true := by
          simp only [isExposed, hstatic, hinit, Bool.not_eq_true] at hprivate ⊢
          rw [hprivate]
          rfl
        refine ⟨m.ref, overridden.ref, ⟨name, hname, m.key, ?_, ?_⟩, hf⟩
        · exact exposes_of_mem h List.mem_cons_self hm hself
        · exact hkey ▸ exposes_of_mem h (List.mem_cons_of_mem _ hparent) hmem hexp
      · cases hf
    · cases hf

theorem methodClash?_ne_mismatch {m : Method} {parent : String} {groups : List MappedGroup} :
    methodClash? ctx m parent ≠ some (.overrideMismatch groups) := by
  unfold methodClash?
  dsimp only
  split
  · split
    · split <;> exact fun h => by cases h
    · split <;> exact fun h => by cases h
  · exact fun h => by cases h

theorem fieldFindings_ne_mismatch {name : String} {groups : List MappedGroup} :
    .overrideMismatch groups ∉ fieldFindings ctx name := by
  intro h
  obtain ⟨f, -, h⟩ := List.mem_flatMap.1 h
  obtain ⟨parent, -, h⟩ := List.mem_filterMap.1 h
  unfold fieldShade? at h
  dsimp only at h
  split at h
  · split at h <;> cases h
  · cases h

theorem sharedKey_of_ancestorFindings (h : ctx.dir.Sound) {groups : List MappedGroup}
    (hf : .overrideMismatch groups ∈ ancestorFindings ctx) :
    ∃ a b, SharedKey ctx.dir a b ∧ mismatch? ctx [a, b] = some (.overrideMismatch groups) := by
  obtain ⟨name, hname, hf⟩ := List.mem_flatMap.1 hf
  have hf := (List.mem_append.1 hf).resolve_left fieldFindings_ne_mismatch
  obtain ⟨m, hm, hf⟩ := List.mem_flatMap.1 hf
  obtain ⟨parent, hparent, hf⟩ := List.mem_filterMap.1 hf
  obtain ⟨hm, hkind⟩ := List.mem_filter.1 hm
  rw [Bool.and_eq_true, Bool.not_eq_true', Bool.not_eq_true'] at hkind
  unfold methodFinding? at hf
  split at hf
  · rename_i finding hclash
    cases hf
    exact absurd hclash methodClash?_ne_mismatch
  · split at hf
    · exact sharedKey_of_ancestorMismatch h hname hparent hm hkind.1 hkind.2 hf
    · cases hf

theorem extends_of_implementer {d : Directory} {interface c : String} (hc : c ∈ implementers d interface) :
    c ∈ d.owned ∧ d.Extends c interface := by
  obtain ⟨howned, hlists⟩ := List.mem_filter.1 hc
  refine ⟨howned, ?_⟩
  unfold Directory.Extends supertypesOf
  cases hd : d.declaration? c with
  | none =>
    rw [hd] at hlists
    cases hlists
  | some decl =>
    rw [hd] at hlists
    exact List.mem_append_right _ (List.contains_iff_mem.1 hlists)

theorem sharedKey_of_interfaceFindings (h : ctx.dir.Sound) {groups : List MappedGroup}
    (hf : .overrideMismatch groups ∈ interfaceFindings ctx) :
    ∃ a b, SharedKey ctx.dir a b ∧ mismatch? ctx [a, b] = some (.overrideMismatch groups) := by
  obtain ⟨interface, -, hf⟩ := List.mem_flatMap.1 hf
  obtain ⟨m, hm, hf⟩ := List.mem_flatMap.1 hf
  obtain ⟨name, hname, hf⟩ := List.mem_filterMap.1 hf
  obtain ⟨hm, hself⟩ := List.mem_filter.1 hm
  rw [ExtTreeSet.mem_toList, implementingScope, mem_ofList_iff, List.mem_flatMap] at hname
  obtain ⟨c, hc, hscope⟩ := hname
  obtain ⟨howned, hextends⟩ := extends_of_implementer hc
  unfold interfaceMismatch? at hf
  split at hf
  · rename_i other hother
    split at hf
    · rename_i hexp
      obtain ⟨hmem, hkey⟩ := h.methodByKey?_eq_some.1 hother
      refine ⟨m.ref, other.ref, ⟨c, howned, m.key, ?_, ?_⟩, hf⟩
      · exact ⟨interface, .single hextends, m, hm, hself, rfl, rfl⟩
      · exact hkey ▸ exposes_of_mem h hscope hmem hexp.2
    · cases hf
  · cases hf

theorem sharedKey_of_quick (h : ctx.dir.Sound) (hstrategy : ctx.strategy = .quick) {groups : List MappedGroup}
    (hf : .overrideMismatch groups ∈ findings ctx) :
    ∃ a b, SharedKey ctx.dir a b ∧ mismatch? ctx [a, b] = some (.overrideMismatch groups) := by
  rcases mem_findings.1 hf with hf | hf
  · exact sharedKey_of_ancestorFindings h hf
  · rw [hstrategy] at hf
    exact sharedKey_of_interfaceFindings h hf

/-! ## Quick against closure -/

/-- **Quick never reports beyond the closure**: two methods in different groups of a mismatch that is reported quickly are
in different groups of a mismatch that is reported by closure. -/
theorem quick_within_closure (steps : List Step) (ctx : CheckContext) (hdir : ctx.dir = (after steps).resolve)
    (hacyclic : ctx.dir.SupertypesAcyclic) {groups : List MappedGroup}
    (hf : .overrideMismatch groups ∈ findings { ctx with strategy := .quick }) {g h : MappedGroup} (hg : g ∈ groups)
    (hh : h ∈ groups) (hne : g ≠ h) {t t' : String} (ht : t ∈ g.methods) (ht' : t' ∈ h.methods) :
    ∃ groups', .overrideMismatch groups' ∈ findings { ctx with strategy := .closure } ∧
      ∃ g' ∈ groups', ∃ h' ∈ groups', g' ≠ h' ∧ t ∈ g'.methods ∧ t' ∈ h'.methods := by
  have hsound : ctx.dir.Sound := hdir ▸ (good_after steps).resolve.sound
  have hpair := @sharedKey_of_quick { ctx with strategy := .quick } hsound rfl groups hf
  obtain ⟨a, b, ⟨name, hname, k, ha, hb⟩, hmismatch⟩ := hpair
  obtain ⟨u, hu, v, hv, rfl, rfl, hmapped⟩ := groups_of_mismatch hmismatch hg hh hne ht ht'
  -- whichever of the two each is, the class exposes it with the key
  have hexposed : ∀ x ∈ [a, b], Exposes ctx.dir name k x := fun x hx => by
    rcases List.mem_cons.1 hx with rfl | hx
    · exact ha
    · exact List.mem_singleton.1 hx ▸ hb
  have hlinked := linked_of_exposes hsound hacyclic hname (hexposed u hu) (hexposed v hv)
  have hreport : ∃ groups', .overrideMismatch groups' ∈ closureFindings { ctx with strategy := .closure } ∧
      ∃ g' ∈ groups', ∃ h' ∈ groups', g'.mapped ≠ h'.mapped ∧ u.text ∈ g'.methods ∧ v.text ∈ h'.methods :=
    closure_reports (.rel _ _ hlinked) hmapped
  obtain ⟨groups', hf', g', hg', h', hh', hne', hrest⟩ := hreport
  exact ⟨groups', mem_findings.2 (.inr hf'), g', hg', h', hh', fun he => hne' (he ▸ rfl), hrest⟩

/-- The interface and the class that implements it, with two names for their method. -/
def twoNames : CheckContext where
  dir := (after [.takeIn shape true, .takeIn circle true]).resolve
  table := .ofEntries [.method "S" "d" "()V" "p", .method "C" "d" "()V" "r"]
  reverse := .empty
  constructors := none
  suffixes := none
  naming := .default
  strategy := .quick

theorem twoNames_acyclic : twoNames.dir.SupertypesAcyclic := by
  have hsound := (good_after [.takeIn shape true, .takeIn circle true]).sound
  have hread : (after [.takeIn shape true, .takeIn circle true]).SupertypesAcyclic := (acyclic_iff hsound).2 (by cbv)
  exact hread.of_sameClasses (prepared_resolve hsound).same

theorem twoNames_findings : findings { twoNames with strategy := .quick } =
    [.overrideMismatch [⟨"p", ["S.d()V"]⟩, ⟨"r", ["C.d()V"]⟩]] := by
  cbv

theorem twoNames_within_closure :
    ∃ groups, .overrideMismatch groups ∈ findings { twoNames with strategy := .closure } ∧
      ∃ g ∈ groups, ∃ h ∈ groups, g ≠ h ∧ "S.d()V" ∈ g.methods ∧ "C.d()V" ∈ h.methods :=
  quick_within_closure [.takeIn shape true, .takeIn circle true] twoNames rfl twoNames_acyclic
    (twoNames_findings ▸ List.mem_cons_self) List.mem_cons_self (List.mem_cons_of_mem _ List.mem_cons_self)
    (by decide) List.mem_cons_self List.mem_cons_self

end OverrideNames
end RenameAudit
