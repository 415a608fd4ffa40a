import Mathlib
import RenameAudit.Proofs.Hierarchy.Ancestors
import RenameAudit.Proofs.Hierarchy.Runs
/-!
# Proofs.Hierarchy.SharedRoots — a method shares a root with the method that it overrides

A method takes over the roots that the method above it has at that moment, and the overrides of both may grow afterwards.
But overrides are never taken back (`Grows`), so once the two lead to a common method they always do (`Meet.mono`), and in
a grounded graph that method leads to a common root (`Grounded.common_root`).  It remains to see that every class that a
resolution comes to has its methods linked (`meet_resolve`).
-/
namespace RenameAudit
namespace Directory

open Std Relation ClassFile

/-- **A loop establishes what one of its steps establishes** and no step takes back; that step follows on those before
it. -/
theorem foldl_of_split {β σ : Type} {step : σ → β → σ} (inv goal : σ → Prop) {items : List β} {x : β} (hx : x ∈ items)
    {s : σ} (hinv : ∀ s, ∀ y ∈ items, inv s → inv (step s y))
    (hstep : ∀ front back, items = front ++ x :: back → inv (front.foldl step s) → goal (step (front.foldl step s) x))
    (hkeep : ∀ s, ∀ y ∈ items, inv s → goal s → goal (step s y)) (h : inv s) : goal (items.foldl step s) := by
  obtain ⟨front, back, rfl⟩ := List.append_of_mem hx
  have hfront : inv (front.foldl step s) :=
    List.foldlRecOn (motive := inv) _ _ h fun t ht y hy => hinv t y (List.mem_append_left _ hy) ht
  rw [List.foldl_append, List.foldl_cons]
  have hend := List.foldlRecOn (motive := fun t => inv t ∧ goal t) back step
    ⟨hinv _ x hx hfront, hstep front back rfl hfront⟩ fun t ht y hy =>
      have hy := List.mem_append_right front (List.mem_cons_of_mem x hy)
      ⟨hinv t y hy ht.1, hkeep t y hy ht.1 ht.2⟩
  exact hend.2

/-- A loop establishes what one of its steps establishes after any others. -/
theorem foldl_of_mem {β σ : Type} {step : σ → β → σ} (inv goal : σ → Prop) {items : List β} {x : β} (hx : x ∈ items)
    (hinv : ∀ s, ∀ y ∈ items, inv s → inv (step s y)) (hstep : ∀ s, inv s → goal (step s x))
    (hkeep : ∀ s, ∀ y ∈ items, inv s → goal s → goal (step s y)) {s : σ} (h : inv s) : goal (items.foldl step s) :=
  foldl_of_split inv goal hx hinv (fun _ _ _ h => hstep _ h) hkeep h

/-! ## Overrides only grow -/

/-- The overrides of one directory are overrides of another. -/
def Grows (d e : Directory) : Prop :=
  ∀ m r, d.Overrides m r → e.Overrides m r

namespace Grows

variable {d e f : Directory}

theorem of_overrides_eq (h : e.overrides = d.overrides) : d.Grows e := fun m r hr => by
  rw [Overrides, overridesOf, h]
  exact hr

theorem trans (h : d.Grows e) (h' : e.Grows f) : d.Grows f :=
  fun m r hr => h' m r (h m r hr)

theorem addOverrides (d : Directory) (m : MemberRef) (more : MethodSet) : d.Grows (d.addOverrides m more) :=
  fun _ _ hr => overrides_addOverrides.2 (.inl hr)

theorem keptByWrites : KeptByWrites Grows :=
  ⟨fun _ _ _ hr => hr, trans, addOverrides, fun _ _ => of_overrides_eq rfl⟩

/-- After its methods were linked to those above them, a class adds to the overrides. -/
theorem resolveClass_of_linkedDirectly (s : Progress) (name : String) (hread : s.dir.wasRead name = true) :
    (linkedDirectly s name).dir.Grows (resolveClass s name).dir := by
  rw [resolveClass_eq, if_pos hread]
  exact (keptByWrites.merged_of_linkedDirectly s name).trans (of_overrides_eq rfl)

theorem resolveClass (s : Progress) (name : String) : s.dir.Grows (resolveClass s name).dir := by
  rw [resolveClass_eq]
  split
  · exact (keptByWrites.merged s name).trans (of_overrides_eq rfl)
  · exact of_overrides_eq rfl

end Grows

/-! ## Methods that lead to a common method -/

/-- The overrides of two methods lead to a common method. -/
def Meet (d : Directory) (a b : MemberRef) : Prop :=
  ∃ x, ReflTransGen d.Overrides a x ∧ ReflTransGen d.Overrides b x

theorem Meet.mono {d e : Directory} {a b : MemberRef} (h : d.Meet a b) (hgrows : d.Grows e) : e.Meet a b := by
  obtain ⟨x, ha, hb⟩ := h
  exact ⟨x, ReflTransGen.mono hgrows _ _ ha, ReflTransGen.mono hgrows _ _ hb⟩

/-- **Methods that lead to a common method have a common root.** -/
theorem Grounded.common_root {d : Directory} (h : d.Grounded) {a b : MemberRef} (hm : d.Meet a b) :
    ∃ r ∈ d.rootSet a, r ∈ d.rootSet b := by
  obtain ⟨x, ha, hb⟩ := hm
  obtain ⟨r, hr, hx⟩ := h.exists_root x
  exact ⟨r, h.mem_rootSet.2 ⟨hr, ha.trans hx⟩, h.mem_rootSet.2 ⟨hr, hb.trans hx⟩⟩

/-- A method that takes over the roots of another meets it, also where it is the only root itself. -/
theorem Grounded.meet_addRoots {d : Directory} (h : d.Grounded) (m p : MemberRef) :
    (d.addOverrides m ((d.rootSet p).erase m)).Meet m p := by
  have hold := Grows.addOverrides d m ((d.rootSet p).erase m)
  obtain ⟨r, hr⟩ := h.exists_root p
  have hp := ReflTransGen.mono hold _ _ hr.2
  by_cases hrm : r = m
  · exact ⟨m, .refl, hrm ▸ hp⟩
  · have hnew : r ∈ (d.rootSet p).erase m := mem_set_erase_iff.2 ⟨h.mem_rootSet.2 hr, hrm⟩
    exact ⟨r, .single (overrides_addOverrides.2 (.inr ⟨rfl, hnew⟩)), hp⟩

/-! ## Every class that is resolved has its methods linked -/

theorem nearestOverridable?_congr {d e : Directory} (h : d.SameClasses e) (stack : List String) (key : String) :
    e.nearestOverridable? stack key = d.nearestOverridable? stack key := by
  rw [nearestOverridable?, h.methodByKey?, ← nearestOverridable?]

section Resolution

variable {start : Directory} (hs : start.Sound) (hg : start.Grounded)

include hs hg

/-- **A method that is linked meets the method above it.** -/
theorem meet_linkedDirectly {s : Progress} (hu : Underway start s) {name : String}
    (hname : name ∈ start.prepare.resolutionOrder) {m p : Method} (hm : m ∈ start.methodsOf name)
    (hcan : m.canOverride = true) (hp : start.nearestOverridable? (start.ancestors name) m.key = some p) :
    (linkedDirectly s name).dir.Meet m.ref p.ref := by
  have hkept := hu.keepStack name
  have hprepared := hkept.prepared hs
  dsimp only [linkedDirectly]
  rw [hprepared.stackOf, hprepared.same.methodsOf]
  refine foldl_of_mem (fun d => Underway start ⟨d, s.waiting⟩) (fun d => d.Meet m.ref p.ref) hm
    (fun d y hy h => h.linkDirect hname hy) (fun d h => ?_)
    (fun d y _ _ hmeet => hmeet.mono (Grows.keptByWrites.linkDirect _ d y)) hkept
  have hnearest : d.nearestOverridable? (start.ancestors name) m.key = some p := by
    rw [nearestOverridable?_congr (h.prepared hs).same, hp]
  rw [linkDirect, if_pos hcan, hnearest]
  exact (h.grounded hs hg).meet_addRoots m.ref p.ref

/-- **Once a class is resolved, its methods meet those above them.** -/
theorem meet_resolveClass {s : Progress} (hu : Underway start s) {name : String}
    (hname : name ∈ start.prepare.resolutionOrder) {m p : Method} (hm : m ∈ start.methodsOf name)
    (hcan : m.canOverride = true) (hp : start.nearestOverridable? (start.ancestors name) m.key = some p) :
    (resolveClass s name).dir.Meet m.ref p.ref := by
  have hread : s.dir.wasRead name = true := by
    rw [(hu.prepared hs).same.wasRead, wasRead_of_mem_methodsOf hm]
  exact (meet_linkedDirectly hs hg hu hname hm hcan hp).mono (Grows.resolveClass_of_linkedDirectly s name hread)

/-- **After a resolution the methods of every class that was resolved meet those above them.** -/
theorem meet_resolve {name : String} (hname : name ∈ start.prepare.resolutionOrder) {m p : Method}
    (hm : m ∈ start.methodsOf name) (hcan : m.canOverride = true)
    (hp : start.nearestOverridable? (start.ancestors name) m.key = some p) : start.resolve.Meet m.ref p.ref :=
  foldl_of_mem (Underway start) (fun s => s.dir.Meet m.ref p.ref) hname
    (fun _ _ hy h => underway_resolveClass hs h hy) (fun _ h => meet_resolveClass hs hg h hname hm hcan hp)
    (fun s y _ _ hmeet => hmeet.mono (Grows.resolveClass s y)) .begin

end Resolution

/-! ## Classes that are yet to be resolved -/

theorem isResolved_prepare (d : Directory) (name : String) : d.prepare.isResolved name = d.isResolved name := by
  simp only [isResolved, prepare, dropStacks, ExtTreeMap.getElem?_map]
  cases d.classes[name]? <;> rfl

theorem mem_unresolved (d : Directory) (name : String) :
    name ∈ d.prepare.classes.filter (fun _ e => !e.resolved) ↔ name ∈ d.classes ∧ d.isResolved name = false := by
  rw [← (sameClasses_prepare d).known, ← isResolved_prepare, isResolved, ExtTreeMap.mem_iff_isSome_getElem?,
    ExtTreeMap.mem_iff_isSome_getElem?, ExtTreeMap.getElem?_filter']
  cases d.prepare.classes[name]? with
  | none => simp
  | some e => cases he : e.resolved <;> simp [he]

theorem resolutionOrder_prepare (d : Directory) :
    d.prepare.resolutionOrder =
      Graph.visited d.supertypesOf (d.prepare.classes.filter fun _ e => !e.resolved) d.owned := by
  have hs := sameClasses_prepare d
  rw [resolutionOrder, hs.supertypesOf, hs.owned]
  rfl

/-- **What a resolution comes to**: the classes that are not resolved yet to which supertypes lead from those under audit,
on ways through such classes. -/
theorem mem_resolutionOrder (d : Directory) (name : String) :
    name ∈ d.prepare.resolutionOrder ↔
      Graph.Reached d.supertypesOf (fun n => n ∈ d.classes ∧ d.isResolved n = false) d.owned name := by
  rw [resolutionOrder_prepare, Graph.mem_visited]
  exact Graph.reached_congr (mem_unresolved d) (fun _ => Iff.rfl) name

theorem isResolved_takeIn {d : Directory} (c : ClassFile) (owned : Bool) {name : String}
    (h : d.isResolved name = false) : (d.takeIn c owned).isResolved name = false := by
  cases hr : d.refusal? c with
  | some fault => rwa [takeIn_of_refused owned hr]
  | none =>
    rw [isResolved, getElem?_takeIn owned hr]
    split
    · rfl
    · rw [isResolved] at h
      split
      · cases hc : d.classes[name]? with
        | none => rfl
        | some e => rwa [hc] at h
      · exact h

theorem isResolved_takeAll {d : Directory} (classes : List (ClassFile × Bool)) {name : String}
    (h : d.isResolved name = false) : (d.takeAll classes).isResolved name = false := by
  induction classes generalizing d with
  | nil => exact h
  | cons c rest ih => exact ih (isResolved_takeIn c.1 c.2 h)

theorem isResolved_empty (name : String) : empty.isResolved name = false := by
  have hnone : empty.classes[name]? = none := getElem?_eq_none_iff.2 ExtTreeMap.not_mem_empty
  rw [isResolved, hnone]
  rfl

/-- **Where nothing is resolved yet, a resolution comes to every class under audit and its ancestors.** -/
theorem mem_resolutionOrder_of_unresolved {d : Directory} (h : d.Sound) (hnew : ∀ name, d.isResolved name = false)
    {o name : String} (ho : o ∈ d.owned) (hname : name ∈ o :: d.ancestors o) : name ∈ d.prepare.resolutionOrder := by
  have hclosed : ∀ a, a ∈ d.classes ∧ d.isResolved a = false → ∀ b ∈ d.supertypesOf a,
      b ∈ d.classes ∧ d.isResolved b = false := fun a _ b hb => ⟨h.supertypes_known a b hb, hnew b⟩
  have hknown : o ∈ d.classes := ExtTreeMap.mem_keys.1 (List.mem_filter.1 ho).1
  exact (mem_resolutionOrder d name).2 (.of_path hclosed ho ⟨hknown, hnew o⟩ ((mem_scope h).1 hname))

/-! ## Overriding methods -/

/-- The first method along a list of classes that has a key and can be overridden. -/
def IsFirstOverridable (d : Directory) (stack : List String) (key : String) (p : Method) : Prop :=
  ∃ front c back, stack = front ++ c :: back ∧ p ∈ d.methodsOf c ∧ p.key = key ∧ p.canBeOverridden = true ∧
    ∀ b ∈ front, ∀ p' ∈ d.methodsOf b, p'.key = key → p'.canBeOverridden = false

theorem nearestOverridable?_of_first {d : Directory} (h : d.Sound) {stack : List String} {key : String} {p : Method}
    (hp : d.IsFirstOverridable stack key p) : d.nearestOverridable? stack key = some p :=
  h.findSome?_eq_some.2 hp

/-- **An overriding method is never separated from what it overrides**: after classes were taken in and resolved, circles
among them included, a method of a class under audit or of an ancestor of such a class that can override another has a
root in common with the first method above it that it can override. -/
theorem overriding_shares_root (classes : List (ClassFile × Bool)) :
    let d := (empty.takeAll classes).resolve
    ∀ o ∈ d.owned, ∀ c ∈ o :: d.stackOf o, ∀ m ∈ d.methodsOf c, m.canOverride = true →
      ∀ p, d.IsFirstOverridable (d.stackOf c) m.key p → ∃ r ∈ d.rootsOf m.ref, r ∈ d.rootsOf p.ref := by
  intro d o ho c hc m hm hcan p hp
  have hs : (empty.takeAll classes).Sound := sound_empty.takeAll classes
  have hg : (empty.takeAll classes).Grounded := grounded_of_empty (overrides_takeAll empty classes)
  have hprepared : (empty.takeAll classes).Prepared d := prepared_resolve hs
  have hground : d.Grounded := grounded_resolve hs hg
  have hnearest := nearestOverridable?_of_first (hprepared.sound hs) hp
  rw [hprepared.same.owned] at ho
  rw [hprepared.stackOf] at hc hnearest
  rw [hprepared.same.methodsOf] at hm
  rw [nearestOverridable?_congr hprepared.same] at hnearest
  have hname := mem_resolutionOrder_of_unresolved hs (fun name => isResolved_takeAll classes (isResolved_empty name)) ho hc
  obtain ⟨r, hr, hr'⟩ := hground.common_root (meet_resolve hs hg hname hm hcan hnearest)
  refine ⟨r, ?_, ?_⟩ <;> rw [rootsOf, hprepared.keptRoots, ExtTreeMap.getD_empty, mem_roots]
  · exact hr
  · exact hr'

/-! ## Two classes that take over roots from one superclass -/

/-- A class with the method `m`. -/
def withMethod (name : String) (superclass : Option String) : ClassFile where
  minor := 0
  major := 52
  access := 0x0021
  name
  superclass
  interfaces := []
  fields := []
  methods := [⟨0x0001, "m", "()V", some ⟨0, 1, [.ret 0xb1]⟩⟩]

/-- An interface with the method `m`. -/
def asksForMethod : ClassFile where
  minor := 0
  major := 52
  access := 0x0601
  name := "I"
  superclass := none
  interfaces := []
  fields := []
  methods := [⟨0x0401, "m", "()V", none⟩]

/-- A class without methods that implements the interface by the method of its superclass. -/
def adapter (name : String) : ClassFile where
  minor := 0
  major := 52
  access := 0x0021
  name
  superclass := some "P"
  interfaces := ["I"]
  fields := []
  methods := []

/-- A class `B` and an adapter with a given name have the superclass `P`, whose method overrides that of its own
superclass `Z`. -/
def family (name : String) : List (ClassFile × Bool) :=
  [(withMethod "Z" none, true), (withMethod "P" (some "Z"), true), (asksForMethod, true), (adapter name, true),
    (withMethod "B" (some "P"), true)]

/-- The family after its resolution. -/
def resolvedFamily (name : String) : Directory :=
  (empty.takeAll (family name)).resolve

theorem owned_resolvedFamily : (resolvedFamily "Q").owned = ["B", "I", "P", "Q", "Z"] := by
  cbv

theorem stackOf_resolvedFamily : (resolvedFamily "Q").stackOf "B" = ["P", "Z"] := by
  cbv

theorem methodsOf_resolvedFamily :
    (resolvedFamily "Q").methodsOf "B" = [⟨⟨"B", "m", "()V"⟩, 0x0001, false, none, some [.ret 0xb1]⟩] ∧
      (resolvedFamily "Q").methodsOf "P" = [⟨⟨"P", "m", "()V"⟩, 0x0001, false, none, some [.ret 0xb1]⟩] := by
  constructor
  · cbv
  · cbv

/-- The class that comes before the adapter shares a root with its superclass, although that gets another one later. -/
theorem family_shares_root :
    (resolvedFamily "Q").rootsOf ⟨"P", "m", "()V"⟩ = [⟨"I", "m", "()V"⟩, ⟨"Z", "m", "()V"⟩] ∧
      ∃ r ∈ (resolvedFamily "Q").rootsOf ⟨"B", "m", "()V"⟩, r ∈ (resolvedFamily "Q").rootsOf ⟨"P", "m", "()V"⟩ := by
  refine ⟨by cbv, overriding_shares_root (family "Q") "B" ?_ "B" List.mem_cons_self
    ⟨⟨"B", "m", "()V"⟩, 0x0001, false, none, some [.ret 0xb1]⟩ ?_ (by decide)
    ⟨⟨"P", "m", "()V"⟩, 0x0001, false, none, some [.ret 0xb1]⟩ ⟨[], "P", ["Z"], stackOf_resolvedFamily, ?_, rfl,
      by decide, fun b hb => absurd hb List.not_mem_nil⟩⟩
  · exact List.mem_of_mem_head? (congrArg List.head? owned_resolvedFamily)
  · exact List.mem_of_mem_head? (congrArg List.head? methodsOf_resolvedFamily.1)
  · exact List.mem_of_mem_head? (congrArg List.head? methodsOf_resolvedFamily.2)

end Directory
end RenameAudit
