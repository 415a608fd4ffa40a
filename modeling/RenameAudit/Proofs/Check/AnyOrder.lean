import Mathlib
import RenameAudit.Auditor
import RenameAudit.Proofs.Check.FindingOrder
import RenameAudit.Proofs.Check.Groups
import RenameAudit.Proofs.Hierarchy.AnyOrder
/-!
# Proofs.Check.AnyOrder — reports do not depend on the order of the classes

Most checks look at nothing that is in an order of classes or bridges.  The groups of methods that override each other
are joined in such an order, but they stand for the same methods and pairs in any (`mem_components_congr`).  So an audit
reports the same whatever the order in which its classes were taken in (`order_of_classes`).
-/
namespace RenameAudit

open Std ClassFile

/-! ## Checks -/

/-- **No check can tell two directories apart**: they differ in orders only, and each forwarding method forwards to the
same method in both. -/
structure Directory.CheckedAlike (d e : Directory) : Prop where
  alike : d.Alike e
  bridgedBy : ∀ bridge, e.bridgedBy? bridge = d.bridgedBy? bridge

namespace OverrideNames

open Directory

variable {d e : Directory}

theorem expose_alike (h : d.CheckedAlike e) : expose e = expose d := by
  have htarget : ∀ m, bounceTarget? e m = bounceTarget? d m := fun m => by
    have hmethod : e.method? = d.method? := h.alike.unordered method? fun _ _ _ => rfl
    rw [bounceTarget?, bounceTarget?, h.bridgedBy, hmethod]
  funext x m
  unfold expose
  rw [htarget]

theorem exposures_alike (h : d.CheckedAlike e) : exposures e = exposures d := by
  have hsupertypes : e.supertypesOf = d.supertypesOf := h.alike.unordered supertypesOf fun _ _ _ => rfl
  have hmethods : e.methodsOf = d.methodsOf := h.alike.unordered methodsOf fun _ _ _ => rfl
  have howned : e.owned = d.owned := h.alike.unordered owned fun _ _ _ => rfl
  have hof : exposureOf e = exposureOf d := by
    unfold exposureOf
    rw [expose_alike h, hsupertypes, hmethods]
  rw [exposures, exposures, hof, hsupertypes, howned, h.alike.classes]

/-- **The same methods are grouped.** -/
theorem mem_components_alike (h : d.CheckedAlike e) (c : List MemberRef) :
    c ∈ (overrideGroups e).components ↔ c ∈ (overrideGroups d).components := by
  have howned : e.owned = d.owned := h.alike.unordered owned fun _ _ _ => rfl
  have hlinked : Linked e = Linked d := by
    unfold Linked exposureAt
    rw [exposures_alike h, howned]
  refine DisjointSets.mem_components_congr (overrideGroups_represents e)
    ((overrideGroups_represents d).congr (fun m => ?_) fun _ _ => Iff.rfl) (fun u v => by rw [hlinked]) c
  unfold Grouped exposureAt
  rw [exposures_alike h, howned]

theorem findings_alike {ctx : CheckContext} (h : ctx.dir.CheckedAlike e) :
    findings { ctx with dir := e } = findings ctx := by
  have hancestor : ancestorFindings { ctx with dir := e } = ancestorFindings ctx :=
    h.alike.unordered (fun d => ancestorFindings { ctx with dir := d }) fun _ _ _ => rfl
  have hinterface : interfaceFindings { ctx with dir := e } = interfaceFindings ctx :=
    h.alike.unordered (fun d => interfaceFindings { ctx with dir := d }) fun _ _ _ => rfl
  have hclosure : ∀ f, f ∈ closureFindings { ctx with dir := e } ↔ f ∈ closureFindings ctx := fun f => by
    rw [closureFindings, closureFindings, List.mem_filterMap, List.mem_filterMap]
    exact exists_congr fun c => and_congr (mem_components_alike h c) Iff.rfl
  unfold findings
  dsimp only
  rw [hancestor, hinterface]
  cases ctx.strategy with
  | quick => rfl
  | closure =>
    dsimp only
    congr 1
    refine ExtTreeSet.ext_mem fun f => ?_
    rw [mem_ofList_iff, mem_ofList_iff, List.mem_append, List.mem_append]
    exact or_congr Iff.rfl (hclosure f)

end OverrideNames

/-- **No task can tell directories apart that differ in orders.** -/
theorem Task.findings_alike {ctx : CheckContext} {e : Directory} (h : ctx.dir.CheckedAlike e) (t : Task) :
    t.findings { ctx with dir := e } = t.findings ctx := by
  cases t with
  | overrideNames => exact OverrideNames.findings_alike h
  | accessLevels => exact h.alike.unordered (fun d => AccessLevels.findings { ctx with dir := d }) fun _ _ _ => rfl
  | uniqueIds => exact h.alike.unordered (fun d => UniqueIds.findings { ctx with dir := d }) fun _ _ _ => rfl
  | constructors => exact h.alike.unordered (fun d => Constructors.findings { ctx with dir := d }) fun _ _ _ => rfl
  | classNames => exact h.alike.unordered (fun d => ClassNames.findings { ctx with dir := d }) fun _ _ _ => rfl
  | unnamedClasses => rfl

/-! ## Audits -/

namespace Auditor

/-- An auditor whose directory is not resolved takes in what its directory takes in. -/
theorem takeAll_eq (a : Auditor) (h : a.resolved = false) (classes : List (ClassFile × Bool)) :
    a.takeAll classes = { a with dir := a.dir.takeAll classes } := by
  induction classes generalizing a with
  | nil => rfl
  | cons c rest ih =>
    have hstep : a.takeAll [c] = { a with dir := a.dir.takeIn c.1 c.2 } := by
      simp only [takeAll, List.foldl_cons, List.foldl_nil, Auditor.ingest, Directory.takeIn]
      cases a.dir.ingest c.1 c.2 with
      | ok d =>
        rw [← h]
        rfl
      | error fault => rfl
    have hrest : a.takeAll (c :: rest) = (a.takeAll [c]).takeAll rest := rfl
    rw [hrest, hstep]
    exact ih { a with dir := a.dir.takeIn c.1 c.2 } h

theorem run_takeAll (a : Auditor) (h : a.resolved = false) (classes : List (ClassFile × Bool)) :
    (a.takeAll classes).run.2 =
      .ofTasks { a.context with dir := (a.dir.takeAll classes).resolve } a.tasksToRun := by
  rw [takeAll_eq a h, run, resolve]
  dsimp only
  rw [h]
  rfl

/-- **The order in which classes are taken in does not matter**, where their names differ: after they have been resolved,
every class has the same ancestors, every method has the same overrides and roots, and every audit has the same report,
whichever reverse table the auditor holds. -/
theorem order_of_classes {xs ys : List (ClassFile × Bool)} (h : xs.Perm ys) (hnames : (xs.map (·.1.name)).Nodup) :
    let d := (Directory.empty.takeAll xs).resolve
    let e := (Directory.empty.takeAll ys).resolve
    (∀ name, d.stackOf name = e.stackOf name) ∧
      (∀ m, d.overridesOf m = e.overridesOf m ∧ d.rootsOf m = e.rootsOf m) ∧
      ∀ a : Auditor, ({ a with dir := .empty, resolved := false }.takeAll xs).run.2 =
        ({ a with dir := .empty, resolved := false }.takeAll ys).run.2 := by
  intro d e
  obtain ⟨halike, hbridged⟩ := Directory.alike_resolved h hnames
  have hde : d.CheckedAlike e := ⟨halike, hbridged⟩
  refine ⟨fun name => ?_, fun m => ⟨?_, ?_⟩, fun a => ?_⟩
  · exact (hde.alike.unordered (·.stackOf name) fun _ _ _ => rfl).symm
  · exact (hde.alike.unordered (·.overridesOf m) fun _ _ _ => rfl).symm
  · exact (hde.alike.unordered (·.rootsOf m) fun _ _ _ => rfl).symm
  · rw [run_takeAll _ rfl, run_takeAll _ rfl, AuditReport.ofTasks, AuditReport.ofTasks]
    congr 1
    refine List.map_congr_left fun t _ => ?_
    exact congrArg (TaskReport.mk t) (@Task.findings_alike { a.context with dir := d } e hde t).symm

/-- An auditor of a table that gives one method two names. -/
def oneMethodTwoNames : Auditor :=
  .new (.ofEntries [.method "S" "d" "()V" "p", .method "C" "d" "()V" "r"])

/-- The class may be taken in before the interface that it implements. -/
theorem circle_before_shape :
    (Directory.empty.takeAll [(Directory.circle, true), (Directory.shape, true)]).resolve.rootsOf ⟨"C", "d", "()V"⟩ =
        [⟨"S", "d", "()V"⟩] ∧
      (oneMethodTwoNames.takeAll [(Directory.circle, true), (Directory.shape, true)]).run.2 =
        ⟨[⟨.accessLevels, []⟩, ⟨.overrideNames, [.overrideMismatch [⟨"p", ["S.d()V"]⟩, ⟨"r", ["C.d()V"]⟩]]⟩,
          ⟨.uniqueIds, []⟩]⟩ := by
  obtain ⟨-, hmethods, hreport⟩ := order_of_classes
    (List.Perm.swap (Directory.circle, true) (Directory.shape, true) []) (by decide)
  refine ⟨?_, (hreport oneMethodTwoNames).symm.trans ?_⟩
  · rw [← (hmethods _).2]
    cbv
  · cbv

end Auditor
end RenameAudit
