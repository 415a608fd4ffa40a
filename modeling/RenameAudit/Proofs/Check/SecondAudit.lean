import RenameAudit.Proofs.Check.AnyOrder
import RenameAudit.Proofs.Hierarchy.ResolvingAgain
/-!
# Proofs.Check.SecondAudit — an audit after more classes were taken in

All tasks but one look only at what was read and at bridges, which are looked for anew in each audit, so a second audit
finds there what one audit of all classes finds (`findings_sameClasses` of each task).  The numbers of methods that
override each other are looked up by their roots, and what the first audit has resolved stays as it is.  So the second
report is that of one audit of all classes where the later classes leave alone what was under audit (`second_audit`), and
it need not be where they do not (`second_audit_misses_overrides`).
-/
namespace RenameAudit

open Std ClassFile

/-! ## Checks look at what was read -/

namespace Directory.SameClasses

variable {d e : Directory} (h : d.SameClasses e)

include h

theorem accessOf : e.accessOf = d.accessOf :=
  funext fun name => by rw [Directory.accessOf, h.declaration, ← Directory.accessOf]

theorem fieldsOf : e.fieldsOf = d.fieldsOf :=
  funext fun name => by rw [Directory.fieldsOf, h.declaration, ← Directory.fieldsOf]

theorem field? : e.field? = d.field? :=
  funext fun owner => funext fun name => by rw [Directory.field?, h.declaration, ← Directory.field?]

theorem method? : e.method? = d.method? :=
  funext fun ref => by rw [Directory.method?, h.methodByKey?, ← Directory.method?]

end Directory.SameClasses

section Checks

variable {ctx : CheckContext} {e : Directory} (h : ctx.dir.SameClasses e)

include h

namespace AccessLevels

theorem findings_sameClasses : findings { ctx with dir := e } = findings ctx := by
  have hread : e.wasRead = ctx.dir.wasRead := funext h.wasRead
  have hancestors : e.ancestors = ctx.dir.ancestors := funext h.ancestors
  have htarget : target? { ctx with dir := e } = target? ctx := by
    funext self i
    unfold target? fieldTarget? methodTarget? typeTarget? isReadable search
    dsimp only
    rw [hread, hancestors, h.field?, h.methodByKey?, h.accessOf]
  have hforbidden : forbidden? { ctx with dir := e } = forbidden? ctx := by
    unfold forbidden? samePackage
    dsimp only
    rw [hancestors]
  have hillegal : findingsOf { ctx with dir := e } = findingsOf ctx := by
    funext self
    unfold findingsOf illegalIn
    dsimp only
    rw [htarget, hforbidden, funext h.methodsOf]
  rw [findings, findings, hillegal, h.owned]

end AccessLevels

namespace ClassNames

theorem findings_sameClasses : findings { ctx with dir := e } = findings ctx := by
  have hancestors : e.ancestors = ctx.dir.ancestors := funext h.ancestors
  have hproblems : problems { ctx with dir := e } = problems ctx := by
    unfold problems simpleNameProblems suffixProblems requiredSuffix?
    dsimp only
    rw [hancestors, h.accessOf]
  unfold findings
  dsimp only
  rw [hproblems, h.owned]

end ClassNames

namespace Constructors

theorem findings_sameClasses : findings { ctx with dir := e } = findings ctx := by
  unfold findings missingIn
  dsimp only
  rw [h.owned, funext h.methodsOf]

end Constructors

namespace UniqueIds

theorem findings_sameClasses (hover : e.overrides = ctx.dir.overrides) :
    findings { ctx with dir := e } = findings ctx := by
  have hroots : e.roots = ctx.dir.roots := funext (Directory.roots_congr hover)
  have hclaims : claims { ctx with dir := e } = claims ctx := by
    have hclass : claimClass { ctx with dir := e } = claimClass ctx := by
      funext claims name
      unfold claimClass
      dsimp only
      rw [funext h.methodsOf, h.fieldsOf]
      rfl
    rw [claims, claims, hclass, h.owned]
  have hgroups : rootGroups e = rootGroups ctx.dir := by
    unfold rootGroups
    rw [h.owned, funext h.methodsOf, hroots]
  have hreason : reason? e = reason? ctx.dir := by
    unfold reason? areUnrelated
    rw [hroots]
  unfold findings
  dsimp only
  rw [hclaims, hgroups, hreason]

end UniqueIds

namespace OverrideNames

theorem ancestorFindings_sameClasses : ancestorFindings { ctx with dir := e } = ancestorFindings ctx := by
  have hancestors : e.ancestors = ctx.dir.ancestors := funext h.ancestors
  have hfields : fieldFindings { ctx with dir := e } = fieldFindings ctx := by
    unfold fieldFindings fieldShade?
    dsimp only
    rw [hancestors, h.fieldsOf, h.field?]
    rfl
  have hmethods : methodFindings { ctx with dir := e } = methodFindings ctx := by
    have hfinding : methodFinding? { ctx with dir := e } = methodFinding? ctx := by
      funext m parent
      unfold methodFinding? methodClash? ancestorMismatch?
      dsimp only
      rw [h.method?, h.methodByKey?]
      rfl
    unfold methodFindings
    dsimp only
    rw [hfinding, hancestors, funext h.methodsOf]
  rw [ancestorFindings, ancestorFindings, hfields, hmethods, h.owned]

theorem interfaceFindings_sameClasses : interfaceFindings { ctx with dir := e } = interfaceFindings ctx := by
  have hscope : implementingScope e = implementingScope ctx.dir := by
    have hancestors : e.ancestors = ctx.dir.ancestors := funext h.ancestors
    have hdecl : e.declaration? = ctx.dir.declaration? := funext h.declaration
    unfold implementingScope implementers
    rw [hancestors, h.owned, hdecl]
  have hfindings : interfaceFindingsOf { ctx with dir := e } = interfaceFindingsOf ctx := by
    have hmismatch : interfaceMismatch? { ctx with dir := e } = interfaceMismatch? ctx := by
      unfold interfaceMismatch?
      dsimp only
      rw [h.methodByKey?]
      rfl
    unfold interfaceFindingsOf
    dsimp only
    rw [hmismatch, hscope, funext h.methodsOf]
  unfold interfaceFindings
  dsimp only
  rw [hfindings, h.owned, h.accessOf]

theorem closureFindings_sameClasses (hbridges : e.bridges = ctx.dir.bridges) :
    closureFindings { ctx with dir := e } = closureFindings ctx := by
  have hbridged : e.bridgedBy? = ctx.dir.bridgedBy? := by
    unfold Directory.bridgedBy?
    rw [hbridges]
  have hexpose : expose e = expose ctx.dir := by
    funext x m
    unfold expose bounceTarget?
    rw [h.method?, hbridged]
  have hexposures : exposures e = exposures ctx.dir := by
    unfold exposures exposureOf
    rw [hexpose, h.supertypesOf, funext h.methodsOf, h.owned,
      Graph.depthFirst_congr _ _ _ _ fun a => h.known a]
  have hplaces : placesOf e = placesOf ctx.dir := by
    unfold placesOf
    rw [h.methods]
  have hgroups : overrideGroups e = overrideGroups ctx.dir := by
    unfold overrideGroups
    rw [hexposures, hplaces, h.owned]
  unfold closureFindings
  dsimp only
  rw [hgroups]
  rfl

theorem findings_sameClasses (hbridges : e.bridges = ctx.dir.bridges) :
    findings { ctx with dir := e } = findings ctx := by
  unfold findings
  dsimp only
  rw [ancestorFindings_sameClasses h, interfaceFindings_sameClasses h, closureFindings_sameClasses h hbridges]

end OverrideNames

/-- **All tasks but one look at what was read and at the bridges only.** -/
theorem Task.findings_sameClasses (hbridges : e.bridges = ctx.dir.bridges) {t : Task}
    (ht : t = .uniqueIds → e.overrides = ctx.dir.overrides) : t.findings { ctx with dir := e } = t.findings ctx := by
  cases t with
  | accessLevels => exact AccessLevels.findings_sameClasses h
  | overrideNames => exact OverrideNames.findings_sameClasses h hbridges
  | uniqueIds => exact UniqueIds.findings_sameClasses h (ht rfl)
  | constructors => exact Constructors.findings_sameClasses h
  | classNames => exact ClassNames.findings_sameClasses h
  | unnamedClasses => rfl

theorem AuditReport.ofTasks_sameClasses (hbridges : e.bridges = ctx.dir.bridges) {tasks : List Task}
    (ht : .uniqueIds ∈ tasks → e.overrides = ctx.dir.overrides) :
    ofTasks { ctx with dir := e } tasks = ofTasks ctx tasks := by
  rw [ofTasks, ofTasks]
  congr 1
  exact List.map_congr_left fun t hmem =>
    congrArg (TaskReport.mk t) (Task.findings_sameClasses h hbridges fun he => ht (he ▸ hmem))

omit h in
theorem AuditReport.filter_tasks_ofTasks (tasks : List Task) (p : Task → Bool) :
    (ofTasks ctx tasks).tasks.filter (fun r => p r.task) = (ofTasks ctx (tasks.filter p)).tasks := by
  rw [ofTasks, ofTasks, List.filter_map]
  rfl

end Checks

/-! ## Audits -/

namespace Auditor

/-- The report of a second audit, for which more classes were taken in after the first. -/
def reportAgain (a : Auditor) (first later : List (ClassFile × Bool)) : AuditReport :=
  ((a.takeAll first).run.1.takeAll later).run.2

/-- The report of one audit of all classes. -/
def reportAtOnce (a : Auditor) (first later : List (ClassFile × Bool)) : AuditReport :=
  (a.takeAll (first ++ later)).run.2

/-- Either every class is refused, by all directories that have read the same, or the auditor has to resolve again. -/
theorem takeAll_cases (a : Auditor) (classes : List (ClassFile × Bool)) :
    (a.takeAll classes = a ∧ ∀ d : Directory, a.dir.SameClasses d → d.takeAll classes = d) ∨
      a.takeAll classes = { a with dir := a.dir.takeAll classes, resolved := false } := by
  induction classes generalizing a with
  | nil => exact .inl ⟨rfl, fun _ _ => rfl⟩
  | cons c rest ih =>
    obtain ⟨c, owned⟩ := c
    have hstep : a.takeAll ((c, owned) :: rest) = (a.takeAll [(c, owned)]).takeAll rest := rfl
    have hdir : ∀ d : Directory, d.takeAll ((c, owned) :: rest) = (d.takeIn c owned).takeAll rest := fun _ => rfl
    cases hr : a.dir.refusal? c with
    | some fault =>
      have hrefused : ∀ d : Directory, a.dir.SameClasses d → d.takeAll ((c, owned) :: rest) = d.takeAll rest :=
        fun d hd => by
          have hr' : d.refusal? c = some fault := by rw [Directory.refusal?, hd.wasRead, ← Directory.refusal?, hr]
          rw [hdir, Directory.takeIn_of_refused owned hr']
      have hone : a.takeAll [(c, owned)] = a := by
        simp only [takeAll, List.foldl_cons, List.foldl_nil, ingest, Directory.ingest, hr]
        rfl
      rw [hstep, hone, hrefused a.dir ⟨rfl, rfl, fun _ => Iff.rfl, fun _ => rfl⟩]
      exact (ih a).imp (fun h => ⟨h.1, fun d hd => (hrefused d hd).trans (h.2 d hd)⟩) id
    | none =>
      right
      have htaken : a.dir.ingest c owned = .ok (a.dir.takeIn c owned) := by
        rw [Directory.takeIn, Directory.ingest, hr]
      have hone : a.takeAll [(c, owned)] = { a with dir := a.dir.takeIn c owned, resolved := false } := by
        simp only [takeAll, List.foldl_cons, List.foldl_nil, ingest, htaken]
        rfl
      rw [hstep, hone, hdir]
      exact takeAll_eq _ rfl rest

/-- **A second audit reports what one audit of all classes reports**, whatever was taken in between, but for the task that
looks at overrides; and that task too where the later classes leave alone what was under audit.  The auditor may hold any
reverse table. -/
theorem second_audit (a : Auditor) (first later : List (ClassFile × Bool)) :
    let new : Auditor := { a with dir := .empty, resolved := false }
    ((new.reportAgain first later).tasks.filter fun r => r.task ≠ .uniqueIds) =
        ((new.reportAtOnce first later).tasks.filter fun r => r.task ≠ .uniqueIds) ∧
      ((Directory.empty.takeAll first).LeavesAlone (Directory.empty.takeAll (first ++ later)) →
        new.reportAgain first later = new.reportAtOnce first later) := by
  intro new
  have hsound : (Directory.empty.takeAll first).Sound := Directory.sound_empty.takeAll first
  have hprepared := Directory.prepared_resolve hsound
  have happend : Directory.empty.takeAll (first ++ later) = (Directory.empty.takeAll first).takeAll later :=
    List.foldl_append
  have honce : new.reportAtOnce first later =
      .ofTasks { a.context with dir := (Directory.empty.takeAll (first ++ later)).resolve } a.tasksToRun :=
    run_takeAll new rfl (first ++ later)
  have hfirst : (new.takeAll first).run.1 = { a with dir := (Directory.empty.takeAll first).resolve, resolved := true } := by
    rw [takeAll_eq new rfl]
    rfl
  rw [reportAgain, hfirst, honce, happend]
  rcases takeAll_cases { a with dir := (Directory.empty.takeAll first).resolve, resolved := true } later with
    ⟨hnothing, hrefused⟩ | hmore
  · -- nothing was taken in: the second report is the first
    rw [hnothing, hrefused _ hprepared.same.symm]
    exact ⟨rfl, fun _ => rfl⟩
  · rw [hmore]
    have hread := hprepared.same.takeAll later
    have hall := Directory.prepared_resolve (hsound.takeAll later)
    have hlater := Directory.prepared_resolve ((hsound.takeAll later).of_sameClasses hread)
    let ctx : CheckContext := { a.context with dir := ((Directory.empty.takeAll first).takeAll later).resolve }
    have hsame : ctx.dir.SameClasses ((Directory.empty.takeAll first).resolve.takeAll later).resolve :=
      (hall.same.symm.trans hread).trans hlater.same
    have hbridges : ((Directory.empty.takeAll first).resolve.takeAll later).resolve.bridges = ctx.dir.bridges := by
      rw [hall.bridges, hlater.bridges, hread.findBridges]
    refine ⟨?_, fun hleft => ?_⟩
    · refine (AuditReport.filter_tasks_ofTasks _ (· ≠ .uniqueIds)).trans
        (.trans ?_ (AuditReport.filter_tasks_ofTasks _ (· ≠ .uniqueIds)).symm)
      refine congrArg AuditReport.tasks (@AuditReport.ofTasks_sameClasses ctx _ hsame hbridges _ fun hmem => ?_)
      exact absurd rfl (of_decide_eq_true (List.mem_filter.1 hmem).2)
    · have hnew : ∀ name, (Directory.empty.takeAll first).isResolved name = false := fun name =>
        Directory.isResolved_takeAll first (Directory.isResolved_empty name)
      exact @AuditReport.ofTasks_sameClasses ctx _ hsame hbridges _ fun _ =>
        Directory.overrides_resolve_again hsound hnew (Directory.overrides_takeAll .empty first) later hleft

/-! ## Where the second report differs -/

open Directory (withMethod asksForMethod adapter)

/-- An auditor that looks for numbers with several methods, of a table that gives all methods of some classes one number. -/
def oneNumber : Auditor :=
  { Auditor.new (.ofEntries [.method "A" "n" "()V" "func_1_a", .method "B" "m" "()V" "func_1_a",
      .method "I" "m" "()V" "func_1_a", .method "P" "m" "()V" "func_1_a", .method "Q" "m" "()V" "func_1_a",
      .method "Z" "m" "()V" "func_1_a"]) with tasks := [.uniqueIds] }

/-- A class with the method `n`. -/
def forwarded : ClassFile :=
  { withMethod "A" none with methods := [⟨0x0001, "n", "()V", some ⟨0, 1, [.ret 0xb1]⟩⟩] }

/-- A class that implements the interface by a method that forwards to its superclass. -/
def forwarder : ClassFile :=
  { withMethod "Q" (some "A") with
    interfaces := ["I"]
    methods := [⟨0x1041, "m", "()V", some ⟨1, 1, [.slot Opcode.aload 0, .call 0xb6 ⟨"A", "n", "()V"⟩ false, .ret 0xb1]⟩⟩] }

/-- The report of the auditor that has found nothing. -/
def nothingFound : AuditReport :=
  ⟨[⟨.uniqueIds, []⟩]⟩

/-- The report of the auditor that takes the methods with the number for unrelated. -/
def unrelated (members : List String) : AuditReport :=
  ⟨[⟨.uniqueIds, [.duplicateId 1 .unrelatedMethods ["func_1_a"] members]⟩]⟩

/-- **A second audit can miss that methods override each other**: when a superclass was taken in after its subclass was
resolved, when another subclass gives a superclass more roots and comes first by its name, and when a forwarding method was
taken in after the method that it forwards to was resolved. -/
theorem second_audit_misses_overrides :
    (oneNumber.reportAgain [(withMethod "B" (some "P"), true)] [(withMethod "P" none, true)] =
        unrelated ["B.m()V", "P.m()V"] ∧
      oneNumber.reportAtOnce [(withMethod "B" (some "P"), true)] [(withMethod "P" none, true)] = nothingFound) ∧
    (oneNumber.reportAgain
        [(withMethod "Z" none, true), (withMethod "P" (some "Z"), false), (withMethod "B" (some "P"), true)]
        [(asksForMethod, true), (adapter "A", true)] = unrelated ["B.m()V", "I.m()V", "Z.m()V"] ∧
      oneNumber.reportAtOnce
        [(withMethod "Z" none, true), (withMethod "P" (some "Z"), false), (withMethod "B" (some "P"), true)]
        [(asksForMethod, true), (adapter "A", true)] = nothingFound) ∧
    oneNumber.reportAgain [(forwarded, true)] [(asksForMethod, true), (forwarder, true)] =
        unrelated ["A.n()V", "I.m()V", "Q.m()V"] ∧
      oneNumber.reportAtOnce [(forwarded, true)] [(asksForMethod, true), (forwarder, true)] = nothingFound := by
  refine ⟨⟨?_, ?_⟩, ⟨?_, ?_⟩, ?_, ?_⟩ <;> cbv

/-- A subclass that is taken in after its superclass was resolved changes nothing there. -/
theorem leavesAlone_subclass :
    (Directory.empty.takeAll [(withMethod "P" none, true)]).LeavesAlone
      (Directory.empty.takeAll ([(withMethod "P" none, true)] ++ [(withMethod "Q" (some "P"), true)])) := by
  have howned : (Directory.empty.takeAll [(withMethod "P" none, true)]).owned = ["P"] := by cbv
  have hancestors : (Directory.empty.takeAll [(withMethod "P" none, true)]).ancestors "P" = [] := by cbv
  have hread : (Directory.empty.takeAll [(withMethod "P" none, true)]).wasRead "P" = true := by cbv
  have hlater : (Directory.empty.takeAll ([(withMethod "P" none, true)] ++ [(withMethod "Q" (some "P"), true)])).owned =
      ["P", "Q"] := by cbv
  have hbridges :
      (Directory.empty.takeAll ([(withMethod "P" none, true)] ++ [(withMethod "Q" (some "P"), true)])).findBridges = [] := by
    cbv
  refine ⟨fun name haudited _ => ?_, fun o ho o' ho' hne => ?_, fun p hp => ?_⟩
  · obtain ⟨o, ho, hname⟩ := haudited
    rw [howned] at ho
    obtain rfl := List.mem_singleton.1 ho
    rw [hancestors] at hname
    exact List.mem_singleton.1 hname ▸ hread
  · rw [howned] at ho hne
    rw [hlater] at ho'
    obtain rfl := List.mem_singleton.1 ho
    rcases List.mem_cons.1 ho' with rfl | ho'
    · exact absurd (List.mem_singleton_self _) hne
    · exact List.mem_singleton.1 ho' ▸ by decide
  · rw [hbridges] at hp
    exact absurd hp List.not_mem_nil

/-- The subclass is found to override the method of its superclass, which was resolved in the first audit. -/
theorem second_audit_of_subclass :
    oneNumber.reportAgain [(withMethod "P" none, true)] [(withMethod "Q" (some "P"), true)] = nothingFound := by
  have hsame := (second_audit oneNumber [(withMethod "P" none, true)] [(withMethod "Q" (some "P"), true)]).2
    leavesAlone_subclass
  exact hsame.trans (by cbv)

end Auditor
end RenameAudit
