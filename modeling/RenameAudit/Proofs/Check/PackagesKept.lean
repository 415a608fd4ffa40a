import RenameAudit.Check.Report
import RenameAudit.Proofs.Check.IllegalReferences
import RenameAudit.Proofs.Rename.WayBack
/-!
# Proofs.Check.PackagesKept — access depends on packages only

What an instruction refers to does not depend on the new names, and these forbid a reference only by the packages of two
classes of the directory (`Forbids.of_packages`).  So two tables that put the same classes together have illegal references in
the same places (`findings_eq_nil_congr`), and a table that keeps packages as they are has them where the old names have
(`passes_of_packages_kept`).
-/
namespace RenameAudit

open Std ClassFile

namespace RenameTable

/-- **The table without entries renames no class.** -/
theorem mapClass_empty (name : String) : empty.mapClass name = name := by
  have hchars : ∀ cs, empty.mapClassChars cs = String.ofList cs := fun cs => by
    induction hlength : cs.length using Nat.strongRecOn generalizing cs with
    | ind n ih =>
      cases hsplit : Text.splitLast? '$' cs with
      | none =>
        rw [mapClassChars_outermost (Text.splitLast?_eq_none_iff.1 hsplit) ExtTreeMap.getElem?_empty, mapOutermost_eq,
          mapPackage, empty, ExtTreeMap.getD_empty, ← String.toList_inj, String.toList_append, String.toList_ofList,
          packagePart_append_simplePart, String.toList_ofList]
      | some parts =>
        obtain ⟨outer, inner⟩ := parts
        obtain ⟨rfl, hinner⟩ := Text.splitLast?_eq_some_iff.1 hsplit
        have houter : empty.mapClassChars outer = String.ofList outer :=
          ih outer.length (hlength ▸ Text.length_lt_of_splitLast? hsplit) outer rfl
        rw [mapClassChars_inner hinner ExtTreeMap.getElem?_empty, houter, String.ofList_append]
  rw [mapClass, hchars, String.ofList_toList]

end RenameTable

namespace AccessLevels

open Directory

/-- **Two tables put the same classes of a directory together** in packages. -/
def PackagesAlike (d : Directory) (t t' : RenameTable) : Prop :=
  ∀ c ∈ d.names, ∀ c' ∈ d.names,
    (packageOf (t.mapClass c) = packageOf (t.mapClass c') ↔ packageOf (t'.mapClass c) = packageOf (t'.mapClass c'))

/-- **A table keeps the packages of a directory**: classes are together under it where they were. -/
def KeepsPackages (d : Directory) (t : RenameTable) : Prop :=
  ∀ c ∈ d.names, ∀ c' ∈ d.names, (packageOf (t.mapClass c) = packageOf (t.mapClass c') ↔ packageOf c = packageOf c')

theorem KeepsPackages.alike {d : Directory} {t : RenameTable} (h : KeepsPackages d t) : PackagesAlike d t .empty :=
  fun c hc c' hc' => by
    rw [RenameTable.mapClass_empty, RenameTable.mapClass_empty]
    exact h c hc c' hc'

theorem RefersTo.mem_names {d : Directory} (h : d.Orderly) {c : String} {i : Instruction} {declaring : String} {access : Access}
    (href : RefersTo d c i declaring access) : declaring ∈ d.names := by
  cases href with
  | field _ hfirst =>
    obtain ⟨_, b, _, -, ⟨hf, -⟩, -⟩ := hfirst
    exact h.fieldOwner hf ▸ h.mem_names_of_wasRead (wasRead_of_mem_fieldsOf hf)
  | method _ hfirst =>
    obtain ⟨_, b, _, -, ⟨hm, -⟩, -⟩ := hfirst
    exact h.sound.owner hm ▸ h.mem_names_of_wasRead (wasRead_of_mem_methodsOf hm)
  | type _ hread => exact h.mem_names_of_wasRead hread.read

/-- **Nothing is found where nothing is illegal.** -/
theorem findings_eq_nil_iff {ctx : CheckContext} (h : ctx.dir.Orderly) (hstack : ∀ c, ctx.dir.stackOf c = ctx.dir.ancestors c) :
    findings ctx = [] ↔ ∀ c ∈ ctx.dir.owned, ∀ i ∈ instructionsOf ctx.dir c, ∀ display level,
      ¬ IsIllegal ctx c i display level := by
  have hclass : ∀ c, findingsOf ctx c = [] ↔ ∀ i ∈ instructionsOf ctx.dir c, ∀ display level,
      ¬ IsIllegal ctx c i display level := fun c => by
    have hreports := reports_firstByKey (c := c) h hstack
    rw [findingsOf, List.map_eq_nil_iff]
    constructor
    · rintro hnil i hi display level hillegal
      exact List.not_mem_nil (hnil ▸ (hreports.complete display).2 ⟨i, hi, level, hillegal⟩)
    · intro hnone
      refine List.eq_nil_iff_forall_not_mem.2 fun r hr => ?_
      obtain ⟨i, hi, level, hillegal⟩ := (hreports.complete r.1).1 (List.mem_map_of_mem hr)
      exact hnone i hi _ level hillegal
  rw [findings, Finding.sorted, ← List.isEmpty_iff, (List.mergeSort_perm _ _).isEmpty_eq, List.isEmpty_iff,
    List.flatMap_eq_nil_iff]
  exact forall_congr' fun c => forall_congr' fun _ => hclass c

section Alike

variable {ctx ctx' : CheckContext} (hdir : ctx'.dir = ctx.dir) {c : String}

include hdir

/-- **The new names forbid a reference only by packages.** -/
theorem Forbids.of_packages {declaring : String} {access : Access} {level : AccessLevel}
    (hpackages : packageOf (ctx.table.mapClass declaring) = packageOf (ctx.table.mapClass c) ↔
      packageOf (ctx'.table.mapClass declaring) = packageOf (ctx'.table.mapClass c))
    (h : Forbids ctx c declaring access level) : Forbids ctx' c declaring access level := by
  cases h with
  | prot hpublic hprotected hpackage hstack => exact .prot hpublic hprotected (mt hpackages.2 hpackage) (hdir ▸ hstack)
  | priv hpublic hprotected hprivate hother => exact .priv hpublic hprotected hprivate hother
  | package hpublic hprotected hprivate hother hpackage =>
    exact .package hpublic hprotected hprivate hother (mt hpackages.2 hpackage)

/-- **What is illegal under one table is illegal under the other**, at the same level, maybe with another text. -/
theorem IsIllegal.of_packages (h : ctx.dir.Orderly) (hpackages : PackagesAlike ctx.dir ctx.table ctx'.table)
    (hc : c ∈ ctx.dir.names) {i : Instruction} {display : String} {level : AccessLevel}
    (hillegal : IsIllegal ctx c i display level) : ∃ display', IsIllegal ctx' c i display' level := by
  obtain ⟨declaring, access, hrefers, hforbids, -⟩ := hillegal
  have hforbids' : Forbids ctx' c declaring access level :=
    hforbids.of_packages hdir (hpackages declaring (hrefers.mem_names h) c hc)
  exact ⟨_, declaring, access, hdir ▸ hrefers, hforbids', rfl⟩

/-- **Tables that put the same classes together** have findings or have none alike. -/
theorem findings_eq_nil_congr (h : ctx.dir.Orderly) (hstack : ∀ c, ctx.dir.stackOf c = ctx.dir.ancestors c)
    (hpackages : PackagesAlike ctx.dir ctx.table ctx'.table) : findings ctx = [] ↔ findings ctx' = [] := by
  have hback : PackagesAlike ctx'.dir ctx'.table ctx.table := hdir ▸ fun a ha b hb => (hpackages a ha b hb).symm
  have hknown : ∀ c ∈ ctx.dir.owned, c ∈ ctx.dir.names := fun c hc => (h.named.mem c).2 (mem_owned.1 hc).1
  rw [findings_eq_nil_iff h hstack, findings_eq_nil_iff (hdir ▸ h) (hdir ▸ hstack), hdir]
  refine forall_congr' fun c => forall_congr' fun hc => forall_congr' fun i => forall_congr' fun _ => ?_
  constructor
  · intro hnone display level hillegal
    obtain ⟨_, hillegal⟩ := hillegal.of_packages hdir.symm (hdir ▸ h) hback (hdir ▸ hknown c hc)
    exact hnone _ level hillegal
  · intro hnone display level hillegal
    obtain ⟨_, hillegal⟩ := hillegal.of_packages hdir h hpackages (hknown c hc)
    exact hnone _ level hillegal

end Alike

/-- Whether the check of access passes. -/
def passes (ctx : CheckContext) : Bool :=
  TaskReport.passed ⟨.accessLevels, Task.accessLevels.findings ctx⟩

/-- **A renaming that keeps packages breaks no access and mends none**: the check passes under it where it passes under the
old names. -/
theorem passes_of_packages_kept (steps : List Step) (base : CheckContext) (t : RenameTable)
    (h : KeepsPackages (after steps).resolve t) :
    passes { base with dir := (after steps).resolve, table := t, reverse := t.reverse } =
      passes { base with dir := (after steps).resolve, table := .empty, reverse := RenameTable.empty.reverse } := by
  rw [passes, passes, Bool.eq_iff_iff, TaskReport.passed, TaskReport.passed, List.isEmpty_iff, List.isEmpty_iff]
  exact findings_eq_nil_congr rfl (orderly_resolve steps) (stackOf_resolve steps) h.alike

/-- A class with a method, both for its package only. -/
def helper : ClassFile where
  minor := 0
  major := 52
  access := 0x0020
  name := "a/H"
  superclass := none
  interfaces := []
  fields := []
  methods := [⟨0x0000, "h", "()V", some ⟨0, 1, [.ret 0xb1]⟩⟩]

/-- A class of the same package that makes an array of the first and calls its method. -/
def user : ClassFile where
  minor := 0
  major := 52
  access := 0x0021
  name := "a/U"
  superclass := none
  interfaces := []
  fields := []
  methods := [⟨0x0001, "u", "()V",
    some ⟨1, 1, [.type 0xbd "[La/H;", .call 0xb6 ⟨"a/H", "h", "()V"⟩ false, .ret 0xb1]⟩⟩]

/-- The two classes, with a table that moves their package as a whole. -/
def packageMoved : CheckContext where
  dir := (after [.takeIn helper true, .takeIn user true]).resolve
  table := .ofEntries [.package "a" "b/c", .classEntry "a/H" "b/c/Tool"]
  reverse := .empty
  constructors := none
  suffixes := none
  naming := .default
  strategy := .closure

theorem packageMoved_keeps : KeepsPackages packageMoved.dir packageMoved.table := by
  have hall : packageMoved.dir.names.all (fun c => packageMoved.dir.names.all fun c' =>
      (packageOf (packageMoved.table.mapClass c) == packageOf (packageMoved.table.mapClass c')) ==
        (packageOf c == packageOf c')) = true := by cbv
  intro c hc c' hc'
  have h := List.all_eq_true.1 (List.all_eq_true.1 hall c hc) c' hc'
  rwa [beq_iff_eq, Bool.eq_iff_iff, beq_iff_eq, beq_iff_eq] at h

theorem packageMoved_passes : KeepsPackages packageMoved.dir packageMoved.table ∧
    passes { packageMoved with table := .empty, reverse := RenameTable.empty.reverse } = true ∧
    passes { packageMoved with reverse := packageMoved.table.reverse } = true := by
  have hold : passes { packageMoved with table := .empty, reverse := RenameTable.empty.reverse } = true := by cbv
  have heq := passes_of_packages_kept [.takeIn helper true, .takeIn user true] packageMoved packageMoved.table
    packageMoved_keeps
  exact ⟨packageMoved_keeps, hold, heq.trans hold⟩

/-- A class that moves alone is out of reach for the class that it leaves behind. -/
example : passes { packageMoved with table := .ofEntries [.classEntry "a/H" "b/H"] } = false := by cbv

end AccessLevels
end RenameAudit
