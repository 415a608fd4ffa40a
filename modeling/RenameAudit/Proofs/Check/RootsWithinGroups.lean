import Mathlib
import RenameAudit.Proofs.Check.Closure
import RenameAudit.Proofs.Hierarchy.Bridges
import RenameAudit.Proofs.Hierarchy.Runs
/-!
# Proofs.Check.RootsWithinGroups — overrides stay within the groups of the closure

Two computations say which methods belong together: a resolution follows direct overrides, bridges and satisfied
declarations, and the closure joins what classes under audit expose.  Where no class inherits from itself and no abstract
method is private or static, the first stays within the second.  All through a resolution (`covered_of_underway`)

- every override leads to a method of the same group,
- a method that overrides another is exposed by a class under audit, and so is a method with a merge that waits,
- what waits is a bridge that was found.

So where the closure finds no mismatch, a method and its roots have one new name.
-/
namespace RenameAudit
namespace OverrideNames

open Std Relation Directory

/-! ## Methods that take part -/

theorem isExposed_eq_canOverride (m : Method) : isExposed m = m.canOverride := by
  rw [isExposed, Method.canOverride, Bool.and_assoc, Bool.and_assoc, Bool.and_comm (!m.isStatic)]

/-- Whether a method is an initializer shows in its key. -/
theorem isInitializer_eq {m : Method} (h : ∃ rest, m.ref.descriptor.toList = '(' :: rest) :
    m.isInitializer = Text.startsWith "<" m.key.toList := by
  obtain ⟨rest, hdesc⟩ := h
  rw [Method.isInitializer, Method.key, MemberRef.key, String.toList_append, hdesc]
  cases m.ref.name.toList <;> rfl

/-- An abstract declaration with the key of a method that overrides takes part itself. -/
theorem isExposed_of_declaration {d : Directory} (h : d.Sound) {c c' : String} {declared m : Method}
    (hdecl : declared ∈ d.methodsOf c) (hm : m ∈ d.methodsOf c') (hkey : m.key = declared.key)
    (hcan : m.canOverride = true) (hflags : declared.isPrivate = false ∧ declared.isStatic = false) :
    isExposed declared = true := by
  have hinit : declared.isInitializer = m.isInitializer := by
    rw [isInitializer_eq (h.descriptor hdecl), isInitializer_eq (h.descriptor hm), hkey]
  rw [isExposed, hinit, hflags.1, hflags.2]
  rw [Method.canOverride, Bool.and_eq_true, Bool.and_eq_true] at hcan
  rw [hcan.1.1]
  rfl

/-- A class under audit leads to a class that has the method, and the method takes part in overriding. -/
def Visible (d : Directory) (r : MemberRef) : Prop :=
  ∃ o ∈ d.owned, ∃ c, ReflTransGen d.Extends o c ∧ ∃ m ∈ d.methodsOf c, m.canOverride = true ∧ m.ref = r

/-! ## The invariant -/

section Resolution

variable {start d : Directory}

/-- **Overrides are covered by the groups of a directory.** -/
structure Covered (start d : Directory) (s : Progress) : Prop where
  edges : ∀ m r, s.dir.Overrides m r → EqvGen (Linked d) m r
  visible : ∀ m ∈ s.dir.overrides, Visible start m
  waiting : ∀ w ∈ s.waiting, (w.bridge, w.target) ∈ start.findBridges ∧ Visible start w.target

/-- Chains of overrides stay within a group. -/
theorem Covered.path {s : Progress} (h : Covered start d s) {m r : MemberRef} (hp : ReflTransGen s.dir.Overrides m r) :
    EqvGen (Linked d) m r := by
  induction hp with
  | refl => exact .refl _
  | tail _ hr ih => exact ih.trans _ _ _ (h.edges _ _ hr)

theorem Covered.addOverrides {s : Progress} (h : Covered start d s) {m : MemberRef} {more : MethodSet}
    (hmore : ∀ r ∈ more, EqvGen (Linked d) m r) (hm : Visible start m) :
    Covered start d { s with dir := s.dir.addOverrides m more } := by
  refine ⟨fun a r hr => ?_, fun a ha => ?_, h.waiting⟩
  · rcases overrides_addOverrides.1 hr with hold | ⟨rfl, hnew⟩
    · exact h.edges a r hold
    · exact hmore r hnew
  · rcases mem_addOverrides.1 ha with ha | ⟨rfl, -⟩
    · exact h.visible a ha
    · exact hm

theorem Covered.addRoots {s : Progress} (h : Covered start d s) (hg : s.dir.Grounded) {m p : MemberRef}
    (hp : EqvGen (Linked d) m p) (hm : Visible start m) :
    Covered start d { s with dir := s.dir.addOverrides m ((s.dir.rootSet p).erase m) } :=
  h.addOverrides (fun _ hr => hp.trans _ _ _ (h.path (hg.mem_rootSet.1 (mem_set_erase_iff.1 hr).1).2)) hm

variable (hs : start.Sound) (hd : start.Prepared d) (hacyclic : start.SupertypesAcyclic)

include hs hd hacyclic

theorem linked_of_scope {o c c' : String} (ho : o ∈ start.owned) (hc : ReflTransGen start.Extends o c)
    (hc' : ReflTransGen start.Extends o c') {m m' : Method} (hm : m ∈ start.methodsOf c)
    (hm' : m' ∈ start.methodsOf c') (hexp : isExposed m = true) (hexp' : isExposed m' = true)
    (hkey : m.key = m'.key) : Linked d m.ref m'.ref := by
  rw [← extends_congr hd.same] at hc hc'
  rw [← hd.same.methodsOf] at hm hm'
  refine linked_of_exposes (hd.sound hs) (hacyclic.of_sameClasses hd.same) (hd.same.owned ▸ ho) (k := m.key)
    ⟨c, hc, m, hm, hexp, rfl, rfl⟩ ⟨c', hc', m', hm', hexp', hkey.symm, rfl⟩

/-- **A forwarding method that a class under audit exposes is linked with what it forwards to.** -/
theorem linked_of_bridge {bridge target : MemberRef} (hb : (bridge, target) ∈ start.findBridges)
    (hv : Visible start bridge) {c : String} {t : Method} (ht : t ∈ start.methodsOf c) (hcan : t.canOverride = true)
    (href : t.ref = target) : Linked d bridge target := by
  obtain ⟨o, ho, b, hob, m, hm, hexp, rfl⟩ := hv
  obtain ⟨m', hm', named, t', hf, hfound, -, hself, htarget⟩ := mem_findBridges.1 hb
  have hmm' : m' = m := hs.eq_of_ref (hs.mem_methods.1 hm') hm hself
  subst hmm'
  obtain ⟨c', hc', ht'⟩ := bridgeTarget?_some hs hfound
  have htt' : t' = t := hs.eq_of_ref ht' ht (htarget.trans href.symm)
  subst htt'
  have hbounce : bounceTarget? d m' = some target := by
    rw [bounceTarget?, hf, Option.bind_some, (bridgedBy?_eq_some hs fun p => by rw [hd.bridges]).2 hb]
  rw [hs.owner hm] at hc'
  rw [← hd.same.methodsOf] at hm ht'
  rw [← extends_congr hd.same] at hob hc'
  rw [← isExposed_eq_canOverride] at hexp hcan
  exact linked_of_bounces (hd.sound hs) (hacyclic.of_sameClasses hd.same) (hd.same.owned ▸ ho)
    ⟨b, hob, m', hm, hexp, rfl, target, hbounce, rfl⟩ ⟨b, hob, m', hm, hexp, rfl, rfl⟩
    ⟨c', hob.trans hc', t', ht', hcan, by rw [← htarget]; rfl, href⟩

/-- **Overrides are covered all through a resolution.** -/
theorem covered_of_underway (hnone : start.overrides = ∅)
    (hflags : ∀ m ∈ start.methods, m.isAbstract = true → m.isPrivate = false ∧ m.isStatic = false) {s : Progress}
    (h : Underway start s) : Covered start d s := by
  have hground : ∀ {s}, Underway start s → s.dir.Grounded := fun h => h.grounded hs (grounded_of_empty hnone)
  induction h with
  | begin =>
    have hempty : ∀ m, m ∉ start.overrides := fun m hm => by
      rw [hnone] at hm
      exact ExtTreeMap.not_mem_empty hm
    exact ⟨fun m r hr => absurd (Overrides.mem hr) (hempty m), fun m hm => absurd hm (hempty m), fun w hw => by cases hw⟩
  | keepStack name _ ih => exact ⟨ih.edges, ih.visible, ih.waiting⟩
  | @linkDirect s name m h hname hm ih =>
    have hp := h.prepared hs
    obtain ⟨o, ho, hoc⟩ := owner_of_resolved hname
    rcases linkDirect_cases (hp.sound hs) (start.ancestors name) m with he | ⟨c, hc, p, hpm, hkey, hover, hcan, he⟩
    · rw [he]
      exact ih
    · rw [he]
      rw [hp.same.methodsOf] at hpm
      have hpexp : isExposed p = true := by
        rw [Method.canBeOverridden, Bool.and_eq_true] at hover
        rw [isExposed_eq_canOverride]
        exact hover.1
      have hoc' := hoc.trans ((mem_scope hs).1 (List.mem_cons_of_mem _ hc))
      refine ih.addRoots (hground h) (.rel _ _ ?_) ⟨o, ho, name, hoc, m, hm, hcan, rfl⟩
      exact linked_of_scope hs hd hacyclic ho hoc hoc' hm hpm ((isExposed_eq_canOverride m).trans hcan) hpexp hkey.symm
  | @linkBridge s name m bridge h hname hm hcan hb ih =>
    obtain ⟨o, ho, hoc⟩ := owner_of_resolved hname
    have hvisible : Visible start m.ref := ⟨o, ho, name, hoc, m, hm, hcan, rfl⟩
    obtain ⟨d', hd', he⟩ := linkBridge_cases name m s bridge
    have hkeep : Covered start d { s with dir := d' } ∧ d'.Grounded := by
      rcases hd' with rfl | rfl
      · exact ⟨ih, hground h⟩
      · exact ⟨⟨ih.edges, ih.visible, ih.waiting⟩, (hground h).of_overrides_eq rfl⟩
    rcases he with he | he | ⟨hhas, he⟩ <;> rw [he]
    · exact hkeep.1
    · refine ⟨hkeep.1.edges, hkeep.1.visible, fun w hw => ?_⟩
      rcases List.mem_append.1 hw with hw | hw
      · exact ih.waiting w hw
      · obtain rfl := List.mem_singleton.1 hw
        exact ⟨hb, hvisible⟩
    · have hlinked := linked_of_bridge hs hd hacyclic hb (hkeep.1.visible bridge hhas) hm hcan rfl
      exact hkeep.1.addRoots hkeep.2 (.symm _ _ (.rel _ _ hlinked)) hvisible
  | @satisfy s name declared h hname hopen ih =>
    have hp := h.prepared hs
    obtain ⟨o, ho, hoc⟩ := owner_of_resolved hname
    rcases satisfy_cases (hp.sound hs) (name :: start.ancestors name) declared with
      he | ⟨c, hc, m, hm, hkey, -, hcan, he⟩
    · rw [he]
      exact ih
    · rw [he]
      obtain ⟨⟨c', hc', hdecl⟩, habstract, -⟩ := mem_openDeclarations.1 hopen
      rw [hp.same.methodsOf] at hm hdecl
      have hoc₁ := hoc.trans ((mem_scope hs).1 hc)
      have hoc₂ := hoc.trans ((mem_scope hs).1 hc')
      have hfl := hflags declared (hs.mem_methods.2 (hs.owner hdecl ▸ hdecl)) habstract
      have hexp := isExposed_of_declaration hs hdecl hm hkey hcan hfl
      refine ih.addOverrides (fun r hr => ?_) ⟨o, ho, c, hoc₁, m, hm, hcan, rfl⟩
      obtain rfl := List.mem_singleton.1 (mem_ofList_iff.1 hr)
      exact .rel _ _ (linked_of_scope hs hd hacyclic ho hoc₁ hoc₂ hm hdecl ((isExposed_eq_canOverride m).trans hcan)
        hexp hkey)
  | @merge s w h hw ih =>
    rcases merge_cases s.dir w with he | ⟨hhas, he⟩
    · rw [he]
      exact ih
    · rw [he]
      obtain ⟨hb, hvisible⟩ := ih.waiting w hw
      obtain ⟨o, ho, c, hoc, t, ht, hcan, href⟩ := hvisible
      have hlinked := linked_of_bridge hs hd hacyclic hb (ih.visible _ hhas) ht hcan href
      exact ih.addRoots (hground h) (.symm _ _ (.rel _ _ hlinked)) ⟨o, ho, c, hoc, t, ht, hcan, href⟩
  | markResolved name _ hw ih => exact ⟨ih.edges, ih.visible, fun w h => ih.waiting w (hw w h)⟩

end Resolution

/-! ## Roots and new names -/

/-- **A method has the new name of its roots**, where the closure finds no mismatch. -/
theorem mapped_eq_of_root (classes : List (ClassFile × Bool)) (ctx : CheckContext)
    (hdir : ctx.dir = (Directory.empty.takeAll classes).resolve) (hstrategy : ctx.strategy = .closure)
    (hacyclic : ctx.dir.SupertypesAcyclic)
    (hflags : ∀ m ∈ ctx.dir.methods, m.isAbstract = true → m.isPrivate = false ∧ m.isStatic = false)
    (hclean : ∀ groups, .overrideMismatch groups ∉ findings ctx) :
    ∀ m ∈ ctx.dir.methods, ∀ r ∈ ctx.dir.rootsOf m.ref, ctx.mappedMethod m.ref = ctx.mappedMethod r := by
  have hs : (Directory.empty.takeAll classes).Sound := sound_empty.takeAll classes
  have hnone : (Directory.empty.takeAll classes).overrides = ∅ := overrides_takeAll _ classes
  have hd : (Directory.empty.takeAll classes).Prepared ctx.dir := hdir ▸ prepared_resolve hs
  obtain ⟨waiting, hend⟩ := underway_resolve hs
  have hcovered := covered_of_underway hs hd (hacyclic.of_sameClasses hd.same.symm) hnone
    (hd.same.methods ▸ hflags) hend
  have hground := grounded_resolve hs (grounded_of_empty hnone)
  intro m _ r hr
  rw [rootsOf, hd.keptRoots, ExtTreeMap.getD_empty, hdir, mem_roots, hground.mem_rootSet] at hr
  exact mapped_eq_of_connected hstrategy hclean (hcovered.path hr.2)

/-- The interface and the class that implements it, with one name for their method. -/
def oneName : CheckContext where
  dir := (Directory.empty.takeAll [(shape, true), (circle, true)]).resolve
  table := .ofEntries [.method "S" "d" "()V" "p", .method "C" "d" "()V" "p"]
  reverse := .empty
  constructors := none
  suffixes := none
  naming := .default
  strategy := .closure

theorem oneName_acyclic : oneName.dir.SupertypesAcyclic := by
  have hsound := sound_empty.takeAll [(shape, true), (circle, true)]
  have hread : (Directory.empty.takeAll [(shape, true), (circle, true)]).SupertypesAcyclic :=
    (acyclic_iff hsound).2 (by cbv)
  exact hread.of_sameClasses (prepared_resolve hsound).same

theorem oneName_flags : ∀ m ∈ oneName.dir.methods, m.isAbstract = true → m.isPrivate = false ∧ m.isStatic = false := by
  have hall : oneName.dir.methods.all (fun m => !m.isPrivate && !m.isStatic) = true := by cbv
  intro m hm _
  have h := List.all_eq_true.1 hall m hm
  rwa [Bool.and_eq_true, Bool.not_eq_true', Bool.not_eq_true'] at h

theorem oneName_findings : findings oneName = [] := by cbv

theorem oneName_root : ⟨"S", "d", "()V"⟩ ∈ oneName.dir.rootsOf ⟨"C", "d", "()V"⟩ := by
  have hroots : oneName.dir.rootsOf ⟨"C", "d", "()V"⟩ = [⟨"S", "d", "()V"⟩] := by cbv
  rw [hroots]
  exact List.mem_cons_self

theorem oneName_mapped_eq_of_root :
    ⟨"S", "d", "()V"⟩ ∈ oneName.dir.rootsOf ⟨"C", "d", "()V"⟩ ∧
      oneName.mappedMethod ⟨"C", "d", "()V"⟩ = oneName.mappedMethod ⟨"S", "d", "()V"⟩ := by
  have hread : oneName.dir.methods.any (fun m => m.ref == ⟨"C", "d", "()V"⟩) = true := by cbv
  obtain ⟨m, hm, href⟩ := List.any_eq_true.1 hread
  have href : m.ref = ⟨"C", "d", "()V"⟩ := beq_iff_eq.1 href
  have heq := mapped_eq_of_root [(shape, true), (circle, true)] oneName rfl rfl oneName_acyclic oneName_flags
    (fun groups => oneName_findings ▸ List.not_mem_nil) m hm ⟨"S", "d", "()V"⟩ (href ▸ oneName_root)
  exact ⟨oneName_root, href ▸ heq⟩

end OverrideNames
end RenameAudit
