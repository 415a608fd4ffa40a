import RenameAudit.Proofs.Hierarchy.BridgeOrder
import RenameAudit.Proofs.Hierarchy.Bridges
import RenameAudit.Proofs.Hierarchy.Runs
/-!
# Proofs.Hierarchy.AnyOrder — classes may be taken in in any order

Two directories are `Alike` when they differ at most in the order in which they list their classes and bridges.  Classes
with different names may be taken in in any order (`alike_takeAll`), and a resolution goes through alike states from
alike directories (`Alike.resolve`): of the passes, only those over bridges look at an order, and there it does not
matter.
-/
namespace RenameAudit
namespace Directory

open Std ClassFile

/-- **Two directories differ in orders only**: in that of their classes and that of their bridges. -/
structure Alike (d e : Directory) : Prop where
  classes : e.classes = d.classes
  overrides : e.overrides = d.overrides
  keptRoots : e.keptRoots = d.keptRoots
  ingested : d.ingested.Perm e.ingested
  bridges : d.bridges.Perm e.bridges

namespace Alike

variable {d e f : Directory}

theorem refl (d : Directory) : d.Alike d :=
  ⟨rfl, rfl, rfl, .refl _, .refl _⟩

theorem trans (h : d.Alike e) (h' : e.Alike f) : d.Alike f :=
  ⟨h'.classes.trans h.classes, h'.overrides.trans h.overrides, h'.keptRoots.trans h.keptRoots,
    h.ingested.trans h'.ingested, h.bridges.trans h'.bridges⟩

/-- **What looks at no order is the same for both.** -/
theorem unordered {γ : Type} (h : d.Alike e) (look : Directory → γ)
    (hlook : ∀ names ingested bridges, look { d with names, ingested, bridges } = look d) : look e = look d := by
  have heq : e = { d with names := e.names, ingested := e.ingested, bridges := e.bridges } := by
    rw [← h.classes, ← h.overrides, ← h.keptRoots]
  rw [heq]
  exact hlook _ _ _

end Alike

/-! ## Taking in classes -/

theorem alike_takeIn {d e : Directory} (h : d.Alike e) (c : ClassFile) (owned : Bool) :
    (d.takeIn c owned).Alike (e.takeIn c owned) := by
  have hrefusal : e.refusal? c = d.refusal? c :=
    h.unordered (·.refusal? c) fun _ _ _ => rfl
  cases hr : d.refusal? c with
  | some fault =>
    rw [takeIn_of_refused owned hr, takeIn_of_refused owned (hrefusal.trans hr)]
    exact h
  | none =>
    have hr' := hrefusal.trans hr
    have hd := overrides_takeIn d c owned
    have he := overrides_takeIn e c owned
    refine ⟨ExtTreeMap.ext_getElem? fun n => ?_, ?_, ?_, ?_, ?_⟩
    · rw [getElem?_takeIn owned hr, getElem?_takeIn owned hr', h.classes]
    · rw [hd.1, he.1, h.overrides]
    · rw [hd.2, he.2, h.keptRoots]
    · rw [ingested_takeIn owned hr, ingested_takeIn owned hr']
      exact h.ingested.append_right _
    · rw [bridges_takeIn, bridges_takeIn]
      exact h.bridges

theorem refusal?_takeIn {d : Directory} {c c' : ClassFile} (owned : Bool) (hne : c.name ≠ c'.name) :
    (d.takeIn c owned).refusal? c' = d.refusal? c' := by
  cases hr : d.refusal? c with
  | some fault => rw [takeIn_of_refused owned hr]
  | none => rw [refusal?, wasRead, declaration?_takeIn owned hr, if_neg hne.symm, ← wasRead, ← refusal?]

/-- **What two classes change does not depend on which came first.** -/
theorem classes_takeIn_takeIn {d : Directory} {c c' : ClassFile} (owned owned' : Bool) (hne : c.name ≠ c'.name)
    (hr : d.refusal? c = none) (hr' : d.refusal? c' = none) :
    ((d.takeIn c owned).takeIn c' owned').classes = ((d.takeIn c' owned').takeIn c owned).classes := by
  have hlast : (d.takeIn c owned).refusal? c' = none := (refusal?_takeIn owned hne).trans hr'
  have hlast' : (d.takeIn c' owned').refusal? c = none := (refusal?_takeIn owned' hne.symm).trans hr
  refine ExtTreeMap.ext_getElem? fun n => ?_
  rw [getElem?_takeIn owned' hlast, getElem?_takeIn owned hr, getElem?_takeIn owned hlast', getElem?_takeIn owned' hr']
  by_cases hn : n = c.name
  · -- the other class may have it as a supertype, which keeps the list of its ancestors
    subst hn
    by_cases hs : c.name ∈ (c'.toDeclaration owned').supertypes <;>
      cases d.classes[c.name]? <;> simp [hne, hs, ClassEntry.stub]
  · by_cases hn' : n = c'.name
    · subst hn'
      by_cases hs : c'.name ∈ (c.toDeclaration owned).supertypes <;>
        cases d.classes[c'.name]? <;> simp [hn, hs, ClassEntry.stub]
    · by_cases hs : n ∈ (c.toDeclaration owned).supertypes <;>
        by_cases hs' : n ∈ (c'.toDeclaration owned').supertypes <;> simp [hn, hn', hs, hs']

/-- **Two classes with different names may be taken in in either order.** -/
theorem alike_takeIn_takeIn (d : Directory) {c c' : ClassFile} (owned owned' : Bool) (hne : c.name ≠ c'.name) :
    ((d.takeIn c owned).takeIn c' owned').Alike ((d.takeIn c' owned').takeIn c owned) := by
  have hlast : (d.takeIn c owned).refusal? c' = d.refusal? c' := refusal?_takeIn owned hne
  have hlast' : (d.takeIn c' owned').refusal? c = d.refusal? c := refusal?_takeIn owned' hne.symm
  cases hr : d.refusal? c with
  | some fault =>
    rw [takeIn_of_refused owned hr, takeIn_of_refused owned (hlast'.trans hr)]
    exact .refl _
  | none =>
    cases hr' : d.refusal? c' with
    | some fault =>
      rw [takeIn_of_refused owned' hr', takeIn_of_refused owned' (hlast.trans hr')]
      exact .refl _
    | none =>
      refine ⟨(classes_takeIn_takeIn owned owned' hne hr hr').symm, ?_, ?_, ?_, ?_⟩
      · rw [(overrides_takeIn _ c owned).1, (overrides_takeIn d c' owned').1, (overrides_takeIn _ c' owned').1,
          (overrides_takeIn d c owned).1]
      · rw [(overrides_takeIn _ c owned).2, (overrides_takeIn d c' owned').2, (overrides_takeIn _ c' owned').2,
          (overrides_takeIn d c owned).2]
      · rw [ingested_takeIn owned' (hlast.trans hr'), ingested_takeIn owned (hlast'.trans hr), ingested_takeIn owned hr,
          ingested_takeIn owned' hr', List.append_assoc, List.append_assoc]
        exact (List.Perm.swap _ _ []).append_left _
      · rw [bridges_takeIn, bridges_takeIn, bridges_takeIn, bridges_takeIn]

/-- **Classes with different names may be taken in in any order.** -/
theorem alike_takeAll (d : Directory) {xs ys : List (ClassFile × Bool)} (h : xs.Perm ys)
    (hnames : (xs.map (·.1.name)).Nodup) : (d.takeAll xs).Alike (d.takeAll ys) := by
  have hreordered : Reordered (fun x y : ClassFile × Bool => x.1.name ≠ y.1.name) xs ys :=
    .of_perm (fun _ _ hne => hne.symm) h (List.pairwise_map.1 hnames)
  have hswap : ∀ {d : Directory} {x y : ClassFile × Bool}, d.Alike d → x.1.name ≠ y.1.name →
      ((d.takeIn x.1 x.2).takeIn y.1 y.2).Alike ((d.takeIn y.1 y.2).takeIn x.1 x.2) := fun _ hne =>
    alike_takeIn_takeIn _ _ _ hne
  have hfold : ∀ l, d.takeAll l = l.foldl (fun d x => d.takeIn x.1 x.2) d := fun _ => rfl
  rw [hfold, hfold]
  exact @Reordered.foldl _ _ _ _ _ (fun d x => d.takeIn x.1 x.2) Alike .trans (fun x h => alike_takeIn h x.1 x.2) hswap
    hreordered d d (.refl d) (.refl d)

/-! ## Before a resolution -/

/-- **The same bridges are found**, in the order of the classes. -/
theorem Alike.findBridges {d e : Directory} (h : d.Alike e) : d.findBridges.Perm e.findBridges := by
  have hmethods : d.methods.Perm e.methods := by
    have hdecl : e.declaration? = d.declaration? :=
      h.unordered declaration? fun _ _ _ => rfl
    rw [methods, methods, hdecl]
    exact h.ingested.flatMap_right _
  have htarget : e.bridgeTarget? = d.bridgeTarget? :=
    h.unordered bridgeTarget? fun _ _ _ => rfl
  rw [Directory.findBridges, Directory.findBridges, htarget]
  exact hmethods.filterMap _

theorem Alike.prepare {d e : Directory} (h : d.Alike e) : d.prepare.Alike e.prepare where
  classes := by rw [Directory.prepare, dropStacks, h.classes]; rfl
  overrides := h.overrides
  keptRoots := rfl
  ingested := h.ingested
  bridges := h.findBridges

/-! ## Writes -/

theorem Alike.ancestors {d e : Directory} (h : d.Alike e) : e.ancestors = d.ancestors :=
  h.unordered Directory.ancestors fun _ _ _ => rfl

theorem Alike.keepStack {d e : Directory} (h : d.Alike e) (name : String) :
    (d.keepStack name).Alike (e.keepStack name) := by
  rw [Directory.keepStack, Directory.keepStack, h.ancestors, h.classes]
  exact ⟨rfl, h.overrides, h.keptRoots, h.ingested, h.bridges⟩

theorem Alike.markResolved {d e : Directory} (h : d.Alike e) (name : String) :
    (d.markResolved name).Alike (e.markResolved name) := by
  rw [Directory.markResolved, Directory.markResolved, h.classes]
  exact ⟨rfl, h.overrides, h.keptRoots, h.ingested, h.bridges⟩

theorem Alike.rootSet {d e : Directory} (h : d.Alike e) (m : MemberRef) : e.rootSet m = d.rootSet m := by
  rw [Directory.rootSet, Directory.rootSet, h.overrides]

theorem Alike.hasOverrides {d e : Directory} (h : d.Alike e) (m : MemberRef) : e.hasOverrides m = d.hasOverrides m := by
  rw [Directory.hasOverrides, Directory.hasOverrides, h.overrides]

theorem Alike.addOverrides {d e : Directory} (h : d.Alike e) (m : MemberRef) (more : MethodSet) :
    (d.addOverrides m more).Alike (e.addOverrides m more) := by
  unfold Directory.addOverrides
  split
  · exact h
  · refine ⟨h.classes, ?_, h.keptRoots, h.ingested, h.bridges⟩
    rw [overridesOf, overridesOf, h.overrides]

theorem Alike.follow {d e : Directory} (h : d.Alike e) (m : MemberRef) (takes : Bool) (bridge : MemberRef) :
    (follow m takes d bridge).Alike (follow m takes e bridge) := by
  unfold Directory.follow
  split
  · rw [h.rootSet]
    exact h.addOverrides _ _
  · exact h

theorem Alike.linkDirect {d e : Directory} (h : d.Alike e) (stack : List String) (m : Method) :
    (linkDirect stack d m).Alike (linkDirect stack e m) := by
  have hnearest : e.nearestOverridable? stack m.key = d.nearestOverridable? stack m.key :=
    h.unordered (·.nearestOverridable? stack m.key) fun _ _ _ => rfl
  unfold Directory.linkDirect
  rw [hnearest]
  split
  · split
    · rw [h.rootSet]
      exact h.addOverrides _ _
    · exact h
  · exact h

theorem Alike.satisfy {d e : Directory} (h : d.Alike e) (scope : List String) (declared : Method) :
    (satisfy scope d declared).Alike (satisfy scope e declared) := by
  have hnearest : e.nearestConcrete? scope declared.key = d.nearestConcrete? scope declared.key :=
    h.unordered (·.nearestConcrete? scope declared.key) fun _ _ _ => rfl
  unfold Directory.satisfy
  rw [hnearest]
  split
  · exact h.addOverrides _ _
  · exact h

theorem Alike.satisfyAll {d e : Directory} (h : d.Alike e) (name : String) (stack : List String) :
    (satisfyAll name stack d).Alike (satisfyAll name stack e) := by
  have haccess : e.accessOf name = d.accessOf name :=
    h.unordered (·.accessOf name) fun _ _ _ => rfl
  have hopen : e.openDeclarations (name :: stack) = d.openDeclarations (name :: stack) :=
    h.unordered (·.openDeclarations (name :: stack)) fun _ _ _ => rfl
  unfold Directory.satisfyAll
  dsimp only
  rw [haccess, hopen]
  split
  · exact h
  · exact List.foldl_rel h fun m _ d e h => h.satisfy _ m

theorem Alike.merge {d e : Directory} (h : d.Alike e) (w : Merge) : (merge d w).Alike (merge e w) := by
  rw [merge_eq, merge_eq, h.hasOverrides]
  exact h.follow _ _ _

/-! ## Resolutions side by side -/

/-- **Two resolutions are in step**: their directories are alike, and the same merges wait, in an order that does not
matter. -/
structure InStep (s t : Progress) : Prop where
  dir : s.dir.Alike t.dir
  waiting : Reordered SameTarget s.waiting t.waiting

namespace InStep

variable {s t u : Progress}

theorem trans (h : InStep s t) (h' : InStep t u) : InStep s u :=
  ⟨h.dir.trans h'.dir, h.waiting.trans h'.waiting⟩

theorem linkBridge (h : InStep s t) (name : String) (m : Method) (bridge : MemberRef) :
    InStep (linkBridge name m s bridge) (linkBridge name m t bridge) := by
  have htakes : takes name m t.dir bridge = takes name m s.dir bridge :=
    h.dir.unordered (takes name m · bridge) fun _ _ _ => rfl
  have hdelays : delays name m t.dir bridge = delays name m s.dir bridge :=
    h.dir.unordered (delays name m · bridge) fun _ _ _ => rfl
  have hkeep : (keepFor m s.dir bridge).Alike (keepFor m t.dir bridge) := by
    unfold keepFor
    split
    · exact h.dir.keepStack _
    · exact h.dir
  rw [linkBridge_eq, linkBridge_eq, htakes, hdelays]
  exact ⟨hkeep.follow _ _ _, h.waiting.append (.refl _)⟩

/-- **The bridges to a method, in any order, keep resolutions in step.** -/
theorem linkBridges (h : InStep s t) (hg : s.dir.Grounded) (hbridges : ∀ p ∈ s.dir.bridges, p.1 ≠ p.2) (name : String)
    (m : Method) : InStep (linkBridges name s m) (linkBridges name t m) := by
  unfold Directory.linkBridges
  rw [h.dir.hasOverrides]
  split
  · exact h
  · have hne : ∀ bridge ∈ s.dir.bridgesTo m.ref, bridge ≠ m.ref := fun bridge hb =>
      hbridges _ (mem_bridgesTo.1 hb)
    have hreordered : Reordered (fun a b => a ≠ m.ref ∧ b ≠ m.ref) (s.dir.bridgesTo m.ref) (t.dir.bridgesTo m.ref) :=
      .of_perm (fun _ _ hab => hab.symm) ((h.dir.bridges.filter _).map _)
        (List.pairwise_of_forall_mem_list fun a ha b hb => ⟨hne a ha, hne b hb⟩)
    have hground : ∀ {s : Progress} (bridge : MemberRef), s.dir.Grounded →
        (Directory.linkBridge name m s bridge).dir.Grounded := fun {s} bridge hg => by
      rw [linkBridge_eq]
      exact (hg.of_overrides_eq (overrides_keepFor m s.dir bridge)).follow _ _ _
    have hswap : ∀ {s : Progress} {a b : MemberRef}, InStep s s ∧ s.dir.Grounded → a ≠ m.ref ∧ b ≠ m.ref →
        InStep (Directory.linkBridge name m (Directory.linkBridge name m s a) b)
          (Directory.linkBridge name m (Directory.linkBridge name m s b) a) ∧
        (Directory.linkBridge name m (Directory.linkBridge name m s a) b).dir.Grounded := fun h hab => by
      obtain ⟨hdir, hwaiting⟩ := linkBridge_comm name m h.2 hab.1 hab.2
      exact ⟨⟨hdir ▸ .refl _, hwaiting⟩, hground _ (hground _ h.2)⟩
    -- two bridges may change places only where the graph is grounded, so that goes along
    have hend := @Reordered.foldl MemberRef Progress _ _ _ (Directory.linkBridge name m)
      (fun s t => InStep s t ∧ s.dir.Grounded) (fun h h' => ⟨h.1.trans h'.1, h.2⟩)
      (fun bridge h => ⟨h.1.linkBridge name m bridge, hground bridge h.2⟩) hswap hreordered s t ⟨h, hg⟩
      ⟨⟨.refl _, .refl _⟩, hg.of_overrides_eq h.dir.overrides⟩
    exact hend.1

/-- **Merges that waited are carried out alike.** -/
theorem merges (h : InStep s t) (hg : s.dir.Grounded) (p : Merge → Bool) :
    ((s.waiting.filter p).foldl merge s.dir).Alike ((t.waiting.filter p).foldl merge t.dir) := by
  have hground : ∀ {d : Directory} (w : Merge), d.Grounded → (merge d w).Grounded := fun w hg => hg.follow _ _ _
  have hswap : ∀ {d : Directory} {w w' : Merge}, d.Alike d ∧ d.Grounded → SameTarget w w' →
      (merge (merge d w) w').Alike (merge (merge d w') w) ∧ (merge (merge d w) w').Grounded := fun h hw =>
    ⟨merge_comm h.2 hw ▸ .refl _, hground _ (hground _ h.2)⟩
  have hend := @Reordered.foldl Merge Directory _ _ _ merge (fun d e => d.Alike e ∧ d.Grounded)
    (fun h h' => ⟨h.1.trans h'.1, h.2⟩) (fun w h => ⟨h.1.merge w, hground w h.2⟩) hswap (h.waiting.filter p) s.dir t.dir
    ⟨h.dir, hg⟩ ⟨.refl _, hg.of_overrides_eq h.dir.overrides⟩
  exact hend.1

end InStep

/-! ## One class, all classes -/

theorem InStep.linkedDirectly {s t : Progress} (h : InStep s t) (name : String) :
    InStep (linkedDirectly s name) (linkedDirectly t name) := by
  have hkept := h.dir.keepStack name
  have hmethods : (t.dir.keepStack name).methodsOf name = (s.dir.keepStack name).methodsOf name :=
    hkept.unordered (·.methodsOf name) fun _ _ _ => rfl
  have hstack : (t.dir.keepStack name).stackOf name = (s.dir.keepStack name).stackOf name :=
    hkept.unordered (·.stackOf name) fun _ _ _ => rfl
  dsimp only [Directory.linkedDirectly]
  rw [hmethods, hstack]
  exact ⟨List.foldl_rel hkept fun m _ d e h => h.linkDirect _ m, h.waiting⟩

section Class

variable {start : Directory} (hs : start.Sound) (hg : start.Grounded) {s t : Progress} (hu : Underway start s)
  (h : InStep s t) {name : String} (hname : name ∈ start.prepare.resolutionOrder)

include hs hg hu h hname

theorem inStep_linkedToBridges : InStep (linkedToBridges s name) (linkedToBridges t name) := by
  have hmethods : (t.dir.keepStack name).methodsOf name = (s.dir.keepStack name).methodsOf name :=
    (h.dir.keepStack name).unordered (·.methodsOf name) fun _ _ _ => rfl
  have hp := (hu.keepStack name).prepared hs
  dsimp only [linkedToBridges]
  rw [hmethods, hp.same.methodsOf]
  -- each method finds the first resolution in a state of its own run
  have hend : InStep _ _ ∧ Underway start _ := List.foldl_rel
    (r := fun s t => InStep s t ∧ Underway start s) ⟨h.linkedDirectly name, underway_linkedDirectly hs hu hname⟩
    fun m hm s t ⟨h, hu⟩ => by
      have hbridges : ∀ p ∈ s.dir.bridges, p.1 ≠ p.2 := fun p hp =>
        ne_of_mem_findBridges ((hu.prepared hs).bridges ▸ hp)
      exact ⟨h.linkBridges (hu.grounded hs hg) hbridges name m, underway_linkBridges hs hu hname hm⟩
  exact hend.1

theorem inStep_satisfied : InStep (satisfied s name) (satisfied t name) := by
  have hstack : (t.dir.keepStack name).stackOf name = (s.dir.keepStack name).stackOf name :=
    (h.dir.keepStack name).unordered (·.stackOf name) fun _ _ _ => rfl
  have hlinked := inStep_linkedToBridges hs hg hu h hname
  dsimp only [satisfied]
  rw [hstack]
  exact ⟨hlinked.dir.satisfyAll name _, hlinked.waiting⟩

theorem inStep_merged : InStep (merged s name) (merged t name) := by
  have hsatisfied := inStep_satisfied hs hg hu h hname
  have hground := (underway_satisfied hs hu hname).grounded hs hg
  exact ⟨hsatisfied.merges hground _, hsatisfied.waiting.filter _⟩

/-- **Resolving a class keeps resolutions in step.** -/
theorem inStep_resolveClass : InStep (resolveClass s name) (resolveClass t name) := by
  have hread : t.dir.wasRead name = s.dir.wasRead name :=
    h.dir.unordered (·.wasRead name) fun _ _ _ => rfl
  rw [resolveClass_eq, resolveClass_eq, hread]
  split
  · have hmerged := inStep_merged hs hg hu h hname
    exact ⟨hmerged.dir.markResolved name, hmerged.waiting⟩
  · exact ⟨h.dir.markResolved name, h.waiting⟩

end Class

/-- **Alike directories are resolved alike.** -/
theorem Alike.resolve {d e : Directory} (h : d.Alike e) (hs : d.Sound) (hg : d.Grounded) : d.resolve.Alike e.resolve := by
  have horder : e.prepare.resolutionOrder = d.prepare.resolutionOrder :=
    h.prepare.unordered resolutionOrder fun _ _ _ => rfl
  dsimp only [Directory.resolve]
  rw [horder]
  generalize hnames : d.prepare.resolutionOrder = names
  have hend : InStep (names.foldl resolveClass ⟨d.prepare, []⟩) (names.foldl resolveClass ⟨e.prepare, []⟩) ∧
      Underway d (names.foldl resolveClass ⟨d.prepare, []⟩) :=
    List.foldl_rel (r := fun s t => InStep s t ∧ Underway d s) ⟨⟨h.prepare, .nil⟩, .begin⟩ fun name hname s t ⟨h, hu⟩ => by
      rw [← hnames] at hname
      exact ⟨inStep_resolveClass hs hg hu h hname, underway_resolveClass hs hu hname⟩
  exact hend.1.dir

/-- **What forwarding methods forward to is the same after a resolution.** -/
theorem Alike.bridgedBy?_resolve {d e : Directory} (h : d.Alike e) (hs : d.Sound) (hg : d.Grounded) (bridge : MemberRef) :
    e.resolve.bridgedBy? bridge = d.resolve.bridgedBy? bridge := by
  have hbridges : d.resolve.bridges = d.findBridges := (prepared_resolve hs).bridges
  have hmem : ∀ p, p ∈ e.resolve.bridges ↔ p ∈ d.findBridges := fun p => by
    rw [← (h.resolve hs hg).bridges.mem_iff, hbridges]
  refine Option.ext fun target => ?_
  rw [bridgedBy?_eq_some hs hmem, bridgedBy?_eq_some hs fun p => by rw [hbridges]]

/-- **Classes with different names may be taken in in any order before they are resolved.** -/
theorem alike_resolved {xs ys : List (ClassFile × Bool)} (h : xs.Perm ys) (hnames : (xs.map (·.1.name)).Nodup) :
    (empty.takeAll xs).resolve.Alike (empty.takeAll ys).resolve ∧
      ∀ bridge, (empty.takeAll ys).resolve.bridgedBy? bridge = (empty.takeAll xs).resolve.bridgedBy? bridge := by
  have halike := alike_takeAll empty h hnames
  have hs : (empty.takeAll xs).Sound := sound_empty.takeAll xs
  have hg : (empty.takeAll xs).Grounded := grounded_of_empty (overrides_takeAll empty xs)
  exact ⟨halike.resolve hs hg, halike.bridgedBy?_resolve hs hg⟩

end Directory
end RenameAudit
