import RenameAudit.Proofs.Hierarchy.RenamedDirectories
/-!
# Proofs.Hierarchy.RenamedResolution — names only matter by their order

A resolution goes through renamed states from a renamed directory (`InTune`), as long as the renaming keeps the order of
the classes under audit, for they are resolved by name.  So the roots of the methods in renamed classes are the renamed
roots (`roots_renamed`).  Without that order they need not be: a class takes over the roots that the method of its
superclass has at that moment, and which classes were resolved before is a matter of names (`roots_by_name`).
-/
namespace RenameAudit

open Std ClassFile

namespace Directory

/-! ## Resolutions side by side -/

/-- **A resolution is another with its classes renamed**: its directory is, and the renamed merges wait. -/
structure InTune (ρ : ClassRenaming) (known : MemberRef → Prop) (s t : Progress) : Prop where
  dir : Renamed ρ known s.dir t.dir
  waiting : t.waiting = s.waiting.map ρ.merge

variable {ρ : ClassRenaming} {known : MemberRef → Prop} {d e : Directory} {s t : Progress}

namespace Renamed

theorem linkDirect (h : Renamed ρ known d e) (stack : List String) {m : Method} (hm : known m.ref) :
    Renamed ρ known (linkDirect stack d m) (linkDirect (stack.map ρ.rename) e (ρ.method m)) := by
  have hcan : (ρ.method m).canOverride = m.canOverride := rfl
  have hnearest : e.nearestOverridable? (stack.map ρ.rename) (ρ.method m).key =
      (d.nearestOverridable? stack m.key).map ρ.method := h.nearestOverridable? stack hm
  unfold Directory.linkDirect
  rw [hcan, hnearest]
  split
  · cases d.nearestOverridable? stack m.key with
    | none => exact h
    | some p => exact h.addRoots m.ref p.ref
  · exact h

theorem follow (h : Renamed ρ known d e) (m : MemberRef) (takes : Bool) (bridge : MemberRef) :
    Renamed ρ known (follow m takes d bridge) (follow (ρ.ref m) takes e (ρ.ref bridge)) := by
  unfold Directory.follow
  split
  · exact h.addRoots m bridge
  · exact h

theorem satisfy (h : Renamed ρ known d e) (scope : List String) {declared : Method} (hm : known declared.ref) :
    Renamed ρ known (satisfy scope d declared) (satisfy (scope.map ρ.rename) e (ρ.method declared)) := by
  have hnearest : e.nearestConcrete? (scope.map ρ.rename) (ρ.method declared).key =
      (d.nearestConcrete? scope declared.key).map ρ.method := h.nearestConcrete? scope hm
  unfold Directory.satisfy
  rw [hnearest]
  cases d.nearestConcrete? scope declared.key with
  | none => exact h
  | some m =>
    have hadded := h.addOverrides m.ref (ExtTreeSet.ofList [declared.ref])
    rwa [ClassRenaming.refs_singleton] at hadded

theorem openDeclarations (h : Renamed ρ known d e) (scope : List String) :
    e.openDeclarations (scope.map ρ.rename) = (d.openDeclarations scope).map ρ.method := by
  have hmethods : (scope.map ρ.rename).flatMap e.methodsOf = (scope.flatMap d.methodsOf).map ρ.method := by
    rw [List.flatMap_map, List.map_flatMap]
    exact List.flatMap_congr fun c _ => h.methodsOf c
  rw [Directory.openDeclarations, hmethods, List.filter_map, Directory.openDeclarations]
  refine congrArg _ (List.filter_congr fun m _ => ?_)
  have hhas : e.hasOverrides (ρ.method m).ref = d.hasOverrides m.ref := h.hasOverrides m.ref
  have habstract : (ρ.method m).isAbstract = m.isAbstract := rfl
  rw [Function.comp_apply, hhas, habstract]

theorem satisfyAll (h : Renamed ρ known d e) (name : String) (stack : List String) :
    Renamed ρ known (satisfyAll name stack d) (satisfyAll (ρ.rename name) (stack.map ρ.rename) e) := by
  unfold Directory.satisfyAll
  rw [h.accessOf]
  split
  · exact h
  · dsimp only
    rw [← List.map_cons, h.openDeclarations, List.foldl_map]
    refine List.foldl_rel (r := Renamed ρ known) h fun m hm d' e' h' => h'.satisfy _ ?_
    obtain ⟨c, -, hm⟩ := List.mem_flatMap.1 (List.mem_filter.1 hm).1
    exact h.known_ref hm

theorem merge (h : Renamed ρ known d e) (w : Merge) : Renamed ρ known (merge d w) (merge e (ρ.merge w)) := by
  have hhas : e.hasOverrides (ρ.merge w).bridge = d.hasOverrides w.bridge := h.hasOverrides w.bridge
  rw [merge_eq, merge_eq, hhas]
  exact h.follow w.target _ w.bridge

/-! ### Bridges -/

theorem sameKey (h : Renamed ρ known d e) {m : Method} (hm : known m.ref) {bridge : MemberRef} (hbridge : known bridge) :
    ((ρ.ref bridge).key == (ρ.method m).key) = (bridge.key == m.key) := by
  rw [Bool.eq_iff_iff, beq_iff_eq, beq_iff_eq]
  exact h.apart bridge m.ref hbridge hm

theorem keepFor (h : Renamed ρ known d e) {m : Method} (hm : known m.ref) {bridge : MemberRef} (hbridge : known bridge) :
    Renamed ρ known (keepFor m d bridge) (keepFor (ρ.method m) e (ρ.ref bridge)) := by
  unfold Directory.keepFor
  rw [h.sameKey hm hbridge]
  split
  · exact h.keepStack bridge.owner
  · exact h

theorem passes (h : Renamed ρ known d e) (name : String) {m : Method} (hm : known m.ref) {bridge : MemberRef}
    (hbridge : known bridge) : passes (ρ.rename name) (ρ.method m) e (ρ.ref bridge) = passes name m d bridge := by
  have hstack : e.stackOf (ρ.ref bridge).owner = (d.stackOf bridge.owner).map ρ.rename := h.stackOf bridge.owner
  have hcontains : ((d.stackOf bridge.owner).map ρ.rename).contains (ρ.rename name) =
      (d.stackOf bridge.owner).contains name := by
    rw [Bool.eq_iff_iff, List.contains_iff_mem, List.contains_iff_mem, ClassRenaming.mem_map_rename]
  rw [Directory.passes, h.sameKey hm hbridge, hstack, hcontains, ← Directory.passes]

theorem takes (h : Renamed ρ known d e) (name : String) {m : Method} (hm : known m.ref) {bridge : MemberRef}
    (hbridge : known bridge) : takes (ρ.rename name) (ρ.method m) e (ρ.ref bridge) = takes name m d bridge := by
  rw [Directory.takes, h.passes name hm hbridge, h.hasOverrides, ← Directory.takes]

theorem delays (h : Renamed ρ known d e) (name : String) {m : Method} (hm : known m.ref) {bridge : MemberRef}
    (hbridge : known bridge) :
    delays (ρ.rename name) (ρ.method m) e (ρ.ref bridge) = (delays name m d bridge).map ρ.merge := by
  have howner : (ρ.ref bridge).owner = ρ.rename name ↔ bridge.owner = name := ClassRenaming.rename_inj
  have hresolved : e.isResolved (ρ.ref bridge).owner = d.isResolved bridge.owner := h.isResolved bridge.owner
  unfold Directory.delays
  rw [h.passes name hm hbridge, h.hasOverrides, hresolved]
  simp only [ne_eq, howner]
  split <;> rfl

end Renamed

namespace InTune

theorem linkBridge (h : InTune ρ known s t) (name : String) {m : Method} (hm : known m.ref) {bridge : MemberRef}
    (hbridge : known bridge) :
    InTune ρ known (linkBridge name m s bridge) (linkBridge (ρ.rename name) (ρ.method m) t (ρ.ref bridge)) := by
  rw [linkBridge_eq, linkBridge_eq, h.dir.takes name hm hbridge, h.dir.delays name hm hbridge]
  refine ⟨(h.dir.keepFor hm hbridge).follow m.ref _ bridge, ?_⟩
  dsimp only
  rw [h.waiting, List.map_append]

theorem linkBridges (h : InTune ρ known s t) (name : String) {m : Method} (hm : known m.ref) :
    InTune ρ known (linkBridges name s m) (linkBridges (ρ.rename name) t (ρ.method m)) := by
  have hcan : (ρ.method m).canOverride = m.canOverride := rfl
  have hhas : t.dir.hasOverrides (ρ.method m).ref = s.dir.hasOverrides m.ref := h.dir.hasOverrides m.ref
  have hbridges : t.dir.bridgesTo (ρ.method m).ref = (s.dir.bridgesTo m.ref).map ρ.ref := h.dir.bridgesTo m.ref
  unfold Directory.linkBridges
  rw [hcan, hhas]
  split
  · exact h
  · rw [hbridges, List.foldl_map]
    exact List.foldl_rel (r := InTune ρ known) h fun bridge hb s' t' h' =>
      h'.linkBridge name hm (h.dir.known_bridge _ (mem_bridgesTo.1 hb))

theorem merges (h : InTune ρ known s t) (name : String) :
    InTune ρ known
      { dir := (s.waiting.filter (·.owner == name)).foldl merge s.dir, waiting := s.waiting.filter (·.owner != name) }
      { dir := (t.waiting.filter (·.owner == ρ.rename name)).foldl merge t.dir
        waiting := t.waiting.filter (·.owner != ρ.rename name) } := by
  have howner : ∀ w : Merge, ((ρ.merge w).owner == ρ.rename name) = (w.owner == name) := fun w => by
    rw [Bool.eq_iff_iff, beq_iff_eq, beq_iff_eq]
    exact ClassRenaming.rename_inj
  have hnow : (·.owner == ρ.rename name) ∘ ρ.merge = (·.owner == name) := funext howner
  have hlater : (·.owner != ρ.rename name) ∘ ρ.merge = (·.owner != name) := funext fun w => congrArg Bool.not (howner w)
  rw [h.waiting, List.filter_map, List.filter_map, hnow, hlater, List.foldl_map]
  exact ⟨List.foldl_rel (r := Renamed ρ known) h.dir fun w _ d e h => h.merge w, rfl⟩

/-! ## One class, all classes -/

theorem linkedDirectly (h : InTune ρ known s t) (name : String) :
    InTune ρ known (linkedDirectly s name) (linkedDirectly t (ρ.rename name)) := by
  have hkept := h.dir.keepStack name
  refine ⟨?_, h.waiting⟩
  dsimp only [Directory.linkedDirectly]
  rw [hkept.methodsOf, hkept.stackOf, List.foldl_map]
  exact List.foldl_rel (r := Renamed ρ known) hkept fun m hm d e h => h.linkDirect _ (hkept.known_ref hm)

theorem linkedToBridges (h : InTune ρ known s t) (name : String) :
    InTune ρ known (linkedToBridges s name) (linkedToBridges t (ρ.rename name)) := by
  have hkept := h.dir.keepStack name
  unfold Directory.linkedToBridges
  rw [hkept.methodsOf, List.foldl_map]
  exact List.foldl_rel (r := InTune ρ known) (h.linkedDirectly name) fun m hm s t h =>
    h.linkBridges name (hkept.known_ref hm)

theorem satisfied (h : InTune ρ known s t) (name : String) :
    InTune ρ known (satisfied s name) (satisfied t (ρ.rename name)) := by
  have hlinked := h.linkedToBridges name
  refine ⟨?_, hlinked.waiting⟩
  dsimp only [Directory.satisfied]
  rw [(h.dir.keepStack name).stackOf]
  exact hlinked.dir.satisfyAll name _

/-- **Resolving a class keeps resolutions in tune.** -/
theorem resolveClass (h : InTune ρ known s t) (name : String) :
    InTune ρ known (resolveClass s name) (resolveClass t (ρ.rename name)) := by
  have hmerged : InTune ρ known (merged s name) (merged t (ρ.rename name)) := (h.satisfied name).merges name
  rw [resolveClass_eq, resolveClass_eq, h.dir.wasRead]
  split
  · exact ⟨hmerged.dir.markResolved name, hmerged.waiting⟩
  · exact ⟨h.dir.markResolved name, h.waiting⟩

end InTune

/-- **The classes under audit come in the order of their old names**, if the renaming keeps that order. -/
theorem Renamed.owned (h : Renamed ρ known d e)
    (horder : ∀ a ∈ d.owned, ∀ b ∈ d.owned, a < b → ρ.rename a < ρ.rename b) : e.owned = d.owned.map ρ.rename := by
  have hascending : (d.owned.map ρ.rename).Pairwise (· < ·) :=
    List.pairwise_map.2 ((ascending_owned d).imp_of_mem fun ha hb hab => horder _ ha _ hb hab)
  refine eq_of_ascending (fun _ _ => String.lt_asymm) (ascending_owned e) hascending fun n => ?_
  rw [mem_owned, List.mem_map]
  constructor
  · rintro ⟨hn, hown⟩
    obtain ⟨a, rfl⟩ := h.named n hn
    exact ⟨a, mem_owned.2 ⟨(h.mem_classes a).1 hn, (h.isOwned a).symm.trans hown⟩, rfl⟩
  · rintro ⟨a, ha, rfl⟩
    obtain ⟨ha, hown⟩ := mem_owned.1 ha
    exact ⟨(h.mem_classes a).2 ha, (h.isOwned a).trans hown⟩

theorem Renamed.resolutionOrder (h : Renamed ρ known d e)
    (horder : ∀ a ∈ d.owned, ∀ b ∈ d.owned, a < b → ρ.rename a < ρ.rename b) :
    e.prepare.resolutionOrder = d.prepare.resolutionOrder.map ρ.rename := by
  have hplan : e.owned.map Graph.Visit.enter = (d.owned.map .enter).map (Graph.Visit.map ρ.rename) := by
    rw [h.owned horder, List.map_map, List.map_map]
    rfl
  rw [resolutionOrder_prepare, resolutionOrder_prepare, Graph.visited, hplan, Graph.visited]
  refine Graph.depthFirst_map (fun _ => True) (fun _ _ _ _ he => ρ.injective _ _ he) (fun n _ => h.supertypesOf n)
    (fun _ _ _ _ => trivial) _ _ _ (fun n _ => ?_) fun _ _ => trivial
  rw [mem_unresolved, mem_unresolved, h.mem_classes, h.isResolved]

/-- **A resolution of renamed classes is the resolution of the classes, renamed.** -/
theorem Renamed.resolve (h : Renamed ρ known d e)
    (horder : ∀ a ∈ d.owned, ∀ b ∈ d.owned, a < b → ρ.rename a < ρ.rename b) :
    Renamed ρ known d.resolve e.resolve := by
  have hstart : InTune ρ known ⟨d.prepare, []⟩ ⟨e.prepare, []⟩ := ⟨h.prepare, rfl⟩
  unfold Directory.resolve
  dsimp only
  rw [h.resolutionOrder horder, List.foldl_map]
  exact (List.foldl_rel (r := InTune ρ known) hstart fun name _ _ _ h => h.resolveClass name).dir

end Directory

/-! ## Taking in and resolving -/

/-- **A renaming respects classes**: it keeps the order of those under audit and the order of the methods of each class,
and it gives one key to methods of classes, or called there, only where they have one. -/
structure ClassRenaming.Respects (ρ : ClassRenaming) (classes : List (ClassFile × Bool)) : Prop where
  audited : ∀ x ∈ classes, ∀ y ∈ classes, x.2 = true → y.2 = true → x.1.name < y.1.name →
    ρ.rename x.1.name < ρ.rename y.1.name
  members : ∀ x ∈ classes, ∀ m ∈ x.1.methods, ∀ m' ∈ x.1.methods,
    (ρ.ref (x.1.memberRefOf m)).key ≤ (ρ.ref (x.1.memberRefOf m')).key ↔
      (x.1.memberRefOf m).key ≤ (x.1.memberRefOf m').key
  keys : ∀ x ∈ classes, ∀ y ∈ classes, ∀ a ∈ methodRefs x.1, ∀ b ∈ methodRefs y.1,
    (ρ.ref a).key = (ρ.ref b).key ↔ a.key = b.key

/-- Class files with the classes in them renamed. -/
def ClassRenaming.classFiles (ρ : ClassRenaming) (classes : List (ClassFile × Bool)) : List (ClassFile × Bool) :=
  classes.map fun x => (ρ.classFile x.1, x.2)

namespace Directory

theorem renamed_takeAll {ρ : ClassRenaming} {classes : List (ClassFile × Bool)} (h : ρ.Respects classes) :
    Renamed ρ (fun r => ∃ x ∈ classes, r ∈ ClassRenaming.methodRefs x.1) (empty.takeAll classes)
      (empty.takeAll (ρ.classFiles classes)) := by
  have hempty := @renamed_empty ρ (fun r => ∃ x ∈ classes, r ∈ ClassRenaming.methodRefs x.1)
    fun a b ⟨x, hx, ha⟩ ⟨y, hy, hb⟩ => h.keys x hx y hy a ha b hb
  unfold Directory.takeAll ClassRenaming.classFiles
  rw [List.foldl_map]
  exact List.foldl_rel (r := Renamed ρ _) hempty fun x hx d e hde =>
    hde.takeIn (fun r hr => ⟨x, hx, hr⟩) (h.members x hx) x.2

/-- A class under audit is one of those that were taken in for it. -/
theorem exists_of_mem_owned {classes : List (ClassFile × Bool)} {n : String} (hn : n ∈ (empty.takeAll classes).owned) :
    ∃ x ∈ classes, x.2 = true ∧ x.1.name = n := by
  have howned := (mem_owned.1 hn).2
  rw [isOwned] at howned
  cases hd : (empty.takeAll classes).declaration? n with
  | none =>
    rw [hd] at howned
    cases howned
  | some decl =>
    obtain ⟨x, hx, hname, rfl⟩ := exists_of_declaration?_takeAll hd
    rw [hd] at howned
    exact ⟨x, hx, howned, hname⟩

/-- **The roots of the methods in renamed classes are the renamed roots**, whatever the names of the classes are, as long
as the renaming respects the classes. -/
theorem roots_renamed (ρ : ClassRenaming) (classes : List (ClassFile × Bool)) (h : ρ.Respects classes)
    (m r : MemberRef) :
    r ∈ (empty.takeAll (ρ.classFiles classes)).resolve.rootsOf (ρ.ref m) ↔
      ∃ x ∈ (empty.takeAll classes).resolve.rootsOf m, ρ.ref x = r := by
  have hresolved := (renamed_takeAll h).resolve fun a ha b hb hab => by
    obtain ⟨x, hx, hown, rfl⟩ := exists_of_mem_owned ha
    obtain ⟨y, hy, hown', rfl⟩ := exists_of_mem_owned hb
    exact h.audited x hx y hy hown hown' hab
  have hkept : ∀ (classes : List (ClassFile × Bool)) (m : MemberRef),
      (empty.takeAll classes).resolve.rootsOf m = (empty.takeAll classes).resolve.roots m := fun classes m => by
    have hprepared : (empty.takeAll classes).Prepared (empty.takeAll classes).resolve :=
      prepared_resolve (sound_empty.takeAll classes)
    rw [rootsOf, hprepared.keptRoots, ExtTreeMap.getD_empty]
  rw [hkept, hkept, mem_roots, hresolved.rootSet, ClassRenaming.mem_refs]
  exact exists_congr fun x => and_congr_left fun _ => mem_roots.symm

end Directory

/-! ## Two names that change places -/

/-- The renaming that lets two classes change their names. -/
def ClassRenaming.swap (a b : String) (ha : IsClassName a) (hb : IsClassName b) (ha' : a ∉ factoryClasses)
    (hb' : b ∉ factoryClasses) : ClassRenaming where
  rename name := if name = a then b else if name = b then a else name
  injective := by grind
  isClassName name h := by
    split
    · exact hb
    · split
      · exact ha
      · exact h
  factory name h := by
    have hne : name ≠ a := fun he => ha' (he ▸ h)
    have hne' : name ≠ b := fun he => hb' (he ▸ h)
    rw [if_neg hne, if_neg hne']

/-- The adapter `A` of the family gets another name that comes before those of the other classes. -/
def early : ClassRenaming :=
  .swap "A" "AA" ⟨by decide, by decide⟩ ⟨by decide, by decide⟩ (by decide) (by decide)

/-- The adapter `A` of the family gets a name that comes after that of its sibling `B`. -/
def late : ClassRenaming :=
  .swap "A" "Q" ⟨by decide, by decide⟩ ⟨by decide, by decide⟩ (by decide) (by decide)

namespace Directory

theorem key_family (ρ : ClassRenaming) {name : String} {x : ClassFile × Bool} (hx : x ∈ family name) {a : MemberRef}
    (ha : a ∈ ClassRenaming.methodRefs x.1) : a.key = "m()V" ∧ (ρ.ref a).key = "m()V" := by
  have hrefs : ∀ x ∈ family name, ∀ a ∈ ClassRenaming.methodRefs x.1, a.name = "m" ∧ a.descriptor = "()V" := by
    simp [family, ClassRenaming.methodRefs, withMethod, asksForMethod, adapter, ClassFile.Member.instructions,
      ClassRenaming.calledBy, memberRefOf]
  have hparse : MethodType.parse? "()V" = some ⟨[], .void⟩ := by cbv
  have hfixed : ρ.descriptor "()V" = "()V" := ClassRenaming.descriptor_of_fixed hparse rfl
  have htext : "m" ++ "()V" = "m()V" := by decide
  obtain ⟨hname, hdesc⟩ := hrefs x hx a ha
  dsimp only [MemberRef.key, ClassRenaming.ref]
  rw [hname, hdesc, hfixed]
  exact ⟨htext, htext⟩

/-- All methods of a family have one key, so only the order of its classes matters. -/
theorem respects_family {ρ : ClassRenaming} {name : String} (h : ∀ x ∈ family name, ∀ y ∈ family name,
    x.2 = true → y.2 = true → x.1.name < y.1.name → ρ.rename x.1.name < ρ.rename y.1.name) :
    ρ.Respects (family name) where
  audited := h
  members x hx m hm m' hm' := by
    have hkey := key_family ρ hx (List.mem_append_left _ (List.mem_map_of_mem hm))
    have hkey' := key_family ρ hx (List.mem_append_left _ (List.mem_map_of_mem hm'))
    rw [hkey.1, hkey.2, hkey'.1, hkey'.2]
  keys x hx y hy a ha b hb := by
    rw [(key_family ρ hx ha).1, (key_family ρ hx ha).2, (key_family ρ hy hb).1, (key_family ρ hy hb).2]

theorem rootsOf_family :
    (resolvedFamily "A").rootsOf ⟨"B", "m", "()V"⟩ = [⟨"I", "m", "()V"⟩, ⟨"Z", "m", "()V"⟩] := by
  cbv

/-- Where the adapter still comes before its sibling, that has the root that the adapter gave their superclass. -/
theorem roots_renamed_early :
    early.Respects (family "A") ∧ ⟨"I", "m", "()V"⟩ ∈
      (empty.takeAll (early.classFiles (family "A"))).resolve.rootsOf (early.ref ⟨"B", "m", "()V"⟩) := by
  have hrespects : early.Respects (family "A") := respects_family (by decide)
  have hroot : (⟨"I", "m", "()V"⟩ : MemberRef) ∈ (resolvedFamily "A").rootsOf ⟨"B", "m", "()V"⟩ :=
    List.mem_of_mem_head? (congrArg List.head? rootsOf_family)
  exact ⟨hrespects, (roots_renamed early (family "A") hrespects _ _).2 ⟨_, hroot, by cbv⟩⟩

theorem classFiles_late : late.classFiles (family "A") = family "Q" := by
  cbv

theorem ref_late : late.ref ⟨"B", "m", "()V"⟩ = ⟨"B", "m", "()V"⟩ ∧ late.ref ⟨"I", "m", "()V"⟩ = ⟨"I", "m", "()V"⟩ := by
  cbv

theorem rootsOf_family_late : (resolvedFamily "Q").rootsOf ⟨"B", "m", "()V"⟩ = [⟨"Z", "m", "()V"⟩] := by
  cbv

/-- **The names of classes can make a difference**: where the adapter comes after its sibling, that has taken over the
roots of their superclass before the adapter gives the superclass another. -/
theorem roots_by_name :
    (empty.takeAll (family "A")).SupertypesAcyclic ∧
      ¬ ∀ m r, r ∈ (empty.takeAll (late.classFiles (family "A"))).resolve.rootsOf (late.ref m) ↔
        ∃ x ∈ (empty.takeAll (family "A")).resolve.rootsOf m, late.ref x = r := by
  refine ⟨(acyclic_iff (sound_empty.takeAll _)).2 (by cbv), fun h => ?_⟩
  have hroot : (⟨"I", "m", "()V"⟩ : MemberRef) ∈ (resolvedFamily "A").rootsOf ⟨"B", "m", "()V"⟩ :=
    List.mem_of_mem_head? (congrArg List.head? rootsOf_family)
  have hstill := (h ⟨"B", "m", "()V"⟩ ⟨"I", "m", "()V"⟩).2 ⟨_, hroot, ref_late.2⟩
  rw [ref_late.1, classFiles_late, ← resolvedFamily, rootsOf_family_late] at hstill
  exact absurd (List.mem_singleton.1 hstill) (by decide)

end Directory
end RenameAudit
