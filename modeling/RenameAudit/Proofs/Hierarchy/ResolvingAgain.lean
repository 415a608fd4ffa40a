import RenameAudit.Proofs.Hierarchy.Bridges
import RenameAudit.Proofs.Hierarchy.LaterClasses
/-!
# Proofs.Hierarchy.ResolvingAgain — a resolution after more classes were taken in

A resolution leaves alone the classes that an earlier one has resolved, also where classes that were taken in since would
have changed what they override.  `LeavesAlone d e` says that what `e` has read since `d` changes nothing there: it has no
declaration for an ancestor of a class under audit, no class under audit that would have come before one of those, and no
audited method that forwards to one of theirs.

Then the second resolution ends with the overrides of one resolution of all classes (`overrides_resolve_again`): that one
resolves what was under audit first (`resolutionOrder_left`), in agreement with the first of the two resolutions, and then
the two resolve the rest in agreement.
-/
namespace RenameAudit
namespace Directory

open Std Relation ClassFile

/-! ## Marks -/

/-- A class that is resolved stays resolved as long as it is not read. -/
theorem isResolved_takeIn_of {d : Directory} {c : ClassFile} {owned : Bool} {name : String}
    (hread : (d.takeIn c owned).wasRead name = true → d.wasRead name = true) (h : d.isResolved name = true) :
    (d.takeIn c owned).isResolved name = true := by
  cases hr : d.refusal? c with
  | some fault => rwa [takeIn_of_refused owned hr]
  | none =>
    have hn : name ≠ c.name := fun hn => by
      have hnow : (d.takeIn c owned).wasRead name = true := by
        rw [wasRead, declaration?_takeIn owned hr, if_pos hn]
        rfl
      rw [hn, (refusal?_eq_none.1 hr).1] at hread
      cases hread (hn ▸ hnow)
    rw [isResolved] at h
    rw [isResolved, getElem?_takeIn owned hr, if_neg hn]
    split
    · cases he : d.classes[name]? with
      | none =>
        rw [he] at h
        cases h
      | some e => rwa [he] at h
    · exact h

theorem isResolved_takeAll_of {d : Directory} {classes : List (ClassFile × Bool)} {name : String}
    (hread : (d.takeAll classes).wasRead name = true → d.wasRead name = true) (h : d.isResolved name = true) :
    (d.takeAll classes).isResolved name = true := by
  induction classes generalizing d with
  | nil => exact h
  | cons c rest ih =>
    have hrest := enlarges_takeAll (d.takeIn c.1 c.2) rest
    have hone := enlarges_takeIn d c.1 c.2
    exact ih (fun hend => hone.wasRead (hread hend)) (isResolved_takeIn_of (fun hnow => hread (hrest.wasRead hnow)) h)

theorem takeWhile_congr {α : Type} {p q : α → Bool} {items : List α} (h : ∀ x ∈ items, p x = q x) :
    items.takeWhile p = items.takeWhile q := by
  induction items with
  | nil => rfl
  | cons x rest ih =>
    rw [List.takeWhile_cons, List.takeWhile_cons, h x List.mem_cons_self,
      ih fun y hy => h y (List.mem_cons_of_mem _ hy)]

/-! ## What is read later and what was under audit -/

/-- A class is under audit, or an ancestor of one that is. -/
def Audited (d : Directory) (name : String) : Prop :=
  ∃ o ∈ d.owned, name ∈ o :: d.ancestors o

/-- **What was read since leaves alone what was under audit**: it has no declaration for an ancestor of a class that was,
its classes under audit come after those, and none of its forwarding methods that are audited forwards to one of theirs. -/
structure LeavesAlone (d e : Directory) : Prop where
  supertypes : ∀ name, d.Audited name → e.wasRead name = true → d.wasRead name = true
  order : ∀ o ∈ d.owned, ∀ o' ∈ e.owned, o' ∉ d.owned → o < o'
  bridges : ∀ p ∈ e.findBridges, d.Audited p.2.owner → e.Audited p.1.owner → d.Audited p.1.owner

theorem Audited.reach {d : Directory} (hs : d.Sound) {c a : String} (hc : d.Audited c) (ha : ReflTransGen d.Extends c a) :
    d.Audited a := by
  obtain ⟨o, ho, hc⟩ := hc
  exact ⟨o, ho, (mem_scope hs).2 (((mem_scope hs).1 hc).trans ha)⟩

theorem Audited.ancestor {d : Directory} (hs : d.Sound) {c a : String} (hc : d.Audited c) (ha : a ∈ d.ancestors c) :
    d.Audited a :=
  hc.reach hs ((mem_scope hs).1 (List.mem_cons_of_mem c ha))

theorem Audited.known {d : Directory} (hs : d.Sound) {c : String} (hc : d.Audited c) : c ∈ d.classes := by
  obtain ⟨o, ho, hc⟩ := hc
  have ho : o ∈ d.classes := ExtTreeMap.mem_keys.1 (List.mem_filter.1 ho).1
  rcases reflTransGen_iff_eq_or_transGen.1 ((mem_scope hs).1 hc) with rfl | hp
  · exact ho
  · obtain ⟨b, -, hb⟩ := TransGen.tail'_iff.1 hp
    exact hs.supertypes_known b c hb

/-- **Where nothing is resolved yet, a resolution comes to the audited classes.** -/
theorem mem_resolutionOrder_iff_audited {d : Directory} (hs : d.Sound) (hnew : ∀ name, d.isResolved name = false)
    {name : String} : name ∈ d.prepare.resolutionOrder ↔ d.Audited name := by
  constructor
  · intro h
    obtain ⟨o, ho, hp⟩ := owner_of_resolved h
    exact ⟨o, ho, (mem_scope hs).2 hp⟩
  · rintro ⟨o, ho, hname⟩
    exact mem_resolutionOrder_of_unresolved hs hnew ho hname

section LeftAlone

variable {d e : Directory} (hs : d.Sound) (hlarge : d.Enlarges e) (hleft : d.LeavesAlone e)

include hs hlarge in
theorem known_left {c : String} (hc : d.Audited c) : c ∈ d.classes ↔ c ∈ e.classes :=
  iff_of_true (hc.known hs) (hlarge.known c (hc.known hs))

include hlarge hleft

theorem declaration?_left {c : String} (hc : d.Audited c) : e.declaration? c = d.declaration? c :=
  hlarge.declaration?_eq (hleft.supertypes c hc)

theorem supertypesOf_left {c : String} (hc : d.Audited c) : e.supertypesOf c = d.supertypesOf c := by
  rw [supertypesOf, declaration?_left hlarge hleft hc, ← supertypesOf]

theorem superclassOf?_left {c : String} (hc : d.Audited c) : e.superclassOf? c = d.superclassOf? c := by
  rw [superclassOf?, declaration?_left hlarge hleft hc, ← superclassOf?]

theorem methodByKey?_left {c : String} (hc : d.Audited c) (key : String) : e.methodByKey? c key = d.methodByKey? c key := by
  rw [methodByKey?, declaration?_left hlarge hleft hc, ← methodByKey?]

include hs

theorem ancestors_left {c : String} (hc : d.Audited c) : e.ancestors c = d.ancestors c := by
  rw [ancestors, ancestors, supertypesOf_left hlarge hleft hc]
  refine (Graph.breadthFirst_within d.Audited (fun a ha => supertypesOf_left hlarge hleft ha)
    (fun a ha b hb => ha.reach hs (.single hb)) _ _ _ (fun a ha => ?_) fun a ha => hc.reach hs (.single ha)).symm
  rw [mem_erase_iff, mem_erase_iff, known_left hs hlarge ha]

theorem readSuperclasses_left {c : String} (hc : d.Audited c) : e.readSuperclasses c = d.readSuperclasses c := by
  have hclosed : ∀ a, d.Audited a → ∀ b ∈ (d.superclassOf? a).toList, d.Audited b := fun a ha b hb =>
    ha.reach hs (.single (extends_superclass (Option.mem_toList.1 hb)))
  have hread : ∀ a, d.Audited a → e.wasRead a = d.wasRead a := fun a ha => by
    rw [wasRead, declaration?_left hlarge hleft ha, ← wasRead]
  have hsearch : Graph.breadthFirst (fun n => (e.superclassOf? n).toList) e.classes [c] =
      Graph.breadthFirst (fun n => (d.superclassOf? n).toList) d.classes [c] := by
    refine (Graph.breadthFirst_within d.Audited (fun a ha => ?_) hclosed _ _ _
      (fun a ha => known_left hs hlarge ha) fun a ha => List.mem_singleton.1 ha ▸ hc).symm
    rw [superclassOf?_left hlarge hleft ha]
  rw [readSuperclasses, readSuperclasses, hsearch]
  refine takeWhile_congr fun a ha => hread a ?_
  obtain ⟨b, hb, hp⟩ := ((Graph.mem_breadthFirst _ _ _ _).1 ha).path
  obtain rfl := List.mem_singleton.1 hb
  exact hc.reach hs (ReflTransGen.mono (fun c s hs => extends_superclass (Option.mem_toList.1 hs)) _ _ hp)

theorem bridgeTarget?_left {bridge : Method} (hb : d.Audited bridge.ref.owner) (named : MemberRef) :
    e.bridgeTarget? bridge named = d.bridgeTarget? bridge named := by
  unfold bridgeTarget?
  dsimp only
  rw [methodByKey?_left hlarge hleft hb, superclassOf?_left hlarge hleft hb]
  split
  · rfl
  · split
    · rename_i hsuper
      have hnamed : d.Audited named.owner := hb.reach hs (.single (extends_superclass hsuper))
      rw [readSuperclasses_left hs hlarge hleft hnamed]
      exact findSome?_congr fun c hc =>
        methodByKey?_left hlarge hleft (hnamed.reach hs (reach_of_readSuperclasses hc)) _
    · rfl

/-- **What is read later does not change the bridges within what was under audit.** -/
theorem findBridges_left (he : e.Sound) {inside : String → Bool} (hinside : ∀ c, inside c = true ↔ d.Audited c) :
    e.findBridges.filter (isWithin inside) = d.findBridges.filter (isWithin inside) := by
  obtain ⟨more, hmore, hnew⟩ := hlarge.ingested
  have hnone : ∀ (f : Directory) (m : Method), ¬ d.Audited m.ref.owner →
      (f.bridgeOf? m).filter (isWithin inside) = none := fun f m hm => by
    refine Option.filter_eq_none_iff.2 fun p hp hin => hm ((hinside _).1 ?_)
    rw [isWithin, Bool.and_eq_true, fst_of_bridgeOf? hp] at hin
    exact hin.1
  have hsame : ∀ m : Method, (e.bridgeOf? m).filter (isWithin inside) = (d.bridgeOf? m).filter (isWithin inside) :=
    fun m => by
      by_cases hm : d.Audited m.ref.owner
      · have htarget : e.bridgeTarget? m = d.bridgeTarget? m := funext (bridgeTarget?_left hs hlarge hleft hm)
        rw [bridgeOf?, bridgeOf?, htarget]
      · rw [hnone e m hm, hnone d m hm]
  have hold : ∀ name ∈ d.ingested, ((e.declaration? name).map (·.methods)).getD [] =
      ((d.declaration? name).map (·.methods)).getD [] := fun name hname => by
    obtain ⟨decl, hdecl⟩ := Option.isSome_iff_exists.1 ((hs.mem_ingested name).1 hname)
    rw [hdecl, hlarge.declaration name decl hdecl]
  have hlater : (more.flatMap fun name => ((e.declaration? name).map (·.methods)).getD []).filterMap
      (fun m => (e.bridgeOf? m).filter (isWithin inside)) = [] := by
    refine List.filterMap_eq_nil_iff.2 fun m hm => hnone e m fun haudited => ?_
    obtain ⟨name, hname, hm⟩ := List.mem_flatMap.1 hm
    have hread : e.wasRead name = true :=
      (he.mem_ingested name).1 (hmore ▸ List.mem_append_right _ hname)
    obtain ⟨decl, hdecl⟩ := Option.isSome_iff_exists.1 hread
    rw [hdecl] at hm
    have howner : m.ref.owner = name := (he.fits name decl hdecl).owner m hm
    have hread' := hleft.supertypes name (howner ▸ haudited) hread
    rw [hnew name hname] at hread'
    cases hread'
  rw [findBridges_eq, findBridges_eq, List.filter_filterMap, List.filter_filterMap, methods, methods, hmore,
    List.flatMap_append, List.filterMap_append, hlater, List.append_nil, List.flatMap_congr hold]
  exact List.filterMap_congr fun m _ => hsame m

end LeftAlone

/-! ## What waits -/

theorem mem_waiting_linkBridges {name : String} {s : Progress} {m : Method} {w : Merge}
    (hw : w ∈ (linkBridges name s m).waiting) :
    w ∈ s.waiting ∨ (w.bridge ∈ s.dir.bridgesTo m.ref ∧ w.owner = w.bridge.owner ∧ w.target = m.ref) := by
  unfold linkBridges at hw
  split at hw
  · exact .inl hw
  · refine List.foldlRecOn (motive := fun t : Progress => ∀ w ∈ t.waiting, w ∈ s.waiting ∨
      (w.bridge ∈ s.dir.bridgesTo m.ref ∧ w.owner = w.bridge.owner ∧ w.target = m.ref)) _ _ (fun w hw => .inl hw) ?_ w hw
    intro t ht bridge hbridge w hw
    rw [linkBridge_eq, List.mem_append] at hw
    rcases hw with hw | hw
    · exact ht w hw
    · unfold delays at hw
      split at hw
      · obtain rfl := List.mem_singleton.1 hw
        exact .inr ⟨hbridge, rfl, rfl⟩
      · cases hw

/-- **What comes to wait while a class is resolved** is for a bridge to a method of that class. -/
theorem mem_waiting_resolveClass {start : Directory} (hs : start.Sound) {s : Progress} (hu : Underway start s)
    {name : String} (hname : name ∈ start.prepare.resolutionOrder) {w : Merge}
    (hw : w ∈ (resolveClass s name).waiting) :
    w ∈ s.waiting ∨ ((w.bridge, w.target) ∈ start.findBridges ∧ w.owner = w.bridge.owner ∧ w.target.owner = name) := by
  have hlinked : Underway start (linkedToBridges s name) ∧ ∀ w ∈ (linkedToBridges s name).waiting, w ∈ s.waiting ∨
      ((w.bridge, w.target) ∈ start.findBridges ∧ w.owner = w.bridge.owner ∧ w.target.owner = name) := by
    have hsame := ((hu.keepStack name).prepared hs).same
    unfold linkedToBridges
    refine List.foldlRecOn (motive := fun t : Progress => Underway start t ∧ ∀ w ∈ t.waiting, w ∈ s.waiting ∨
      ((w.bridge, w.target) ∈ start.findBridges ∧ w.owner = w.bridge.owner ∧ w.target.owner = name)) _ _
      ⟨underway_linkedDirectly hs hu hname, fun w hw => .inl hw⟩ ?_
    intro t ⟨ht, hwaiting⟩ m hm
    have hm : m ∈ start.methodsOf name := hsame.methodsOf name ▸ hm
    refine ⟨underway_linkBridges hs ht hname hm, fun w hw => ?_⟩
    rcases mem_waiting_linkBridges hw with hw | ⟨hbridge, howner, htarget⟩
    · exact hwaiting w hw
    · rw [mem_bridgesTo, (ht.prepared hs).bridges] at hbridge
      exact .inr ⟨htarget ▸ hbridge, howner, htarget ▸ hs.owner hm⟩
  rw [resolveClass_eq] at hw
  split at hw
  · exact hlinked.2 w (List.mem_filter.1 hw).1
  · exact .inl hw

/-! ## Two resolutions -/

section Again

variable {d e g : Directory} (hs : d.Sound) (hlarge : d.Enlarges e) (hleft : d.LeavesAlone e)

include hlarge hleft in
/-- The classes under audit come in the order in which they were read. -/
theorem owned_left : e.owned = d.owned ++ e.owned.filter (fun o => !d.owned.contains o) := by
  have hsub : ∀ o ∈ d.owned, o ∈ e.owned := fun o ho => by
    obtain ⟨hknown, howned⟩ := mem_owned.1 ho
    refine mem_owned.2 ⟨hlarge.known o hknown, ?_⟩
    rw [isOwned] at howned ⊢
    cases hd : d.declaration? o with
    | none =>
      rw [hd] at howned
      cases howned
    | some decl => rwa [hlarge.declaration o decl hd, ← hd]
  refine eq_of_ascending (fun _ _ => String.lt_asymm) (ascending_owned e) (List.pairwise_append.2 ⟨ascending_owned d,
    (ascending_owned e).filter _, fun o ho o' ho' => ?_⟩) fun o => ?_
  · obtain ⟨ho', hnot⟩ := List.mem_filter.1 ho'
    exact hleft.order o ho o' ho' (by simpa using hnot)
  · rw [List.mem_append, List.mem_filter]
    by_cases ho : o ∈ d.owned
    · exact iff_of_true (hsub o ho) (.inl ho)
    · simp [ho]

variable (hnew : ∀ name, d.isResolved name = false) (hnew' : ∀ name, e.isResolved name = false)
  (hsame : e.SameClasses g) (hmarks : ∀ name ∈ e.classes, g.isResolved name = d.prepare.resolutionOrder.contains name)

include hs hlarge hleft hnew hnew' hsame hmarks

/-- **What was under audit is resolved first**, in the order of old, and then what is left. -/
theorem resolutionOrder_left :
    e.prepare.resolutionOrder = d.prepare.resolutionOrder ++ g.prepare.resolutionOrder := by
  have hfirst : Graph.visited e.supertypesOf (e.prepare.classes.filter fun _ e => !e.resolved) d.owned =
      d.prepare.resolutionOrder := by
    rw [resolutionOrder_prepare]
    refine (Graph.depthFirst_within d.Audited (fun a ha => supertypesOf_left hlarge hleft ha)
      (fun a ha b hb => ha.reach hs (.single hb)) _ _ _ (fun a ha => ?_) fun a ha => ?_).symm
    · rw [mem_unresolved, mem_unresolved, hnew, hnew', known_left hs hlarge ha]
    · obtain ⟨o, ho, he⟩ := List.mem_map.1 ha
      cases he
      exact ⟨a, ho, List.mem_cons_self⟩
  have hskip : Graph.visited e.supertypesOf (g.prepare.classes.filter fun _ e => !e.resolved) d.owned = [] := by
    refine Graph.visited_of_outside _ fun o ho hin => ?_
    obtain ⟨hknown, hmark⟩ := (mem_unresolved g o).1 hin
    have haudited : o ∈ d.prepare.resolutionOrder :=
      (mem_resolutionOrder_iff_audited hs hnew).2 ⟨o, ho, List.mem_cons_self⟩
    rw [hmarks o ((hsame.known o).1 hknown), List.contains_iff_mem.2 haudited] at hmark
    cases hmark
  rw [resolutionOrder_prepare e, resolutionOrder_prepare g, hsame.supertypesOf, hsame.owned, owned_left hlarge hleft,
    Graph.visited, Graph.visited, List.map_append, Graph.depthFirst_append, Graph.depthFirst_append, hfirst, hskip,
    List.nil_append]
  congr 1
  refine Graph.depthFirst_congr _ _ _ _ fun a => ?_
  rw [Graph.mem_without, Graph.mem_without, mem_unresolved, mem_unresolved, hsame.known, hnew' a]
  by_cases ha : a ∈ e.classes
  · simp [ha, hmarks a ha]
  · simp [ha]

omit hsame hmarks in
/-- **At the start the two resolutions agree on what was under audit.** -/
theorem agree_prepare (he : e.Sound) (hover : d.overrides = ∅) (hover' : e.overrides = ∅) :
    Agree d.prepare.resolutionOrder.contains d.prepare.resolutionOrder.contains ⟨d.prepare, []⟩ ⟨e.prepare, []⟩ := by
  have hinside : ∀ c, d.prepare.resolutionOrder.contains c = true ↔ d.Audited c := fun c => by
    rw [List.contains_iff_mem, mem_resolutionOrder_iff_audited hs hnew]
  have hd := prepared_prepare d
  have hd' := prepared_prepare e
  have hempty : d.prepare.overrides = ∅ := hover
  have hempty' : e.prepare.overrides = ∅ := hover'
  refine ⟨⟨fun c hc a ha => ?_, fun c _ m hm => (hd.sound hs).owner hm, fun m hm => ?_, fun w hw => ?_⟩, fun c hc => ?_,
    fun c hc => ?_, findBridges_left hs hlarge hleft he hinside, hempty'.trans hempty.symm, rfl⟩
  · rw [hd.stackOf] at ha
    exact (hinside a).2 (((hinside c).1 hc).ancestor hs ha)
  · rw [hempty] at hm
    exact absurd hm ExtTreeMap.not_mem_empty
  · exact absurd hw List.not_mem_nil
  · have haudited := (hinside c).1 hc
    refine record?_congr ?_ ?_ ?_
    · rw [hd'.same.known, hd.same.known, known_left hs hlarge haudited]
    · rw [hd'.same.declaration, hd.same.declaration, declaration?_left hlarge hleft haudited]
    · rw [isResolved_prepare, isResolved_prepare, hnew, hnew']
  · rw [hd'.stackOf, hd.stackOf, ancestors_left hs hlarge hleft ((hinside c).1 hc)]

/-- The first part of the one resolution, with what waits after it. -/
theorem underway_first (he : e.Sound) :
    let s := d.prepare.resolutionOrder.foldl resolveClass ⟨e.prepare, []⟩
    Underway e s ∧ ∀ w ∈ s.waiting,
      (w.bridge, w.target) ∈ e.findBridges ∧ w.owner = w.bridge.owner ∧ d.Audited w.target.owner := by
  refine List.foldlRecOn (motive := fun t : Progress => Underway e t ∧ ∀ w ∈ t.waiting,
    (w.bridge, w.target) ∈ e.findBridges ∧ w.owner = w.bridge.owner ∧ d.Audited w.target.owner) _ _
    ⟨.begin, fun w hw => absurd hw List.not_mem_nil⟩ ?_
  intro t ⟨ht, hwaiting⟩ name hname
  have hname' : name ∈ e.prepare.resolutionOrder :=
    resolutionOrder_left hs hlarge hleft hnew hnew' hsame hmarks ▸ List.mem_append_left _ hname
  refine ⟨underway_resolveClass he ht hname', fun w hw => ?_⟩
  rcases mem_waiting_resolveClass he ht hname' hw with hw | ⟨hbridge, howner, htarget⟩
  · exact hwaiting w hw
  · exact ⟨hbridge, howner, (mem_resolutionOrder_iff_audited hs hnew).1 (htarget ▸ hname)⟩

/-- What waits after the first part does not wait for a class of the second. -/
theorem not_waiting_again (he : e.Sound) {w : Merge}
    (hw : w ∈ (d.prepare.resolutionOrder.foldl resolveClass ⟨e.prepare, []⟩).waiting) :
    w.owner ∉ g.prepare.resolutionOrder := by
  intro hlater
  obtain ⟨hbridge, howner, htarget⟩ := (underway_first hs hlarge hleft hnew hnew' hsame hmarks he).2 w hw
  have hin : w.owner ∈ e.prepare.resolutionOrder :=
    resolutionOrder_left hs hlarge hleft hnew hnew' hsame hmarks ▸ List.mem_append_right _ hlater
  have haudited : d.Audited w.owner := by
    rw [howner] at hin ⊢
    exact hleft.bridges _ hbridge htarget ((mem_resolutionOrder_iff_audited he hnew').1 hin)
  -- a class of the second part is not marked yet, and those under audit are
  obtain ⟨hknown, hmark⟩ := ((mem_resolutionOrder g w.owner).1 hlater).is_inside
  rw [hmarks w.owner ((hsame.known w.owner).1 hknown),
    List.contains_iff_mem.2 ((mem_resolutionOrder_iff_audited hs hnew).2 haudited)] at hmark
  cases hmark

/-- **The second of the two resolutions starts in agreement with the one resolution after its first part.** -/
theorem agree_again (he : e.Sound) (hover : d.overrides = ∅) (hover' : e.overrides = ∅)
    (hkept : g.overrides = d.resolve.overrides) :
    Agree (fun _ => true) g.prepare.resolutionOrder.contains ⟨g.prepare, []⟩
      (d.prepare.resolutionOrder.foldl resolveClass ⟨e.prepare, []⟩) := by
  have hfirst := (agree_prepare hs hlarge hleft hnew hnew' he hover hover').resolveClasses (fun _ hc => hc)
    d.prepare.resolutionOrder fun c hc => List.contains_iff_mem.2 hc
  have hprepared := (underway_first hs hlarge hleft hnew hnew' hsame hmarks he).1.prepared he
  have hg := prepared_prepare g
  refine ⟨⟨fun _ _ _ _ => rfl, fun c _ m hm => (hg.sound (he.of_sameClasses hsame)).owner hm, fun _ _ => rfl,
    fun _ _ _ => rfl⟩, fun c _ => record?_congr ?_ ?_ ?_, fun c _ => ?_, ?_, ?_, ?_⟩
  · rw [hprepared.same.known, hg.same.known, hsame.known]
  · rw [hprepared.same.declaration, hg.same.declaration, hsame.declaration]
  · rw [isResolved_prepare]
    by_cases hc : c ∈ e.classes
    · rw [isResolved_resolveClasses _ _ _ ((sameClasses_prepare e).known c |>.2 hc), hmarks c hc]
      dsimp only
      rw [isResolved_prepare, hnew' c, Bool.false_or]
    · rw [isResolved_of_unknown fun hin => hc ((hprepared.same.known c).1 hin),
        isResolved_of_unknown fun hin => hc ((hsame.known c).1 hin)]
  · rw [hprepared.stackOf, hg.stackOf, hsame.ancestors]
  · rw [hprepared.bridges, hg.bridges, hsame.findBridges]
  · exact hfirst.overrides.trans hkept.symm
  · exact List.filter_eq_nil_iff.2 fun w hw hlater =>
      not_waiting_again hs hlarge hleft hnew hnew' hsame hmarks he hw (List.contains_iff_mem.1 hlater)

/-- **Where what was read since leaves alone what was under audit, two resolutions come to the overrides of one.** -/
theorem overrides_resolve_left (he : e.Sound) (hover : d.overrides = ∅) (hover' : e.overrides = ∅)
    (hkept : g.overrides = d.resolve.overrides) : g.resolve.overrides = e.resolve.overrides := by
  have hend := (agree_again hs hlarge hleft hnew hnew' hsame hmarks he hover hover' hkept).resolveClasses
    (fun _ _ => rfl) g.prepare.resolutionOrder fun c hc => List.contains_iff_mem.2 hc
  have hresolve : e.resolve = (g.prepare.resolutionOrder.foldl resolveClass
      (d.prepare.resolutionOrder.foldl resolveClass ⟨e.prepare, []⟩)).dir := by
    rw [← List.foldl_append, ← resolutionOrder_left hs hlarge hleft hnew hnew' hsame hmarks]
    rfl
  rw [hresolve]
  exact hend.overrides.symm

end Again

/-- The classes that a resolution has marked are those that it comes to. -/
theorem isResolved_resolve {d : Directory} (hs : d.Sound) (hnew : ∀ name, d.isResolved name = false) (name : String) :
    d.resolve.isResolved name = d.prepare.resolutionOrder.contains name := by
  by_cases hknown : name ∈ d.classes
  · have hresolve := isResolved_resolveClasses d.prepare.resolutionOrder ⟨d.prepare, []⟩ name
      (((sameClasses_prepare d).known name).2 hknown)
    dsimp only at hresolve
    rw [isResolved_prepare, hnew, Bool.false_or] at hresolve
    exact hresolve
  · rw [isResolved_of_unknown fun hin => hknown (((prepared_resolve hs).same.known name).1 hin)]
    refine (Bool.eq_false_iff.2 fun hin => hknown ?_).symm
    exact ((mem_resolutionOrder_iff_audited hs hnew).1 (List.contains_iff_mem.1 hin)).known hs

/-- The classes that a resolution has marked, after more classes were taken in. -/
theorem isResolved_resolve_takeAll {d : Directory} (hs : d.Sound) (hnew : ∀ name, d.isResolved name = false)
    {later : List (ClassFile × Bool)} (hleft : d.LeavesAlone (d.takeAll later)) (name : String) :
    (d.resolve.takeAll later).isResolved name = d.prepare.resolutionOrder.contains name := by
  have hprepared := prepared_resolve hs
  have hmark := isResolved_resolve hs hnew name
  cases hin : d.prepare.resolutionOrder.contains name with
  | false => exact isResolved_takeAll later (hmark.trans hin)
  | true =>
    have haudited := (mem_resolutionOrder_iff_audited hs hnew).1 (List.contains_iff_mem.1 hin)
    refine isResolved_takeAll_of (fun hread => ?_) (hmark.trans hin)
    rw [hprepared.same.wasRead]
    rw [(hprepared.same.takeAll later).wasRead] at hread
    exact hleft.supertypes name haudited hread

/-- **A resolution after more classes were taken in comes to the overrides of a resolution of all classes**, where the later
ones leave alone what was under audit. -/
theorem overrides_resolve_again {d : Directory} (hs : d.Sound) (hnew : ∀ name, d.isResolved name = false)
    (hover : d.overrides = ∅) (later : List (ClassFile × Bool)) (hleft : d.LeavesAlone (d.takeAll later)) :
    (d.resolve.takeAll later).resolve.overrides = (d.takeAll later).resolve.overrides :=
  overrides_resolve_left hs (enlarges_takeAll d later) hleft hnew (fun name => isResolved_takeAll later (hnew name))
    ((prepared_resolve hs).same.takeAll later) (fun name _ => isResolved_resolve_takeAll hs hnew hleft name)
    (hs.takeAll later) hover ((overrides_takeAll d later).trans hover) (overrides_takeAll d.resolve later)

end Directory
end RenameAudit
