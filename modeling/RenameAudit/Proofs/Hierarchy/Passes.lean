import RenameAudit.Proofs.Hierarchy.Reading
import RenameAudit.Proofs.Hierarchy.OverrideGraph
/-!
# Proofs.Hierarchy.Passes — the states that a resolution goes through

`Underway start s` is what can be reached from a prepared directory by the single writes of a resolution, in whatever
order they come: one method is linked to the method above it or to one bridge, one declaration is satisfied, one waiting
merge is carried out, one list of ancestors is kept, one class is marked.  Every write comes with what the pass knows
when it makes it.  A property that each of them preserves holds all through a resolution (`underway_resolve`).

All that a resolution reads, apart from the overrides, is as it was at the start (`Prepared`).
-/
namespace RenameAudit
namespace Directory

open Std

/-! ## What the passes look for -/

/-- The first method along a list of classes that has a key and a property. -/
def IsFirst (d : Directory) (p : Method → Bool) (scope : List String) (key : String) (m : Method) : Prop :=
  ∃ front c back, scope = front ++ c :: back ∧ m ∈ d.methodsOf c ∧ m.key = key ∧ p m = true ∧
    ∀ b ∈ front, ∀ m' ∈ d.methodsOf b, m'.key = key → p m' = false

/-- **To look along classes is to find the first method**: no class has two methods with one key. -/
theorem Sound.findSome?_eq_some {d : Directory} (h : d.Sound) {p : Method → Bool} {scope : List String} {key : String}
    {m : Method} :
    (scope.findSome? fun c => (d.methodByKey? c key).filter p) = some m ↔ d.IsFirst p scope key m := by
  have hnone : ∀ b : String, (d.methodByKey? b key).filter p = none ↔
      ∀ m' ∈ d.methodsOf b, m'.key = key → p m' = false := fun b => by
    rw [Option.filter_eq_none_iff]
    exact ⟨fun hb m' hm' hkey => Bool.eq_false_iff.2 (hb m' (h.methodByKey?_eq_some.2 ⟨hm', hkey⟩)),
      fun hb m' hm' => Bool.eq_false_iff.1 ((h.methodByKey?_eq_some.1 hm').elim (hb m'))⟩
  rw [List.findSome?_eq_some_iff, IsFirst]
  refine exists_congr fun front => exists_congr fun c => exists_congr fun back => and_congr_right fun _ => ?_
  rw [Option.filter_eq_some_iff, h.methodByKey?_eq_some, and_assoc, and_assoc]
  refine and_congr_right fun _ => and_congr_right fun _ => and_congr_right fun _ => ?_
  exact forall_congr' fun b => forall_congr' fun _ => hnone b

theorem Sound.exists_first {d : Directory} (h : d.Sound) {p : Method → Bool} {scope : List String} {c key : String}
    (hc : c ∈ scope) {m : Method} (hm : m ∈ d.methodsOf c) (hkey : m.key = key) (hp : p m = true) :
    ∃ first, d.IsFirst p scope key first := by
  have hsome : (scope.findSome? fun c => (d.methodByKey? c key).filter p).isSome = true := by
    rw [List.findSome?_isSome_iff]
    exact ⟨c, hc, by rw [h.methodByKey?_eq_some.2 ⟨hm, hkey⟩, Option.filter_some, if_pos hp]; rfl⟩
  exact (Option.isSome_iff_exists.1 hsome).imp fun _ hfirst => h.findSome?_eq_some.1 hfirst

theorem nearestOverridable?_some {d : Directory} (h : d.Sound) {stack : List String} {key : String} {p : Method}
    (hp : d.nearestOverridable? stack key = some p) :
    ∃ c ∈ stack, p ∈ d.methodsOf c ∧ p.key = key ∧ p.canBeOverridden = true := by
  obtain ⟨c, hc, hp⟩ := List.exists_of_findSome?_eq_some hp
  obtain ⟨hp, hcan⟩ := Option.filter_eq_some_iff.1 hp
  obtain ⟨hmem, hkey⟩ := h.methodByKey?_eq_some.1 hp
  exact ⟨c, hc, hmem, hkey, hcan⟩

theorem nearestConcrete?_some {d : Directory} (h : d.Sound) {scope : List String} {key : String} {m : Method}
    (hm : d.nearestConcrete? scope key = some m) :
    ∃ c ∈ scope, m ∈ d.methodsOf c ∧ m.key = key ∧ m.isAbstract = false ∧ m.canOverride = true := by
  obtain ⟨c, hc, hm⟩ := List.exists_of_findSome?_eq_some hm
  obtain ⟨hm, hcan⟩ := Option.filter_eq_some_iff.1 hm
  obtain ⟨hmem, hkey⟩ := h.methodByKey?_eq_some.1 hm
  rw [Bool.and_eq_true, Bool.not_eq_true'] at hcan
  exact ⟨c, hc, hmem, hkey, hcan.1, hcan.2⟩

theorem mem_openDeclarations {d : Directory} {scope : List String} {m : Method} :
    m ∈ d.openDeclarations scope ↔
      (∃ c ∈ scope, m ∈ d.methodsOf c) ∧ m.isAbstract = true ∧ m.ref ∉ d.overrides := by
  rw [openDeclarations, List.mem_filter, List.mem_flatMap, Bool.and_eq_true, Bool.not_eq_true', ← hasOverrides_iff,
    Bool.not_eq_true]

theorem mem_bridgesTo {d : Directory} {bridge target : MemberRef} :
    bridge ∈ d.bridgesTo target ↔ (bridge, target) ∈ d.bridges := by
  simp [bridgesTo]

/-! ## What stays -/

/-- **All but the overrides is as it was at the start**: what was read, the bridges, and the lists of ancestors. -/
structure Prepared (start d : Directory) : Prop where
  same : start.SameClasses d
  bridges : d.bridges = start.findBridges
  stackOf : ∀ name, d.stackOf name = start.ancestors name
  keptRoots : d.keptRoots = ∅

theorem prepared_prepare (d : Directory) : d.Prepared d.prepare := by
  refine ⟨sameClasses_prepare d, rfl, fun name => ?_, rfl⟩
  have hnone : d.prepare.classes[name]?.bind (·.stack) = none := by
    simp only [prepare, dropStacks, ExtTreeMap.getElem?_map]
    cases d.classes[name]? <;> rfl
  rw [Directory.stackOf, hnone, (sameClasses_prepare d).ancestors]
  rfl

theorem stackOf_keepStack (d : Directory) (name n : String) : (d.keepStack name).stackOf n = d.stackOf n := by
  rw [stackOf, (sameClasses_keepStack d name).ancestors, keepStack, getElem?_modify_eq, stackOf]
  split
  · rename_i hn
    subst hn
    cases hc : d.classes[n]? with
    | none => rfl
    | some e => cases hs : e.stack <;> simp [hs]
  · rfl

theorem stackOf_markResolved (d : Directory) (name n : String) : (d.markResolved name).stackOf n = d.stackOf n := by
  rw [stackOf, (sameClasses_markResolved d name).ancestors, markResolved, getElem?_modify_eq, stackOf]
  split
  · cases d.classes[n]? <;> rfl
  · rfl

namespace Prepared

variable {start d : Directory}

theorem keepStack (h : start.Prepared d) (name : String) : start.Prepared (d.keepStack name) :=
  ⟨h.same.trans (sameClasses_keepStack d name), h.bridges, fun n => by rw [stackOf_keepStack, h.stackOf], h.keptRoots⟩

theorem markResolved (h : start.Prepared d) (name : String) : start.Prepared (d.markResolved name) :=
  ⟨h.same.trans (sameClasses_markResolved d name), h.bridges, fun n => by rw [stackOf_markResolved, h.stackOf],
    h.keptRoots⟩

theorem addOverrides (h : start.Prepared d) (m : MemberRef) (more : MethodSet) :
    start.Prepared (d.addOverrides m more) := by
  unfold Directory.addOverrides
  split
  · exact h
  · exact ⟨h.same.trans ⟨rfl, rfl, fun _ => Iff.rfl, fun _ => rfl⟩, h.bridges, h.stackOf, h.keptRoots⟩

theorem sound (h : start.Prepared d) (hs : start.Sound) : d.Sound :=
  hs.of_sameClasses h.same

end Prepared

/-! ## What each pass can do -/

theorem linkDirect_cases {d : Directory} (h : d.Sound) (stack : List String) (m : Method) :
    linkDirect stack d m = d ∨ ∃ c ∈ stack, ∃ p ∈ d.methodsOf c, p.key = m.key ∧ p.canBeOverridden = true ∧
      m.canOverride = true ∧ linkDirect stack d m = d.addOverrides m.ref ((d.rootSet p.ref).erase m.ref) := by
  unfold linkDirect
  split
  · rename_i hcan
    split
    · rename_i p hp
      obtain ⟨c, hc, hmem, hkey, hover⟩ := nearestOverridable?_some h hp
      exact .inr ⟨c, hc, p, hmem, hkey, hover, hcan, rfl⟩
    · exact .inl rfl
  · exact .inl rfl

/-- At most a list of ancestors is kept; then the method has the roots of the bridge, or this waits, or nothing
happens. -/
theorem linkBridge_cases (name : String) (m : Method) (s : Progress) (bridge : MemberRef) :
    ∃ d, (d = s.dir ∨ d = s.dir.keepStack bridge.owner) ∧
      (linkBridge name m s bridge = { s with dir := d } ∨
        linkBridge name m s bridge = { dir := d, waiting := s.waiting ++ [⟨bridge.owner, bridge, m.ref⟩] } ∨
        (bridge ∈ d.overrides ∧
          linkBridge name m s bridge = { s with dir := d.addOverrides m.ref ((d.rootSet bridge).erase m.ref) })) := by
  have hkeep : ∀ d : Directory, d = (if (bridge.key == m.key) = true then s.dir.keepStack bridge.owner else s.dir) →
      d = s.dir ∨ d = s.dir.keepStack bridge.owner := fun d hd => by
    split at hd
    · exact .inr hd
    · exact .inl hd
  unfold linkBridge
  dsimp only
  generalize hd : (if (bridge.key == m.key) = true then s.dir.keepStack bridge.owner else s.dir) = d
  refine ⟨d, hkeep d hd.symm, ?_⟩
  split
  · exact .inl rfl
  · split
    · rename_i hhas
      exact .inr (.inr ⟨hasOverrides_iff.1 hhas, rfl⟩)
    · split
      · exact .inr (.inl rfl)
      · exact .inl rfl

theorem satisfy_cases {d : Directory} (h : d.Sound) (scope : List String) (declared : Method) :
    satisfy scope d declared = d ∨ ∃ c ∈ scope, ∃ m ∈ d.methodsOf c, m.key = declared.key ∧ m.isAbstract = false ∧
      m.canOverride = true ∧ satisfy scope d declared = d.addOverrides m.ref (ExtTreeSet.ofList [declared.ref]) := by
  unfold satisfy
  split
  · rename_i m hm
    obtain ⟨c, hc, hmem, hkey, habs, hcan⟩ := nearestConcrete?_some h hm
    exact .inr ⟨c, hc, m, hmem, hkey, habs, hcan, rfl⟩
  · exact .inl rfl

theorem merge_cases (d : Directory) (w : Merge) :
    merge d w = d ∨
      (w.bridge ∈ d.overrides ∧ merge d w = d.addOverrides w.target ((d.rootSet w.bridge).erase w.target)) := by
  unfold merge
  split
  · rename_i hhas
    exact .inr ⟨hasOverrides_iff.1 hhas, rfl⟩
  · exact .inl rfl

/-- **Satisfying one declaration leaves the others open**: what comes to override it has a body. -/
theorem open_satisfy {d : Directory} (h : d.Sound) {scope : List String} {declared m : Method}
    (hm : m ∈ d.openDeclarations scope) : m ∈ (satisfy scope d declared).openDeclarations scope := by
  rcases satisfy_cases h scope declared with he | ⟨c, -, concrete, hc, -, habs, -, he⟩
  · rwa [he]
  · obtain ⟨⟨c', hc', hmem⟩, hopen, hnone⟩ := mem_openDeclarations.1 hm
    rw [he]
    refine mem_openDeclarations.2 ⟨⟨c', hc', ?_⟩, hopen, fun hin => ?_⟩
    · rwa [(sameClasses_addOverrides d _ _).methodsOf]
    · rcases mem_addOverrides.1 hin with hin | ⟨href, -⟩
      · exact hnone hin
      · rw [h.eq_of_ref hmem hc href, habs] at hopen
        cases hopen

/-! ## All states -/

/-- **A resolution under way**: the states that single writes lead to. -/
inductive Underway (start : Directory) : Progress → Prop where
  | begin : Underway start ⟨start.prepare, []⟩
  | keepStack {s : Progress} (name : String) : Underway start s → Underway start { s with dir := s.dir.keepStack name }
  | linkDirect {s : Progress} {name : String} {m : Method} : Underway start s → name ∈ start.prepare.resolutionOrder →
      m ∈ start.methodsOf name → Underway start { s with dir := linkDirect (start.ancestors name) s.dir m }
  | linkBridge {s : Progress} {name : String} {m : Method} {bridge : MemberRef} : Underway start s →
      name ∈ start.prepare.resolutionOrder → m ∈ start.methodsOf name → m.canOverride = true →
      (bridge, m.ref) ∈ start.findBridges → Underway start (linkBridge name m s bridge)
  | satisfy {s : Progress} {name : String} {declared : Method} : Underway start s →
      name ∈ start.prepare.resolutionOrder → declared ∈ s.dir.openDeclarations (name :: start.ancestors name) →
      Underway start { s with dir := satisfy (name :: start.ancestors name) s.dir declared }
  | merge {s : Progress} {w : Merge} : Underway start s → w ∈ s.waiting →
      Underway start { s with dir := merge s.dir w }
  | markResolved {s : Progress} (name : String) {waiting : List Merge} : Underway start s →
      (∀ w ∈ waiting, w ∈ s.waiting) → Underway start ⟨s.dir.markResolved name, waiting⟩

namespace Underway

variable {start : Directory} {s : Progress}

theorem prepared (hs : start.Sound) (h : Underway start s) : start.Prepared s.dir := by
  induction h with
  | begin => exact prepared_prepare start
  | keepStack name _ ih => exact ih.keepStack name
  | linkDirect _ _ _ ih =>
    dsimp only
    rcases linkDirect_cases (ih.sound hs) _ _ with he | ⟨_, _, _, _, _, _, _, he⟩ <;> rw [he]
    · exact ih
    · exact ih.addOverrides _ _
  | @linkBridge s name m bridge _ _ _ _ _ ih =>
    obtain ⟨d, hd, he⟩ := linkBridge_cases name m s bridge
    have hd : start.Prepared d := hd.elim (fun h => h ▸ ih) fun h => h ▸ ih.keepStack _
    rcases he with he | he | ⟨-, he⟩ <;> rw [he]
    · exact hd
    · exact hd
    · exact hd.addOverrides _ _
  | satisfy _ _ _ ih =>
    dsimp only
    rcases satisfy_cases (ih.sound hs) _ _ with he | ⟨_, _, _, _, _, _, _, he⟩ <;> rw [he]
    · exact ih
    · exact ih.addOverrides _ _
  | @merge s w _ _ ih =>
    dsimp only
    rcases merge_cases s.dir w with he | ⟨-, he⟩ <;> rw [he]
    · exact ih
    · exact ih.addOverrides _ _
  | markResolved name _ _ ih => exact ih.markResolved name

end Underway

/-! ## One class, all classes -/

/-- A class with its methods linked to the methods above them. -/
def linkedDirectly (s : Progress) (name : String) : Progress :=
  let d := s.dir.keepStack name
  { s with dir := (d.methodsOf name).foldl (linkDirect (d.stackOf name)) d }

/-- The class with its methods linked to the bridges to them as well. -/
def linkedToBridges (s : Progress) (name : String) : Progress :=
  ((s.dir.keepStack name).methodsOf name).foldl (linkBridges name) (linkedDirectly s name)

/-- The class with the open declarations satisfied as well. -/
def satisfied (s : Progress) (name : String) : Progress :=
  let s' := linkedToBridges s name
  { s' with dir := satisfyAll name ((s.dir.keepStack name).stackOf name) s'.dir }

/-- The class with all merges that waited for it carried out. -/
def merged (s : Progress) (name : String) : Progress :=
  let s' := satisfied s name
  { dir := (s'.waiting.filter (·.owner == name)).foldl merge s'.dir
    waiting := s'.waiting.filter (·.owner != name) }

/-- **A class that was read is resolved in four steps.** -/
theorem resolveClass_eq (s : Progress) (name : String) :
    resolveClass s name =
      if s.dir.wasRead name then { merged s name with dir := (merged s name).dir.markResolved name }
      else { s with dir := s.dir.markResolved name } := rfl

/-- **A relation between directories that every write of a pass keeps.** -/
structure KeptByWrites (R : Directory → Directory → Prop) : Prop where
  refl : ∀ d, R d d
  trans : ∀ {d e f}, R d e → R e f → R d f
  addOverrides : ∀ d m more, R d (d.addOverrides m more)
  keepStack : ∀ d name, R d (d.keepStack name)

namespace KeptByWrites

variable {R : Directory → Directory → Prop} (h : KeptByWrites R)

include h

theorem foldl {β : Type} {step : Directory → β → Directory} (hstep : ∀ d x, R d (step d x)) (items : List β)
    (d : Directory) : R d (items.foldl step d) :=
  List.foldlRecOn (motive := R d) _ _ (h.refl d) fun e he x _ => h.trans he (hstep e x)

theorem linkDirect (stack : List String) (d : Directory) (m : Method) : R d (linkDirect stack d m) := by
  unfold Directory.linkDirect
  split
  · split
    · exact h.addOverrides _ _ _
    · exact h.refl d
  · exact h.refl d

theorem linkBridge (name : String) (m : Method) (s : Progress) (bridge : MemberRef) :
    R s.dir (linkBridge name m s bridge).dir := by
  obtain ⟨d, hd, he⟩ := linkBridge_cases name m s bridge
  have hkept : R s.dir d := hd.elim (fun hd => hd ▸ h.refl _) fun hd => hd ▸ h.keepStack _ _
  rcases he with he | he | ⟨-, he⟩ <;> rw [he]
  · exact hkept
  · exact hkept
  · exact h.trans hkept (h.addOverrides _ _ _)

theorem linkBridges (name : String) (s : Progress) (m : Method) : R s.dir (linkBridges name s m).dir := by
  unfold Directory.linkBridges
  split
  · exact h.refl _
  · exact List.foldlRecOn (motive := fun t : Progress => R s.dir t.dir) _ _ (h.refl _)
      fun t ht bridge _ => h.trans ht (h.linkBridge name m t bridge)

theorem satisfy (scope : List String) (d : Directory) (declared : Method) : R d (satisfy scope d declared) := by
  unfold Directory.satisfy
  split
  · exact h.addOverrides _ _ _
  · exact h.refl d

theorem satisfyAll (name : String) (stack : List String) (d : Directory) : R d (satisfyAll name stack d) := by
  unfold Directory.satisfyAll
  split
  · exact h.refl d
  · exact h.foldl (h.satisfy _) _ d

theorem merge (d : Directory) (w : Merge) : R d (merge d w) := by
  unfold Directory.merge
  split
  · exact h.addOverrides _ _ _
  · exact h.refl d

theorem linkedDirectly (s : Progress) (name : String) : R s.dir (linkedDirectly s name).dir :=
  h.trans (h.keepStack _ _) (h.foldl (h.linkDirect _) _ _)

theorem merged_of_linkedDirectly (s : Progress) (name : String) :
    R (Directory.linkedDirectly s name).dir (merged s name).dir := by
  have hbridges : R (Directory.linkedDirectly s name).dir (linkedToBridges s name).dir :=
    List.foldlRecOn (motive := fun t : Progress => R (Directory.linkedDirectly s name).dir t.dir) _ _ (h.refl _)
      fun t ht m _ => h.trans ht (h.linkBridges name t m)
  have hsatisfied : R (linkedToBridges s name).dir (satisfied s name).dir := h.satisfyAll _ _ _
  have hmerged : R (satisfied s name).dir (merged s name).dir := h.foldl h.merge _ _
  exact h.trans hbridges (h.trans hsatisfied hmerged)

theorem merged (s : Progress) (name : String) : R s.dir (merged s name).dir :=
  h.trans (h.linkedDirectly s name) (h.merged_of_linkedDirectly s name)

end KeptByWrites

section Class

variable {start : Directory}

theorem underway_linkBridges (hs : start.Sound) {s : Progress} (h : Underway start s) {name : String} {m : Method}
    (hname : name ∈ start.prepare.resolutionOrder) (hm : m ∈ start.methodsOf name) :
    Underway start (linkBridges name s m) := by
  unfold linkBridges
  split
  · exact h
  · rename_i hcan
    rw [Bool.or_eq_true, not_or, Bool.not_eq_true', Bool.not_eq_false] at hcan
    refine List.foldlRecOn (motive := Underway start) _ _ h fun s' h' bridge hb => ?_
    refine h'.linkBridge hname hm hcan.2 ?_
    rwa [mem_bridgesTo, (h.prepared hs).bridges] at hb

theorem underway_satisfyAll (hs : start.Sound) {s : Progress} (h : Underway start s) {name : String}
    (hname : name ∈ start.prepare.resolutionOrder) :
    Underway start { s with dir := satisfyAll name (start.ancestors name) s.dir } := by
  unfold satisfyAll
  split
  · exact h
  · -- each declaration is still open when its turn comes
    have hgo : ∀ (declared : List Method) (s : Progress), Underway start s →
        (∀ x ∈ declared, x ∈ s.dir.openDeclarations (name :: start.ancestors name)) →
        Underway start { s with dir := declared.foldl (satisfy (name :: start.ancestors name)) s.dir } := by
      intro declared
      induction declared with
      | nil => exact fun s h _ => h
      | cons x rest ih =>
        intro s h hopen
        refine ih _ (h.satisfy hname (hopen x List.mem_cons_self)) fun y hy => ?_
        exact open_satisfy ((h.prepared hs).sound hs) (hopen y (List.mem_cons_of_mem _ hy))
    exact hgo _ s h fun _ hx => hx

theorem underway_merges {s : Progress} (h : Underway start s) (merges : List Merge) (hm : ∀ w ∈ merges, w ∈ s.waiting) :
    Underway start { s with dir := merges.foldl merge s.dir } := by
  induction merges generalizing s with
  | nil => exact h
  | cons w rest ih =>
    exact ih (h.merge (hm w List.mem_cons_self)) fun w' hw' => hm w' (List.mem_cons_of_mem _ hw')

variable (hs : start.Sound) {s : Progress} (h : Underway start s) {name : String}
  (hname : name ∈ start.prepare.resolutionOrder)

include hs h hname

theorem underway_linkedDirectly : Underway start (linkedDirectly s name) := by
  have hkept := h.keepStack name
  have hp := hkept.prepared hs
  dsimp only [linkedDirectly]
  rw [hp.stackOf, hp.same.methodsOf]
  exact List.foldlRecOn (motive := fun d => Underway start ⟨d, s.waiting⟩) _ _ hkept
    fun d h' m hm => h'.linkDirect hname hm

theorem underway_linkedToBridges : Underway start (linkedToBridges s name) := by
  have hp := (h.keepStack name).prepared hs
  dsimp only [linkedToBridges]
  rw [hp.same.methodsOf]
  exact List.foldlRecOn (motive := Underway start) _ _ (underway_linkedDirectly hs h hname)
    fun s' h' m hm => underway_linkBridges hs h' hname hm

theorem underway_satisfied : Underway start (satisfied s name) := by
  have hp := (h.keepStack name).prepared hs
  dsimp only [satisfied]
  rw [hp.stackOf]
  exact underway_satisfyAll hs (underway_linkedToBridges hs h hname) hname

theorem underway_resolveClass : Underway start (resolveClass s name) := by
  rw [resolveClass_eq]
  split
  · have hmerged := underway_merges (underway_satisfied hs h hname) (List.filter (·.owner == name) _)
      fun w hw => (List.mem_filter.1 hw).1
    exact hmerged.markResolved name fun w hw => (List.mem_filter.1 hw).1
  · exact h.markResolved name fun _ hw => hw

end Class

/-- **A resolution goes through these states only**, and ends in one. -/
theorem underway_resolve {start : Directory} (hs : start.Sound) : ∃ waiting, Underway start ⟨start.resolve, waiting⟩ := by
  refine ⟨(start.prepare.resolutionOrder.foldl resolveClass ⟨start.prepare, []⟩).waiting, ?_⟩
  exact List.foldlRecOn (motive := Underway start) _ _ .begin fun s h name hname => underway_resolveClass hs h hname

theorem prepared_resolve {start : Directory} (hs : start.Sound) : start.Prepared start.resolve := by
  obtain ⟨waiting, h⟩ := underway_resolve hs
  have hp := h.prepared hs
  exact hp

end Directory
end RenameAudit
