import Mathlib
import RenameAudit.Proofs.Hierarchy.BridgeOrder
import RenameAudit.Proofs.Hierarchy.Bridges
import RenameAudit.Proofs.Hierarchy.Satisfied
/-!
# Proofs.Hierarchy.Provenance — where overrides come from

Every override that a resolution adds has a reason (`Reason`): the method is linked to one above it, it has the roots of a
bridge to it at once or when the bridge's class is finished, or it satisfies a declaration for some class.  `Written` is
what single writes with such reasons make of a directory; the reasons are limited to the steps that `may` be taken for
certain classes, so it also tells apart what happens in parts of a resolution (`written_resolveClass`).
-/
namespace RenameAudit
namespace Directory

open Std Relation

/-- The steps that each class takes. -/
inductive Pass where
  | link | bridge | satisfy | merge
  deriving DecidableEq

/-- A class that is not abstract has a declaration in its scope overridden by the first method with its key and a body. -/
def Satisfies (d : Directory) (c : String) (scope : List String) (m declared : MemberRef) : Prop :=
  Access.isAbstract (d.accessOf c) = false ∧ ∃ first decl, d.IsFirstConcrete scope decl.key first ∧
    (∃ a ∈ scope, decl ∈ d.methodsOf a) ∧ decl.isAbstract = true ∧ first.ref = m ∧ decl.ref = declared

/-- **Why a method comes to override another**, in one of the steps that may be taken. -/
inductive Reason (start : Directory) (may : Pass → String → Prop) (d : Directory) (m r : MemberRef) : Prop where
  | linked {p : MemberRef} : may .link m.owner → p.owner ∈ start.ancestors m.owner →
      ReflTransGen d.Overrides p r → Reason start may d m r
  | bridged {bridge : MemberRef} : may .bridge m.owner → (bridge, m) ∈ start.findBridges →
      TransGen d.Overrides bridge r → Reason start may d m r
  | satisfied {c : String} : may .satisfy c → start.Satisfies c (c :: start.ancestors c) m r → Reason start may d m r
  | merged {bridge : MemberRef} : may .merge bridge.owner → (bridge, m) ∈ start.findBridges →
      TransGen d.Overrides bridge r → Reason start may d m r

/-- **What writes with reasons make of a directory.** -/
inductive Written (start : Directory) (may : Pass → String → Prop) (d : Directory) : Directory → Prop where
  | begin : Written start may d d
  | same {e f : Directory} : Written start may d e → f.overrides = e.overrides → Written start may d f
  | add {e : Directory} {m : MemberRef} {more : MethodSet} : Written start may d e →
      (∀ r ∈ more, Reason start may e m r) → Written start may d (e.addOverrides m more)

variable {start : Directory} {may : Pass → String → Prop} {d e f : Directory}

/-- A reason remains one when more is overridden. -/
theorem Reason.mono {m r : MemberRef} (h : Reason start may d m r) (hg : d.Grows e) : Reason start may e m r := by
  cases h with
  | linked hm hp hr => exact .linked hm hp (ReflTransGen.mono hg _ _ hr)
  | bridged hm hb hr => exact .bridged hm hb (TransGen.mono hg _ _ hr)
  | satisfied hc hs => exact .satisfied hc hs
  | merged hb hbridge hr => exact .merged hb hbridge (TransGen.mono hg _ _ hr)

namespace Written

theorem trans (h : Written start may d e) (h' : Written start may e f) : Written start may d f := by
  induction h' with
  | begin => exact h
  | same _ he ih => exact ih.same he
  | add _ hmore ih => exact ih.add hmore

theorem grows (h : Written start may d e) : d.Grows e := by
  induction h with
  | begin => exact fun _ _ h => h
  | same _ he ih => exact ih.trans (.of_overrides_eq he)
  | add _ _ ih => exact ih.trans (.addOverrides _ _ _)

/-- **Every override that was added has a reason.** -/
theorem gained (h : Written start may d e) {m r : MemberRef} (hr : e.Overrides m r) :
    d.Overrides m r ∨ Reason start may e m r := by
  induction h with
  | begin => exact .inl hr
  | @same e f h he ih =>
    have hr : e.Overrides m r := Grows.of_overrides_eq he.symm m r hr
    exact (ih hr).imp id fun hreason => hreason.mono (.of_overrides_eq he)
  | @add e a more h hmore ih =>
    rcases overrides_addOverrides.1 hr with hold | ⟨rfl, hnew⟩
    · exact (ih hold).imp id fun hreason => hreason.mono (.addOverrides _ _ _)
    · exact .inr ((hmore r hnew).mono (.addOverrides _ _ _))

end Written

/-! ## Overrides among some classes -/

/-- Only methods of given classes override others, and only such methods. -/
def Within (inside : String → Prop) (d : Directory) : Prop :=
  ∀ m r, d.Overrides m r → inside m.owner ∧ inside r.owner

section Within

variable {inside : String → Prop}

theorem Within.of_overrides_eq (h : Within inside d) (he : e.overrides = d.overrides) : Within inside e := fun m r hr =>
  h m r (Grows.of_overrides_eq he.symm m r hr)

theorem Within.reach (h : Within inside d) {m r : MemberRef} (hm : inside m.owner) (hp : ReflTransGen d.Overrides m r) :
    inside r.owner := by
  rcases hp.cases_tail with rfl | ⟨x, -, hx⟩
  · exact hm
  · exact (h x r hx).2

theorem Within.reach_of_first (h : Within inside d) {m r : MemberRef} (hp : TransGen d.Overrides m r) :
    inside r.owner := by
  obtain ⟨x, -, hx⟩ := TransGen.tail'_iff.1 hp
  exact (h x r hx).2

theorem owner_of_mem_findBridges (hs : start.Sound) {bridge target : MemberRef}
    (h : (bridge, target) ∈ start.findBridges) : ReflTransGen start.Extends bridge.owner target.owner := by
  obtain ⟨b, -, named, t, -, ht, -, rfl, rfl⟩ := mem_findBridges.1 h
  obtain ⟨c, hc, hmem⟩ := bridgeTarget?_some hs ht
  rwa [hs.owner hmem]

theorem Satisfies.owners (hs : start.Sound) {c : String} {scope : List String} {m r : MemberRef}
    (h : start.Satisfies c scope m r) : m.owner ∈ scope ∧ r.owner ∈ scope := by
  obtain ⟨-, first, decl, ⟨front, a, back, rfl, hfirst, -⟩, ⟨b, hb, hdecl⟩, -, rfl, rfl⟩ := h
  refine ⟨?_, ?_⟩
  · rw [hs.owner hfirst]
    exact List.mem_append_right _ List.mem_cons_self
  · rwa [hs.owner hdecl]

/-- **What is done for given classes and those above them stays among them.** -/
theorem Written.within (hs : start.Sound)
    (hinside : ∀ p c, may p c → ∀ a, ReflTransGen start.Extends c a → inside a) (h : Written start may d e)
    (hd : Within inside d) : Within inside e := by
  have hscope : ∀ {p : Pass} {c : String}, may p c → ∀ a ∈ c :: start.ancestors c, inside a := fun hmay a ha =>
    hinside _ _ hmay a ((mem_scope hs).1 ha)
  induction h with
  | begin => exact hd
  | same _ he ih => exact ih.of_overrides_eq he
  | add _ hmore ih =>
    intro m r hr
    rcases overrides_addOverrides.1 hr with hold | ⟨rfl, hnew⟩
    · exact ih m r hold
    · cases hmore r hnew with
      | linked hm hp hr =>
        exact ⟨hinside _ _ hm _ .refl, ih.reach (hscope hm _ (List.mem_cons_of_mem _ hp)) hr⟩
      | bridged hm _ hr => exact ⟨hinside _ _ hm _ .refl, ih.reach_of_first hr⟩
      | satisfied hc hsat =>
        obtain ⟨hm, hr⟩ := hsat.owners hs
        exact ⟨hscope hc _ hm, hscope hc _ hr⟩
      | merged hb hbridge hr => exact ⟨hinside _ _ hb _ (owner_of_mem_findBridges hs hbridge), ih.reach_of_first hr⟩

/-- What is done for one class stays among it and those above it. -/
theorem Within.of_class (hd : Within inside d) (hs : start.Sound) {name : String}
    (hinside : ∀ a, ReflTransGen start.Extends name a → inside a) (h : Written start (fun _ c => c = name) d e) :
    Within inside e :=
  h.within hs (fun _ c (hc : c = name) a ha => hinside a (hc ▸ ha)) hd

end Within

/-! ## What each pass writes -/

/-- What waits is for a bridge, and for the class of the bridge. -/
theorem Underway.waits {s : Progress} (h : Underway start s) :
    ∀ w ∈ s.waiting, (w.bridge, w.target) ∈ start.findBridges ∧ w.owner = w.bridge.owner := by
  induction h with
  | begin => exact fun w hw => absurd hw List.not_mem_nil
  | keepStack _ _ ih => exact ih
  | linkDirect _ _ _ ih => exact ih
  | @linkBridge s name m bridge _ _ _ _ hbridge ih =>
    intro w hw
    rw [linkBridge_eq, List.mem_append] at hw
    rcases hw with hw | hw
    · exact ih w hw
    · unfold delays at hw
      split at hw
      · obtain rfl := List.mem_singleton.1 hw
        exact ⟨hbridge, rfl⟩
      · cases hw
  | satisfy _ _ _ ih => exact ih
  | merge _ _ ih => exact ih
  | markResolved _ _ hwaiting ih => exact fun w hw => ih w (hwaiting w hw)

section Passes

variable (hs : start.Sound) (hg : start.Grounded) {s : Progress} (hu : Underway start s) {name : String}
  (hname : name ∈ start.prepare.resolutionOrder)

include hs hg hu

/-- The roots of a bridge that overrides something are reached from it. -/
theorem reach_of_mem_rootSet {bridge m r : MemberRef} (hb : bridge ∈ s.dir.overrides)
    (hr : r ∈ (s.dir.rootSet bridge).erase m) : TransGen s.dir.Overrides bridge r := by
  obtain ⟨hend, hp⟩ := (hu.grounded hs hg).mem_rootSet.1 (mem_set_erase_iff.1 hr).1
  rcases reflTransGen_iff_eq_or_transGen.1 hp with rfl | hp
  · exact absurd hb hend
  · exact hp

theorem written_linkDirect {m : Method} (hm : m ∈ start.methodsOf name) (hmay : may .link name) :
    Written start may s.dir (linkDirect (start.ancestors name) s.dir m) := by
  have hsound := (hu.prepared hs).sound hs
  rcases linkDirect_cases hsound (start.ancestors name) m with he | ⟨c, hc, p, hp, -, -, -, he⟩
  · rw [he]
    exact .begin
  · rw [he]
    refine .add .begin fun r hr => ?_
    refine .linked (p := p.ref) (hs.owner hm ▸ hmay) ?_ ((hu.grounded hs hg).mem_rootSet.1 (mem_set_erase_iff.1 hr).1).2
    rwa [hsound.owner hp, hs.owner hm]

theorem written_linkBridge {m : Method} (hm : m ∈ start.methodsOf name) (hmay : may .bridge name) {bridge : MemberRef}
    (hb : (bridge, m.ref) ∈ start.findBridges) : Written start may s.dir (linkBridge name m s bridge).dir := by
  obtain ⟨d, hd, he⟩ := linkBridge_cases name m s bridge
  have hover : d.overrides = s.dir.overrides := hd.elim (fun h => h ▸ rfl) fun h => h ▸ rfl
  have hkept : Written start may s.dir d := .same .begin hover
  rcases he with he | he | ⟨hhas, he⟩ <;> rw [he]
  · exact hkept
  · exact hkept
  · refine hkept.add fun r hr => .bridged (hs.owner hm ▸ hmay) hb ?_
    have hroots : d.rootSet bridge = s.dir.rootSet bridge := by rw [rootSet, rootSet, hover]
    have hreach := reach_of_mem_rootSet hs hg hu (hover ▸ hhas) (hroots ▸ hr)
    exact TransGen.mono (Grows.of_overrides_eq hover) _ _ hreach

omit hg in
theorem written_satisfy {declared : Method} (hmay : may .satisfy name)
    (hbody : Access.isAbstract (start.accessOf name) = false)
    (hopen : declared ∈ s.dir.openDeclarations (name :: start.ancestors name)) :
    Written start may s.dir (satisfy (name :: start.ancestors name) s.dir declared) := by
  have hprepared := hu.prepared hs
  unfold satisfy
  split
  · rename_i m hm
    rw [nearestConcrete?_congr hprepared.same] at hm
    obtain ⟨⟨c, hc, hmem⟩, habstract, -⟩ := mem_openDeclarations.1 hopen
    refine .add .begin fun r hr => .satisfied hmay ⟨hbody, m, declared, (nearestConcrete?_eq_some hs).1 hm,
      ⟨c, hc, hprepared.same.methodsOf c ▸ hmem⟩, habstract, rfl, ?_⟩
    exact (List.mem_singleton.1 (mem_ofList_iff.1 hr)).symm
  · exact .begin

theorem written_merge {w : Merge} (hw : w ∈ s.waiting) (hmay : may .merge w.owner) :
    Written start may s.dir (merge s.dir w) := by
  obtain ⟨hbridge, howner⟩ := hu.waits w hw
  rcases merge_cases s.dir w with he | ⟨hhas, he⟩ <;> rw [he]
  · exact .begin
  · exact .add .begin fun r hr => .merged (howner ▸ hmay) hbridge (reach_of_mem_rootSet hs hg hu hhas hr)

include hname

theorem written_linkedDirectly (hmay : may .link name) : Written start may s.dir (linkedDirectly s name).dir := by
  have hkept := hu.keepStack name
  have hp := hkept.prepared hs
  dsimp only [linkedDirectly]
  rw [hp.stackOf, hp.same.methodsOf]
  have hrun := List.foldlRecOn
    (motive := fun d => Underway start ⟨d, s.waiting⟩ ∧ Written start may s.dir d) (start.methodsOf name)
    (linkDirect (start.ancestors name)) ⟨hkept, .same .begin rfl⟩ fun d h m hm =>
      ⟨h.1.linkDirect hname hm, h.2.trans (written_linkDirect hs hg h.1 hm hmay)⟩
  exact hrun.2

omit hg hname in
/-- **To link a method to its bridges is to link it to one after the other.** -/
theorem linkBridges_induction {m : Method} {motive : Progress → Prop} (h : motive s)
    (hstep : ∀ t bridge, (bridge, m.ref) ∈ start.findBridges → m.canOverride = true → motive t →
      motive (linkBridge name m t bridge)) : motive (linkBridges name s m) := by
  unfold linkBridges
  split
  · exact h
  · rename_i hcan
    rw [Bool.or_eq_true, not_or, Bool.not_eq_true', Bool.not_eq_false] at hcan
    refine List.foldlRecOn (motive := motive) _ _ h fun t ht bridge hb => hstep t bridge ?_ hcan.2 ht
    rwa [mem_bridgesTo, (hu.prepared hs).bridges] at hb

theorem written_linkBridges {m : Method} (hm : m ∈ start.methodsOf name) (hmay : may .bridge name) :
    Written start may s.dir (linkBridges name s m).dir := by
  have hrun : Underway start (linkBridges name s m) ∧ Written start may s.dir (linkBridges name s m).dir :=
    linkBridges_induction hs hu (motive := fun t : Progress => Underway start t ∧ Written start may s.dir t.dir)
      ⟨hu, .begin⟩ fun t bridge hb hcan h =>
        ⟨h.1.linkBridge hname hm hcan hb, h.2.trans (written_linkBridge hs hg h.1 hm hmay hb)⟩
  exact hrun.2

/-- What has been written once the methods of a class are linked. -/
theorem written_linkedToBridges (hlink : may .link name) (hbridge : may .bridge name) :
    Written start may s.dir (linkedToBridges s name).dir := by
  dsimp only [linkedToBridges]
  rw [((hu.keepStack name).prepared hs).same.methodsOf]
  have hrun := List.foldlRecOn
    (motive := fun t : Progress => Underway start t ∧ Written start may s.dir t.dir) (start.methodsOf name)
    (linkBridges name)
    ⟨underway_linkedDirectly hs hu hname, written_linkedDirectly hs hg hu hname hlink⟩
    fun t h m hm => ⟨underway_linkBridges hs h.1 hname hm, h.2.trans (written_linkBridges hs hg h.1 hname hm hbridge)⟩
  exact hrun.2

omit hg in
theorem written_satisfyAll (hmay : may .satisfy name) :
    Written start may s.dir (satisfyAll name (start.ancestors name) s.dir) := by
  unfold satisfyAll
  split
  · exact .begin
  · rename_i hbody
    rw [accessOf, (hu.prepared hs).same.declaration, ← accessOf, Bool.not_eq_true] at hbody
    have hrun : ∀ (declared : List Method) (s : Progress), Underway start s →
        (∀ x ∈ declared, x ∈ s.dir.openDeclarations (name :: start.ancestors name)) →
        Written start may s.dir (declared.foldl (satisfy (name :: start.ancestors name)) s.dir) := by
      intro declared
      induction declared with
      | nil => exact fun s _ _ => .begin
      | cons x rest ih =>
        intro s hu hopen
        have hx := hopen x List.mem_cons_self
        refine (written_satisfy hs hu hmay hbody hx).trans (ih _ (hu.satisfy hname hx) fun y hy => ?_)
        exact open_satisfy ((hu.prepared hs).sound hs) (hopen y (List.mem_cons_of_mem _ hy))
    exact hrun _ s hu fun _ hx => hx

omit hname in
theorem written_merges (merges : List Merge) (hw : ∀ w ∈ merges, w ∈ s.waiting ∧ may .merge w.owner) :
    Written start may s.dir (merges.foldl merge s.dir) := by
  have hrun := List.foldlRecOn
    (motive := fun d => Underway start ⟨d, s.waiting⟩ ∧ Written start may s.dir d) merges merge ⟨hu, .begin⟩
    fun d h w hmem => ⟨h.1.merge (hw w hmem).1, h.2.trans (written_merge hs hg h.1 (hw w hmem).1 (hw w hmem).2)⟩
  exact hrun.2

omit hg in
theorem written_satisfied (hmay : may .satisfy name) :
    Written start may (linkedToBridges s name).dir (satisfied s name).dir := by
  dsimp only [satisfied]
  rw [((hu.keepStack name).prepared hs).stackOf]
  exact written_satisfyAll hs (underway_linkedToBridges hs hu hname) hname hmay

theorem written_merged (hmay : may .merge name) : Written start may (satisfied s name).dir (merged s name).dir :=
  written_merges hs hg (underway_satisfied hs hu hname) _ fun w hw => by
    obtain ⟨hw, howner⟩ := List.mem_filter.1 hw
    exact ⟨hw, (beq_iff_eq.1 howner).symm ▸ hmay⟩

/-- **All that is written while a class is resolved has a reason.** -/
theorem written_resolveClass (hmay : ∀ p, may p name) : Written start may s.dir (resolveClass s name).dir := by
  rw [resolveClass_eq]
  split
  · have hlinked := written_linkedToBridges hs hg hu hname (hmay .link) (hmay .bridge)
    have hmerged := (written_satisfied hs hu hname (hmay .satisfy)).trans (written_merged hs hg hu hname (hmay .merge))
    exact (hlinked.trans hmerged).same rfl
  · exact .same .begin rfl

end Passes

end Directory
end RenameAudit
