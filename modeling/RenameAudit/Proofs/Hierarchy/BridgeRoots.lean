import Mathlib
import RenameAudit.Proofs.Hierarchy.Provenance
import RenameAudit.Proofs.Hierarchy.Walk
/-!
# Proofs.Hierarchy.BridgeRoots — what becomes of the roots of a bridge

A method that overrides nothing has the roots of its bridges given to it at one moment for each (`Followed`): a bridge of
its own class is followed while that class is linked, and one of a subclass when the subclass is finished
(`settled_resolveClass_self`, `settled_resolveClass`).  If the method still overrides nothing at the end, then at that
moment the bridge overrode nothing or had the method as its only root (`Settled`).  What was written since then has its
reasons (`Written`), and these are all that can give the bridge another root (`bridge_settled_or_gained`).
-/
namespace RenameAudit
namespace Directory

open Std Relation ClassFile

/-! ## The moment -/

/-- A resolution that comes to a bridge among the bridges to a method, and to the method among those of a class: all
methods of the class have been linked to those above them, and the methods before it and the bridges before this one have
been followed. -/
def FollowedInClass (start : Directory) (s : Progress) (name : String) (bridge : MemberRef) (target : Method)
    (t : Progress) : Prop :=
  ∃ before after earlier later, start.methodsOf name = before ++ target :: after ∧
    start.prepare.bridgesTo target.ref = earlier ++ bridge :: later ∧
    t = earlier.foldl (linkBridge name target) (before.foldl (linkBridges name) (linkedDirectly s name))

/-- A resolution that comes to a bridge among those that waited for a class: the class is linked and satisfied, and what
waited before it has been merged. -/
def FollowedLate (s : Progress) (name : String) (bridge target : MemberRef) (d : Directory) : Prop :=
  ∃ earlier later, (satisfied s name).waiting.filter (·.owner == name) = earlier ++ ⟨name, bridge, target⟩ :: later ∧
    d = earlier.foldl merge (satisfied s name).dir

/-- **The directory in which the roots of a bridge are given to the method that it forwards to**, in the resolution of
another directory: while the methods of the bridge's class are linked, where the method is one of them, and else when that
class is finished. -/
def Followed (start : Directory) (bridge : MemberRef) (target : Method) (d : Directory) : Prop :=
  ∃ front back, start.prepare.resolutionOrder = front ++ bridge.owner :: back ∧
    let s := front.foldl resolveClass ⟨start.prepare, []⟩
    (target.ref.owner = bridge.owner ∧ ∃ t, start.FollowedInClass s bridge.owner bridge target t ∧ t.dir = d) ∨
      (target.ref.owner ≠ bridge.owner ∧ FollowedLate s bridge.owner bridge target.ref d)

/-- A bridge has no roots but itself and the method that it forwards to. -/
def Settled (d : Directory) (bridge target : MemberRef) : Prop :=
  ∀ r ∈ d.rootSet bridge, r = bridge ∨ r = target

/-- **A method that is given the roots of a bridge overrides something then**, unless there was nothing to be given. -/
theorem settled_follow {d : Directory} (hg : d.Grounded) (bridge target : MemberRef) :
    (∃ r, (follow target (d.hasOverrides bridge) d bridge).Overrides target r) ∨ d.Settled bridge target := by
  by_cases hb : bridge ∈ d.overrides
  · by_cases hnone : ∃ r, r ∈ (d.rootSet bridge).erase target
    · obtain ⟨r, hr⟩ := hnone
      refine .inl ⟨r, ?_⟩
      rw [follow, if_pos (hasOverrides_iff.2 hb)]
      exact overrides_addOverrides.2 (.inr ⟨rfl, hr⟩)
    · refine .inr fun r hr => .inr (Classical.byContradiction fun hne => hnone ⟨r, mem_set_erase_iff.2 ⟨hr, hne⟩⟩)
  · exact .inr fun r hr => .inl ((hg.root_of_not_mem hb).1 hr)

/-- **A method overrides something, or its bridge was settled at a certain moment** and all that was written since then
has its reasons. -/
def SettledSince (start : Directory) (may : Pass → String → Prop) (inside : String → Prop) (bridge target : MemberRef)
    (moment : Directory → Prop) (d : Directory) : Prop :=
  (∃ r, d.Overrides target r) ∨
    ∃ e, moment e ∧ e.Grounded ∧ e.Settled bridge target ∧ Within inside e ∧ Written start may e d

section SettledSince

variable {start d e : Directory} {may : Pass → String → Prop} {inside : String → Prop} {bridge target : MemberRef}
  {moment moment' : Directory → Prop}

theorem SettledSince.later (h : start.SettledSince may inside bridge target moment d) (hw : Written start may d e) :
    start.SettledSince may inside bridge target moment e := by
  rcases h with ⟨r, hr⟩ | ⟨f, hf, hg, hsettled, hwithin, hwritten⟩
  · exact .inl ⟨r, hw.grows _ _ hr⟩
  · exact .inr ⟨f, hf, hg, hsettled, hwithin, hwritten.trans hw⟩

theorem SettledSince.imp (h : start.SettledSince may inside bridge target moment d) (hm : ∀ e, moment e → moment' e) :
    start.SettledSince may inside bridge target moment' d :=
  Or.imp id (fun ⟨e, he, hrest⟩ => ⟨e, hm e he, hrest⟩) h

end SettledSince

/-! ## What waits -/

theorem waiting_linkBridge {name : String} {m : Method} {s : Progress} {bridge : MemberRef} {w : Merge}
    (hw : w ∈ s.waiting) : w ∈ (linkBridge name m s bridge).waiting := by
  rw [linkBridge_eq]
  exact List.mem_append_left _ hw

theorem waiting_linkBridges {name : String} {m : Method} {s : Progress} {w : Merge} (hw : w ∈ s.waiting) :
    w ∈ (linkBridges name s m).waiting := by
  unfold linkBridges
  split
  · exact hw
  · exact List.foldlRecOn (motive := fun t : Progress => w ∈ t.waiting) _ _ hw fun t ht bridge _ => waiting_linkBridge ht

theorem waiting_satisfied {name : String} {s : Progress} {w : Merge} (hw : w ∈ s.waiting) :
    w ∈ (satisfied s name).waiting :=
  List.foldlRecOn (motive := fun t : Progress => w ∈ t.waiting) ((s.dir.keepStack name).methodsOf name)
    (linkBridges name) hw fun _ ht _ _ => waiting_linkBridges ht

/-- What waits for another class goes on waiting. -/
theorem waiting_resolveClass {name : String} {s : Progress} {w : Merge} (hw : w ∈ s.waiting) (hne : w.owner ≠ name) :
    w ∈ (resolveClass s name).waiting := by
  rw [resolveClass_eq]
  split
  · exact List.mem_filter.2 ⟨waiting_satisfied hw, bne_iff_ne.2 hne⟩
  · exact hw

/-! ## One class -/

/-- The steps that are taken after a bridge was settled: all of the classes that come later, and the merges of the bridge's
class; where the method belongs to that class too, all of its steps but the first. -/
def Later (back : List String) (bridge target : MemberRef) (p : Pass) (c : String) : Prop :=
  c ∈ back ∨ (c = bridge.owner ∧ (p = .merge ∨ (c = target.owner ∧ p ≠ .link)))

section Class

variable {start : Directory} (hs : start.Sound) (hg : start.Grounded) {s : Progress} (hu : Underway start s)
  {name : String} (hname : name ∈ start.prepare.resolutionOrder) {inside : String → Prop}
  (hinside : ∀ a, ReflTransGen start.Extends name a → inside a) (hwithin : Within inside s.dir)

include hs hg hu hname hinside hwithin

/-- **The moment at which a bridge to a method is followed**: what that moment establishes, and what follows keeps, holds
when the methods of the class are linked, as far as the method overrides nothing before. -/
theorem linkedToBridges_of_step (goal : Progress → Prop) {target : Method} {bridge : MemberRef}
    (htarget : target ∈ start.methodsOf name) (hcan : target.canOverride = true)
    (hb : (bridge, target.ref) ∈ start.findBridges)
    (hdone : ∀ t : Progress, (∃ r, t.dir.Overrides target.ref r) → goal t)
    (hstep : ∀ t, start.FollowedInClass s name bridge target t → Underway start t → Within inside t.dir →
      SameRecords s.dir t.dir → goal (linkBridge name target t bridge))
    (hkeep : ∀ t m b, m ∈ start.methodsOf name → (b, m.ref) ∈ start.findBridges → Underway start t → goal t →
      goal (linkBridge name m t b)) : goal (linkedToBridges s name) := by
  let inv (t : Progress) : Prop := Underway start t ∧ Within inside t.dir ∧ SameRecords s.dir t.dir
  have hdirect : inv (linkedDirectly s name) :=
    ⟨underway_linkedDirectly hs hu hname,
      hwithin.of_class hs hinside (written_linkedDirectly hs hg hu hname rfl),
      SameRecords.keptByWrites.linkedDirectly s name⟩
  have hbridge : ∀ t m b, m ∈ start.methodsOf name → (b, m.ref) ∈ start.findBridges → m.canOverride = true → inv t →
      inv (linkBridge name m t b) := fun t m b hm hb hcan ⟨hu, hwithin, hsame⟩ =>
    ⟨hu.linkBridge hname hm hcan hb,
      hwithin.of_class hs hinside (written_linkBridge hs hg hu hm rfl hb),
      SameRecords.keptByWrites.trans hsame (SameRecords.keptByWrites.linkBridge name m t b)⟩
  dsimp only [linkedToBridges]
  rw [((hu.keepStack name).prepared hs).same.methodsOf]
  have hbridges : ∀ b, b ∈ start.prepare.bridgesTo target.ref ↔ (b, target.ref) ∈ start.findBridges := fun b =>
    mem_bridgesTo
  refine foldl_of_split inv goal htarget (fun t m hm ht => ?_) (fun before after hsplit ht => ?_)
    (fun t m hm ht hgoal => ?_) hdirect
  · exact linkBridges_induction hs ht.1 ht fun t b hb hcan ht => hbridge t m b hm hb hcan ht
  · rw [linkBridges]
    split
    · rename_i hover
      rw [hcan, Bool.not_true, Bool.or_false, hasOverrides_iff] at hover
      exact hdone _ ((ht.1.grounded hs hg).nonempty _ hover)
    · have hsame : ∀ t, Underway start t → t.dir.bridgesTo target.ref = start.prepare.bridgesTo target.ref :=
        fun t ht => congrArg (fun bridges => (bridges.filter (·.2 == target.ref)).map (·.1)) (ht.prepared hs).bridges
      rw [hsame _ ht.1]
      exact foldl_of_split inv goal ((hbridges bridge).2 hb)
        (fun t b hb ht => hbridge t target b htarget ((hbridges b).1 hb) hcan ht)
        (fun earlier later hsplit' ht =>
          hstep _ ⟨before, after, earlier, later, hsplit, hsplit', rfl⟩ ht.1 ht.2.1 ht.2.2)
        (fun t b hb ht hgoal => hkeep t target b htarget ((hbridges b).1 hb) ht.1 hgoal) ht
  · have hrun : inv (linkBridges name t m) ∧ goal (linkBridges name t m) :=
      linkBridges_induction hs ht.1 (motive := fun t => inv t ∧ goal t) ⟨ht, hgoal⟩
        fun t b hb hcan h => ⟨hbridge t m b hm hb hcan h.1, hkeep t m b hm hb h.1.1 h.2⟩
    exact hrun.2

variable {target : Method} {bridge : MemberRef} (htarget : target ∈ start.methodsOf name)
  (hcan : target.canOverride = true) (hb : (bridge, target.ref) ∈ start.findBridges)

include htarget hcan hb

/-- **A bridge of the method's own class is settled when the class is resolved.** -/
theorem settled_resolveClass_self (howner : bridge.owner = name) (hpass : passes name target s.dir bridge = false)
    (back : List String) :
    start.SettledSince (Later back bridge target.ref) inside bridge target.ref
      (fun d => ∃ t, start.FollowedInClass s name bridge target t ∧ t.dir = d) (resolveClass s name).dir := by
  have hmay : ∀ p, p ≠ Pass.link → Later back bridge target.ref p name := fun p hp =>
    .inr ⟨howner.symm, .inr ⟨(hs.owner htarget).symm, hp⟩⟩
  have hread : s.dir.wasRead name = true := by
    rw [(hu.prepared hs).same.wasRead, wasRead_of_mem_methodsOf htarget]
  have hlinked : start.SettledSince (Later back bridge target.ref) inside bridge target.ref
      (fun d => ∃ t, start.FollowedInClass s name bridge target t ∧ t.dir = d) (linkedToBridges s name).dir := by
    refine linkedToBridges_of_step hs hg hu hname hinside hwithin
      (fun t => start.SettledSince (Later back bridge target.ref) inside bridge target.ref
        (fun d => ∃ t, start.FollowedInClass s name bridge target t ∧ t.dir = d) t.dir) htarget hcan hb
      (fun t hr => .inl hr) (fun t hmoment ht hwithin _ => ?_)
      (fun t m b hm hb ht hgoal => hgoal.later (written_linkBridge hs hg ht hm (hmay _ (by decide)) hb))
    have hground := ht.grounded hs hg
    have hwritten : Written start (Later back bridge target.ref) t.dir (linkBridge name target t bridge).dir :=
      written_linkBridge hs hg ht htarget (hmay _ (by decide)) hb
    have hsame : (keepFor target t.dir bridge).overrides = t.dir.overrides := overrides_keepFor ..
    have hpass : passes name target t.dir bridge = false := by
      rw [passes, (ht.prepared hs).stackOf, ← (hu.prepared hs).stackOf, ← passes, hpass]
    have hdir : (linkBridge name target t bridge).dir = follow target.ref
        ((keepFor target t.dir bridge).hasOverrides bridge) (keepFor target t.dir bridge) bridge := by
      rw [linkBridge_eq, takes, hpass, hasOverrides, hasOverrides, hsame]
      rfl
    rcases settled_follow (hground.of_overrides_eq hsame) bridge target.ref with ⟨r, hr⟩ | hsettled
    · exact .inl ⟨r, hdir ▸ hr⟩
    · refine .inr ⟨t.dir, ⟨t, hmoment, rfl⟩, hground, fun r hr => hsettled r ?_, hwithin, hwritten⟩
      rwa [rootSet, hsame, ← rootSet]
  have hmerged := (written_satisfied hs hu hname (hmay .satisfy (by decide))).trans
    (written_merged hs hg hu hname (hmay .merge (by decide)))
  rw [resolveClass_eq, if_pos hread]
  exact (hlinked.later hmerged).later (.same .begin rfl)

/-- **A bridge of a class that is yet to come waits for that class.** -/
theorem waiting_resolveClass_of_bridge (hout : ¬ inside bridge.owner) (howner : bridge.owner ≠ name)
    (hpass : passes name target s.dir bridge = false) (hopen : s.dir.isResolved bridge.owner = false) :
    (∃ r, (resolveClass s name).dir.Overrides target.ref r) ∨
      ⟨bridge.owner, bridge, target.ref⟩ ∈ (resolveClass s name).waiting := by
  have hread : s.dir.wasRead name = true := by
    rw [(hu.prepared hs).same.wasRead, wasRead_of_mem_methodsOf htarget]
  have hlinked : (∃ r, (linkedToBridges s name).dir.Overrides target.ref r) ∨
      ⟨bridge.owner, bridge, target.ref⟩ ∈ (linkedToBridges s name).waiting := by
    refine linkedToBridges_of_step hs hg hu hname hinside hwithin
      (fun t => (∃ r, t.dir.Overrides target.ref r) ∨ ⟨bridge.owner, bridge, target.ref⟩ ∈ t.waiting) htarget hcan hb
      (fun t hr => .inl hr) (fun t _ ht hwithin hsame => .inr ?_)
      (fun t m b hm hb ht hgoal => hgoal.imp (fun ⟨r, hr⟩ => ⟨r, Grows.keptByWrites.linkBridge name m t b _ _ hr⟩)
        waiting_linkBridge)
    have hnone : t.dir.hasOverrides bridge = false := by
      rw [← Bool.not_eq_true, hasOverrides_iff]
      intro hmem
      obtain ⟨r, hr⟩ := (ht.grounded hs hg).nonempty _ hmem
      exact hout (hwithin _ _ hr).1
    have hpass : passes name target t.dir bridge = false := by
      rw [passes, (ht.prepared hs).stackOf, ← (hu.prepared hs).stackOf, ← passes, hpass]
    have hopen : t.dir.isResolved bridge.owner = false := by
      rw [isResolved_eq, hsame, ← isResolved_eq, hopen]
    rw [linkBridge_eq, delays, hpass, hnone, hopen]
    simp [howner]
  rw [resolveClass_eq, if_pos hread]
  rcases hlinked with ⟨r, hr⟩ | hw
  · have hwritten : Written start (fun _ _ => True) (linkedToBridges s name).dir (merged s name).dir :=
      .trans (written_satisfied hs hu hname trivial) (written_merged hs hg hu hname trivial)
    exact .inl ⟨r, hwritten.grows _ _ hr⟩
  · exact .inr (List.mem_filter.2 ⟨hw, bne_iff_ne.2 howner⟩)

omit hname hcan htarget hb in
/-- Among the merges that are carried out for a class, that of a bridge settles it. -/
theorem settled_merges (howner : bridge.owner = name) {target : MemberRef}
    (hw : ⟨bridge.owner, bridge, target⟩ ∈ s.waiting) (back : List String) :
    start.SettledSince (Later back bridge target) inside bridge target
      (fun d => ∃ earlier later, s.waiting.filter (·.owner == name) = earlier ++ ⟨name, bridge, target⟩ :: later ∧
        d = earlier.foldl merge s.dir)
      ((s.waiting.filter (·.owner == name)).foldl merge s.dir) := by
  have hlater : ∀ c, c = name → Later back bridge target .merge c := fun c hc => .inr ⟨hc.trans howner.symm, .inl rfl⟩
  have hmem : ∀ w ∈ s.waiting.filter (·.owner == name), w ∈ s.waiting ∧ w.owner = name := fun w hw =>
    ⟨(List.mem_filter.1 hw).1, beq_iff_eq.1 (List.mem_filter.1 hw).2⟩
  have hnow : (⟨bridge.owner, bridge, target⟩ : Merge) ∈ s.waiting.filter (·.owner == name) :=
    List.mem_filter.2 ⟨hw, beq_iff_eq.2 howner⟩
  have hbegin : Underway start ⟨s.dir, s.waiting⟩ ∧ Within inside s.dir := ⟨hu, hwithin⟩
  refine foldl_of_split (fun d => Underway start ⟨d, s.waiting⟩ ∧ Within inside d)
    (start.SettledSince (Later back bridge target) inside bridge target _) hnow
    (fun d w hw hd => ?_) (fun earlier later hsplit hd => ?_) (fun d w hw hd hsettled => ?_) hbegin
  · obtain ⟨hw, howner⟩ := hmem w hw
    exact ⟨hd.1.merge hw, hd.2.of_class hs hinside (written_merge hs hg hd.1 hw howner)⟩
  · have hground := hd.1.grounded hs hg
    have hwritten : Written start (Later back bridge target) (earlier.foldl merge s.dir)
        (merge (earlier.foldl merge s.dir) ⟨bridge.owner, bridge, target⟩) :=
      written_merge hs hg hd.1 hw (hlater _ howner)
    rcases settled_follow hground bridge target with hr | hsettled
    · exact .inl hr
    · exact .inr ⟨_, ⟨earlier, later, howner ▸ hsplit, rfl⟩, hground, hsettled, hd.2, hwritten⟩
  · obtain ⟨hw, howner⟩ := hmem w hw
    exact hsettled.later (written_merge hs hg hd.1 hw (hlater _ howner))

omit hcan htarget hb in
/-- **A bridge of a later class is settled when that class is resolved**, where a merge waits for this. -/
theorem settled_resolveClass (hread : start.wasRead name = true) (howner : bridge.owner = name) {target : MemberRef}
    (hw : ⟨bridge.owner, bridge, target⟩ ∈ s.waiting) (back : List String) :
    start.SettledSince (Later back bridge target) inside bridge target (FollowedLate s name bridge target)
      (resolveClass s name).dir := by
  have hsatisfied : Within inside (satisfied s name).dir := hwithin.of_class hs hinside
    (.trans (written_linkedToBridges hs hg hu hname rfl rfl) (written_satisfied hs hu hname rfl))
  have hmerged := settled_merges hs hg (underway_satisfied hs hu hname) hinside hsatisfied howner
    (waiting_satisfied hw) back
  rw [resolveClass_eq, (hu.prepared hs).same.wasRead, if_pos hread]
  exact hmerged.later (.same .begin rfl)

end Class

/-! ## All classes -/

section Run

variable {start : Directory} (hs : start.Sound) {front back : List String}

theorem resolve_eq_foldl (horder : start.prepare.resolutionOrder = front ++ back) :
    start.resolve = (back.foldl resolveClass (front.foldl resolveClass ⟨start.prepare, []⟩)).dir := by
  rw [← List.foldl_append, ← horder]
  rfl

include hs

theorem underway_front (horder : start.prepare.resolutionOrder = front ++ back) :
    Underway start (front.foldl resolveClass ⟨start.prepare, []⟩) :=
  List.foldlRecOn (motive := Underway start) _ _ .begin fun _ h _ hc =>
    underway_resolveClass hs h (horder ▸ List.mem_append_left _ hc)

variable (hacyclic : start.SupertypesAcyclic) (hnew : ∀ name, start.isResolved name = false)

include hacyclic hnew

/-- A class and its ancestors have had their turn when the class has had it. -/
theorem mem_front_of_reach {name : String} (horder : start.prepare.resolutionOrder = front ++ name :: back) {a : String}
    (ha : ReflTransGen start.Extends name a) : a ∈ front ++ [name] := by
  rcases reflTransGen_iff_eq_or_transGen.1 ha with rfl | ha
  · exact List.mem_append_right _ List.mem_cons_self
  · exact List.mem_append_left _ (ancestors_before hs hacyclic hnew horder ha)

variable (hover : start.overrides = ∅)

include hover

/-- **Only methods of classes that have had their turn override others**, and only such methods. -/
theorem within_front (horder : start.prepare.resolutionOrder = front ++ back) :
    Within (· ∈ front) (front.foldl resolveClass ⟨start.prepare, []⟩).dir := by
  induction front using List.reverseRecOn generalizing back with
  | nil =>
    intro m r hr
    have hnone : start.prepare.overrides = ∅ := hover
    rw [List.foldl_nil] at hr
    have hmem := hr.mem
    rw [hnone] at hmem
    exact absurd hmem ExtTreeMap.not_mem_empty
  | append_singleton front name ih =>
    rw [List.append_assoc, List.singleton_append] at horder
    have hname : name ∈ start.prepare.resolutionOrder := horder ▸ List.mem_append_right _ List.mem_cons_self
    have hbefore : Within (· ∈ front ++ [name]) (front.foldl resolveClass ⟨start.prepare, []⟩).dir := fun m r hr =>
      (ih horder m r hr).imp (List.mem_append_left _) (List.mem_append_left _)
    rw [List.foldl_append]
    exact hbefore.of_class hs (fun a ha => mem_front_of_reach hs hacyclic hnew horder ha)
      (written_resolveClass hs (grounded_of_empty hover) (underway_front hs horder) hname fun _ => rfl)

variable {target : Method} {bridge : MemberRef} (htarget : target ∈ start.methodsOf target.ref.owner)
  (hcan : target.canOverride = true) (hb : (bridge, target.ref) ∈ start.findBridges)
  (hpass : ¬ (bridge.key = target.key ∧ target.ref.owner ∈ start.ancestors bridge.owner))

include hpass

omit hacyclic hnew hover in
theorem passes_eq_false {s : Progress} (hu : Underway start s) :
    passes target.ref.owner target s.dir bridge = false := by
  rw [passes, (hu.prepared hs).stackOf, ← Bool.not_eq_true, Bool.and_eq_true, beq_iff_eq, List.contains_iff_mem]
  exact hpass

include htarget hcan hb

/-- **A bridge of a subclass waits when the turn comes to its class**, unless the method overrides something by then. -/
theorem waiting_front (hne : target.ref.owner ≠ bridge.owner)
    (horder : start.prepare.resolutionOrder = front ++ bridge.owner :: back) :
    (∃ r, (front.foldl resolveClass ⟨start.prepare, []⟩).dir.Overrides target.ref r) ∨
      ⟨bridge.owner, bridge, target.ref⟩ ∈ (front.foldl resolveClass ⟨start.prepare, []⟩).waiting := by
  have hg : start.Grounded := grounded_of_empty hover
  have habove : TransGen start.Extends bridge.owner target.ref.owner :=
    (reflTransGen_iff_eq_or_transGen.1 (owner_of_mem_findBridges hs hb)).resolve_left hne
  obtain ⟨front, between, rfl⟩ := List.append_of_mem (ancestors_before hs hacyclic hnew horder habove)
  -- the bridge's class has its turn once, after the classes up to that of the method and those between
  have hnodup : (front ++ target.ref.owner :: between ++ bridge.owner :: back).Nodup := by
    rw [← horder, resolutionOrder_prepare]
    exact Graph.nodup_visited _ _ _
  have hnew' : bridge.owner ∉ front ++ target.ref.owner :: between := fun hin =>
    (List.nodup_append.1 hnodup).2.2 _ hin _ List.mem_cons_self rfl
  rw [List.mem_append, List.mem_cons, not_or, not_or] at hnew'
  obtain ⟨hfront, -, hbetween⟩ := hnew'
  have hbridge : bridge.owner ∈ start.prepare.resolutionOrder := horder ▸ List.mem_append_right _ List.mem_cons_self
  rw [List.append_assoc, List.cons_append] at horder
  have hname : target.ref.owner ∈ start.prepare.resolutionOrder := horder ▸ List.mem_append_right _ List.mem_cons_self
  have hu := underway_front hs horder
  have hopen : (front.foldl resolveClass ⟨start.prepare, []⟩).dir.isResolved bridge.owner = false := by
    have hknown := ((mem_resolutionOrder start bridge.owner).1 hbridge).is_inside.1
    have hmarks := isResolved_resolveClasses front ⟨start.prepare, []⟩ bridge.owner
      (((sameClasses_prepare start).known _).2 hknown)
    rwa [isResolved_prepare, hnew, Bool.false_or, List.contains_eq_mem, decide_eq_false hfront] at hmarks
  have hwithin : Within (· ∈ front ++ [target.ref.owner]) (front.foldl resolveClass ⟨start.prepare, []⟩).dir :=
    fun m r hr => (within_front hs hacyclic hnew hover horder m r hr).imp (List.mem_append_left _)
      (List.mem_append_left _)
  have hout : bridge.owner ∉ front ++ [target.ref.owner] := fun hin =>
    (List.mem_append.1 hin).elim hfront fun hin => hne (List.mem_singleton.1 hin).symm
  have hstart := waiting_resolveClass_of_bridge hs hg hu hname (fun a ha => mem_front_of_reach hs hacyclic hnew horder ha)
    hwithin htarget hcan hb hout hne.symm (passes_eq_false hs hpass hu) hopen
  rw [List.foldl_append, List.foldl_cons]
  refine List.foldlRecOn (motive := fun t : Progress => (∃ r, t.dir.Overrides target.ref r) ∨
    ⟨bridge.owner, bridge, target.ref⟩ ∈ t.waiting) between resolveClass hstart fun t ht c hc => ?_
  have hc : bridge.owner ≠ c := fun he => hbetween (he ▸ hc)
  exact ht.imp (fun ⟨r, hr⟩ => ⟨r, Grows.resolveClass t c _ _ hr⟩) fun hw => waiting_resolveClass hw hc

/-- **Every bridge is settled once its class has had its turn.** -/
theorem settled_front (horder : start.prepare.resolutionOrder = front ++ bridge.owner :: back) :
    start.SettledSince (Later back bridge target.ref) (· ∈ front ++ [bridge.owner]) bridge target.ref
      (start.Followed bridge target)
      (resolveClass (front.foldl resolveClass ⟨start.prepare, []⟩) bridge.owner).dir := by
  have hg : start.Grounded := grounded_of_empty hover
  have hname : bridge.owner ∈ start.prepare.resolutionOrder := horder ▸ List.mem_append_right _ List.mem_cons_self
  have hu := underway_front hs horder
  have hinside : ∀ a, ReflTransGen start.Extends bridge.owner a → a ∈ front ++ [bridge.owner] := fun a ha =>
    mem_front_of_reach hs hacyclic hnew horder ha
  have hwithin : Within (· ∈ front ++ [bridge.owner]) (front.foldl resolveClass ⟨start.prepare, []⟩).dir :=
    fun m r hr => (within_front hs hacyclic hnew hover horder m r hr).imp (List.mem_append_left _)
      (List.mem_append_left _)
  by_cases howner : target.ref.owner = bridge.owner
  · have hsettled := settled_resolveClass_self hs hg hu hname hinside hwithin (howner ▸ htarget) hcan hb rfl
      (howner ▸ passes_eq_false hs hpass hu) back
    exact hsettled.imp fun e he => ⟨front, back, horder, .inl ⟨howner, he⟩⟩
  · have hread : start.wasRead bridge.owner = true := by
      obtain ⟨b, hmem, -, -, -, -, -, rfl, -⟩ := mem_findBridges.1 hb
      exact wasRead_of_mem_methodsOf (hs.mem_methods.1 hmem)
    rcases waiting_front hs hacyclic hnew hover htarget hcan hb hpass howner horder with ⟨r, hr⟩ | hw
    · exact .inl ⟨r, Grows.resolveClass _ _ _ _ hr⟩
    · have hsettled := settled_resolveClass hs hg hu hname hinside hwithin hread rfl hw back
      exact hsettled.imp fun e he => ⟨front, back, horder, .inr ⟨howner, he⟩⟩

/-- **Every bridge is settled at some moment of a resolution**, and what is written after it is of the later steps. -/
theorem settled_resolve (horder : start.prepare.resolutionOrder = front ++ bridge.owner :: back) :
    start.SettledSince (Later back bridge target.ref) (· ∈ front ++ [bridge.owner]) bridge target.ref
      (start.Followed bridge target) start.resolve := by
  have hsettled := settled_front hs hacyclic hnew hover htarget hcan hb hpass horder
  have hnext : start.prepare.resolutionOrder = (front ++ [bridge.owner]) ++ back := by
    rw [horder, List.append_assoc, List.singleton_append]
  rw [resolve_eq_foldl hnext, List.foldl_append]
  have hu := underway_front hs hnext
  rw [List.foldl_append] at hu
  have hrun := List.foldlRecOn (motive := fun t : Progress => Underway start t ∧
      start.SettledSince (Later back bridge target.ref) (· ∈ front ++ [bridge.owner]) bridge target.ref
        (start.Followed bridge target) t.dir)
    back resolveClass ⟨hu, hsettled⟩ fun t ht c hc =>
      have hname : c ∈ start.prepare.resolutionOrder := hnext ▸ List.mem_append_right _ hc
      ⟨underway_resolveClass hs ht.1 hname,
        ht.2.later (written_resolveClass hs (grounded_of_empty hover) ht.1 hname fun _ => .inl hc)⟩
  exact hrun.2

end Run

/-! ## A bridge of the method's own class -/

section OwnClass

variable {start : Directory} (hs : start.Sound) (hover : start.overrides = ∅) {front back : List String} {name : String}
  (horder : start.prepare.resolutionOrder = front ++ name :: back) {bridge : MemberRef} {target : Method} {t : Progress}
  (hfollowed : start.FollowedInClass (front.foldl resolveClass ⟨start.prepare, []⟩) name bridge target t)
  (hcan : target.canOverride = true)

include hs hover horder hfollowed hcan

/-- Up to the moment a class has overrides added to its own methods only. -/
theorem underway_followedInClass :
    Underway start t ∧ Written start (fun p c => (p = .link ∨ p = .bridge) ∧ c = name)
      (linkedDirectly (front.foldl resolveClass ⟨start.prepare, []⟩) name).dir t.dir := by
  obtain ⟨before, after, earlier, later, hsplit, hbridges, rfl⟩ := hfollowed
  have hg : start.Grounded := grounded_of_empty hover
  have hname : name ∈ start.prepare.resolutionOrder := horder ▸ List.mem_append_right _ List.mem_cons_self
  have hbefore := List.foldlRecOn (motive := fun t : Progress => Underway start t ∧
      Written start (fun p c => (p = .link ∨ p = .bridge) ∧ c = name)
        (linkedDirectly (front.foldl resolveClass ⟨start.prepare, []⟩) name).dir t.dir) before (linkBridges name)
    ⟨underway_linkedDirectly hs (underway_front hs horder) hname, .begin⟩ fun t ht m hm =>
      have hm : m ∈ start.methodsOf name := hsplit ▸ List.mem_append_left _ hm
      ⟨underway_linkBridges hs ht.1 hname hm, ht.2.trans (written_linkBridges hs hg ht.1 hname hm ⟨.inr rfl, rfl⟩)⟩
  have htarget : target ∈ start.methodsOf name := hsplit ▸ List.mem_append_right _ List.mem_cons_self
  exact List.foldlRecOn (motive := fun t : Progress => Underway start t ∧
      Written start (fun p c => (p = .link ∨ p = .bridge) ∧ c = name)
        (linkedDirectly (front.foldl resolveClass ⟨start.prepare, []⟩) name).dir t.dir) earlier (linkBridge name target)
    hbefore fun t ht b hb =>
      have hb : (b, target.ref) ∈ start.findBridges :=
        mem_bridgesTo.1 (hbridges ▸ List.mem_append_left _ hb : b ∈ start.prepare.bridgesTo target.ref)
      ⟨ht.1.linkBridge hname htarget hcan hb, ht.2.trans (written_linkBridge hs hg ht.1 htarget ⟨.inr rfl, rfl⟩ hb)⟩

/-- What a class has written up to the moment, from the directory that it began with. -/
theorem written_followedInClass :
    Written start (fun p c => (p = .link ∨ p = .bridge) ∧ c = name) (front.foldl resolveClass ⟨start.prepare, []⟩).dir
      t.dir :=
  have hname : name ∈ start.prepare.resolutionOrder := horder ▸ List.mem_append_right _ List.mem_cons_self
  (written_linkedDirectly hs (grounded_of_empty hover) (underway_front hs horder) hname ⟨.inl rfl, rfl⟩).trans
    (underway_followedInClass hs hover horder hfollowed hcan).2

omit hs hover hfollowed hcan in
/-- A class has its turn once. -/
theorem not_mem_front : name ∉ front := fun hin => by
  have hnodup : (front ++ name :: back).Nodup := by
    rw [← horder, resolutionOrder_prepare]
    exact Graph.nodup_visited _ _ _
  exact (List.nodup_append.1 hnodup).2.2 _ hin _ List.mem_cons_self rfl

variable (hacyclic : start.SupertypesAcyclic) (hnew : ∀ name, start.isResolved name = false)

include hacyclic hnew

/-- Methods of classes that have had their turn lead to such methods only. -/
theorem front_of_reach {a b : MemberRef} (ha : a.owner ∈ front) (hab : ReflTransGen t.dir.Overrides a b) :
    b.owner ∈ front := by
  induction hab with
  | refl => exact ha
  | @tail x y _ hxy ih =>
    rcases (written_followedInClass hs hover horder hfollowed hcan).gained hxy with hold | hreason
    · exact (within_front hs hacyclic hnew hover horder x y hold).2
    · -- an override that the class has added is one of its own methods
      refine absurd ih ?_
      cases hreason with
      | linked hmay _ _ => exact hmay.2 ▸ not_mem_front horder
      | bridged hmay _ _ => exact hmay.2 ▸ not_mem_front horder
      | satisfied hmay _ => rcases hmay.1 with h | h <;> cases h
      | merged hmay _ _ => rcases hmay.1 with h | h <;> cases h

/-- **A method to which a settled bridge of its own class leads could not be linked directly**: it belongs to that class,
and no method above it with its key can be overridden. -/
theorem unlinked_of_settled (hbridge : bridge.owner = name) (hsettled : t.dir.Settled bridge target.ref) {m : Method}
    (hm : m ∈ start.methodsOf m.ref.owner) (hmcan : m.canOverride = true)
    (hreach : ReflTransGen t.dir.Overrides bridge m.ref) :
    m.ref.owner = name ∧ start.nearestOverridable? (start.ancestors name) m.key = none := by
  have hname : name ∈ start.prepare.resolutionOrder := horder ▸ List.mem_append_right _ List.mem_cons_self
  have hground := (underway_followedInClass hs hover horder hfollowed hcan).1.grounded hs (grounded_of_empty hover)
  have htarget : target.ref.owner = name := by
    obtain ⟨before, after, -, -, hsplit, -⟩ := hfollowed
    exact hs.owner (hsplit ▸ List.mem_append_right _ List.mem_cons_self)
  -- a method of a class above would lead to another root
  have hnone : ∀ a, ReflTransGen t.dir.Overrides bridge a → a.owner ∉ front := fun a ha hin => by
    obtain ⟨y, hend, hy⟩ := hground.exists_root a
    have hyfront := front_of_reach hs hover horder hfollowed hcan hacyclic hnew hin hy
    rcases hsettled y (hground.mem_rootSet.2 ⟨hend, ha.trans hy⟩) with rfl | rfl
    · exact not_mem_front horder (hbridge ▸ hyfront)
    · exact not_mem_front horder (htarget ▸ hyfront)
  have hwithin : Within (· ∈ front ++ [name]) t.dir :=
    (written_followedInClass hs hover horder hfollowed hcan).within hs
      (fun _ _ ⟨_, hc⟩ a ha => mem_front_of_reach hs hacyclic hnew horder (hc ▸ ha))
      fun m r hr => (within_front hs hacyclic hnew hover horder m r hr).imp (List.mem_append_left _)
        (List.mem_append_left _)
  have howner : m.ref.owner = name := by
    have hin := hwithin.reach (hbridge ▸ List.mem_append_right _ List.mem_cons_self) hreach
    exact List.mem_singleton.1 ((List.mem_append.1 hin).resolve_left (hnone _ hreach))
  refine ⟨howner, Option.eq_none_iff_forall_ne_some.2 fun p hp => ?_⟩
  obtain ⟨x, hmx, hpx⟩ := (meet_linkedDirectly hs (grounded_of_empty hover) (underway_front hs horder) hname
    (howner ▸ hm) hmcan hp).mono (underway_followedInClass hs hover horder hfollowed hcan).2.grows
  obtain ⟨c, hc, hpc, -⟩ := nearestOverridable?_some hs hp
  have hpfront : p.ref.owner ∈ front := by
    rw [hs.owner hpc]
    exact ancestors_before hs hacyclic hnew horder ((mem_ancestors hs).1 hc).2
  exact hnone x (hreach.trans hmx) (front_of_reach hs hover horder hfollowed hcan hacyclic hnew hpfront hpx)

end OwnClass

/-- What a settled bridge of the method's own class leads to when it is followed could not be linked directly. -/
theorem unlinked_of_followed {start : Directory} (hs : start.Sound) (hover : start.overrides = ∅)
    (hacyclic : start.SupertypesAcyclic) (hnew : ∀ name, start.isResolved name = false) {bridge : MemberRef}
    {target m : Method} {e : Directory} (hfollowed : start.Followed bridge target e)
    (howner : target.ref.owner = bridge.owner) (hcan : target.canOverride = true)
    (hsettled : e.Settled bridge target.ref) (hm : m ∈ start.methodsOf m.ref.owner) (hmcan : m.canOverride = true)
    (hreach : ReflTransGen e.Overrides bridge m.ref) :
    m.ref.owner = bridge.owner ∧ start.nearestOverridable? (start.ancestors bridge.owner) m.key = none := by
  obtain ⟨_, _, horder, ⟨-, t, ht, rfl⟩ | ⟨hother, -⟩⟩ := hfollowed
  · exact unlinked_of_settled hs hover horder ht hcan hacyclic hnew rfl hsettled hm hmcan hreach
  · exact absurd howner hother

/-! ## Later roots -/

theorem Grounded.roots_eq_singleton {d : Directory} (h : d.Grounded) {m t : MemberRef} (hall : ∀ x ∈ d.rootSet m, x = t) :
    d.roots m = [t] := by
  have hset : d.rootSet m = ExtTreeSet.ofList [t] := ExtTreeSet.ext_mem fun x => by
    rw [mem_ofList_iff, List.mem_singleton]
    refine ⟨hall x, ?_⟩
    rintro rfl
    obtain ⟨y, hy⟩ := h.exists_root m
    exact hall y (h.mem_rootSet.2 hy) ▸ h.mem_rootSet.2 hy
  rw [roots, hset]
  rfl

/-- A new chain of overrides follows old ones up to the first that is new. -/
theorem exists_new_edge {d e : Directory} {a x : MemberRef} (h : ReflTransGen e.Overrides a x) :
    ReflTransGen d.Overrides a x ∨
      ∃ m r, ReflTransGen d.Overrides a m ∧ e.Overrides m r ∧ ¬ d.Overrides m r ∧ ReflTransGen e.Overrides r x := by
  induction h using ReflTransGen.head_induction_on with
  | refl => exact .inl .refl
  | @head a b hab hbx ih =>
    by_cases hold : d.Overrides a b
    · exact ih.imp (.head hold) fun ⟨m, r, hm, hr, hnew, hx⟩ => ⟨m, r, .head hold hm, hr, hnew, hx⟩
    · exact .inr ⟨a, b, .refl, hab, hold, hbx⟩

/-- A root that a bridge has got since it was settled is reached over a new override of a method that it led to before. -/
theorem exists_new_override {d e : Directory} (he : e.Grounded) (hd : d.Grounded) (hgrows : e.Grows d)
    {bridge target x : MemberRef} (hsettled : e.Settled bridge target) (hb : bridge ∈ d.overrides)
    (hx : x ∈ d.rootSet bridge) (hne : x ≠ target) :
    ∃ m r, ReflTransGen e.Overrides bridge m ∧ d.Overrides m r ∧ ¬ e.Overrides m r ∧ ReflTransGen d.Overrides r x := by
  obtain ⟨hend, hp⟩ := hd.mem_rootSet.1 hx
  refine (exists_new_edge (d := e) hp).resolve_left fun hold => ?_
  have hend' : x ∉ e.overrides := fun hin => by
    obtain ⟨r, hr⟩ := he.nonempty x hin
    exact hend (hgrows _ _ hr).mem
  rcases hsettled x (he.mem_rootSet.2 ⟨hend', hold⟩) with rfl | rfl
  · exact hend hb
  · exact hne rfl

theorem not_mem_ancestors_of_reach {d : Directory} (hs : d.Sound) (hacyclic : d.SupertypesAcyclic) {c b : String}
    (h : ReflTransGen d.Extends c b) : c ∉ d.ancestors b := fun hin =>
  hacyclic b (((mem_ancestors hs).1 hin).2.trans_left h)

/-- **Why a method that has had its turn comes to override more**, when a bridge has been settled: some class satisfies a
declaration, or another bridge is followed; and neither is of a class above the bridge's. -/
theorem Reason.of_later {start d : Directory} (hs : start.Sound) (hacyclic : start.SupertypesAcyclic)
    (hnew : ∀ name, start.isResolved name = false) {front back : List String} {bridge target m r : MemberRef}
    (horder : start.prepare.resolutionOrder = front ++ bridge.owner :: back) (hm : m.owner ∈ front ++ [bridge.owner])
    (h : Reason start (Later back bridge target) d m r) :
    (∃ c ∈ start.prepare.resolutionOrder, c ∉ start.ancestors bridge.owner ∧ (c = bridge.owner → c = target.owner) ∧
        start.Satisfies c (c :: start.ancestors c) m r) ∨
      ∃ other, (other, m) ∈ start.findBridges ∧ other.owner ∉ start.ancestors bridge.owner ∧
        TransGen d.Overrides other r := by
  have hnodup : (front ++ [bridge.owner] ++ back).Nodup := by
    rw [List.append_assoc, List.singleton_append, ← horder, resolutionOrder_prepare]
    exact Graph.nodup_visited _ _ _
  have hapart : ∀ c ∈ front ++ [bridge.owner], c ∉ back := fun c hc hb => (List.nodup_append.1 hnodup).2.2 c hc c hb rfl
  have hself : bridge.owner ∉ start.ancestors bridge.owner := not_mem_ancestors_of_reach hs hacyclic .refl
  have hback : ∀ c ∈ back, c ∉ start.ancestors bridge.owner := fun c hc hin =>
    hapart c (mem_front_of_reach hs hacyclic hnew horder ((mem_scope hs).1 (List.mem_cons_of_mem _ hin))) hc
  cases h with
  | linked hlater _ _ =>
    rcases hlater with hin | ⟨-, hp | ⟨-, hp⟩⟩
    · exact absurd hin (hapart _ hm)
    · cases hp
    · exact absurd rfl hp
  | @bridged other hlater hb hr =>
    rcases hlater with hin | ⟨howner, -⟩
    · exact absurd hin (hapart _ hm)
    · -- the other bridge is of the same class, or of one below
      exact .inr ⟨other, hb, not_mem_ancestors_of_reach hs hacyclic (howner ▸ owner_of_mem_findBridges hs hb), hr⟩
  | @satisfied c hlater hsat =>
    rcases hlater with hin | ⟨rfl, hp | ⟨htarget, -⟩⟩
    · refine .inl ⟨c, horder ▸ List.mem_append_right _ (List.mem_cons_of_mem _ hin), hback c hin, fun he => ?_, hsat⟩
      exact absurd hin (hapart c (he ▸ List.mem_append_right _ List.mem_cons_self))
    · cases hp
    · exact .inl ⟨_, horder ▸ List.mem_append_right _ List.mem_cons_self, hself, fun _ => htarget, hsat⟩
  | @merged other hlater hb hr =>
    rcases hlater with hin | ⟨howner, -⟩
    · exact .inr ⟨other, hb, hback _ hin, hr⟩
    · exact .inr ⟨other, hb, howner ▸ hself, hr⟩

/-- **A bridge has got a root since it was followed**, at the moment `e`.  It had no root then but itself and the target;
now it leads over a method to which it led then, and over an override of that method which was not there then, to another
root.  Either a class that is not above the bridge's satisfies an abstract declaration so; this class is the bridge's only
where the target and that method belong to it too, and no method above it with that key can be overridden, so that the
declaration was not linked directly.  Or another bridge forwards to that method, one of a class that is not above the
bridge's, and leads to the same. -/
structure GainedSince (e d : Directory) (bridge target : MemberRef) : Prop where
  settled : e.Settled bridge target
  gained : ∃ m r x, ReflTransGen e.Overrides bridge m ∧ d.Overrides m r ∧ ¬ e.Overrides m r ∧
    x ∈ d.rootsOf r ∧ x ≠ target ∧
      ((∃ c, d.isResolved c = true ∧ c ∉ d.stackOf bridge.owner ∧
          (c = bridge.owner → c = target.owner ∧ c = m.owner ∧ d.nearestOverridable? (d.stackOf c) m.key = none) ∧
          d.Satisfies c (c :: d.stackOf c) m r) ∨
        ∃ other, d.bridgedBy? other = some m ∧ other.owner ∉ d.stackOf bridge.owner ∧ TransGen d.Overrides other r)

theorem Satisfies.of_sameClasses {d e : Directory} {c : String} {scope : List String} {m r : MemberRef}
    (hsame : d.SameClasses e) (h : d.Satisfies c scope m r) : e.Satisfies c scope m r := by
  unfold Satisfies IsFirstConcrete IsFirst at h ⊢
  rwa [accessOf, hsame.declaration, ← accessOf, funext hsame.methodsOf]

/-- A later reason is one that can be told from the resolved directory. -/
theorem gained_of_later {start : Directory} (hs : start.Sound) (hacyclic : start.SupertypesAcyclic)
    (hnew : ∀ name, start.isResolved name = false) {front back : List String} {bridge target m r : MemberRef}
    (horder : start.prepare.resolutionOrder = front ++ bridge.owner :: back) (hm : m.owner ∈ front ++ [bridge.owner])
    (h : Reason start (Later back bridge target) start.resolve m r) :
    (∃ c, start.resolve.isResolved c = true ∧ c ∉ start.resolve.stackOf bridge.owner ∧
        (c = bridge.owner → c = target.owner) ∧ start.resolve.Satisfies c (c :: start.resolve.stackOf c) m r) ∨
      ∃ other, start.resolve.bridgedBy? other = some m ∧ other.owner ∉ start.resolve.stackOf bridge.owner ∧
        TransGen start.resolve.Overrides other r := by
  have hprepared : start.Prepared start.resolve := prepared_resolve hs
  rcases h.of_later hs hacyclic hnew horder hm with ⟨c, hc, habove, hself, hsat⟩ | ⟨other, hb, habove, hr⟩
  · refine .inl ⟨c, ?_, ?_, hself, ?_⟩
    · rwa [isResolved_resolve hs hnew, List.contains_iff_mem]
    · rwa [hprepared.stackOf]
    · rw [hprepared.stackOf]
      exact hsat.of_sameClasses hprepared.same
  · refine .inr ⟨other, (bridgedBy?_eq_some hs fun p => by rw [hprepared.bridges]).2 hb, ?_, hr⟩
    rwa [hprepared.stackOf]

/-- **The roots of a bridge are given to the method that it forwards to, once**: after classes that do not inherit from
each other in a circle were taken in and resolved, take a method that can override others and overrides nothing, and a
bridge to it, which is no method with its key in a subclass; both of resolved classes.  Then the bridge overrides nothing,
or has the method as its only root, or had no other root when it was followed and has got one since. -/
theorem bridge_settled_or_gained (classes : List (ClassFile × Bool))
    (hacyclic : (empty.takeAll classes).SupertypesAcyclic) :
    let d := (empty.takeAll classes).resolve
    ∀ target ∈ d.methods, d.isResolved target.ref.owner = true → target.canOverride = true →
      d.overridesOf target.ref = ∅ → ∀ bridge, d.bridgedBy? bridge = some target.ref →
        d.isResolved bridge.owner = true →
        ¬ (bridge.key = target.key ∧ target.ref.owner ∈ d.stackOf bridge.owner) →
          d.overridesOf bridge = ∅ ∨ d.rootsOf bridge = [target.ref] ∨
            ∃ e, (empty.takeAll classes).Followed bridge target e ∧ e.GainedSince d bridge target.ref := by
  intro d target htarget _ hcan hnone bridge hb hresolved hpass
  have hs : (empty.takeAll classes).Sound := sound_empty.takeAll classes
  have hover : (empty.takeAll classes).overrides = ∅ := overrides_takeAll empty classes
  have hnew : ∀ name, (empty.takeAll classes).isResolved name = false := fun name =>
    isResolved_takeAll classes (isResolved_empty name)
  have hprepared : (empty.takeAll classes).Prepared d := prepared_resolve hs
  have hsound : d.Sound := hprepared.sound hs
  have hground : d.Grounded := grounded_resolve hs (grounded_of_empty hover)
  have hbridge : (bridge, target.ref) ∈ (empty.takeAll classes).findBridges :=
    (bridgedBy?_eq_some hs fun p => by rw [hprepared.bridges]).1 hb
  rw [isResolved_resolve hs hnew, List.contains_iff_mem] at hresolved
  have hroots : ∀ m, d.rootsOf m = d.roots m := fun m => by rw [rootsOf, hprepared.keptRoots, ExtTreeMap.getD_empty]
  have hmem : target ∈ (empty.takeAll classes).methodsOf target.ref.owner := by
    rw [← hprepared.same.methodsOf]
    exact hsound.mem_methods.1 htarget
  rw [hprepared.stackOf] at hpass
  obtain ⟨front, back, horder⟩ := List.append_of_mem hresolved
  have hsettled := settled_resolve hs hacyclic hnew hover hmem hcan hbridge hpass horder
  rcases hsettled with ⟨r, hr⟩ | ⟨e, hmoment, he, hsettled, hwithin, hwritten⟩
  · exact absurd hr.mem (hground.overridesOf_eq_empty.1 hnone)
  by_cases hbover : bridge ∈ d.overrides
  · right
    by_cases hall : ∀ x ∈ d.rootSet bridge, x = target.ref
    · exact .inl ((hroots _).trans (hground.roots_eq_singleton hall))
    · right
      obtain ⟨x, hx⟩ := not_forall.1 hall
      obtain ⟨hx, hne⟩ := Classical.not_imp.1 hx
      obtain ⟨m, r, hm, hr, hgained, hp⟩ := exists_new_override he hground hwritten.grows hsettled hbover hx hne
      have howner := hwithin.reach (List.mem_append_right _ List.mem_cons_self) hm
      have hreason := gained_of_later hs hacyclic hnew horder howner ((hwritten.gained hr).resolve_left hgained)
      have hx' : x ∈ d.rootsOf r := by
        rw [hroots, mem_roots, hground.mem_rootSet]
        exact ⟨(hground.mem_rootSet.1 hx).1, hp⟩
      refine ⟨e, hmoment, hsettled, m, r, x, hm, hr, hgained, hx', hne, hreason.imp_left ?_⟩
      rintro ⟨c, hc, habove, hself, hsat⟩
      refine ⟨c, hc, habove, fun heq => ⟨hself heq, ?_⟩, hsat⟩
      obtain ⟨-, first, decl, ⟨_, a, _, -, hfirst, -, hconcrete, -⟩, -, -, rfl, -⟩ := hsat
      rw [hprepared.stackOf, nearestOverridable?_congr hprepared.same]
      rw [Bool.and_eq_true] at hconcrete
      have hfirst : first ∈ (empty.takeAll classes).methodsOf first.ref.owner := by
        rw [← hprepared.same.methodsOf, hsound.owner hfirst]
        exact hfirst
      obtain ⟨hown, hunlinked⟩ := unlinked_of_followed hs hover hacyclic hnew hmoment ((hself heq).symm.trans heq) hcan
        hsettled hfirst hconcrete.2 hm
      exact ⟨heq.trans hown.symm, heq ▸ hunlinked⟩
  · exact .inl (overridesOf_of_not_mem hbover)

/-! ## Two bridges that get another root later -/

/-- Every bridge to a method that overrides nothing overrides nothing itself, or has the method as its only root. -/
def BridgeRootsKept (d : Directory) : Prop :=
  ∀ target ∈ d.methods, d.isResolved target.ref.owner = true → target.canOverride = true →
    d.overridesOf target.ref = ∅ → ∀ bridge, d.bridgedBy? bridge = some target.ref → d.isResolved bridge.owner = true →
      ¬ (bridge.key = target.key ∧ target.ref.owner ∈ d.stackOf bridge.owner) →
        d.overridesOf bridge = ∅ ∨ d.rootsOf bridge = [target.ref]

/-- A method that does nothing. -/
def idle (name : String) : Member :=
  ⟨0x0001, name, "()V", some ⟨0, 1, [.ret 0xb1]⟩⟩

/-- A method that forwards to another. -/
def forwarder (name owner target : String) : Member :=
  ⟨0x1041, name, "()V", some ⟨1, 1, [.slot Opcode.aload 0, .call 0xb6 ⟨owner, target, "()V"⟩ false, .ret 0xb1]⟩⟩

/-- An interface that asks for a method. -/
def asksFor (name : String) : ClassFile :=
  { asksForMethod with methods := [⟨0x0401, name, "()V", none⟩] }

/-- A class without a superclass that has two methods, one of them a bridge to the other. -/
def withBridge (name : String) : ClassFile :=
  { withMethod name none with methods := [idle "a", forwarder "b" name "a"] }

/-- A subclass of a class with a bridge implements an interface by the bridge. -/
def lateInterface : List (ClassFile × Bool) :=
  [(withBridge "P", true), (asksFor "b", true), (adapter "Q", true)]

/-- The subclass after its resolution. -/
def resolvedLate : Directory :=
  (empty.takeAll lateInterface).resolve

/-- A bridge to a bridge, each in a class of its own; the last implements an interface. -/
def bridgeChain : List (ClassFile × Bool) :=
  [({ withMethod "A" none with methods := [idle "a"] }, true),
    ({ withMethod "P" (some "A") with methods := [forwarder "b" "A" "a"] }, true), (asksFor "c", true),
    ({ adapter "Q" with methods := [forwarder "c" "P" "b"] }, true)]

/-- The chain after its resolution. -/
def resolvedChain : Directory :=
  (empty.takeAll bridgeChain).resolve

theorem acyclic_lateInterface : (empty.takeAll lateInterface).SupertypesAcyclic :=
  (acyclic_iff (sound_empty.takeAll _)).2 (by cbv)

theorem mem_methods_late : ⟨⟨"P", "a", "()V"⟩, 0x0001, false, none, some [.ret 0xb1]⟩ ∈ resolvedLate.methods := by
  have hsound : resolvedLate.Sound := (prepared_resolve (sound_empty.takeAll _)).sound (sound_empty.takeAll _)
  have hmethods : (resolvedLate.methodsOf "P").head? =
      some ⟨⟨"P", "a", "()V"⟩, 0x0001, false, none, some [.ret 0xb1]⟩ := by cbv
  exact hsound.mem_methods.2 (List.mem_of_mem_head? hmethods)

theorem isResolved_late : resolvedLate.isResolved "P" = true := by
  cbv

theorem bridgedBy?_late : resolvedLate.bridgedBy? ⟨"P", "b", "()V"⟩ = some ⟨"P", "a", "()V"⟩ := by
  cbv

theorem overridesOf_late : resolvedLate.overridesOf ⟨"P", "a", "()V"⟩ = ∅ ∧
    (resolvedLate.overridesOf ⟨"P", "b", "()V"⟩).contains ⟨"I", "b", "()V"⟩ = true := by
  constructor
  · cbv
  · cbv

theorem rootsOf_late : resolvedLate.rootsOf ⟨"P", "b", "()V"⟩ = [⟨"I", "b", "()V"⟩] := by
  cbv

theorem acyclic_bridgeChain : (empty.takeAll bridgeChain).SupertypesAcyclic :=
  (acyclic_iff (sound_empty.takeAll _)).2 (by cbv)

theorem mem_methods_chain : ⟨⟨"A", "a", "()V"⟩, 0x0001, false, none, some [.ret 0xb1]⟩ ∈ resolvedChain.methods := by
  have hsound : resolvedChain.Sound := (prepared_resolve (sound_empty.takeAll _)).sound (sound_empty.takeAll _)
  have hmethods : (resolvedChain.methodsOf "A").head? =
      some ⟨⟨"A", "a", "()V"⟩, 0x0001, false, none, some [.ret 0xb1]⟩ := by cbv
  exact hsound.mem_methods.2 (List.mem_of_mem_head? hmethods)

theorem isResolved_chain : resolvedChain.isResolved "A" = true ∧ resolvedChain.isResolved "P" = true := by
  constructor
  · cbv
  · cbv

theorem bridgedBy?_chain : resolvedChain.bridgedBy? ⟨"P", "b", "()V"⟩ = some ⟨"A", "a", "()V"⟩ := by
  cbv

theorem overridesOf_chain : resolvedChain.overridesOf ⟨"A", "a", "()V"⟩ = ∅ ∧
    (resolvedChain.overridesOf ⟨"P", "b", "()V"⟩).contains ⟨"I", "c", "()V"⟩ = true := by
  constructor
  · cbv
  · cbv

theorem rootsOf_chain : resolvedChain.rootsOf ⟨"P", "b", "()V"⟩ = [⟨"I", "c", "()V"⟩] := by
  cbv

theorem ne_empty_of_contains {s : MethodSet} {m : MemberRef} (h : s.contains m = true) : s ≠ ∅ := fun he =>
  ExtTreeSet.not_mem_empty (he ▸ ExtTreeSet.contains_iff_mem.1 h)

/-- The bridge has got a root since it was followed, over the subclass that implements the interface by it. -/
theorem late_interface_gained : ∃ e, (empty.takeAll lateInterface).Followed ⟨"P", "b", "()V"⟩
    ⟨⟨"P", "a", "()V"⟩, 0x0001, false, none, some [.ret 0xb1]⟩ e ∧
      e.GainedSince resolvedLate ⟨"P", "b", "()V"⟩ ⟨"P", "a", "()V"⟩ := by
  rcases bridge_settled_or_gained lateInterface acyclic_lateInterface _ mem_methods_late isResolved_late (by decide)
    overridesOf_late.1 _ bridgedBy?_late isResolved_late (fun h => absurd h.1 (by decide)) with hnone | hroots | hgained
  · exact absurd hnone (ne_empty_of_contains overridesOf_late.2)
  · rw [← resolvedLate, rootsOf_late] at hroots
    exact absurd hroots (by decide)
  · exact hgained

/-- **Roots that a bridge gets later are not given on**: neither where a subclass implements an interface by it, nor where
it gets them from another bridge. -/
theorem bridge_roots_lost :
    ((empty.takeAll lateInterface).SupertypesAcyclic ∧ ¬ BridgeRootsKept resolvedLate) ∧
      (empty.takeAll bridgeChain).SupertypesAcyclic ∧ ¬ BridgeRootsKept resolvedChain := by
  refine ⟨⟨acyclic_lateInterface, fun h => ?_⟩, acyclic_bridgeChain, fun h => ?_⟩
  · rcases h _ mem_methods_late isResolved_late (by decide) overridesOf_late.1 _ bridgedBy?_late isResolved_late
      (fun h => absurd h.1 (by decide)) with hnone | hroots
    · exact ne_empty_of_contains overridesOf_late.2 hnone
    · rw [rootsOf_late] at hroots
      exact absurd hroots (by decide)
  · rcases h _ mem_methods_chain isResolved_chain.1 (by decide) overridesOf_chain.1 _ bridgedBy?_chain
      isResolved_chain.2 (fun h => absurd h.1 (by decide)) with hnone | hroots
    · exact ne_empty_of_contains overridesOf_chain.2 hnone
    · rw [rootsOf_chain] at hroots
      exact absurd hroots (by decide)

end Directory
end RenameAudit
