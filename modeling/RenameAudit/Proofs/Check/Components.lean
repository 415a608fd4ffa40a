import RenameAudit.Proofs.Check.QuickWithinClosure
/-!
# Proofs.Check.Components — the closure reports the connected groups with more than one new name

`Joined d` pairs the methods that have to share a new name, as the classes and their ancestors say it: a class under audit
joins the exposed methods that it and its ancestors have with one key (`Offers`), and for each forwarding method those
with its key and those with the key that it forwards to.  The mismatches that the closure reports are the connected
components of these pairs in which there is more than one new name, each with its methods by new name (`Lists`):
`closure_exact`.
-/
namespace RenameAudit
namespace OverrideNames

open Std Relation Directory DisjointSets

/-! ## Which methods have to share a new name -/

/-- A class or one of its ancestors has an exposed method with a key. -/
def Offers (d : Directory) (c k : String) (r : MemberRef) : Prop :=
  ∃ n ∈ c :: d.stackOf c, ∃ m ∈ d.methodsOf n, isExposed m = true ∧ m.key = k ∧ m.ref = r

/-- A class joins the methods that it offers with one key, and those with the key of a forwarding method to those with the
key of the method that this one forwards to. -/
inductive Joins (d : Directory) (c : String) : MemberRef → MemberRef → Prop where
  | key {k : String} {u v : MemberRef} : Offers d c k u → Offers d c k v → Joins d c u v
  | bounce {n : String} {b : Method} {target u v : MemberRef} : n ∈ c :: d.stackOf c → b ∈ d.methodsOf n →
      isExposed b = true → bounceTarget? d b = some target → Offers d c b.key u → Offers d c target.key v → Joins d c u v

/-- A class under audit joins two methods. -/
def Joined (d : Directory) (u v : MemberRef) : Prop :=
  ∃ c ∈ d.owned, Joins d c u v

/-- A connected component: the methods that pairs of joined methods connect with one that a class under audit offers. -/
def IsComponent (d : Directory) (component : Set MemberRef) : Prop :=
  ∃ a, (∃ c ∈ d.owned, ∃ k, Offers d c k a) ∧ ∀ r, r ∈ component ↔ EqvGen (Joined d) a r

/-- The methods of a component have more than one new name. -/
def IsInconsistent (ctx : CheckContext) (component : Set MemberRef) : Prop :=
  ∃ a ∈ component, ∃ b ∈ component, ctx.mappedMethod a ≠ ctx.mappedMethod b

/-- **Groups list methods**: there is one for each of their new names, in ascending order, and each has the methods with
its name by owner, name and descriptor. -/
structure Lists (ctx : CheckContext) (groups : List MappedGroup) (component : Set MemberRef) : Prop where
  ascending : groups.Pairwise fun g h => g.mapped < h.mapped
  covers : ∀ r ∈ component, ∃ g ∈ groups, g.mapped = ctx.mappedMethod r
  methods : ∀ g ∈ groups, ∃ refs : List MemberRef, refs ≠ [] ∧ refs.Pairwise MemberRef.Precedes ∧
    (∀ r, r ∈ refs ↔ r ∈ component ∧ ctx.mappedMethod r = g.mapped) ∧ g.methods = refs.map (·.text)

/-! ## Lists of groups -/

section Lists

variable {ctx : CheckContext} {groups groups' : List MappedGroup} {component component' : Set MemberRef}

/-- **Methods are listed in one way only.** -/
theorem Lists.unique (h : Lists ctx groups component) (h' : Lists ctx groups' component) : groups = groups' := by
  have hsub : ∀ {groups groups' : List MappedGroup}, Lists ctx groups component → Lists ctx groups' component →
      ∀ g ∈ groups, g ∈ groups' := by
    intro groups groups' h h' g hg
    obtain ⟨refs, hne, hsorted, hrefs, hmethods⟩ := h.methods g hg
    obtain ⟨r, hr⟩ := List.exists_mem_of_ne_nil refs hne
    obtain ⟨g', hg', hmapped⟩ := h'.covers r ((hrefs r).1 hr).1
    obtain ⟨refs', -, hsorted', hrefs', hmethods'⟩ := h'.methods g' hg'
    have hsame : g'.mapped = g.mapped := hmapped.trans ((hrefs r).1 hr).2
    have heq : refs = refs' := eq_of_ascending (fun _ _ h => h.not_symm) hsorted hsorted' fun x => by
      rw [hrefs, hrefs', hsame]
    have : g' = g := by
      cases g
      cases g'
      simp_all
    exact this ▸ hg'
  exact eq_of_ascending (fun _ _ => String.lt_asymm) h.ascending h'.ascending fun g => ⟨hsub h h' g, hsub h' h g⟩

/-- **What a mismatch says lists the methods that were looked at.** -/
theorem lists_groupsOf (ctx : CheckContext) (methods : List MemberRef) :
    Lists ctx (groupsOf ctx methods) {r | r ∈ methods} := by
  refine ⟨?_, fun r hr => ?_, fun g hg => ?_⟩
  · rw [groupsOf, List.pairwise_map]
    exact ExtTreeMap.ordered_keys_toList.imp fun h => compare_string_eq_lt.1 h
  · obtain ⟨g, hg, hmapped, -⟩ := exists_group ctx hr
    exact ⟨g, hg, hmapped⟩
  · obtain ⟨set, hset, hmethods⟩ := mem_groupsOf.1 hg
    have hmem : ∀ r, r ∈ set ↔ r ∈ methods ∧ ctx.mappedMethod r = g.mapped := fun r => by
      rw [← mem_byMappedName, ExtTreeMap.getD_eq_getD_getElem?, hset]
      rfl
    refine ⟨set.toList, ?_, ?_, fun r => ?_, hmethods⟩
    · obtain ⟨r, hr⟩ := exists_mem_byMappedName hset
      exact List.ne_nil_of_mem (ExtTreeSet.mem_toList.2 hr)
    · exact ExtTreeSet.ordered_toList.imp MemberRef.compare_eq_lt.1
    · rw [ExtTreeSet.mem_toList, hmem]
      rfl

end Lists

/-! ## Components -/

section Acyclic

variable {d : Directory} (h : d.Sound) (hstack : ∀ name, d.stackOf name = d.ancestors name)

include h hstack

theorem offers_iff {c k : String} {r : MemberRef} : Offers d c k r ↔ Exposes d c k r := by
  simp only [Offers, Exposes, ShowsMethod, hstack, mem_scope h]

variable (hacyclic : d.SupertypesAcyclic)

include hacyclic

theorem grouped_iff {r : MemberRef} : Grouped d r ↔ ∃ c ∈ d.owned, ∃ k, Offers d c k r := by
  refine exists_congr fun c => and_congr_right fun hc => exists_congr fun k => ?_
  rw [offers_iff h hstack]
  exact (exposures_shows h hacyclic hc).methods k r

/-- **What the exposures of a class put together is what it joins.** -/
theorem together_iff {c : String} (hc : c ∈ d.owned) {u v : MemberRef} :
    Together (exposureAt d c) u v ↔ Joins d c u v := by
  have hshows := exposures_shows h hacyclic hc
  have hmethods : ∀ k r, r ∈ (exposureAt d c).methods.ofKey k ↔ Offers d c k r := fun k r => by
    rw [offers_iff h hstack]
    exact hshows.methods k r
  constructor
  · rintro (⟨hu, hv⟩ | ⟨hk, hu, hv⟩)
    · exact .key ((hmethods _ u).1 hu) ((hmethods _ v).1 hv)
    · obtain ⟨n, hn, b, hb, hexp, rfl, target, ht, rfl⟩ := (hshows.bounces _ _).1 hk
      rw [← mem_scope h, ← hstack] at hn
      exact .bounce hn hb hexp ht ((hmethods _ u).1 hu) ((hmethods _ v).1 hv)
  · rintro (⟨hu, hv⟩ | ⟨hn, hb, hexp, ht, hu, hv⟩)
    · exact .key ((hmethods _ u).2 hu) ((hmethods _ v).2 hv)
    · rw [hstack, mem_scope h] at hn
      exact .bounce ((hshows.bounces _ _).2 ⟨_, hn, _, hb, hexp, rfl, _, ht, rfl⟩) ((hmethods _ u).2 hu)
        ((hmethods _ v).2 hv)

theorem linked_eq_joined : Linked d = Joined d := by
  funext u v
  exact propext (exists_congr fun c => and_congr_right fun hc => together_iff h hstack hacyclic hc)

/-- **The sets of the groups are the connected components.** -/
theorem isComponent_iff {component : Set MemberRef} :
    IsComponent d component ↔ ∃ c ∈ (overrideGroups d).components, component = {r | r ∈ c} := by
  have hrep := overrideGroups_represents d
  have hmem : ∀ a, Grouped d a → ∀ r, EqvGen (Joined d) a r ↔
      r ∈ (overrideGroups d).elements.filter fun y => (overrideGroups d).root y = (overrideGroups d).root a := by
    intro a ha r
    rw [List.mem_filter, elements, ExtTreeMap.mem_keys, hrep.mem, decide_eq_true_iff, hrep.same,
      linked_eq_joined h hstack hacyclic]
    constructor
    · intro har
      rw [← linked_eq_joined h hstack hacyclic] at har ⊢
      exact ⟨(eq_or_grouped har).elim (fun he => he ▸ ha) fun hg => hg.2, har.symm _ _⟩
    · exact fun hr => hr.2.symm _ _
  constructor
  · rintro ⟨a, hoffered, hcomponent⟩
    have ha := (grouped_iff h hstack hacyclic).2 hoffered
    refine ⟨_, mem_components.2 ⟨a, (hrep.mem a).2 ha, rfl⟩, Set.ext fun r => ?_⟩
    rw [hcomponent, hmem a ha]
    rfl
  · rintro ⟨c, hc, rfl⟩
    obtain ⟨a, ha, rfl⟩ := mem_components.1 hc
    have ha := (hrep.mem a).1 ha
    exact ⟨a, (grouped_iff h hstack hacyclic).1 ha, fun r => (hmem a ha r).symm⟩

end Acyclic

/-! ## What the closure reports -/

variable {ctx : CheckContext}

theorem closure_ancestorFindings_ne_mismatch (hstrategy : ctx.strategy = .closure) {groups : List MappedGroup} :
    .overrideMismatch groups ∉ ancestorFindings ctx := by
  intro hf
  obtain ⟨name, -, hf⟩ := List.mem_flatMap.1 hf
  have hf := (List.mem_append.1 hf).resolve_left fieldFindings_ne_mismatch
  obtain ⟨m, -, hf⟩ := List.mem_flatMap.1 hf
  obtain ⟨parent, -, hf⟩ := List.mem_filterMap.1 hf
  unfold methodFinding? at hf
  split at hf
  · rename_i finding hclash
    cases hf
    exact methodClash?_ne_mismatch hclash
  · rw [hstrategy, if_neg (by decide)] at hf
    cases hf

theorem eq_groupsOf {methods : List MemberRef} {groups : List MappedGroup}
    (hf : mismatch? ctx methods = some (.overrideMismatch groups)) :
    groups = groupsOf ctx methods ∧ 2 ≤ groups.length := by
  rw [mismatch?_eq] at hf
  split at hf
  · cases hf
  · rename_i hlen
    cases hf
    exact ⟨rfl, Nat.le_of_not_lt hlen⟩

/-- Two groups have methods with different new names. -/
theorem Lists.isInconsistent {groups : List MappedGroup} {component : Set MemberRef}
    (h : Lists ctx groups component) (hlen : 2 ≤ groups.length) : IsInconsistent ctx component := by
  have hmember : ∀ g ∈ groups, ∃ r ∈ component, ctx.mappedMethod r = g.mapped := fun g hg => by
    obtain ⟨refs, hne, -, hrefs, -⟩ := h.methods g hg
    obtain ⟨r, hr⟩ := List.exists_mem_of_ne_nil refs hne
    exact ⟨r, (hrefs r).1 hr⟩
  match groups, hlen with
  | g :: g' :: rest, _ =>
    obtain ⟨a, ha, hga⟩ := hmember g List.mem_cons_self
    obtain ⟨b, hb, hgb⟩ := hmember g' (List.mem_cons_of_mem _ List.mem_cons_self)
    have hlt : g.mapped < g'.mapped := (List.pairwise_cons.1 h.ascending).1 g' List.mem_cons_self
    exact ⟨a, ha, b, hb, fun he => String.lt_irrefl g.mapped (by rwa [← hga, he, hgb] at hlt ⊢)⟩

/-- **Methods make a finding exactly where they have more than one new name**, and it lists them. -/
theorem mismatch?_eq_some {methods : List MemberRef} {groups : List MappedGroup} :
    mismatch? ctx methods = some (.overrideMismatch groups) ↔
      IsInconsistent ctx {r | r ∈ methods} ∧ Lists ctx groups {r | r ∈ methods} := by
  have hlists := lists_groupsOf ctx methods
  constructor
  · intro hf
    obtain ⟨rfl, hlen⟩ := eq_groupsOf hf
    exact ⟨hlists.isInconsistent hlen, hlists⟩
  · rintro ⟨⟨a, ha, b, hb, hne⟩, hgroups⟩
    obtain ⟨groups', hf, -⟩ := mismatch_of_mapped_ne ha hb hne
    rw [hf, (eq_groupsOf hf).1, hgroups.unique hlists]

/-- **The closure reports the components with more than one new name and no other mismatch.** -/
theorem mem_findings_closure (h : ctx.dir.Sound) (hstack : ∀ name, ctx.dir.stackOf name = ctx.dir.ancestors name)
    (hacyclic : ctx.dir.SupertypesAcyclic) (hstrategy : ctx.strategy = .closure) {groups : List MappedGroup} :
    .overrideMismatch groups ∈ findings ctx ↔ ∃ component, IsComponent ctx.dir component ∧
      IsInconsistent ctx component ∧ Lists ctx groups component := by
  rw [mem_findings, or_iff_right (closure_ancestorFindings_ne_mismatch hstrategy), hstrategy, closureFindings,
    List.mem_filterMap]
  simp only [isComponent_iff h hstack hacyclic, mismatch?_eq_some]
  constructor
  · rintro ⟨c, hc, hf⟩
    exact ⟨_, ⟨c, hc, rfl⟩, hf⟩
  · rintro ⟨_, ⟨c, hc, rfl⟩, hf⟩
    exact ⟨c, hc, hf⟩

/-- Components that are listed alike are one, or have different methods with one text. -/
theorem Lists.eq_or_ambiguous {d : Directory} {groups : List MappedGroup} {component component' : Set MemberRef}
    (hc : IsComponent d component) (hc' : IsComponent d component') (h : Lists ctx groups component)
    (h' : Lists ctx groups component') :
    component = component' ∨ ∃ a ∈ component, ∃ b ∈ component', a ≠ b ∧ a.text = b.text := by
  obtain ⟨a, -, hin⟩ := hc
  obtain ⟨a', -, hin'⟩ := hc'
  have ha : a ∈ component := (hin a).2 (.refl a)
  obtain ⟨g, hg, hga⟩ := h.covers a ha
  obtain ⟨refs, -, -, hrefs, hmethods⟩ := h.methods g hg
  obtain ⟨refs', -, -, hrefs', hmethods'⟩ := h'.methods g hg
  have htext : a.text ∈ refs'.map (·.text) := by
    rw [← hmethods', hmethods]
    exact List.mem_map.2 ⟨a, (hrefs a).2 ⟨ha, hga.symm⟩, rfl⟩
  obtain ⟨b, hb, htext⟩ := List.mem_map.1 htext
  have hb := ((hrefs' b).1 hb).1
  by_cases hab : a = b
  · -- a method of both connects them
    subst hab
    have hconnected := (hin' a).1 hb
    left
    ext r
    rw [hin, hin']
    exact ⟨fun har => hconnected.trans _ _ _ har, fun har => (hconnected.symm _ _).trans _ _ _ har⟩
  · exact .inr ⟨a, ha, b, hb, hab, htext.symm⟩

/-- **The mismatches that the closure reports are exactly the inconsistent components**, in a resolved directory in which
no class inherits from itself: a mismatch is reported when it lists a component with more than one new name, and each
such component has exactly one.  No finding is there twice, and two components have one finding only where the text of a
method does not tell it from another. -/
theorem closure_exact (steps : List Step) (ctx : CheckContext) (hdir : ctx.dir = (after steps).resolve)
    (hacyclic : ctx.dir.SupertypesAcyclic) (hstrategy : ctx.strategy = .closure) :
    (∀ groups, .overrideMismatch groups ∈ findings ctx ↔ ∃ component, IsComponent ctx.dir component ∧
        IsInconsistent ctx component ∧ Lists ctx groups component) ∧
      (∀ component, IsComponent ctx.dir component → IsInconsistent ctx component →
        ∃! groups, .overrideMismatch groups ∈ findings ctx ∧ Lists ctx groups component) ∧
      (findings ctx).Nodup ∧
      ∀ groups component component', IsComponent ctx.dir component → IsComponent ctx.dir component' →
        Lists ctx groups component → Lists ctx groups component' →
        component = component' ∨ ∃ a ∈ component, ∃ b ∈ component', a ≠ b ∧ a.text = b.text := by
  have hgood := good_after steps
  have hprepared : (after steps).Prepared ctx.dir := hdir ▸ prepared_resolve hgood.sound
  have hsound : ctx.dir.Sound := hprepared.sound hgood.sound
  have hstack : ∀ name, ctx.dir.stackOf name = ctx.dir.ancestors name := fun name => by
    rw [hprepared.stackOf, hprepared.same.ancestors]
  have hmem : ∀ groups, .overrideMismatch groups ∈ findings ctx ↔ _ := fun groups =>
    mem_findings_closure hsound hstack hacyclic hstrategy
  refine ⟨hmem, fun component hc hincons => ?_, ?_, fun groups _ _ => Lists.eq_or_ambiguous⟩
  · obtain ⟨c, -, hc'⟩ := (isComponent_iff hsound hstack hacyclic).1 hc
    have hlists := lists_groupsOf ctx c
    rw [← hc'] at hlists
    exact ⟨groupsOf ctx c, ⟨(hmem _).2 ⟨component, hc, hincons, hlists⟩, hlists⟩, fun groups h => h.2.unique hlists⟩
  · refine ExtTreeSet.distinct_toList.imp fun {a b} hab he => hab ?_
    rw [he]
    exact ReflCmp.compare_self

/-- An interface whose method gives an object of a class `A`. -/
def source : ClassFile where
  minor := 0
  major := 52
  access := 0x0601
  name := "S"
  superclass := none
  interfaces := []
  fields := []
  methods := [⟨0x0401, "get", "()LA;", none⟩]

/-- A class whose method gives an object of a class `B`. -/
def box : ClassFile where
  minor := 0
  major := 52
  access := 0x0021
  name := "X"
  superclass := none
  interfaces := []
  fields := []
  methods := [⟨0x0001, "get", "()LB;", some ⟨1, 1, [.plain 0x01, .ret 0xb0]⟩⟩]

/-- A class that implements the interface by a method that forwards to that of its superclass. -/
def sourceBox : ClassFile where
  minor := 0
  major := 52
  access := 0x0021
  name := "Y"
  superclass := some "X"
  interfaces := ["S"]
  fields := []
  methods := [⟨0x1041, "get", "()LA;", some ⟨1, 1, [.slot 0x19 0, .call 0xb6 ⟨"X", "get", "()LB;"⟩ false, .ret 0xb0]⟩⟩]

/-- The calls that take in the three classes. -/
def forwardingSteps : List Step :=
  [.takeIn source true, .takeIn box true, .takeIn sourceBox true]

/-- The three classes, with a new name of its own for the method that is forwarded to. -/
def forwarding : CheckContext where
  dir := (after forwardingSteps).resolve
  table := .ofEntries [.method "S" "get" "()LA;" "p", .method "Y" "get" "()LA;" "p", .method "X" "get" "()LB;" "r"]
  reverse := .empty
  constructors := none
  suffixes := none
  naming := .default
  strategy := .closure

theorem forwarding_acyclic : forwarding.dir.SupertypesAcyclic := by
  have hsound := (good_after forwardingSteps).sound
  have hread : (after forwardingSteps).SupertypesAcyclic := (acyclic_iff hsound).2 (by cbv)
  exact hread.of_sameClasses (prepared_resolve hsound).same

theorem forwarding_findings : findings forwarding =
    [.overrideMismatch [⟨"p", ["S.get()LA;", "Y.get()LA;"]⟩, ⟨"r", ["X.get()LB;"]⟩]] := by
  cbv

/-- The method of the interface, the one that forwards and the one that it forwards to are one component. -/
theorem forwarding_component : ∃ component, IsComponent forwarding.dir component ∧ IsInconsistent forwarding component ∧
    Lists forwarding [⟨"p", ["S.get()LA;", "Y.get()LA;"]⟩, ⟨"r", ["X.get()LB;"]⟩] component := by
  obtain ⟨hreported, -⟩ := closure_exact forwardingSteps forwarding rfl forwarding_acyclic rfl
  refine (hreported _).1 ?_
  rw [forwarding_findings]
  exact List.mem_cons_self

end OverrideNames
end RenameAudit
