import RenameAudit.Proofs.Arena.SameClasses
import RenameAudit.Proofs.Hierarchy.SharedRoots
/-!
# Proofs.Arena.SameState — an arena and a directory in the same state

`SameState a d` adds to the same classes all that resolutions write: how far each class has come and the ancestors kept for
it, the bridges, the overrides of each method and the roots kept for it.  So both give the same answers: on the states, the
kept ancestors, the bridges, the overrides and the roots.
-/
namespace RenameAudit

open Std ClassFile Relation

namespace Arena

/-! ## The relation -/

/-- A set of numbers and a set of references have the same methods. -/
structure SameMethods (a : Arena) (s : ExtTreeSet MethodId) (s' : MethodSet) : Prop where
  lt : ∀ m ∈ s, m < a.methods.length
  mem : ∀ r, r ∈ s' ↔ ∃ m ∈ s, a.refOf m = r

/-- A record and an entry of one class have come as far and keep the same ancestors. -/
structure SameEntry (a : Arena) (r : ClassRecord) (e : ClassEntry) : Prop where
  state : e.state = r.state
  stack : e.stack = r.stack.map (List.map a.nameOf)
  stack_lt : ∀ s ∈ r.stack.getD [], s < a.classes.length

/-- Both maps of an arena have the bridges of a list. -/
structure HasBridges (a : Arena) (l : List (MethodId × MethodId)) : Prop where
  lt : ∀ p ∈ l, p.1 < a.methods.length ∧ p.2 < a.methods.length
  bridgedBy? : ∀ b, a.bridgedBy? b = (l.find? (·.1 == b)).map (·.2)
  bridgesTo : ∀ t, a.bridgesTo t = (l.filter (·.2 == t)).map (·.1)

/-- **An arena and a directory are in the same state.** -/
structure SameState (a : Arena) (d : Directory) : Prop where
  books : SameBooks a d
  entries : ∀ id < a.classes.length, ∃ e, d.classes[a.nameOf id]? = some e ∧ a.SameEntry (a.record id) e
  bridges : ∃ l, a.HasBridges l ∧ d.bridges = l.map fun p => (a.refOf p.1, a.refOf p.2)
  overrides : ∀ m < a.methods.length, a.SameMethods (a.overridesOf m) (d.overridesOf (a.refOf m))
  overriding : ∀ r, r ∈ d.overrides ↔ ∃ m < a.methods.length, a.refOf m = r ∧ a.hasOverrides m = true
  keptRoots : ∀ m < a.methods.length, ∀ l, (a.methodRecord m).roots = some l →
    (∀ x ∈ l, x < a.methods.length) ∧ d.keptRoots[a.refOf m]? = some (l.map a.refOf)

theorem sameState_empty : SameState empty .empty where
  books :=
    { orderly := orderly_empty
      sound := Directory.sound_empty
      names := rfl
      known := fun n => by
        rw [lookup, empty, ExtTreeMap.getElem?_empty]
        exact iff_of_false ExtTreeMap.not_mem_empty Bool.false_ne_true
      declaration := fun n => by
        rw [lookup, empty, ExtTreeMap.getElem?_empty, Directory.declaration?_empty]
        rfl
      fields := rfl
      methods := rfl }
  entries id hid := absurd hid (Nat.not_lt_zero id)
  bridges := by
    refine ⟨[], ⟨fun p hp => absurd hp List.not_mem_nil, fun b => ?_, fun t => ?_⟩, rfl⟩
    · rw [bridgedBy?, empty, ExtTreeMap.getElem?_empty]
      rfl
    · rw [bridgesTo, empty, ExtTreeMap.getD_empty]
      rfl
  overrides m hm := absurd hm (Nat.not_lt_zero m)
  overriding r := iff_of_false ExtTreeMap.not_mem_empty fun ⟨m, hm, _⟩ => Nat.not_lt_zero m hm
  keptRoots m hm := absurd hm (Nat.not_lt_zero m)

/-! ## Sets of methods -/

namespace SameMethods

variable {a b : Arena} {d : Directory} {s t : ExtTreeSet MethodId} {s' t' : MethodSet}

theorem union (hs : a.SameMethods s s') (ht : a.SameMethods t t') : a.SameMethods (s ∪ t) (s' ∪ t') := by
  refine ⟨fun m hm => (ExtTreeSet.mem_union_iff.1 hm).elim (hs.lt m) (ht.lt m), fun r => ?_⟩
  simp only [ExtTreeSet.mem_union_iff, hs.mem, ht.mem, or_and_right, exists_or]

theorem erase (h : SameBooks a d) (hs : a.SameMethods s s') {m : MethodId} (hm : m < a.methods.length) :
    a.SameMethods (s.erase m) (s'.erase (a.refOf m)) := by
  refine ⟨fun x hx => hs.lt x (mem_set_erase_iff.1 hx).1, fun r => ?_⟩
  rw [mem_set_erase_iff, hs.mem]
  constructor
  · rintro ⟨⟨x, hx, rfl⟩, hne⟩
    exact ⟨x, mem_set_erase_iff.2 ⟨hx, fun he => hne (congrArg a.refOf he)⟩, rfl⟩
  · rintro ⟨x, hx, rfl⟩
    obtain ⟨hx, hne⟩ := mem_set_erase_iff.1 hx
    exact ⟨⟨x, hx, rfl⟩, fun he => hne (h.refOf_inj (hs.lt x hx) hm he)⟩

theorem isEmpty (hs : a.SameMethods s s') : s'.isEmpty = s.isEmpty := by
  have hnone : s' = ∅ ↔ s = ∅ := not_iff_not.1 <| set_ne_empty_iff.trans <| Iff.trans
    ⟨fun ⟨r, hr⟩ => ((hs.mem r).1 hr).imp fun _ h => h.1, fun ⟨m, hm⟩ => ⟨a.refOf m, (hs.mem _).2 ⟨m, hm, rfl⟩⟩⟩
    set_ne_empty_iff.symm
  rw [Bool.eq_iff_iff, ExtTreeSet.isEmpty_iff, ExtTreeSet.isEmpty_iff, hnone]

/-- The methods of sets keep their references while an arena grows. -/
theorem grow (ha : a.Orderly) (hg : a.Grown b) (hs : a.SameMethods s s') : b.SameMethods s s' := by
  refine ⟨fun m hm => (hs.lt m hm).trans_le hg.methods_le, fun r => ?_⟩
  rw [hs.mem]
  exact exists_congr fun m => and_congr_right fun hm => by rw [hg.refOf ha (hs.lt m hm)]

theorem congr (hs : a.SameMethods s s') (he : b.entered = a.entered) : b.SameMethods s s' :=
  ⟨length_methods he ▸ hs.lt, refOf_congr he ▸ hs.mem⟩

end SameMethods

theorem sameMethods_singleton {a : Arena} {m : MethodId} (hm : m < a.methods.length) :
    a.SameMethods (ExtTreeSet.ofList [m]) (ExtTreeSet.ofList [a.refOf m]) := by
  refine ⟨fun x hx => List.mem_singleton.1 (mem_ofList_iff.1 hx) ▸ hm, fun r => ?_⟩
  rw [mem_ofList_iff, List.mem_singleton]
  constructor
  · exact fun hr => ⟨m, mem_ofList_iff.2 List.mem_cons_self, hr.symm⟩
  · rintro ⟨x, hx, rfl⟩
    rw [List.mem_singleton.1 (mem_ofList_iff.1 hx)]

/-! ## What only depends on what is entered -/

section Congr

variable {a b : Arena} (he : b.entered = a.entered)

include he

theorem SameEntry.congr {r : ClassRecord} {e : ClassEntry} (h : a.SameEntry r e) : b.SameEntry r e :=
  ⟨h.state, nameOf_congr he ▸ h.stack, length_classes he ▸ h.stack_lt⟩

theorem HasBridges.congr {l : List (MethodId × MethodId)} (h : a.HasBridges l) : b.HasBridges l := by
  have htargets : b.targets = a.targets := (congrArg Arena.targets he :)
  have hsources : b.sources = a.sources := (congrArg Arena.sources he :)
  refine ⟨length_methods he ▸ h.lt, fun m => ?_, fun t => ?_⟩
  · rw [Arena.bridgedBy?, htargets, ← Arena.bridgedBy?, h.bridgedBy?]
  · rw [Arena.bridgesTo, hsources, ← Arena.bridgesTo, h.bridgesTo]

end Congr

/-! ## The graph of overrides -/

/-- **A method of an arena overrides another.** -/
def Overrides (a : Arena) (m x : MethodId) : Prop :=
  x ∈ a.overridesOf m

theorem hasOverrides_eq_false {a : Arena} {m : MethodId} : a.hasOverrides m = false ↔ a.overridesOf m = ∅ := by
  rw [hasOverrides, Bool.not_eq_false', ExtTreeSet.isEmpty_iff]

theorem hasOverrides_iff {a : Arena} {m : MethodId} : a.hasOverrides m = true ↔ ∃ x, a.Overrides m x := by
  rw [← Bool.not_eq_false, hasOverrides_eq_false]
  exact set_ne_empty_iff

theorem getElem?_overriding (a : Arena) (m : MethodId) :
    a.overriding[m]? = if a.hasOverrides m then some (a.overridesOf m) else none := by
  rw [overriding, ExtTreeMap.getElem?_filter', ExtTreeMap.getElem?_map, getElem?_byNumber, hasOverrides, overridesOf,
    methodRecord]
  cases a.methods[m]? with
  | none => rfl
  | some r =>
    simp only [Option.map_some, Option.filter_some, Option.getD_some]

theorem mem_targetsOf_overriding {a : Arena} {m x : MethodId} :
    x ∈ Graph.targetsOf a.overriding m ↔ a.Overrides m x := by
  rw [Graph.targetsOf, getElem?_overriding, Overrides]
  cases hm : a.hasOverrides m with
  | true => exact ExtTreeSet.mem_toList
  | false =>
    rw [hasOverrides_eq_false.1 hm]
    exact iff_of_false List.not_mem_nil ExtTreeSet.not_mem_empty

theorem mem_leaves_overriding {a : Arena} {m x : MethodId} :
    x ∈ Graph.leaves a.overriding a.overriding [m] ↔ a.hasOverrides x = false ∧ ReflTransGen a.Overrides m x := by
  have hedges : (fun m x => x ∈ Graph.targetsOf a.overriding m) = a.Overrides := by
    funext m x
    exact propext mem_targetsOf_overriding
  rw [Graph.mem_leaves_iff, hedges, getElem?_overriding]
  refine and_congr ?_ Iff.rfl
  cases a.hasOverrides x <;> simp

theorem mem_roots {a : Arena} {m x : MethodId} : x ∈ a.roots m ↔ x ∈ a.rootSet m :=
  List.mem_mergeSort.trans ExtTreeSet.mem_toList

namespace SameState

variable {a : Arena} {d : Directory} (h : SameState a d)

include h

/-! ## Marks and lists of classes -/

section Class

variable {id : ClassId} (hid : id < a.classes.length)

include hid

theorem isResolved : d.isResolved (a.nameOf id) = ((a.record id).state == .resolved) := by
  obtain ⟨e, he, hsame⟩ := h.entries id hid
  have hstate : e.resolved = (e.state == .resolved) := by
    unfold ClassEntry.state
    cases e.resolved with
    | true => rfl
    | false => cases e.declaration <;> rfl
  rw [Directory.isResolved, he, ← hsame.state, ← hstate]
  rfl

theorem stackOf : d.stackOf (a.nameOf id) = (a.stackOf id).map a.nameOf := by
  obtain ⟨e, he, hsame⟩ := h.entries id hid
  rw [Directory.stackOf, he, Option.bind_some, hsame.stack, h.books.ancestors hid, Arena.stackOf]
  cases (a.record id).stack <;> rfl

theorem stackOf_lt : ∀ s ∈ a.stackOf id, s < a.classes.length := by
  obtain ⟨e, -, hsame⟩ := h.entries id hid
  intro s hs
  rw [Arena.stackOf] at hs
  cases hk : (a.record id).stack with
  | none =>
    rw [hk] at hs
    exact ancestors_lt s hs
  | some l =>
    rw [hk] at hs
    exact hsame.stack_lt s (by rwa [hk])

end Class

/-! ## Overrides and roots -/

theorem hasOverrides {m : MethodId} (hm : m < a.methods.length) : d.hasOverrides (a.refOf m) = a.hasOverrides m := by
  rw [Bool.eq_iff_iff, Directory.hasOverrides_iff, h.overriding]
  exact ⟨fun ⟨x, hx, href, hx'⟩ => h.books.refOf_inj hx hm href ▸ hx', fun hm' => ⟨m, hm, rfl, hm'⟩⟩

theorem overrides_iff {m : MethodId} (hm : m < a.methods.length) {r : MemberRef} :
    d.Overrides (a.refOf m) r ↔ ∃ x, a.Overrides m x ∧ a.refOf x = r :=
  (h.overrides m hm).mem r

theorem leads_lt {m x : MethodId} (hm : m < a.methods.length) (hx : ReflTransGen a.Overrides m x) :
    x < a.methods.length := by
  induction hx with
  | refl => exact hm
  | tail _ hstep ih => exact (h.overrides _ ih).lt _ hstep

/-- **Overrides lead to the same methods.** -/
theorem leads_iff {m : MethodId} (hm : m < a.methods.length) {r : MemberRef} :
    ReflTransGen d.Overrides (a.refOf m) r ↔ ∃ x, ReflTransGen a.Overrides m x ∧ a.refOf x = r := by
  constructor
  · intro hr
    induction hr with
    | refl => exact ⟨m, .refl, rfl⟩
    | tail _ hstep ih =>
      obtain ⟨x, hx, rfl⟩ := ih
      obtain ⟨y, hy, rfl⟩ := (h.overrides_iff (h.leads_lt hm hx)).1 hstep
      exact ⟨y, hx.tail hy, rfl⟩
  · rintro ⟨x, hx, rfl⟩
    induction hx with
    | refl => exact .refl
    | tail hx hstep ih => exact ih.tail ((h.overrides_iff (h.leads_lt hm hx)).2 ⟨_, hstep, rfl⟩)

/-- **Methods have the same roots.** -/
theorem rootSet {m : MethodId} (hm : m < a.methods.length) : a.SameMethods (a.rootSet m) (d.rootSet (a.refOf m)) := by
  have hleaves : a.SameMethods (ExtTreeSet.ofList (Graph.leaves a.overriding a.overriding [m]))
      (ExtTreeSet.ofList (Graph.leaves d.overrides d.overrides [a.refOf m])) := by
    refine ⟨fun x hx => h.leads_lt hm (mem_leaves_overriding.1 (mem_ofList_iff.1 hx)).2, fun r => ?_⟩
    rw [mem_ofList_iff, Directory.mem_leaves_overrides, h.leads_iff hm]
    simp only [mem_ofList_iff, mem_leaves_overriding]
    have hends : ∀ x, ReflTransGen a.Overrides m x → (a.refOf x ∉ d.overrides ↔ a.hasOverrides x = false) := fun x hx => by
      rw [← h.hasOverrides (h.leads_lt hm hx), ← Directory.hasOverrides_iff, Bool.not_eq_true]
    constructor
    · rintro ⟨hend, x, hx, rfl⟩
      exact ⟨x, ⟨(hends x hx).1 hend, hx⟩, rfl⟩
    · rintro ⟨x, ⟨hend, hx⟩, rfl⟩
      exact ⟨(hends x hx).2 hend, x, hx, rfl⟩
  unfold Arena.rootSet Directory.rootSet
  dsimp only
  rw [hleaves.isEmpty]
  split
  · exact sameMethods_singleton hm
  · exact hleaves

/-- **The roots come in the same order.** -/
theorem roots {m : MethodId} (hm : m < a.methods.length) : d.roots (a.refOf m) = (a.roots m).map a.refOf := by
  have hsame := h.rootSet hm
  have hsorted : (a.roots m).Pairwise fun x y => (compare (a.refOf x) (a.refOf y)).isLE = true :=
    List.pairwise_mergeSort (fun _ _ _ => TransCmp.isLE_trans) (fun x y => by
      have hswap : compare (a.refOf y) (a.refOf x) = (compare (a.refOf x) (a.refOf y)).swap := OrientedCmp.eq_swap
      rw [hswap]
      cases compare (a.refOf x) (a.refOf y) <;> rfl) _
  have hdistinct : (a.roots m).Nodup :=
    (List.mergeSort_perm _ _).nodup_iff.2 (ExtTreeSet.distinct_toList.imp fun hne he => hne (Std.compare_eq_iff_eq.2 he))
  have hascending : ((a.roots m).map a.refOf).Pairwise MemberRef.Precedes := by
    rw [List.pairwise_map]
    refine (hsorted.and hdistinct).imp_of_mem fun {x y} hx hy ⟨hle, hne⟩ => MemberRef.compare_eq_lt.1 ?_
    refine (Ordering.isLE_iff_eq_lt_or_eq_eq.1 hle).resolve_right fun he => hne ?_
    exact h.books.refOf_inj (hsame.lt x (mem_roots.1 hx)) (hsame.lt y (mem_roots.1 hy)) (Std.compare_eq_iff_eq.1 he)
  refine eq_of_ascending (fun _ _ => MemberRef.Precedes.not_symm) (Directory.ascending_roots d _) hascending fun r => ?_
  rw [Directory.mem_roots, hsame.mem, List.mem_map]
  exact exists_congr fun x => and_congr_left fun _ => mem_roots.symm

/-! ## Bridges -/

/-- **A method forwards to the same method.** -/
theorem bridgedBy? {b : MethodId} (hb : b < a.methods.length) :
    d.bridgedBy? (a.refOf b) = (a.bridgedBy? b).map a.refOf := by
  obtain ⟨l, hl, hd⟩ := h.bridges
  rw [Directory.bridgedBy?, hd, hl.bridgedBy?, List.find?_map, Option.map_map, Option.map_map]
  refine congrArg _ (List.find?_congr fun p hp => ?_)
  rw [Function.comp_apply, Bool.eq_iff_iff, beq_iff_eq, beq_iff_eq]
  exact ⟨h.books.refOf_inj (hl.lt p hp).1 hb, fun he => he ▸ rfl⟩

/-- **The same methods forward to a method**, in the same order. -/
theorem bridgesTo {t : MethodId} (ht : t < a.methods.length) :
    d.bridgesTo (a.refOf t) = (a.bridgesTo t).map a.refOf := by
  obtain ⟨l, hl, hd⟩ := h.bridges
  rw [Directory.bridgesTo, hd, hl.bridgesTo, List.filter_map, List.map_map, List.map_map]
  refine congrArg _ (List.filter_congr fun p hp => ?_)
  rw [Function.comp_apply, Bool.eq_iff_iff, beq_iff_eq, beq_iff_eq]
  exact ⟨h.books.refOf_inj (hl.lt p hp).2 ht, fun he => he ▸ rfl⟩

theorem bridgesTo_lt {t b : MethodId} (hb : b ∈ a.bridgesTo t) : b < a.methods.length := by
  obtain ⟨l, hl, -⟩ := h.bridges
  rw [hl.bridgesTo] at hb
  obtain ⟨p, hp, rfl⟩ := List.mem_map.1 hb
  exact (hl.lt p (List.mem_filter.1 hp).1).1

end SameState

end Arena
end RenameAudit
