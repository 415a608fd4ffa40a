import RenameAudit.Proofs.Check.Exposures
import RenameAudit.Proofs.Sets.Partition
/-!
# Proofs.Check.Groups — the groups of methods that override each other

The groups are joined class by class and key by key, and the elements that are joined are picked by the order in which
methods were read.  What they stand for says nothing of that order (`overrideGroups_represents`): the elements are the
exposed methods, and the groups are connected by pairs of methods that one class exposes with one key, or with two keys
of which one forwards to the other (`Linked`).
-/
namespace RenameAudit
namespace OverrideNames

open Std Relation DisjointSets

/-! ## Picking methods -/

theorem mem_inReadingOrder {places : Places} {methods : MethodSet} {r : MemberRef} :
    r ∈ inReadingOrder places methods ↔ r ∈ methods := by
  rw [inReadingOrder, List.mem_mergeSort, ExtTreeSet.mem_toList]

theorem mem_of_firstOf? {places : Places} {x : Exposure} {k : String} {r : MemberRef}
    (h : firstOf? places x k = some r) : r ∈ x.methods.ofKey k :=
  mem_inReadingOrder.1 (List.mem_of_head? h)

theorem exists_firstOf? {places : Places} {x : Exposure} {k : String} {r : MemberRef} (h : r ∈ x.methods.ofKey k) :
    ∃ first, firstOf? places x k = some first := by
  have hne : inReadingOrder places (x.methods.ofKey k) ≠ [] := List.ne_nil_of_mem (mem_inReadingOrder.2 h)
  exact ⟨_, List.head?_eq_some_head hne⟩

/-! ## One class -/

/-- An exposure has a method. -/
def Shown (x : Exposure) (r : MemberRef) : Prop :=
  ∃ k, r ∈ x.methods.ofKey k

/-- Two methods that a class exposes belong together. -/
inductive Together (x : Exposure) : MemberRef → MemberRef → Prop where
  | key {k : String} {u v : MemberRef} : u ∈ x.methods.ofKey k → v ∈ x.methods.ofKey k → Together x u v
  | bounce {k k' : String} {u v : MemberRef} : k' ∈ x.bounces.ofKey k → u ∈ x.methods.ofKey k →
      v ∈ x.methods.ofKey k' → Together x u v

variable {groups : DisjointSets MemberRef} {member : MemberRef → Prop} {r : MemberRef → MemberRef → Prop}

theorem represents_joinKeys (places : Places) (x : Exposure) (k k' : String) (h : groups.Represents member r) :
    (joinKeys places x k groups k').Represents
      (fun z => member z ∨ ∃ m t, firstOf? places x k = some m ∧ firstOf? places x k' = some t ∧ (z = m ∨ z = t))
      (fun u v => r u v ∨ (firstOf? places x k = some u ∧ firstOf? places x k' = some v)) := by
  unfold joinKeys
  split
  · rename_i m t hm ht
    refine (h.union m t).congr (fun z => or_congr Iff.rfl ?_) (connected_congr (fun u v hr => .rel _ _ ?_)
      fun u v hr => .rel _ _ ?_)
    · rw [hm, ht]
      constructor
      · exact fun hz => ⟨m, t, rfl, rfl, hz⟩
      · rintro ⟨_, _, ⟨⟩, ⟨⟩, hz⟩
        exact hz
    · rw [hm, ht]
      exact hr.imp id fun ⟨hu, hv⟩ => ⟨hu ▸ rfl, hv ▸ rfl⟩
    · rw [hm, ht] at hr
      exact hr.imp id fun ⟨hu, hv⟩ => ⟨(Option.some.inj hu).symm, (Option.some.inj hv).symm⟩
  · rename_i hnone
    have hno : ∀ u v, ¬ (firstOf? places x k = some u ∧ firstOf? places x k' = some v) := fun u v hb =>
      hnone u v hb.1 hb.2
    refine h.congr (fun z => ⟨.inl, fun hz => hz.elim id fun ⟨m, t, hm, ht, _⟩ => absurd ⟨hm, ht⟩ (hno m t)⟩)
      (connected_congr (fun u v hr => .rel _ _ (.inl hr)) fun u v hr => .rel _ _ (hr.resolve_right (hno u v)))

/-- **A class joins the methods that belong together in it.** -/
theorem represents_joinExposure (places : Places) (x : Exposure) (h : groups.Represents member r) :
    (joinExposure places groups x).Represents (fun z => member z ∨ Shown x z) (fun u v => r u v ∨ Together x u v) := by
  have hkeys := Represents.foldl (fun (item : String × MethodSet) hs => hs.joinAll (inReadingOrder places item.2))
    x.methods.toList h
  have hall := Represents.foldl (fun (item : String × ExtTreeSet String) hs =>
    Represents.foldl (fun target hs => represents_joinKeys places x item.1 target hs) item.2.toList hs)
    x.bounces.toList hkeys
  have hitem : ∀ {k : String} {z : MemberRef}, z ∈ x.methods.ofKey k ↔
      ∃ item ∈ x.methods.toList, item.1 = k ∧ z ∈ inReadingOrder places item.2 := fun {k z} => by
    simp [SetMap.mem_ofKey_iff, mem_inReadingOrder]
  have hbounce : ∀ {k k' : String}, k' ∈ x.bounces.ofKey k ↔
      ∃ item ∈ x.bounces.toList, item.1 = k ∧ k' ∈ item.2.toList := fun {k k'} => by
    simp [SetMap.mem_ofKey_iff]
  refine hall.congr (fun z => ?_) (connected_congr (fun u v huv => .rel _ _ ?_) fun u v huv => ?_)
  · constructor
    · rintro ((hz | ⟨item, hitem', hz⟩) | ⟨item, -, target, -, m, t, hm, ht, rfl | rfl⟩)
      · exact .inl hz
      · exact .inr ⟨item.1, hitem.2 ⟨item, hitem', rfl, hz⟩⟩
      · exact .inr ⟨item.1, mem_of_firstOf? hm⟩
      · exact .inr ⟨target, mem_of_firstOf? ht⟩
    · rintro (hz | ⟨k, hz⟩)
      · exact .inl (.inl hz)
      · obtain ⟨item, hitem', -, hz⟩ := hitem.1 hz
        exact .inl (.inr ⟨item, hitem', hz⟩)
  · rcases huv with (hr | ⟨item, hitem', hu, hv⟩) | ⟨item, hitem', target, ht, hu, hv⟩
    · exact .inl hr
    · exact .inr (.key (hitem.2 ⟨item, hitem', rfl, hu⟩) (hitem.2 ⟨item, hitem', rfl, hv⟩))
    · exact .inr (.bounce (hbounce.2 ⟨item, hitem', rfl, ht⟩) (mem_of_firstOf? hu) (mem_of_firstOf? hv))
  · -- two methods of one key are joined directly, others by way of the first ones of their keys
    have hkey : ∀ {k u v}, u ∈ x.methods.ofKey k → v ∈ x.methods.ofKey k → EqvGen (fun u v =>
        (r u v ∨ ∃ item ∈ x.methods.toList, u ∈ inReadingOrder places item.2 ∧ v ∈ inReadingOrder places item.2) ∨
          ∃ item ∈ x.bounces.toList, ∃ target ∈ item.2.toList,
            firstOf? places x item.1 = some u ∧ firstOf? places x target = some v) u v := fun {k u v} hu hv => by
      obtain ⟨elements, he, hu⟩ := SetMap.mem_ofKey_iff.1 hu
      obtain ⟨elements', he', hv⟩ := SetMap.mem_ofKey_iff.1 hv
      rw [he] at he'
      cases he'
      exact .rel _ _ (.inl (.inr ⟨(k, elements), ExtTreeMap.mem_toList_iff_getElem?_eq_some.2 he,
        mem_inReadingOrder.2 hu, mem_inReadingOrder.2 hv⟩))
    rcases huv with hr | ⟨hu, hv⟩ | ⟨hk, hu, hv⟩
    · exact .rel _ _ (.inl (.inl hr))
    · exact hkey hu hv
    · obtain ⟨m, hm⟩ := exists_firstOf? hu
      obtain ⟨t, ht⟩ := exists_firstOf? hv
      obtain ⟨item, hitem', rfl, htarget⟩ := hbounce.1 hk
      have hfirst := hkey hu (mem_of_firstOf? hm)
      have hlast := hkey (mem_of_firstOf? ht) hv
      exact (hfirst.trans _ _ _ (.rel _ _ (.inr ⟨item, hitem', _, htarget, hm, ht⟩))).trans _ _ _ hlast

/-! ## All classes -/

/-- What a class under audit exposes. -/
def exposureAt (d : Directory) (name : String) : Exposure :=
  (exposures d).getD name .empty

/-- A class under audit exposes a method. -/
def Grouped (d : Directory) (m : MemberRef) : Prop :=
  ∃ name ∈ d.owned, Shown (exposureAt d name) m

/-- Two methods belong together in a class under audit. -/
def Linked (d : Directory) (u v : MemberRef) : Prop :=
  ∃ name ∈ d.owned, Together (exposureAt d name) u v

/-- **What the groups stand for.** -/
theorem overrideGroups_represents (d : Directory) : (overrideGroups d).Represents (Grouped d) (Linked d) := by
  have h := Represents.foldl (fun name hs => represents_joinExposure (placesOf d) (exposureAt d name) hs) d.owned
    represents_empty
  exact h.congr (fun m => by rw [false_or]; rfl) (connected_congr (fun u v h => .rel _ _ (h.resolve_left id))
    fun u v h => .rel _ _ (.inr h))

end OverrideNames
end RenameAudit
