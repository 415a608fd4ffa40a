import RenameAudit.Proofs.Hierarchy.Passes
import RenameAudit.Proofs.Lists.Reordered
/-!
# Proofs.Hierarchy.BridgeOrder — bridges to one method come in any order

A method that has the roots of two bridges has the same overrides whichever bridge came first, although the roots of the
second are looked up when those of the first have been added (`follow_comm`).  The rest of what the pass over bridges
does, keeping lists of ancestors and letting merges wait, does not depend on the order either (`linkBridge_comm`).
-/
namespace RenameAudit
namespace Directory

open Std Relation

/-! ## Following bridges -/

/-- A method has the roots of a bridge, where it takes them. -/
def follow (m : MemberRef) (takes : Bool) (d : Directory) (bridge : MemberRef) : Directory :=
  if takes then d.addOverrides m ((d.rootSet bridge).erase m) else d

theorem addOverrides_addOverrides (d : Directory) (m : MemberRef) (more others : MethodSet) :
    (d.addOverrides m more).addOverrides m others = d.addOverrides m (more ∪ others) := by
  by_cases hmore : more.isEmpty = true
  · have hunion : more ∪ others = others := ExtTreeSet.ext_mem fun r => by
      rw [ExtTreeSet.mem_union_iff, ExtTreeSet.isEmpty_iff.1 hmore]
      exact ⟨fun h => h.resolve_left ExtTreeSet.not_mem_empty, .inr⟩
    have hsame : d.addOverrides m more = d := if_pos hmore
    rw [hunion, hsame]
  · by_cases hothers : others.isEmpty = true
    · have hunion : more ∪ others = more := ExtTreeSet.ext_mem fun r => by
        rw [ExtTreeSet.mem_union_iff, ExtTreeSet.isEmpty_iff.1 hothers]
        exact ⟨fun h => h.resolve_right ExtTreeSet.not_mem_empty, .inl⟩
      rw [hunion]
      exact if_pos hothers
    · have hboth : ¬ (more ∪ others).isEmpty = true := by
        rw [ExtTreeSet.isEmpty_union, Bool.and_eq_true]
        exact fun h => hmore h.1
      have hself : (d.overrides.insert m (d.overridesOf m ∪ more)).getD m ∅ = d.overridesOf m ∪ more := by
        rw [getD_insert_eq, if_pos rfl]
      have hassoc : d.overridesOf m ∪ more ∪ others = d.overridesOf m ∪ (more ∪ others) := ExtTreeSet.ext_mem fun r => by
        simp only [ExtTreeSet.mem_union_iff, or_assoc]
      rw [addOverrides, if_neg hothers, addOverrides, if_neg hmore, addOverrides, if_neg hboth]
      simp only [overridesOf] at hself hassoc ⊢
      rw [hself, hassoc]
      congr 1
      refine ExtTreeMap.ext_getElem? fun a => ?_
      rw [getElem?_insert_eq, getElem?_insert_eq, getElem?_insert_eq]
      split <;> rfl

/-- **What following one bridge adds to the roots of another**: nothing that the method does not have by then. -/
theorem Grounded.rootSet_addOverrides {d : Directory} (h : d.Grounded) {m : MemberRef} {more : MethodSet}
    (hmore : ∀ r ∈ more, r ∉ d.overrides ∧ r ≠ m) (bridge : MemberRef) :
    more ∪ ((d.addOverrides m more).rootSet bridge).erase m = more ∪ (d.rootSet bridge).erase m := by
  have hg := h.addOverrides hmore
  have hmem : ∀ r, r ∈ (d.addOverrides m more).overrides → r ≠ m → r ∈ d.overrides := fun r hr hne =>
    (mem_addOverrides.1 hr).resolve_right fun h => hne h.1
  -- a new chain is an old one, or its last edge is new
  have hpath : ∀ {x}, ReflTransGen (d.addOverrides m more).Overrides bridge x →
      ReflTransGen d.Overrides bridge x ∨ x ∈ more := by
    intro x hp
    induction hp with
    | refl => exact .inl .refl
    | @tail y x _ hyx ih =>
      rcases overrides_addOverrides.1 hyx with hold | ⟨rfl, hnew⟩
      · rcases ih with ih | ih
        · exact .inl (ih.tail hold)
        · exact absurd hold.mem (hmore y ih).1
      · exact .inr hnew
  refine ExtTreeSet.ext_mem fun r => ?_
  rw [ExtTreeSet.mem_union_iff, ExtTreeSet.mem_union_iff, mem_set_erase_iff, mem_set_erase_iff, hg.mem_rootSet,
    h.mem_rootSet]
  constructor
  · rintro (hr | ⟨⟨hend, hp⟩, hne⟩)
    · exact .inl hr
    · rcases hpath hp with hp | hr
      · exact .inr ⟨⟨fun hin => hend (mem_addOverrides.2 (.inl hin)), hp⟩, hne⟩
      · exact .inl hr
  · rintro (hr | ⟨⟨hend, hp⟩, hne⟩)
    · exact .inl hr
    · refine .inr ⟨⟨fun hin => hend (hmem r hin hne), ?_⟩, hne⟩
      exact ReflTransGen.mono (fun a b hab => overrides_addOverrides.2 (.inl hab)) _ _ hp

theorem Grounded.follow {d : Directory} (h : d.Grounded) (m : MemberRef) (takes : Bool) (bridge : MemberRef) :
    (follow m takes d bridge).Grounded := by
  unfold Directory.follow
  split
  · exact h.addRoots m bridge
  · exact h

/-- **Two bridges to one method may be followed in either order.** -/
theorem follow_comm {d : Directory} (h : d.Grounded) (m a b : MemberRef) (p q : Bool) :
    follow m q (follow m p d a) b = follow m p (follow m q d b) a := by
  have hroots : ∀ x, ∀ r ∈ (d.rootSet x).erase m, r ∉ d.overrides ∧ r ≠ m := fun x r hr =>
    have hr := mem_set_erase_iff.1 hr
    ⟨(h.mem_rootSet.1 hr.1).1, hr.2⟩
  have hnot : ∀ d bridge, follow m false d bridge = d := fun _ _ => if_neg Bool.false_ne_true
  cases p with
  | false => rw [hnot, hnot]
  | true =>
    cases q with
    | false => rw [hnot, hnot]
    | true =>
      simp only [follow, if_true]
      rw [addOverrides_addOverrides, addOverrides_addOverrides, h.rootSet_addOverrides (hroots a),
        h.rootSet_addOverrides (hroots b)]
      congr 1
      exact ExtTreeSet.ext_mem fun r => by rw [ExtTreeSet.mem_union_iff, ExtTreeSet.mem_union_iff, or_comm]

theorem hasOverrides_follow {d : Directory} {m bridge other : MemberRef} {takes : Bool} (hne : other ≠ m) :
    (follow m takes d bridge).hasOverrides other = d.hasOverrides other := by
  rw [Bool.eq_iff_iff, hasOverrides_iff, hasOverrides_iff, follow]
  split
  · rw [mem_addOverrides]
    exact ⟨fun h => h.resolve_right fun h => hne h.1, .inl⟩
  · exact Iff.rfl

theorem follow_eq (m : MemberRef) (takes : Bool) (d : Directory) (bridge : MemberRef) :
    ∃ overrides, follow m takes d bridge = { d with overrides } := by
  unfold follow addOverrides
  split
  · split <;> exact ⟨_, rfl⟩
  · exact ⟨_, rfl⟩

/-! ## Keeping lists of ancestors -/

/-- An entry with a list of ancestors, its own where it has one. -/
def keepIn (stack : List String) (e : ClassEntry) : ClassEntry :=
  match e.stack with
  | some _ => e
  | none => { e with stack := some stack }

theorem keepStack_eq (d : Directory) (name : String) :
    d.keepStack name = { d with classes := d.classes.modify name (keepIn (d.ancestors name)) } := rfl

/-- **Lists of ancestors may be kept in any order.** -/
theorem keepStack_comm (d : Directory) (a b : String) : (d.keepStack a).keepStack b = (d.keepStack b).keepStack a := by
  have hkept : ∀ x y, (d.keepStack x).keepStack y =
      { d with classes := (d.classes.modify x (keepIn (d.ancestors x))).modify y (keepIn (d.ancestors y)) } :=
    fun x y => by
      rw [keepStack_eq (d.keepStack x), (sameClasses_keepStack d x).ancestors]
      rfl
  rw [hkept, hkept]
  congr 1
  refine ExtTreeMap.ext_getElem? fun n => ?_
  simp only [getElem?_modify_eq]
  by_cases ha : n = a
  · by_cases hb : n = b
    · rw [← ha, ← hb]
    · simp [ha, ha ▸ hb]
  · simp [ha]

theorem keepStack_follow (m : MemberRef) (takes : Bool) (d : Directory) (bridge : MemberRef) (name : String) :
    (follow m takes d bridge).keepStack name = follow m takes (d.keepStack name) bridge := by
  unfold follow
  split
  · unfold addOverrides
    split
    · exact (if_pos ‹_›).symm
    · exact (if_neg ‹_›).symm
  · rfl

theorem isResolved_keepStack (d : Directory) (name n : String) : (d.keepStack name).isResolved n = d.isResolved n := by
  rw [isResolved, keepStack, getElem?_modify_eq, isResolved]
  split
  · cases d.classes[n]? with
    | none => rfl
    | some e => cases he : e.stack <;> simp [he]
  · rfl

/-! ## One bridge -/

/-- The directory with the ancestors of a bridge's class kept, where they are asked for. -/
def keepFor (m : Method) (d : Directory) (bridge : MemberRef) : Directory :=
  if bridge.key == m.key then d.keepStack bridge.owner else d

/-- Whether a bridge is passed over: it has the key of the method, in a subclass. -/
def passes (name : String) (m : Method) (d : Directory) (bridge : MemberRef) : Bool :=
  bridge.key == m.key && (d.stackOf bridge.owner).contains name

/-- Whether a method takes the roots of a bridge. -/
def takes (name : String) (m : Method) (d : Directory) (bridge : MemberRef) : Bool :=
  !passes name m d bridge && d.hasOverrides bridge

/-- The merge that waits for the class of a bridge, if one does. -/
def delays (name : String) (m : Method) (d : Directory) (bridge : MemberRef) : List Merge :=
  if !passes name m d bridge && !d.hasOverrides bridge && (bridge.owner ≠ name ∧ !d.isResolved bridge.owner) then
    [⟨bridge.owner, bridge, m.ref⟩]
  else []

theorem stackOf_keepFor (m : Method) (d : Directory) (bridge : MemberRef) (n : String) :
    (keepFor m d bridge).stackOf n = d.stackOf n := by
  unfold keepFor
  split
  · exact stackOf_keepStack d bridge.owner n
  · rfl

theorem isResolved_keepFor (m : Method) (d : Directory) (bridge : MemberRef) (n : String) :
    (keepFor m d bridge).isResolved n = d.isResolved n := by
  unfold keepFor
  split
  · exact isResolved_keepStack d bridge.owner n
  · rfl

theorem overrides_keepFor (m : Method) (d : Directory) (bridge : MemberRef) :
    (keepFor m d bridge).overrides = d.overrides := by
  unfold keepFor
  split <;> rfl

/-- **What the pass does with one bridge.** -/
theorem linkBridge_eq (name : String) (m : Method) (s : Progress) (bridge : MemberRef) :
    linkBridge name m s bridge =
      { dir := follow m.ref (takes name m s.dir bridge) (keepFor m s.dir bridge) bridge
        waiting := s.waiting ++ delays name m s.dir bridge } := by
  have hpass : passes name m s.dir bridge =
      (bridge.key == m.key && ((keepFor m s.dir bridge).stackOf bridge.owner).contains name) := by
    rw [passes, stackOf_keepFor]
  have hhas : s.dir.hasOverrides bridge = (keepFor m s.dir bridge).hasOverrides bridge := by
    rw [hasOverrides, hasOverrides, overrides_keepFor]
  have hresolved : s.dir.isResolved bridge.owner = (keepFor m s.dir bridge).isResolved bridge.owner :=
    (isResolved_keepFor m s.dir bridge bridge.owner).symm
  unfold linkBridge takes delays
  rw [hpass, hhas, hresolved]
  generalize hd : keepFor m s.dir bridge = d
  dsimp only
  rw [← keepFor, hd]
  generalize (bridge.key == m.key && (d.stackOf bridge.owner).contains name) = pass
  cases pass with
  | true => simp [follow]
  | false =>
    cases d.hasOverrides bridge with
    | true => simp [follow]
    | false =>
      by_cases howner : bridge.owner = name
      · simp [howner, follow]
      · cases d.isResolved bridge.owner <;> simp [howner, follow]

/-- Merges that may be carried out in either order: those of two bridges to one method. -/
def SameTarget (w w' : Merge) : Prop :=
  w.target = w'.target ∧ w.bridge ≠ w.target ∧ w'.bridge ≠ w'.target

/-- What the pass does with a bridge it would also do after another bridge to the method. -/
theorem after_follow (name : String) (m : Method) (d : Directory) {a b : MemberRef} (p : Bool) (hb : b ≠ m.ref) :
    keepFor m (follow m.ref p (keepFor m d a) a) b = follow m.ref p (keepFor m (keepFor m d a) b) a ∧
      takes name m (follow m.ref p (keepFor m d a) a) b = takes name m d b ∧
      delays name m (follow m.ref p (keepFor m d a) a) b = delays name m d b := by
  have hpass : passes name m (follow m.ref p (keepFor m d a) a) b = passes name m d b := by
    obtain ⟨overrides, he⟩ := follow_eq m.ref p (keepFor m d a) a
    have hstack : ({ keepFor m d a with overrides } : Directory).stackOf b.owner = (keepFor m d a).stackOf b.owner := rfl
    rw [passes, he, hstack, stackOf_keepFor, ← passes]
  have hhas : (follow m.ref p (keepFor m d a) a).hasOverrides b = d.hasOverrides b := by
    rw [hasOverrides_follow hb, hasOverrides, overrides_keepFor, ← hasOverrides]
  have hresolved : (follow m.ref p (keepFor m d a) a).isResolved b.owner = d.isResolved b.owner := by
    obtain ⟨overrides, he⟩ := follow_eq m.ref p (keepFor m d a) a
    have hres : ({ keepFor m d a with overrides } : Directory).isResolved b.owner = (keepFor m d a).isResolved b.owner :=
      rfl
    rw [he, hres, isResolved_keepFor]
  refine ⟨?_, ?_, ?_⟩
  · unfold keepFor
    split
    · split
      · exact keepStack_follow ..
      · exact keepStack_follow ..
    · rfl
  · rw [takes, hpass, hhas, ← takes]
  · rw [delays, hpass, hhas, hresolved, ← delays]

theorem keepFor_comm (m : Method) (d : Directory) (a b : MemberRef) :
    keepFor m (keepFor m d a) b = keepFor m (keepFor m d b) a := by
  unfold keepFor
  split
  · split
    · exact keepStack_comm d _ _
    · rfl
  · split <;> rfl

theorem reordered_delays (name : String) (m : Method) (d : Directory) {a b : MemberRef} (ha : a ≠ m.ref)
    (hb : b ≠ m.ref) :
    Reordered SameTarget (delays name m d a ++ delays name m d b) (delays name m d b ++ delays name m d a) := by
  unfold delays
  split
  · split
    · exact .swap [] ⟨rfl, ha, hb⟩
    · exact .refl _
  · rw [List.nil_append, List.append_nil]
    exact .refl _

/-- **The pass may take two bridges in either order**; what waits may change places then. -/
theorem linkBridge_comm (name : String) (m : Method) {s : Progress} (hg : s.dir.Grounded) {a b : MemberRef}
    (ha : a ≠ m.ref) (hb : b ≠ m.ref) :
    (linkBridge name m (linkBridge name m s a) b).dir = (linkBridge name m (linkBridge name m s b) a).dir ∧
      Reordered SameTarget (linkBridge name m (linkBridge name m s a) b).waiting
        (linkBridge name m (linkBridge name m s b) a).waiting := by
  simp only [linkBridge_eq]
  obtain ⟨hkeep, htakes, hdelays⟩ := after_follow name m s.dir (takes name m s.dir a) (a := a) hb
  obtain ⟨hkeep', htakes', hdelays'⟩ := after_follow name m s.dir (takes name m s.dir b) (a := b) ha
  rw [hkeep, htakes, hdelays, hkeep', htakes', hdelays', keepFor_comm m s.dir b a]
  have hground : (keepFor m (keepFor m s.dir a) b).Grounded :=
    hg.of_overrides_eq ((overrides_keepFor ..).trans (overrides_keepFor ..))
  refine ⟨follow_comm hground _ _ _ _ _, ?_⟩
  rw [List.append_assoc, List.append_assoc]
  exact .append_left _ (reordered_delays name m s.dir ha hb)

theorem merge_eq (d : Directory) (w : Merge) : merge d w = follow w.target (d.hasOverrides w.bridge) d w.bridge := rfl

/-- **Two merges with one method may be carried out in either order.** -/
theorem merge_comm {d : Directory} (hg : d.Grounded) {w w' : Merge} (h : SameTarget w w') :
    merge (merge d w) w' = merge (merge d w') w := by
  obtain ⟨htarget, hw, hw'⟩ := h
  simp only [merge_eq]
  rw [hasOverrides_follow (htarget ▸ hw'), hasOverrides_follow (htarget ▸ hw), htarget]
  exact follow_comm hg _ _ _ _ _

end Directory
end RenameAudit
