import RenameAudit.Proofs.Graph.BreadthFirst
import RenameAudit.Proofs.Hierarchy.Bookkeeping
/-!
# Proofs.Hierarchy.AncestorOrder — the order of the ancestors of a class

The supertypes of known classes are known, so the search for the ancestors of a class never leaves the directory
(`supertypes_closed`): it comes to an end also where classes inherit from each other in a circle, and it lists the other
classes to which supertypes lead, nearer ones first.  A list of ancestors that is kept was found so by an earlier call
(`kept_of_earlier`).
-/
namespace RenameAudit
namespace Directory

open Std Relation ClassFile

/-- The supertypes of a class and of the others that are known are that class or others that are known. -/
theorem supertypes_closed {d : Directory} (h : d.Sound) (c : String) :
    ∀ a, a = c ∨ a ∈ d.classes.erase c → ∀ b ∈ d.supertypesOf a, b = c ∨ b ∈ d.classes.erase c := by
  intro a _ b hb
  by_cases hbc : b = c
  · exact .inl hbc
  · exact .inr (mem_erase_iff.2 ⟨h.supertypes_known a b hb, hbc⟩)

theorem not_mem_erase_self (d : Directory) (c : String) : c ∉ d.classes.erase c := fun hin => (mem_erase_iff.1 hin).2 rfl

/-! ## Kept lists -/

/-- The list of ancestors that is kept for a class, if one is. -/
def keptStack? (d : Directory) (name : String) : Option (List String) :=
  d.classes[name]?.bind (·.stack)

theorem stackOf_eq_of_keptStack? {d : Directory} {name : String} {l : List String} (h : d.keptStack? name = some l) :
    d.stackOf name = l := by
  rw [stackOf, ← keptStack?, h]
  rfl

/-- Where no list is kept, the ancestors are looked for. -/
theorem stackOf_eq_of_keptStack?_none {d : Directory} {name : String} (h : d.keptStack? name = none) :
    d.stackOf name = d.ancestors name := by
  rw [stackOf, ← keptStack?, h]
  rfl

theorem keptStack?_takeIn (d : Directory) (c : ClassFile) (owned : Bool) (name : String) :
    (d.takeIn c owned).keptStack? name = d.keptStack? name := by
  cases hr : d.refusal? c with
  | some fault => rw [takeIn_of_refused owned hr]
  | none =>
    rw [keptStack?, getElem?_takeIn owned hr, keptStack?]
    split
    · rfl
    · split
      · cases d.classes[name]? <;> rfl
      · rfl

theorem keptStack?_mention (d : Directory) (c name : String) : (d.mention c).keptStack? name = d.keptStack? name := by
  rw [keptStack?, getElem?_mention, keptStack?]
  split
  · cases d.classes[name]? <;> rfl
  · rfl

theorem keptStack?_keepRoots (d : Directory) (m : MemberRef) (name : String) :
    (d.keepRoots m).keptStack? name = d.keptStack? name := by
  unfold keepRoots
  split <;> rfl

/-- A list that is kept when the ancestors of a class have been asked for was kept before, or is what has been found. -/
theorem keptStack?_keepStack {d : Directory} {c name : String} {l : List String}
    (h : (d.keepStack c).keptStack? name = some l) : d.keptStack? name = some l ∨ l = d.ancestors name := by
  rw [keptStack?, keepStack, getElem?_modify_eq] at h
  split at h
  · rename_i hname
    subst hname
    rw [keptStack?]
    cases hc : d.classes[name]? with
    | none =>
      rw [hc] at h
      cases h
    | some e =>
      rw [hc] at h
      cases hs : e.stack with
      | none =>
        simp only [Option.map_some, hs, Option.bind_some, Option.some.injEq] at h
        exact .inr h.symm
      | some stack =>
        simp only [Option.map_some, hs, Option.bind_some] at h
        exact .inl (hs.trans h)
  · exact .inl h

/-- **A kept list of ancestors is what an earlier call found.** -/
theorem kept_of_earlier (steps : List Step) {name : String} {l : List String}
    (h : (after steps).keptStack? name = some l) : ∃ earlier, earlier <+: steps ∧ l = (after earlier).ancestors name := by
  induction steps using List.reverseRecOn generalizing l with
  | nil =>
    have hnone : (after []).keptStack? name = none := by
      have hempty : empty.classes[name]? = none := getElem?_eq_none_iff.2 ExtTreeMap.not_mem_empty
      exact congrArg (·.bind (·.stack)) hempty
    rw [hnone] at h
    cases h
  | append_singleton steps step ih =>
    have hbefore : (after steps).keptStack? name = some l →
        ∃ earlier, earlier <+: steps ++ [step] ∧ l = (after earlier).ancestors name := fun h => by
      obtain ⟨earlier, hearlier, hl⟩ := ih h
      exact ⟨earlier, hearlier.trans (List.prefix_append _ _), hl⟩
    rw [after_snoc] at h
    cases step with
    | takeIn c owned => exact hbefore (keptStack?_takeIn _ c owned name ▸ h)
    | mention c => exact hbefore (keptStack?_mention _ c name ▸ h)
    | resolve =>
      have hstack := stackOf_eq_of_keptStack? h
      rw [apply, (prepared_resolve (good_after steps).sound).stackOf] at hstack
      exact ⟨steps, List.prefix_append _ _, hstack.symm⟩
    | keepStack c =>
      rcases keptStack?_keepStack h with h | rfl
      · exact hbefore h
      · exact ⟨steps, List.prefix_append _ _, rfl⟩
    | keepRoots m => exact hbefore (keptStack?_keepRoots _ m name ▸ h)

/-! ## Nearest first -/

/-- **The ancestors of a class come nearest first**: after any calls, circles among the classes included, the search for them
as a loop comes to an end.  It lists the other classes to which supertypes lead, each once.  Of two of them the first is
nearer, or as near and led to by an earlier one; and of those that the same class leads to first, the superclass comes
before the interfaces, and these are in their order.  This is the list that the directory gives where it keeps none, and
after a resolution; a list that it keeps is what an earlier call found so. -/
theorem ancestors_nearest_first (steps : List Step) (c : String) :
    let d := after steps
    (∃ final, (Graph.Sweep.start d.supertypesOf c).Leads d.supertypesOf final ∧ final.step d.supertypesOf = none ∧
        final.found = d.ancestors c) ∧
      (∀ x, x ∈ d.ancestors c ↔ x ≠ c ∧ TransGen d.Extends c x) ∧ (d.ancestors c).Nodup ∧
      (d.ancestors c).Pairwise (Graph.ComesBefore d.supertypesOf c (d.ancestors c)) ∧
      (d.keptStack? c = none → d.stackOf c = d.ancestors c) ∧ d.resolve.stackOf c = d.resolve.ancestors c ∧
      ∃ earlier, earlier <+: steps ∧ d.stackOf c = (after earlier).ancestors c := by
  intro d
  have hs : d.Sound := (good_after steps).sound
  have hout := not_mem_erase_self d c
  have hclosed := supertypes_closed hs c
  refine ⟨Graph.sweep_ends hout hclosed, fun x => mem_ancestors hs, Graph.nodup_breadthFirst _ _ _,
    Graph.pairwise_breadthFirst hout hclosed, stackOf_eq_of_keptStack?_none, stackOf_resolve steps c, ?_⟩
  cases hkept : d.keptStack? c with
  | none => exact ⟨steps, List.prefix_rfl, stackOf_eq_of_keptStack?_none hkept⟩
  | some l =>
    obtain ⟨earlier, hearlier, hl⟩ := kept_of_earlier steps hkept
    exact ⟨earlier, hearlier, (stackOf_eq_of_keptStack? hkept).trans hl⟩

end Directory
end RenameAudit
