import Mathlib
import RenameAudit.Proofs.Hierarchy.SharedRoots
/-!
# Proofs.Hierarchy.Satisfied — abstract declarations are satisfied

What a class has to satisfy is collected while it is resolved, and the overrides of its methods and of those above it go
on growing afterwards.  A declaration that overrides nothing at the end was open all the time, as overrides only grow
(`Grows`); so it was collected for every class that had to satisfy it (`attached_satisfyAll`), and what came to override it
then does so at the end (`attached_resolve`).
-/
namespace RenameAudit
namespace Directory

open Std Relation ClassFile

/-! ## The first method -/

/-- The first method along a list of classes that has a key and a body and can be called on an object. -/
def IsFirstConcrete (d : Directory) (scope : List String) (key : String) (m : Method) : Prop :=
  d.IsFirst (fun m => !m.isAbstract && m.canOverride) scope key m

theorem nearestConcrete?_eq_some {d : Directory} (h : d.Sound) {scope : List String} {key : String} {m : Method} :
    d.nearestConcrete? scope key = some m ↔ d.IsFirstConcrete scope key m :=
  h.findSome?_eq_some

theorem nearestConcrete?_congr {d e : Directory} (h : d.SameClasses e) (scope : List String) (key : String) :
    e.nearestConcrete? scope key = d.nearestConcrete? scope key := by
  rw [nearestConcrete?, h.methodByKey?, ← nearestConcrete?]

/-! ## One class -/

/-- A method overrides a declaration, or the declaration overrides something itself. -/
def Attached (d : Directory) (m declared : MemberRef) : Prop :=
  d.Overrides m declared ∨ ∃ r, d.Overrides declared r

theorem Attached.mono {d e : Directory} {m declared : MemberRef} (h : d.Attached m declared) (hgrows : d.Grows e) :
    e.Attached m declared :=
  h.imp (hgrows _ _) fun ⟨r, hr⟩ => ⟨r, hgrows _ _ hr⟩

/-- **A class that is not abstract has every open declaration overridden** by the first method with its key. -/
theorem attached_satisfyAll {d : Directory} (hs : d.Sound) {name : String} {stack : List String} {declared m : Method}
    (hbody : Access.isAbstract (d.accessOf name) = false) (hopen : declared ∈ d.openDeclarations (name :: stack))
    (hm : d.nearestConcrete? (name :: stack) declared.key = some m) :
    (satisfyAll name stack d).Overrides m.ref declared.ref := by
  rw [satisfyAll, if_neg (Bool.eq_false_iff.1 hbody)]
  refine foldl_of_mem d.SameClasses (fun e => e.Overrides m.ref declared.ref) hopen (fun e x _ he => ?_) (fun e he => ?_)
    (fun e x _ _ h => Grows.keptByWrites.satisfy _ e x _ _ h) (s := d) ⟨rfl, rfl, fun _ => Iff.rfl, fun _ => rfl⟩
  · rcases satisfy_cases (hs.of_sameClasses he) (name :: stack) x with heq | ⟨_, _, _, _, _, _, _, heq⟩ <;> rw [heq]
    · exact he
    · exact he.trans (sameClasses_addOverrides e _ _)
  · rw [satisfy, nearestConcrete?_congr he, hm]
    exact overrides_addOverrides.2 (.inr ⟨rfl, mem_ofList_iff.2 List.mem_cons_self⟩)

section Resolution

variable {start : Directory} (hs : start.Sound) (hg : start.Grounded) {name c : String} {declared m : Method}
  (hname : name ∈ start.prepare.resolutionOrder) (hread : start.wasRead name = true)
  (hbody : Access.isAbstract (start.accessOf name) = false) (hc : c ∈ name :: start.ancestors name)
  (hdeclared : declared ∈ start.methodsOf c) (habstract : declared.isAbstract = true)
  (hm : start.nearestConcrete? (name :: start.ancestors name) declared.key = some m)

include hs hg hname hread hbody hc hdeclared habstract hm

/-- **Once a class is resolved, what it has to satisfy is overridden**, or overrides something itself. -/
theorem attached_resolveClass {s : Progress} (hu : Underway start s) :
    (resolveClass s name).dir.Attached m.ref declared.ref := by
  have hprepared := (underway_linkedToBridges hs hu hname).prepared hs
  have hsatisfied : (satisfied s name).dir.Attached m.ref declared.ref := by
    dsimp only [satisfied]
    rw [((hu.keepStack name).prepared hs).stackOf]
    by_cases hover : declared.ref ∈ (linkedToBridges s name).dir.overrides
    · have hg := (underway_linkedToBridges hs hu hname).grounded hs hg
      exact Attached.mono (.inr (hg.nonempty _ hover)) (Grows.keptByWrites.satisfyAll _ _ _)
    · refine .inl (attached_satisfyAll (hprepared.sound hs) ?_ (mem_openDeclarations.2 ⟨⟨c, hc, ?_⟩, habstract, hover⟩) ?_)
      · rwa [accessOf, hprepared.same.declaration]
      · rwa [hprepared.same.methodsOf]
      · rwa [nearestConcrete?_congr hprepared.same]
  have hmerged : (satisfied s name).dir.Grows (merged s name).dir :=
    Grows.keptByWrites.foldl Grows.keptByWrites.merge _ _
  rw [resolveClass_eq, (hu.prepared hs).same.wasRead, if_pos hread]
  exact (hsatisfied.mono hmerged).mono (Grows.of_overrides_eq rfl)

/-- **After a resolution every class has what it has to satisfy overridden**, as far as it overrides nothing itself. -/
theorem attached_resolve : start.resolve.Attached m.ref declared.ref :=
  foldl_of_mem (Underway start) (fun s => s.dir.Attached m.ref declared.ref) hname
    (fun _ _ hy h => underway_resolveClass hs h hy)
    (fun _ h => attached_resolveClass hs hg hname hread hbody hc hdeclared habstract hm h)
    (fun s y _ _ hattached => hattached.mono (Grows.resolveClass s y)) .begin

end Resolution

/-! ## Satisfied declarations -/

/-- **Abstract declarations are satisfied**: after classes were taken in and resolved, circles among them included, take a
class that is not abstract, under audit itself or an ancestor of such a class, and a key.  Where the class or one of its
ancestors has a method with that key and a body, the first of them overrides every abstract declaration with the key in
the class and its ancestors that overrides nothing itself, and has all of these as roots. -/
theorem declarations_satisfied (classes : List (ClassFile × Bool)) :
    let d := (empty.takeAll classes).resolve
    ∀ o ∈ d.owned, ∀ c ∈ o :: d.stackOf o, d.wasRead c = true → Access.isAbstract (d.accessOf c) = false →
      ∀ key, (∃ b ∈ c :: d.stackOf c, ∃ m ∈ d.methodsOf b, m.key = key ∧ m.isAbstract = false ∧ m.canOverride = true) →
        ∃ m, d.IsFirstConcrete (c :: d.stackOf c) key m ∧
          ∀ b ∈ c :: d.stackOf c, ∀ declared ∈ d.methodsOf b, declared.key = key → declared.isAbstract = true →
            d.overridesOf declared.ref = ∅ → declared.ref ∈ d.overridesOf m.ref ∧ declared.ref ∈ d.rootsOf m.ref := by
  intro d o ho c hc hread hbody key hexists
  have hs : (empty.takeAll classes).Sound := sound_empty.takeAll classes
  have hg : (empty.takeAll classes).Grounded := grounded_of_empty (overrides_takeAll empty classes)
  have hprepared : (empty.takeAll classes).Prepared d := prepared_resolve hs
  have hground : d.Grounded := grounded_resolve hs hg
  have hsound : d.Sound := hprepared.sound hs
  obtain ⟨b, hb, m', hm', hkey', habs', hcan'⟩ := hexists
  obtain ⟨m, hm⟩ := hsound.exists_first (p := fun m => !m.isAbstract && m.canOverride) hb hm' hkey' (by rw [habs', hcan']; rfl)
  refine ⟨m, hm, fun b hb declared hdeclared hkey habstract hnone => ?_⟩
  have hnearest := (nearestConcrete?_eq_some hsound).2 hm
  rw [hprepared.same.owned] at ho
  rw [hprepared.stackOf] at hc hb hnearest
  rw [nearestConcrete?_congr hprepared.same, ← hkey] at hnearest
  rw [hprepared.same.methodsOf] at hdeclared
  rw [hprepared.same.wasRead] at hread
  rw [accessOf, hprepared.same.declaration, ← accessOf] at hbody
  have hname := mem_resolutionOrder_of_unresolved hs (fun name => isResolved_takeAll classes (isResolved_empty name)) ho hc
  have hend := hground.overridesOf_eq_empty.1 hnone
  have hattached := attached_resolve hs hg hname hread hbody hb hdeclared habstract hnearest
  have hover : d.Overrides m.ref declared.ref := hattached.resolve_right fun hr => hr.elim fun _ hr => hend hr.mem
  refine ⟨hover, ?_⟩
  rw [rootsOf, hprepared.keptRoots, ExtTreeMap.getD_empty, mem_roots, hground.mem_rootSet]
  exact ⟨hend, .single hover⟩

/-! ## Two interfaces with one method -/

/-- A class without methods implements two interfaces by the method of its superclass. -/
def twoInterfaces : List (ClassFile × Bool) :=
  [(withMethod "P" none, false), (asksForMethod, false), ({ asksForMethod with name := "J" }, false),
    ({ adapter "Q" with interfaces := ["I", "J"] }, true)]

/-- The two interfaces after their resolution. -/
def resolvedInterfaces : Directory :=
  (empty.takeAll twoInterfaces).resolve

theorem scope_resolvedInterfaces :
    resolvedInterfaces.owned = ["Q"] ∧ resolvedInterfaces.stackOf "Q" = ["P", "I", "J"] := by
  constructor
  · cbv
  · cbv

theorem methodsOf_resolvedInterfaces :
    resolvedInterfaces.methodsOf "P" = [⟨⟨"P", "m", "()V"⟩, 0x0001, false, none, none⟩] ∧
      resolvedInterfaces.methodsOf "I" = [⟨⟨"I", "m", "()V"⟩, 0x0401, false, none, none⟩] ∧
      resolvedInterfaces.methodsOf "J" = [⟨⟨"J", "m", "()V"⟩, 0x0401, false, none, none⟩] := by
  refine ⟨?_, ?_, ?_⟩
  · cbv
  · cbv
  · cbv

theorem overridesOf_resolvedInterfaces :
    resolvedInterfaces.overridesOf ⟨"I", "m", "()V"⟩ = ∅ ∧ resolvedInterfaces.overridesOf ⟨"J", "m", "()V"⟩ = ∅ := by
  constructor
  · cbv
  · cbv

theorem nearestConcrete?_resolvedInterfaces :
    resolvedInterfaces.nearestConcrete? ["Q", "P", "I", "J"] "m()V" =
      some ⟨⟨"P", "m", "()V"⟩, 0x0001, false, none, none⟩ := by
  cbv

/-- The one method of the superclass overrides the declarations of both interfaces. -/
theorem both_interfaces_satisfied :
    (⟨"I", "m", "()V"⟩ ∈ resolvedInterfaces.overridesOf ⟨"P", "m", "()V"⟩ ∧
        ⟨"I", "m", "()V"⟩ ∈ resolvedInterfaces.rootsOf ⟨"P", "m", "()V"⟩) ∧
      ⟨"J", "m", "()V"⟩ ∈ resolvedInterfaces.overridesOf ⟨"P", "m", "()V"⟩ ∧
        ⟨"J", "m", "()V"⟩ ∈ resolvedInterfaces.rootsOf ⟨"P", "m", "()V"⟩ := by
  obtain ⟨howned, hstack⟩ := scope_resolvedInterfaces
  obtain ⟨hP, hI, hJ⟩ := methodsOf_resolvedInterfaces
  have hsound : resolvedInterfaces.Sound :=
    (prepared_resolve (sound_empty.takeAll twoInterfaces)).sound (sound_empty.takeAll twoInterfaces)
  have hread : resolvedInterfaces.wasRead "Q" = true := by cbv
  have hbody : Access.isAbstract (resolvedInterfaces.accessOf "Q") = false := by cbv
  obtain ⟨m, hm, hall⟩ := declarations_satisfied twoInterfaces "Q" (howned ▸ List.mem_cons_self) "Q" List.mem_cons_self
    hread hbody "m()V" ⟨"P", hstack ▸ by decide, _, hP ▸ List.mem_cons_self, rfl, by decide, by decide⟩
  have hfirst := (nearestConcrete?_eq_some hsound).2 hm
  rw [← resolvedInterfaces, hstack, nearestConcrete?_resolvedInterfaces] at hfirst
  cases hfirst
  constructor
  · exact hall "I" (hstack ▸ by decide) ⟨⟨"I", "m", "()V"⟩, 0x0401, false, none, none⟩ (hI ▸ List.mem_cons_self) rfl
      (by decide) overridesOf_resolvedInterfaces.1
  · exact hall "J" (hstack ▸ by decide) ⟨⟨"J", "m", "()V"⟩, 0x0401, false, none, none⟩ (hJ ▸ List.mem_cons_self) rfl
      (by decide) overridesOf_resolvedInterfaces.2

end Directory
end RenameAudit
