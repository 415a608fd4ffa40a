import Mathlib.Data.List.Induction
import Mathlib.Data.List.Nodup
import RenameAudit.Proofs.Hierarchy.Bridges
import RenameAudit.Proofs.Hierarchy.Runs
import RenameAudit.Proofs.Lists.Ascending
/-!
# Proofs.Hierarchy.Bookkeeping — what a directory knows of classes

`Orderly` is what every call preserves (`Orderly.apply`): the list of classes is that of their entries, and each class has
its own methods and fields, one for each key.  A class that has been read stays as it is (`enlarges_after`), so a directory
knows of each class what the class file says that was accepted for it (`declaration?_after`).
-/
namespace RenameAudit

open Std ClassFile

/-! ## Declarations -/

/-- **A declaration is tidy**: its fields are fields of its class, with one field for each name. -/
structure Declaration.Tidy (name : String) (decl : Declaration) : Prop where
  owner : ∀ f ∈ decl.fields, f.ref.owner = name
  names : decl.fields.Pairwise fun f f' => f.ref.name ≠ f'.ref.name

theorem toDeclaration_tidy (c : ClassFile) (owned : Bool) : (c.toDeclaration owned).Tidy c.name where
  owner f hf := by
    obtain ⟨m, -, rfl⟩ := List.mem_map.1 (mem_firstByKey hf)
    rfl
  names := pairwise_firstByKey _ _

theorem Declaration.Tidy.field?_eq_some {name : String} {decl : Declaration} (h : decl.Tidy name) {n : String} {f : Field} :
    decl.field? n = some f ↔ f ∈ decl.fields ∧ f.ref.name = n := by
  constructor
  · intro hf
    exact ⟨List.mem_of_find?_eq_some hf, by simpa using List.find?_some hf⟩
  · rintro ⟨hf, rfl⟩
    cases hfind : decl.field? f.ref.name with
    | none => exact absurd (List.find?_eq_none.1 hfind f hf) (by simp)
    | some f' =>
      have : Std.Symm fun a b : Field => a.ref.name ≠ b.ref.name := ⟨fun _ _ hne => hne.symm⟩
      have hname : f'.ref.name = f.ref.name := by simpa using List.find?_some hfind
      exact congrArg some (Classical.byContradiction fun hne =>
        h.names.forall (List.mem_of_find?_eq_some hfind) hf hne hname)

namespace Directory

/-- A part of all declarations, in the order in which the classes were read. -/
def inReadOrder {α : Type} (part : Declaration → List α) (d : Directory) : List α :=
  d.ingested.flatMap fun name => ((d.declaration? name).map part).getD []

theorem inReadOrder_congr {d e : Directory} (hingested : e.ingested = d.ingested)
    (hdeclaration : ∀ name, e.declaration? name = d.declaration? name) {α : Type} (part : Declaration → List α) :
    e.inReadOrder part = d.inReadOrder part := by
  unfold inReadOrder
  rw [hingested]
  simp only [hdeclaration]

theorem mem_fieldsOf {d : Directory} {name : String} {f : Field} :
    f ∈ d.fieldsOf name ↔ ∃ decl, d.declaration? name = some decl ∧ f ∈ decl.fields := by
  unfold fieldsOf
  cases d.declaration? name with
  | none => simp
  | some decl => simp [Declaration.sortedFields]

theorem wasRead_of_mem_fieldsOf {d : Directory} {name : String} {f : Field} (h : f ∈ d.fieldsOf name) :
    d.wasRead name = true := by
  obtain ⟨decl, hdecl, -⟩ := mem_fieldsOf.1 h
  rw [wasRead, hdecl]
  rfl

/-- **The methods of a class ascend by their keys.** -/
theorem ascending_methodsOf {d : Directory} (h : d.Sound) (name : String) :
    (d.methodsOf name).Pairwise fun m m' => m.key < m'.key := by
  unfold methodsOf
  cases hd : d.declaration? name with
  | none => exact List.Pairwise.nil
  | some decl => exact pairwise_lt_mergeSort Method.key (h.fits name decl hd).keys

/-- All fields in the order in which they were read. -/
def fields (d : Directory) : List Field :=
  d.inReadOrder (·.fields)

/-! ## The invariant -/

/-- The list of classes has those that are there, once each. -/
structure Named (d : Directory) : Prop where
  nodup : d.names.Nodup
  mem : ∀ name, name ∈ d.names ↔ name ∈ d.classes

/-- **What every call preserves**: the directory is sound, its list of classes is that of their entries, and all
declarations are tidy. -/
structure Orderly (d : Directory) : Prop where
  sound : d.Sound
  named : d.Named
  tidy : ∀ name decl, d.declaration? name = some decl → decl.Tidy name

theorem Named.of_sameClasses {d e : Directory} (h : d.Named) (hsame : d.SameClasses e) : e.Named :=
  ⟨hsame.names ▸ h.nodup, fun name => by rw [hsame.names, h.mem, hsame.known]⟩

theorem Named.mention {d : Directory} (h : d.Named) (name : String) : (d.mention name).Named := by
  unfold Directory.mention
  split
  · exact h
  · rename_i hknown
    have hnew : name ∉ d.names := fun hin =>
      hknown (ExtTreeMap.contains_iff_mem.2 ((h.mem name).1 hin))
    refine ⟨List.nodup_append.2 ⟨h.nodup, List.nodup_singleton _, fun a ha b hb heq => ?_⟩, fun n => ?_⟩
    · exact hnew (List.mem_singleton.1 hb ▸ heq ▸ ha)
    · rw [List.mem_append, List.mem_singleton, mem_insert_iff, h.mem, or_comm]

theorem Named.declare {d : Directory} (h : d.Named) {name : String} (hname : name ∈ d.classes) (decl : Declaration) :
    (d.declare name decl).Named := by
  refine ⟨h.nodup, fun n => ?_⟩
  rw [Directory.declare, mem_insert_iff, ← h.mem]
  exact ⟨.inr, fun hn => hn.elim (fun heq => heq ▸ (h.mem name).2 hname) id⟩

theorem Named.takeIn {d : Directory} (h : d.Named) (c : ClassFile) (owned : Bool) : (d.takeIn c owned).Named := by
  cases hr : d.refusal? c with
  | some fault => rwa [takeIn_of_refused owned hr]
  | none =>
    rw [takeIn_of_accepted owned hr]
    refine Named.declare (List.foldlRecOn (motive := Named) _ _ h fun d h name _ => h.mention name) ?_ _
    rw [ExtTreeMap.mem_iff_isSome_getElem?, getElem?_mentions, if_pos List.mem_cons_self]
    rfl

theorem orderly_empty : empty.Orderly where
  sound := sound_empty
  named := ⟨List.nodup_nil, fun _ => iff_of_false List.not_mem_nil ExtTreeMap.not_mem_empty⟩
  tidy name decl hd := by
    rw [declaration?_empty] at hd
    cases hd

theorem Orderly.of_sameClasses {d e : Directory} (h : d.Orderly) (hsame : d.SameClasses e) : e.Orderly :=
  ⟨h.sound.of_sameClasses hsame, h.named.of_sameClasses hsame,
    fun name decl hd => h.tidy name decl (hsame.declaration name ▸ hd)⟩

/-- **Every call preserves the invariant.** -/
theorem Orderly.apply {d : Directory} (h : d.Orderly) (step : Step) : (d.apply step).Orderly := by
  cases step with
  | takeIn c owned =>
    refine ⟨h.sound.takeIn c owned, h.named.takeIn c owned, fun name decl hd => ?_⟩
    cases hr : d.refusal? c with
    | some fault =>
      rw [Directory.apply, takeIn_of_refused owned hr] at hd
      exact h.tidy name decl hd
    | none =>
      rw [Directory.apply, declaration?_takeIn owned hr] at hd
      split at hd
      · rename_i hn
        cases hd
        exact hn ▸ toDeclaration_tidy c owned
      · exact h.tidy name decl hd
  | mention name =>
    exact ⟨h.sound.mention name, h.named.mention name, fun n decl hd => h.tidy n decl (declaration?_mention d name n ▸ hd)⟩
  | resolve => exact h.of_sameClasses (prepared_resolve h.sound).same
  | keepStack name => exact h.of_sameClasses (sameClasses_keepStack d name)
  | keepRoots m => exact h.of_sameClasses (sameClasses_keepRoots d m)

/-- **The invariant holds after any calls.** -/
theorem orderly_after (steps : List Step) : (after steps).Orderly :=
  List.foldlRecOn (motive := Orderly) _ _ orderly_empty fun _ h step _ => h.apply step

theorem orderly_resolve (steps : List Step) : (after steps).resolve.Orderly :=
  (orderly_after steps).apply .resolve

/-- **The kept ancestors of a resolved directory are its ancestors.** -/
theorem stackOf_resolve (steps : List Step) (c : String) :
    (after steps).resolve.stackOf c = (after steps).resolve.ancestors c := by
  have hprepared := prepared_resolve (orderly_after steps).sound
  rw [hprepared.stackOf, hprepared.same.ancestors]

/-! ## Looking up -/

namespace Orderly

variable {d : Directory} (h : d.Orderly)

include h

/-- The field of a class with a name. -/
theorem field?_eq_some {owner name : String} {f : Field} :
    d.field? owner name = some f ↔ f ∈ d.fieldsOf owner ∧ f.ref.name = name := by
  rw [field?, Option.bind_eq_some_iff, mem_fieldsOf]
  constructor
  · rintro ⟨decl, hd, hf⟩
    obtain ⟨hmem, hname⟩ := (h.tidy owner decl hd).field?_eq_some.1 hf
    exact ⟨⟨decl, hd, hmem⟩, hname⟩
  · rintro ⟨⟨decl, hd, hmem⟩, hname⟩
    exact ⟨decl, hd, (h.tidy owner decl hd).field?_eq_some.2 ⟨hmem, hname⟩⟩

theorem fieldOwner {name : String} {f : Field} (hf : f ∈ d.fieldsOf name) : f.ref.owner = name := by
  obtain ⟨decl, hd, hmem⟩ := mem_fieldsOf.1 hf
  exact (h.tidy name decl hd).owner f hmem

theorem mem_names_of_wasRead {name : String} (hread : d.wasRead name = true) : name ∈ d.names := by
  obtain ⟨decl, hd⟩ := Option.isSome_iff_exists.1 hread
  obtain ⟨entry, hentry, -⟩ := Option.bind_eq_some_iff.1 hd
  exact (h.named.mem name).2 (mem_of_getElem? hentry)

end Orderly

/-! ## What lasts -/

theorem SameClasses.enlarges {d e : Directory} (h : d.SameClasses e) : d.Enlarges e :=
  ⟨fun name decl hd => (h.declaration name).trans hd, fun name hn => (h.known name).2 hn, [],
    by rw [h.ingested, List.append_nil], fun _ hn => absurd hn List.not_mem_nil⟩

theorem enlarges_mention (d : Directory) (name : String) : d.Enlarges (d.mention name) := by
  refine ⟨fun n decl hd => (declaration?_mention d name n).trans hd, fun n hn => ?_, [],
    by rw [ingested_mention, List.append_nil], fun _ hn => absurd hn List.not_mem_nil⟩
  rw [ExtTreeMap.mem_iff_isSome_getElem?, getElem?_mention]
  split
  · rfl
  · exact ExtTreeMap.mem_iff_isSome_getElem?.1 hn

theorem enlarges_apply {d : Directory} (h : d.Sound) (step : Step) : d.Enlarges (d.apply step) := by
  cases step with
  | takeIn c owned => exact enlarges_takeIn d c owned
  | mention name => exact enlarges_mention d name
  | resolve => exact (prepared_resolve h).same.enlarges
  | keepStack name => exact (sameClasses_keepStack d name).enlarges
  | keepRoots m => exact (sameClasses_keepRoots d m).enlarges

/-- **Every call leaves what was known as it is.** -/
theorem enlarges_after (steps more : List Step) : (after steps).Enlarges (after (steps ++ more)) := by
  have happend : after (steps ++ more) = more.foldl Directory.apply (after steps) := List.foldl_append
  rw [happend]
  have hrun := List.foldlRecOn (motive := fun e : Directory => e.Orderly ∧ (after steps).Enlarges e) more Directory.apply
    ⟨orderly_after steps, .refl _⟩ fun e he step _ => ⟨he.1.apply step, he.2.trans (enlarges_apply he.1.sound step)⟩
  exact hrun.2

/-! ## What has been read -/

/-- A class was taken in by one of the calls, and not refused. -/
def Accepted (steps : List Step) (c : ClassFile) (owned : Bool) : Prop :=
  ∃ front back, steps = front ++ .takeIn c owned :: back ∧ (after front).refusal? c = none

theorem Accepted.snoc {steps : List Step} {c : ClassFile} {owned : Bool} (h : Accepted steps c owned) (step : Step) :
    Accepted (steps ++ [step]) c owned := by
  obtain ⟨front, back, rfl, hr⟩ := h
  exact ⟨front, back ++ [step], by rw [List.append_assoc, List.cons_append], hr⟩

theorem after_snoc (steps : List Step) (step : Step) : after (steps ++ [step]) = (after steps).apply step := by
  rw [after, List.foldl_append]
  rfl

/-- **A directory knows of a class what the class file says that was accepted for it**, and nothing else. -/
theorem declaration?_after (steps : List Step) (name : String) (decl : Declaration) :
    (after steps).declaration? name = some decl ↔
      ∃ c owned, Accepted steps c owned ∧ c.name = name ∧ c.toDeclaration owned = decl := by
  constructor
  · intro hd
    induction steps using List.reverseRecOn with
    | nil => exact absurd ((declaration?_empty name).symm.trans hd) (by simp)
    | append_singleton steps step ih =>
      rw [after_snoc] at hd
      have hearlier : (after steps).declaration? name = some decl →
          ∃ c owned, Accepted (steps ++ [step]) c owned ∧ c.name = name ∧ c.toDeclaration owned = decl := fun hd => by
        obtain ⟨c, owned, hc, hname, hdecl⟩ := ih hd
        exact ⟨c, owned, hc.snoc step, hname, hdecl⟩
      cases step with
      | takeIn c owned =>
        cases hr : (after steps).refusal? c with
        | some fault =>
          rw [Directory.apply, takeIn_of_refused owned hr] at hd
          exact hearlier hd
        | none =>
          rw [Directory.apply, declaration?_takeIn owned hr] at hd
          split at hd
          · rename_i hname
            exact ⟨c, owned, ⟨steps, [], rfl, hr⟩, hname.symm, Option.some.inj hd⟩
          · exact hearlier hd
      | mention n => exact hearlier ((declaration?_mention _ n name).symm.trans hd)
      | resolve => exact hearlier (((prepared_resolve (orderly_after steps).sound).same.declaration name).symm.trans hd)
      | keepStack n => exact hearlier (((sameClasses_keepStack _ n).declaration name).symm.trans hd)
      | keepRoots m => exact hearlier (((sameClasses_keepRoots _ m).declaration name).symm.trans hd)
  · rintro ⟨c, owned, ⟨front, back, rfl, hr⟩, rfl, rfl⟩
    have htaken : (after (front ++ [.takeIn c owned])).declaration? c.name = some (c.toDeclaration owned) := by
      rw [after_snoc, Directory.apply, declaration?_takeIn owned hr, if_pos rfl]
    have hlast := (enlarges_after (front ++ [.takeIn c owned]) back).declaration _ _ htaken
    rwa [List.append_assoc, List.singleton_append] at hlast

end Directory
end RenameAudit
