import RenameAudit.Proofs.Hierarchy.Passes
import RenameAudit.Proofs.Hierarchy.TakingIn
import RenameAudit.Proofs.Lists.Ascending
/-!
# Proofs.Hierarchy.Runs — directories after any calls

`after steps` is the directory that calls in their order make of the directory without classes: classes are taken in or
only mentioned, the hierarchy is resolved, again and again, and lists of ancestors and roots are asked for in between.
In every such directory, and in every state of every resolution, the graph of overrides is grounded: each write of a
resolution adds edges to methods other than their source that override nothing at that moment (`Underway.grounded`).
-/
namespace RenameAudit

open Std Relation ClassFile

/-- A method reference comes before another: by owner, then by name, then by descriptor. -/
def MemberRef.Precedes (a b : MemberRef) : Prop :=
  a.owner < b.owner ∨ (a.owner = b.owner ∧ (a.name < b.name ∨ (a.name = b.name ∧ a.descriptor < b.descriptor)))

theorem compare_string_eq_lt {x y : String} : compare x y = .lt ↔ x < y :=
  compareOfLessAndEq_eq_lt

theorem MemberRef.compare_eq_lt {a b : MemberRef} : compare a b = .lt ↔ a.Precedes b := by
  have hcompare : compare a b =
      ((compare a.owner b.owner).then (compare a.name b.name)).then (compare a.descriptor b.descriptor) := rfl
  rw [hcompare, Ordering.then_eq_lt, Ordering.then_eq_lt, Ordering.then_eq_eq, compare_string_eq_lt,
    compare_string_eq_lt, compare_string_eq_lt, Std.compare_eq_iff_eq, Std.compare_eq_iff_eq, Precedes]
  constructor
  · rintro ((h | ⟨ho, h⟩) | ⟨⟨ho, hn⟩, h⟩)
    · exact .inl h
    · exact .inr ⟨ho, .inl h⟩
    · exact .inr ⟨ho, .inr ⟨hn, h⟩⟩
  · rintro (h | ⟨ho, h | ⟨hn, h⟩⟩)
    · exact .inl (.inl h)
    · exact .inl (.inr ⟨ho, h⟩)
    · exact .inr ⟨⟨ho, hn⟩, h⟩

theorem MemberRef.Precedes.not_symm {a b : MemberRef} (h : a.Precedes b) : ¬ b.Precedes a := fun h' =>
  OrientedCmp.not_lt_of_lt (MemberRef.compare_eq_lt.2 h) (MemberRef.compare_eq_lt.2 h')

namespace Directory

theorem mem_owned {d : Directory} {name : String} : name ∈ d.owned ↔ name ∈ d.classes ∧ d.isOwned name = true := by
  rw [owned, List.mem_filter, ExtTreeMap.mem_keys]

theorem ascending_owned (d : Directory) : d.owned.Pairwise (· < ·) :=
  (ExtTreeMap.ordered_keys.imp compare_string_eq_lt.1).filter _

/-! ## Resolutions keep the graph grounded -/

theorem grounded_satisfy {d : Directory} (h : d.Sound) (hg : d.Grounded) {scope : List String} {declared : Method}
    (hopen : declared ∈ d.openDeclarations scope) : (satisfy scope d declared).Grounded := by
  rcases satisfy_cases h scope declared with he | ⟨c, -, m, hm, -, habs, -, he⟩ <;> rw [he]
  · exact hg
  · obtain ⟨⟨c', -, hdecl⟩, habstract, hnone⟩ := mem_openDeclarations.1 hopen
    refine hg.addOverrides fun r hr => ?_
    obtain rfl := List.mem_singleton.1 (mem_ofList_iff.1 hr)
    refine ⟨hnone, fun href => ?_⟩
    -- the declaration is abstract, the method has a body
    rw [h.eq_of_ref hdecl hm href, habs] at habstract
    cases habstract

/-- **Every write of a resolution keeps the graph of overrides grounded.** -/
theorem Underway.grounded {start : Directory} (hs : start.Sound) (hg : start.Grounded) {s : Progress}
    (h : Underway start s) : s.dir.Grounded := by
  induction h with
  | begin => exact hg.of_overrides_eq rfl
  | keepStack name _ ih => exact ih.of_overrides_eq rfl
  | linkDirect h _ _ ih =>
    dsimp only
    rcases linkDirect_cases ((h.prepared hs).sound hs) _ _ with he | ⟨_, _, _, _, _, _, _, he⟩ <;> rw [he]
    · exact ih
    · exact ih.addRoots _ _
  | @linkBridge s name m bridge _ _ _ _ _ ih =>
    obtain ⟨d, hd, he⟩ := linkBridge_cases name m s bridge
    have hd : d.Grounded := hd.elim (fun h => h ▸ ih) fun h => h ▸ ih.of_overrides_eq rfl
    rcases he with he | he | ⟨-, he⟩ <;> rw [he]
    · exact hd
    · exact hd
    · exact hd.addRoots _ _
  | satisfy h _ hopen ih => exact grounded_satisfy ((h.prepared hs).sound hs) ih hopen
  | @merge s w _ _ ih =>
    dsimp only
    rcases merge_cases s.dir w with he | ⟨-, he⟩ <;> rw [he]
    · exact ih
    · exact ih.addRoots _ _
  | markResolved name _ _ ih => exact ih.of_overrides_eq rfl

theorem grounded_resolve {d : Directory} (hs : d.Sound) (hg : d.Grounded) : d.resolve.Grounded := by
  obtain ⟨waiting, h⟩ := underway_resolve hs
  have hend := h.grounded hs hg
  exact hend

/-! ## Runs -/

/-- A call of a directory. -/
inductive Step where
  | takeIn (c : ClassFile) (owned : Bool)
  | mention (name : String)
  | resolve
  | keepStack (name : String)
  | keepRoots (m : MemberRef)

/-- The directory after a call. -/
def apply (d : Directory) : Step → Directory
  | .takeIn c owned => d.takeIn c owned
  | .mention name => d.mention name
  | .resolve => d.resolve
  | .keepStack name => d.keepStack name
  | .keepRoots m => d.keepRoots m

/-- The directory after calls, from the one without classes. -/
def after (steps : List Step) : Directory :=
  steps.foldl apply empty

/-- **What every call preserves**: the directory is sound, its overrides are grounded, and kept roots are those that would
be computed. -/
structure Good (d : Directory) : Prop where
  sound : d.Sound
  grounded : d.Grounded
  kept : ∀ (m : MemberRef) (l : List MemberRef), d.keptRoots[m]? = some l → l = d.roots m

theorem roots_congr {d e : Directory} (h : e.overrides = d.overrides) (m : MemberRef) : e.roots m = d.roots m := by
  rw [roots, roots, rootSet, rootSet, h]

theorem Good.of_reading {d e : Directory} (h : d.Good) (hs : e.Sound) (ho : e.overrides = d.overrides)
    (hk : e.keptRoots = d.keptRoots) : e.Good :=
  ⟨hs, h.grounded.of_overrides_eq ho, fun m l hl => by rw [roots_congr ho, h.kept m l (hk ▸ hl)]⟩

theorem good_empty : empty.Good :=
  ⟨sound_empty, grounded_of_empty rfl, fun _ _ hl => absurd (mem_of_getElem? hl) ExtTreeMap.not_mem_empty⟩

theorem Good.keepRoots {d : Directory} (h : d.Good) (m : MemberRef) : (d.keepRoots m).Good := by
  have hs := h.sound.of_sameClasses (sameClasses_keepRoots d m)
  unfold Directory.keepRoots at hs ⊢
  split at hs
  · rwa [if_pos ‹_›]
  · rw [if_neg ‹_›]
    refine ⟨hs, h.grounded.of_overrides_eq rfl, fun n l hl => ?_⟩
    rw [getElem?_insert_eq] at hl
    split at hl
    · rename_i hn
      cases hl
      exact hn ▸ rfl
    · exact h.kept n l hl

theorem Good.resolve {d : Directory} (h : d.Good) : d.resolve.Good := by
  have hp := prepared_resolve h.sound
  refine ⟨hp.sound h.sound, grounded_resolve h.sound h.grounded, fun m l hl => ?_⟩
  rw [hp.keptRoots] at hl
  exact absurd (mem_of_getElem? hl) ExtTreeMap.not_mem_empty

/-- **Every call preserves the invariant.** -/
theorem Good.apply {d : Directory} (h : d.Good) (step : Step) : (d.apply step).Good := by
  cases step with
  | takeIn c owned =>
    have he := overrides_takeIn d c owned
    exact h.of_reading (h.sound.takeIn c owned) he.1 he.2
  | mention name =>
    have he := overrides_mention d name
    exact h.of_reading (h.sound.mention name) he.1 he.2
  | resolve => exact h.resolve
  | keepStack name => exact h.of_reading (h.sound.of_sameClasses (sameClasses_keepStack d name)) rfl rfl
  | keepRoots m => exact h.keepRoots m

/-- **The invariant holds after any calls.** -/
theorem good_after (steps : List Step) : (after steps).Good :=
  List.foldlRecOn (motive := Good) _ _ good_empty fun _ h step _ => h.apply step

theorem Good.rootsOf_eq {d : Directory} (h : d.Good) (m : MemberRef) : d.rootsOf m = d.roots m := by
  rw [rootsOf, ExtTreeMap.getD_eq_getD_getElem?]
  cases hl : d.keptRoots[m]? with
  | none => rfl
  | some l => exact h.kept m l hl

/-! ## Roots -/

/-- **Roots are settled**: there are some, in their order; each overrides nothing and is its own only root; kept ones are
those that would be computed; and the search for them does not come back with none. -/
structure SettledRoots (d : Directory) (m : MemberRef) : Prop where
  nonempty : d.rootsOf m ≠ []
  ascending : (d.rootsOf m).Pairwise MemberRef.Precedes
  ends : ∀ r ∈ d.rootsOf m, d.overridesOf r = ∅ ∧ d.rootsOf r = [r]
  fresh : d.rootsOf m = d.roots m
  found : Graph.leaves d.overrides d.overrides [m] ≠ []

theorem ascending_roots (d : Directory) (m : MemberRef) : (d.roots m).Pairwise MemberRef.Precedes :=
  ExtTreeSet.ordered_toList.imp MemberRef.compare_eq_lt.1

theorem Grounded.roots_ne_nil {d : Directory} (h : d.Grounded) (m : MemberRef) : d.roots m ≠ [] := by
  obtain ⟨r, hr⟩ := h.exists_root m
  exact List.ne_nil_of_mem (mem_roots.2 (h.mem_rootSet.2 hr))

theorem Grounded.roots_of_not_mem {d : Directory} (h : d.Grounded) {m : MemberRef} (hm : m ∉ d.overrides) :
    d.roots m = [m] := by
  have hset : d.rootSet m = ExtTreeSet.ofList [m] :=
    ExtTreeSet.ext_mem fun r => by rw [h.root_of_not_mem hm, mem_ofList_iff, List.mem_singleton]
  rw [roots, hset]
  rfl

theorem Good.settledRoots {d : Directory} (h : d.Good) (m : MemberRef) : d.SettledRoots m := by
  have hroots : ∀ n, d.rootsOf n = d.roots n := h.rootsOf_eq
  refine ⟨hroots m ▸ h.grounded.roots_ne_nil m, hroots m ▸ ascending_roots d m, fun r hr => ?_, hroots m,
    h.grounded.leaves_ne_nil m⟩
  rw [hroots] at hr ⊢
  have hend := (h.grounded.mem_rootSet.1 (mem_roots.1 hr)).1
  exact ⟨overridesOf_of_not_mem hend, h.grounded.roots_of_not_mem hend⟩

/-- **Overrides never lead round in a circle**, whatever was called before and however far a resolution has come, also
where classes inherit from each other in a circle; so the roots of every method are settled. -/
theorem overrides_acyclic (steps : List Step) :
    (after steps).OverridesAcyclic ∧ (∀ m, (after steps).SettledRoots m) ∧
      ∀ s, Underway (after steps) s →
        s.dir.OverridesAcyclic ∧ ∀ m, Graph.leaves s.dir.overrides s.dir.overrides [m] ≠ [] := by
  have h := good_after steps
  refine ⟨h.grounded.acyclic, h.settledRoots, fun s hs => ?_⟩
  have hg := hs.grounded h.sound h.grounded
  exact ⟨hg.acyclic, hg.leaves_ne_nil⟩

/-! ## Two classes -/

/-- An interface with one method. -/
def shape : ClassFile where
  minor := 0
  major := 52
  access := 0x0601
  name := "S"
  superclass := none
  interfaces := []
  fields := []
  methods := [⟨0x0401, "d", "()V", none⟩]

/-- A class that implements the interface. -/
def circle : ClassFile where
  minor := 0
  major := 52
  access := 0x0021
  name := "C"
  superclass := none
  interfaces := ["S"]
  fields := []
  methods := [⟨0x0001, "d", "()V", some ⟨0, 1, [.ret 0xb1]⟩⟩]

end Directory
end RenameAudit
