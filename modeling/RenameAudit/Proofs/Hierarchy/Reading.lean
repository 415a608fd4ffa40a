import Mathlib.Data.List.Pairwise
import RenameAudit.Hierarchy.Ingest
import RenameAudit.Hierarchy.Resolution
import RenameAudit.Proofs.Graph.Reach
/-!
# Proofs.Hierarchy.Reading — what has been read

What a directory knows of its classes is in their declarations, and most of its functions look at nothing else.
`SameClasses d e` says that two directories agree on them: resolving, and keeping lists and roots, never changes a
declaration.

A declaration `Fits` its name when its methods are methods of that class, with one method for each key; every class
that a directory takes in has such a declaration (`toDeclaration_fits`).
-/
namespace RenameAudit

open Std ClassFile

/-! ## Declarations -/

theorem mem_firstByKey {α : Type} {key : α → String} {items : List α} {a : α} (h : a ∈ firstByKey key items) :
    a ∈ items := by
  have hgo : ∀ (items kept : List α), a ∈ items.foldl (fun kept a =>
      if kept.any (fun b => key b == key a) then kept else kept ++ [a]) kept → a ∈ kept ∨ a ∈ items := by
    intro items
    induction items with
    | nil => exact fun kept h => .inl h
    | cons b rest ih =>
      intro kept h
      rcases ih _ h with h | h
      · dsimp only at h
        split at h
        · exact .inl h
        · exact (List.mem_append.1 h).imp id fun h => List.mem_cons.2 (.inl (List.mem_singleton.1 h))
      · exact .inr (List.mem_cons_of_mem _ h)
  exact (hgo items [] h).resolve_left List.not_mem_nil

/-- **No two of the kept items have one key.** -/
theorem pairwise_firstByKey {α : Type} (key : α → String) (items : List α) :
    (firstByKey key items).Pairwise fun a b => key a ≠ key b := by
  refine List.foldlRecOn (motive := fun kept : List α => kept.Pairwise fun a b => key a ≠ key b) items _ List.Pairwise.nil ?_
  intro kept hk b _
  split
  · exact hk
  · rename_i hnone
    refine List.pairwise_append.2 ⟨hk, List.pairwise_singleton _ _, fun a ha c hc he => hnone ?_⟩
    rw [List.mem_singleton.1 hc] at he
    exact List.any_eq_true.2 ⟨a, ha, beq_iff_eq.2 he⟩

/-- **Keeping the first of each key goes with renaming**, where renamed keys are equal as the keys are. -/
theorem firstByKey_map {α β : Type} {key : α → String} {key' : β → String} {g : α → β} (items : List α)
    (hkey : ∀ a ∈ items, ∀ b ∈ items, key' (g a) = key' (g b) ↔ key a = key b) :
    firstByKey key' (items.map g) = (firstByKey key items).map g := by
  have hgo : ∀ (rest kept : List α), (∀ a ∈ rest, a ∈ items) → (∀ a ∈ kept, a ∈ items) →
      (rest.map g).foldl (fun kept a => if kept.any (fun b => key' b == key' a) then kept else kept ++ [a]) (kept.map g) =
        (rest.foldl (fun kept a => if kept.any (fun b => key b == key a) then kept else kept ++ [a]) kept).map g := by
    intro rest
    induction rest with
    | nil => exact fun kept _ _ => rfl
    | cons a rest ih =>
      intro kept hrest hkept
      have ha := hrest a List.mem_cons_self
      have hany : (kept.map g).any (fun b => key' b == key' (g a)) = kept.any (fun b => key b == key a) := by
        rw [List.any_map, Bool.eq_iff_iff, List.any_eq_true, List.any_eq_true]
        refine exists_congr fun b => and_congr_right fun hb => ?_
        rw [Function.comp_apply, beq_iff_eq, beq_iff_eq]
        exact hkey b (hkept b hb) a ha
      rw [List.map_cons, List.foldl_cons, List.foldl_cons, hany]
      split
      · exact ih kept (fun b hb => hrest b (List.mem_cons_of_mem _ hb)) hkept
      · rw [← List.map_singleton, ← List.map_append]
        refine ih _ (fun b hb => hrest b (List.mem_cons_of_mem _ hb)) fun b hb => ?_
        rcases List.mem_append.1 hb with hb | hb
        · exact hkept b hb
        · exact List.mem_singleton.1 hb ▸ ha
  exact hgo items [] (fun _ ha => ha) fun _ ha => absurd ha List.not_mem_nil

/-- **A declaration fits a name**: its methods are methods of that class, no two have one key, and their descriptors
begin as those of methods do. -/
structure Declaration.Fits (name : String) (decl : Declaration) : Prop where
  owner : ∀ m ∈ decl.methods, m.ref.owner = name
  keys : decl.methods.Pairwise fun m m' => m.key ≠ m'.key
  descriptor : ∀ m ∈ decl.methods, ∃ rest, m.ref.descriptor.toList = '(' :: rest

theorem opens_of_parse? {s : String} {t : MethodType} (h : MethodType.parse? s = some t) :
    ∃ rest, s.toList = '(' :: rest := by
  unfold MethodType.parse? at h
  split at h
  · rename_i rest heq
    exact ⟨rest, heq⟩
  · cases h

theorem toDeclaration_fits {c : ClassFile} (h : c.structureFault? = none) (owned : Bool) :
    (c.toDeclaration owned).Fits c.name := by
  have hmember : ∀ m ∈ (c.toDeclaration owned).methods, ∃ f ∈ c.methods, c.methodOf owned c.lambdaKeys f = m :=
    fun m hm => List.mem_map.1 (mem_firstByKey hm)
  refine ⟨fun m hm => ?_, pairwise_firstByKey _ _, fun m hm => ?_⟩
  · obtain ⟨f, -, rfl⟩ := hmember m hm
    rfl
  · obtain ⟨f, hf, rfl⟩ := hmember m hm
    have hparse : MethodType.parse? f.descriptor ≠ none := by
      unfold structureFault? at h
      split at h
      · cases h
      · split at h
        · cases h
        · rw [Option.map_eq_none_iff, List.find?_eq_none] at h
          have := h f hf
          simpa using this
    obtain ⟨t, ht⟩ := Option.ne_none_iff_exists'.1 hparse
    exact opens_of_parse? ht

namespace Declaration

theorem mem_sortedMethods {decl : Declaration} {m : Method} : m ∈ decl.sortedMethods ↔ m ∈ decl.methods :=
  List.mem_mergeSort

theorem Fits.eq_of_key {name : String} {decl : Declaration} (h : decl.Fits name) {m m' : Method}
    (hm : m ∈ decl.methods) (hm' : m' ∈ decl.methods) (hkey : m.key = m'.key) : m = m' := by
  have : Std.Symm fun a b : Method => a.key ≠ b.key := ⟨fun _ _ hk => hk.symm⟩
  exact Classical.byContradiction fun hne => h.keys.forall hm hm' hne hkey

theorem Fits.method?_eq_some {name : String} {decl : Declaration} (h : decl.Fits name) {key : String} {m : Method} :
    decl.method? key = some m ↔ m ∈ decl.methods ∧ m.key = key := by
  constructor
  · intro hm
    exact ⟨List.mem_of_find?_eq_some hm, by simpa using List.find?_some hm⟩
  · rintro ⟨hm, rfl⟩
    cases hfind : decl.method? m.key with
    | none =>
      have := List.find?_eq_none.1 hfind m hm
      simp at this
    | some m' =>
      rw [h.eq_of_key (List.mem_of_find?_eq_some hfind) hm (by simpa using List.find?_some hfind)]

end Declaration

namespace Directory

/-! ## The same classes -/

/-- **Two directories have read the same.** -/
structure SameClasses (d e : Directory) : Prop where
  names : e.names = d.names
  ingested : e.ingested = d.ingested
  known : ∀ name, name ∈ e.classes ↔ name ∈ d.classes
  declaration : ∀ name, e.declaration? name = d.declaration? name

namespace SameClasses

variable {d e f : Directory}

theorem symm (h : d.SameClasses e) : e.SameClasses d :=
  ⟨h.names.symm, h.ingested.symm, fun n => (h.known n).symm, fun n => (h.declaration n).symm⟩

theorem trans (h : d.SameClasses e) (h' : e.SameClasses f) : d.SameClasses f :=
  ⟨h'.names.trans h.names, h'.ingested.trans h.ingested, fun n => (h'.known n).trans (h.known n),
    fun n => (h'.declaration n).trans (h.declaration n)⟩

theorem wasRead (h : d.SameClasses e) (name : String) : e.wasRead name = d.wasRead name := by
  rw [Directory.wasRead, h.declaration, ← Directory.wasRead]

theorem supertypesOf (h : d.SameClasses e) : e.supertypesOf = d.supertypesOf :=
  funext fun name => by rw [Directory.supertypesOf, h.declaration, ← Directory.supertypesOf]

theorem methodsOf (h : d.SameClasses e) (name : String) : e.methodsOf name = d.methodsOf name := by
  rw [Directory.methodsOf, h.declaration, ← Directory.methodsOf]

theorem methodByKey? (h : d.SameClasses e) : e.methodByKey? = d.methodByKey? :=
  funext fun name => funext fun key => by rw [Directory.methodByKey?, h.declaration, ← Directory.methodByKey?]

theorem owned (h : d.SameClasses e) : e.owned = d.owned := by
  have hown : e.isOwned = d.isOwned := funext fun name => by
    rw [isOwned, h.declaration, ← isOwned]
  rw [Directory.owned, hown, keys_congr h.known, ← Directory.owned]

theorem methods (h : d.SameClasses e) : e.methods = d.methods := by
  unfold Directory.methods
  rw [h.ingested]
  simp only [h.declaration]

theorem ancestors (h : d.SameClasses e) (name : String) : e.ancestors name = d.ancestors name := by
  rw [Directory.ancestors, Directory.ancestors, h.supertypesOf]
  exact Graph.breadthFirst_congr _ _ _ _ fun a => by rw [mem_erase_iff, mem_erase_iff, h.known]

end SameClasses

theorem sameClasses_modify (d : Directory) (name : String) (f : ClassEntry → ClassEntry)
    (hf : ∀ e, (f e).declaration = e.declaration) : d.SameClasses { d with classes := d.classes.modify name f } := by
  refine ⟨rfl, rfl, fun n => ExtTreeMap.mem_modify, fun n => ?_⟩
  simp only [declaration?, getElem?_modify_eq]
  split
  · cases d.classes[n]? with
    | none => rfl
    | some e => exact hf e
  · rfl

theorem sameClasses_keepStack (d : Directory) (name : String) : d.SameClasses (d.keepStack name) :=
  sameClasses_modify d name _ fun e => by split <;> rfl

theorem sameClasses_markResolved (d : Directory) (name : String) : d.SameClasses (d.markResolved name) :=
  sameClasses_modify d name _ fun _ => rfl

theorem sameClasses_dropStacks (d : Directory) : d.SameClasses d.dropStacks := by
  refine ⟨rfl, rfl, fun n => ExtTreeMap.mem_map, fun n => ?_⟩
  simp only [declaration?, dropStacks, ExtTreeMap.getElem?_map]
  cases d.classes[n]? <;> rfl

theorem sameClasses_addOverrides (d : Directory) (m : MemberRef) (more : MethodSet) :
    d.SameClasses (d.addOverrides m more) := by
  unfold addOverrides
  split <;> exact ⟨rfl, rfl, fun _ => Iff.rfl, fun _ => rfl⟩

theorem sameClasses_keepRoots (d : Directory) (m : MemberRef) : d.SameClasses (d.keepRoots m) := by
  unfold keepRoots
  split <;> exact ⟨rfl, rfl, fun _ => Iff.rfl, fun _ => rfl⟩

theorem sameClasses_prepare (d : Directory) : d.SameClasses d.prepare :=
  have h := sameClasses_dropStacks d
  ⟨h.names, h.ingested, h.known, h.declaration⟩

/-! ## Methods of a directory -/

theorem mem_methodsOf {d : Directory} {name : String} {m : Method} :
    m ∈ d.methodsOf name ↔ ∃ decl, d.declaration? name = some decl ∧ m ∈ decl.methods := by
  unfold methodsOf
  cases d.declaration? name with
  | none => simp
  | some decl => simp [Declaration.mem_sortedMethods]

theorem wasRead_of_mem_methodsOf {d : Directory} {name : String} {m : Method} (h : m ∈ d.methodsOf name) :
    d.wasRead name = true := by
  obtain ⟨decl, hdecl, -⟩ := mem_methodsOf.1 h
  rw [wasRead, hdecl]
  rfl

theorem supertypesOf_eq {d : Directory} {name : String} {decl : Declaration} (h : d.declaration? name = some decl) :
    d.supertypesOf name = decl.supertypes := by
  rw [supertypesOf, h]
  rfl

/-- **What holds of every directory**: declarations fit their names, the supertypes of a class that was read are
known, and the classes that were read are listed once each. -/
structure Sound (d : Directory) : Prop where
  fits : ∀ name decl, d.declaration? name = some decl → decl.Fits name
  supertypes_known : ∀ name, ∀ s ∈ d.supertypesOf name, s ∈ d.classes
  mem_ingested : ∀ name, name ∈ d.ingested ↔ d.wasRead name = true
  ingested_nodup : d.ingested.Nodup

namespace Sound

variable {d : Directory}

theorem owner (h : d.Sound) {name : String} {m : Method} (hm : m ∈ d.methodsOf name) : m.ref.owner = name := by
  obtain ⟨decl, hd, hm⟩ := mem_methodsOf.1 hm
  exact (h.fits name decl hd).owner m hm

theorem descriptor (h : d.Sound) {name : String} {m : Method} (hm : m ∈ d.methodsOf name) :
    ∃ rest, m.ref.descriptor.toList = '(' :: rest := by
  obtain ⟨decl, hd, hm⟩ := mem_methodsOf.1 hm
  exact (h.fits name decl hd).descriptor m hm

theorem methodByKey?_eq_some (h : d.Sound) {name key : String} {m : Method} :
    d.methodByKey? name key = some m ↔ m ∈ d.methodsOf name ∧ m.key = key := by
  rw [methodByKey?, Option.bind_eq_some_iff, mem_methodsOf]
  constructor
  · rintro ⟨decl, hd, hm⟩
    have hm := (h.fits name decl hd).method?_eq_some.1 hm
    exact ⟨⟨decl, hd, hm.1⟩, hm.2⟩
  · rintro ⟨⟨decl, hd, hm⟩, hkey⟩
    exact ⟨decl, hd, (h.fits name decl hd).method?_eq_some.2 ⟨hm, hkey⟩⟩

/-- **A method is known by its owner, name and descriptor.** -/
theorem eq_of_ref (h : d.Sound) {name name' : String} {m m' : Method} (hm : m ∈ d.methodsOf name)
    (hm' : m' ∈ d.methodsOf name') (href : m.ref = m'.ref) : m = m' := by
  have hname : name = name' := by rw [← h.owner hm, ← h.owner hm', href]
  subst hname
  have hkey : m.key = m'.key := congrArg MemberRef.key href
  have h₁ := h.methodByKey?_eq_some.2 ⟨hm, hkey⟩
  have h₂ := h.methodByKey?_eq_some.2 ⟨hm', rfl⟩
  exact Option.some.inj (h₁.symm.trans h₂)

theorem mem_methods (h : d.Sound) {m : Method} : m ∈ d.methods ↔ m ∈ d.methodsOf m.ref.owner := by
  rw [methods, List.mem_flatMap]
  constructor
  · rintro ⟨name, -, hm⟩
    cases hd : d.declaration? name with
    | none =>
      rw [hd] at hm
      cases hm
    | some decl =>
      rw [hd] at hm
      have hm : m ∈ d.methodsOf name := mem_methodsOf.2 ⟨decl, hd, hm⟩
      rwa [h.owner hm]
  · intro hm
    obtain ⟨decl, hd, hm⟩ := mem_methodsOf.1 hm
    refine ⟨m.ref.owner, (h.mem_ingested _).2 ?_, ?_⟩
    · rw [wasRead, hd]
      rfl
    · rw [hd]
      exact hm

theorem of_sameClasses {e : Directory} (h : d.Sound) (hs : d.SameClasses e) : e.Sound :=
  ⟨fun name decl hd => h.fits name decl (hs.declaration name ▸ hd),
    fun name s hm => (hs.known s).2 (h.supertypes_known name s (hs.supertypesOf ▸ hm)),
    fun name => by rw [hs.ingested, hs.wasRead, h.mem_ingested], hs.ingested ▸ h.ingested_nodup⟩

end Sound

end Directory
end RenameAudit
