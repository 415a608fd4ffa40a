import RenameAudit.Proofs.Hierarchy.Reading
/-!
# Proofs.Hierarchy.TakingIn — what a directory is after a class was taken in

A class that is refused changes nothing.  A class that is accepted changes its own entry, and its supertypes become
known (`getElem?_takeIn`); everything else stays as it is.  So the declarations of a directory are those of the classes
that it accepted, and the directory stays sound (`Sound.takeIn`).
-/
namespace RenameAudit
namespace Directory

open Std ClassFile

/-! ## Mentioning classes -/

theorem getElem?_mention (d : Directory) (name n : String) :
    (d.mention name).classes[n]? = if n = name then some (d.classes[n]?.getD .stub) else d.classes[n]? := by
  unfold mention
  split
  · rename_i hknown
    have hmem : name ∈ d.classes := ExtTreeMap.contains_iff_mem.1 hknown
    split
    · rename_i hn
      subst hn
      obtain ⟨e, he⟩ := Option.isSome_iff_exists.1 (ExtTreeMap.mem_iff_isSome_getElem?.1 hmem)
      rw [he]
      rfl
    · rfl
  · rename_i hknown
    have hnone : d.classes[name]? = none :=
      getElem?_eq_none_iff.2 fun hmem => hknown (ExtTreeMap.contains_iff_mem.2 hmem)
    rw [getElem?_insert_eq]
    split
    · rename_i hn
      subst hn
      rw [hnone]
      rfl
    · rfl

theorem getElem?_mentions (names : List String) (d : Directory) (n : String) :
    (names.foldl mention d).classes[n]? = if n ∈ names then some (d.classes[n]?.getD .stub) else d.classes[n]? := by
  induction names generalizing d with
  | nil => rfl
  | cons name rest ih =>
    rw [List.foldl_cons, ih, getElem?_mention]
    by_cases hrest : n ∈ rest <;> by_cases hn : n = name <;> simp [hrest, hn]

theorem mentions_eq (names : List String) (d : Directory) :
    ∃ known classes, names.foldl mention d = { d with names := known, classes } := by
  induction names generalizing d with
  | nil => exact ⟨_, _, rfl⟩
  | cons name rest ih =>
    have hone : ∃ known classes, d.mention name = { d with names := known, classes } := by
      unfold mention
      split <;> exact ⟨_, _, rfl⟩
    obtain ⟨known, classes, hone⟩ := hone
    obtain ⟨known', classes', h⟩ := ih (d.mention name)
    exact ⟨known', classes', by rw [List.foldl_cons, h, hone]⟩

/-! ## Taking in a class -/

theorem takeIn_of_refused {d : Directory} {c : ClassFile} (owned : Bool) {fault : StructureFault}
    (h : d.refusal? c = some fault) : d.takeIn c owned = d := by
  rw [takeIn, ingest, h]

theorem takeIn_of_accepted {d : Directory} {c : ClassFile} (owned : Bool) (h : d.refusal? c = none) :
    d.takeIn c owned =
      ((c.name :: (c.toDeclaration owned).supertypes).foldl mention d).declare c.name (c.toDeclaration owned) := by
  rw [takeIn, ingest, h]

theorem takeIn_eq (d : Directory) (c : ClassFile) (owned : Bool) :
    ∃ names ingested classes, d.takeIn c owned = { d with names, ingested, classes } := by
  cases h : d.refusal? c with
  | some fault => exact ⟨_, _, _, takeIn_of_refused owned h⟩
  | none =>
    obtain ⟨known, classes, hm⟩ := mentions_eq (c.name :: (c.toDeclaration owned).supertypes) d
    rw [takeIn_of_accepted owned h, hm]
    exact ⟨_, _, _, rfl⟩

theorem overrides_takeIn (d : Directory) (c : ClassFile) (owned : Bool) :
    (d.takeIn c owned).overrides = d.overrides ∧ (d.takeIn c owned).keptRoots = d.keptRoots := by
  obtain ⟨_, _, _, he⟩ := takeIn_eq d c owned
  rw [he]
  exact ⟨rfl, rfl⟩

theorem bridges_takeIn (d : Directory) (c : ClassFile) (owned : Bool) : (d.takeIn c owned).bridges = d.bridges := by
  obtain ⟨_, _, _, he⟩ := takeIn_eq d c owned
  rw [he]

theorem overrides_takeAll (d : Directory) (classes : List (ClassFile × Bool)) :
    (d.takeAll classes).overrides = d.overrides := by
  induction classes generalizing d with
  | nil => rfl
  | cons c rest ih => exact (ih _).trans (overrides_takeIn d c.1 c.2).1

theorem overrides_mention (d : Directory) (name : String) :
    (d.mention name).overrides = d.overrides ∧ (d.mention name).keptRoots = d.keptRoots := by
  unfold mention
  split <;> exact ⟨rfl, rfl⟩

theorem ingested_takeIn {d : Directory} {c : ClassFile} (owned : Bool) (h : d.refusal? c = none) :
    (d.takeIn c owned).ingested = d.ingested ++ [c.name] := by
  obtain ⟨known, classes, hm⟩ := mentions_eq (c.name :: (c.toDeclaration owned).supertypes) d
  rw [takeIn_of_accepted owned h, hm]
  rfl

/-- **What an accepted class changes**: its own entry, and its supertypes become known. -/
theorem getElem?_takeIn {d : Directory} {c : ClassFile} (owned : Bool) (h : d.refusal? c = none) (n : String) :
    (d.takeIn c owned).classes[n]? =
      if n = c.name then some ⟨some (c.toDeclaration owned), false, d.classes[n]?.bind (·.stack)⟩
      else if n ∈ (c.toDeclaration owned).supertypes then some (d.classes[n]?.getD .stub) else d.classes[n]? := by
  rw [takeIn_of_accepted owned h, declare, getElem?_insert_eq, getElem?_mentions, getElem?_mentions]
  split
  · rename_i hn
    rw [hn, if_pos List.mem_cons_self]
    cases d.classes[c.name]? <;> rfl
  · rename_i hn
    have hcons : n ∈ c.name :: (c.toDeclaration owned).supertypes ↔ n ∈ (c.toDeclaration owned).supertypes :=
      ⟨fun h => (List.mem_cons.1 h).resolve_left hn, List.mem_cons_of_mem _⟩
    simp only [hcons]

theorem declaration?_takeIn {d : Directory} {c : ClassFile} (owned : Bool) (h : d.refusal? c = none) (n : String) :
    (d.takeIn c owned).declaration? n = if n = c.name then some (c.toDeclaration owned) else d.declaration? n := by
  rw [declaration?, getElem?_takeIn owned h]
  split
  · rfl
  · split
    · rw [declaration?]
      cases d.classes[n]? <;> rfl
    · rfl

theorem mem_classes_takeIn {d : Directory} {c : ClassFile} (owned : Bool) (h : d.refusal? c = none) (n : String) :
    n ∈ (d.takeIn c owned).classes ↔ n = c.name ∨ n ∈ (c.toDeclaration owned).supertypes ∨ n ∈ d.classes := by
  rw [ExtTreeMap.mem_iff_isSome_getElem?, ExtTreeMap.mem_iff_isSome_getElem?, getElem?_takeIn owned h]
  split
  · rename_i hn
    exact iff_of_true rfl (.inl hn)
  · rename_i hn
    split
    · rename_i hs
      exact iff_of_true rfl (.inr (.inl hs))
    · rename_i hs
      exact ⟨fun h => .inr (.inr h), fun h => (h.resolve_left hn).resolve_left hs⟩

theorem declaration?_empty (n : String) : empty.declaration? n = none := by
  have hnone : empty.classes[n]? = none := getElem?_eq_none_iff.2 ExtTreeMap.not_mem_empty
  rw [declaration?, hnone]
  rfl

/-- **What a class declares, one of the classes that were taken in says.** -/
theorem exists_of_declaration?_takeAll {classes : List (ClassFile × Bool)} {n : String} {decl : Declaration}
    (h : (empty.takeAll classes).declaration? n = some decl) :
    ∃ x ∈ classes, x.1.name = n ∧ x.1.toDeclaration x.2 = decl := by
  refine List.foldlRecOn (motive := fun d : Directory => ∀ decl, d.declaration? n = some decl →
    ∃ x ∈ classes, x.1.name = n ∧ x.1.toDeclaration x.2 = decl) classes _ (fun decl hd => ?_) (fun d hd x hx decl h => ?_)
    decl h
  · rw [declaration?_empty] at hd
    cases hd
  · obtain ⟨c, owned⟩ := x
    dsimp only at h
    cases hr : d.refusal? c with
    | some fault =>
      rw [takeIn_of_refused owned hr] at h
      exact hd decl h
    | none =>
      rw [declaration?_takeIn owned hr] at h
      split at h
      · rename_i hname
        exact ⟨_, hx, hname.symm, Option.some.inj h⟩
      · exact hd decl h

/-! ## Soundness -/

theorem sound_empty : empty.Sound where
  fits name decl h := by
    rw [declaration?_empty] at h
    cases h
  supertypes_known name s h := by
    rw [supertypesOf, declaration?_empty] at h
    cases h
  mem_ingested name := by
    rw [wasRead, declaration?_empty]
    exact iff_of_false List.not_mem_nil Bool.false_ne_true
  ingested_nodup := List.nodup_nil

theorem declaration?_mention (d : Directory) (name n : String) : (d.mention name).declaration? n = d.declaration? n := by
  rw [declaration?, getElem?_mention]
  split
  · rw [declaration?]
    cases d.classes[n]? <;> rfl
  · rfl

theorem ingested_mention (d : Directory) (name : String) : (d.mention name).ingested = d.ingested := by
  unfold mention
  split <;> rfl

theorem Sound.mention {d : Directory} (h : d.Sound) (name : String) : (d.mention name).Sound := by
  refine ⟨fun n decl hd => h.fits n decl (declaration?_mention d name n ▸ hd), fun n s hs => ?_, fun n => ?_,
    ingested_mention d name ▸ h.ingested_nodup⟩
  · rw [supertypesOf, declaration?_mention, ← supertypesOf] at hs
    have hk := ExtTreeMap.mem_iff_isSome_getElem?.1 (h.supertypes_known n s hs)
    rw [ExtTreeMap.mem_iff_isSome_getElem?, getElem?_mention]
    split
    · rfl
    · exact hk
  · rw [ingested_mention, wasRead, declaration?_mention, ← wasRead, h.mem_ingested]

theorem refusal?_eq_none {d : Directory} {c : ClassFile} :
    d.refusal? c = none ↔ d.wasRead c.name = false ∧ c.structureFault? = none := by
  unfold refusal?
  split
  · rename_i h
    simp [h]
  · rename_i h
    simp [h]

/-- **Taking in a class keeps a directory sound.** -/
theorem Sound.takeIn {d : Directory} (h : d.Sound) (c : ClassFile) (owned : Bool) : (d.takeIn c owned).Sound := by
  cases hr : d.refusal? c with
  | some fault =>
    rw [takeIn_of_refused owned hr]
    exact h
  | none =>
    obtain ⟨hread, hstruct⟩ := refusal?_eq_none.1 hr
    have hsuper : ∀ n, (d.takeIn c owned).supertypesOf n =
        if n = c.name then (c.toDeclaration owned).supertypes else d.supertypesOf n := fun n => by
      rw [supertypesOf, declaration?_takeIn owned hr]
      split <;> rfl
    refine ⟨fun n decl hd => ?_, fun n s hs => ?_, fun n => ?_, ?_⟩
    · rw [declaration?_takeIn owned hr] at hd
      split at hd
      · rename_i hn
        cases hd
        exact hn ▸ toDeclaration_fits hstruct owned
      · exact h.fits n decl hd
    · rw [mem_classes_takeIn owned hr]
      rw [hsuper] at hs
      split at hs
      · exact .inr (.inl hs)
      · exact .inr (.inr (h.supertypes_known n s hs))
    · rw [ingested_takeIn owned hr, List.mem_append, List.mem_singleton, h.mem_ingested, wasRead, wasRead,
        declaration?_takeIn owned hr]
      split
      · rename_i hn
        exact iff_of_true (.inr hn) rfl
      · rename_i hn
        exact ⟨fun h => h.resolve_right hn, .inl⟩
    · rw [ingested_takeIn owned hr]
      refine List.nodup_append.2 ⟨h.ingested_nodup, List.pairwise_singleton _ _, fun a ha b hb he => ?_⟩
      rw [he, List.mem_singleton.1 hb, h.mem_ingested, hread] at ha
      cases ha

theorem Sound.takeAll {d : Directory} (h : d.Sound) (classes : List (ClassFile × Bool)) :
    (d.takeAll classes).Sound := by
  induction classes generalizing d with
  | nil => exact h
  | cons c rest ih => exact ih (h.takeIn c.1 c.2)

/-! ## Reading more -/

/-- **A directory has read more than another**: it has all declarations of that one, and what it has read since comes
after them. -/
structure Enlarges (d e : Directory) : Prop where
  declaration : ∀ name decl, d.declaration? name = some decl → e.declaration? name = some decl
  known : ∀ name ∈ d.classes, name ∈ e.classes
  ingested : ∃ more, e.ingested = d.ingested ++ more ∧ ∀ name ∈ more, d.wasRead name = false

namespace Enlarges

variable {d e f : Directory}

theorem refl (d : Directory) : d.Enlarges d :=
  ⟨fun _ _ h => h, fun _ h => h, [], (List.append_nil _).symm, fun _ h => absurd h List.not_mem_nil⟩

theorem wasRead (h : d.Enlarges e) {name : String} (hread : d.wasRead name = true) : e.wasRead name = true := by
  obtain ⟨decl, hdecl⟩ := Option.isSome_iff_exists.1 hread
  rw [Directory.wasRead, h.declaration name decl hdecl]
  rfl

theorem trans (h : d.Enlarges e) (h' : e.Enlarges f) : d.Enlarges f := by
  obtain ⟨more, hmore, hnew⟩ := h.ingested
  obtain ⟨more', hmore', hnew'⟩ := h'.ingested
  refine ⟨fun name decl hd => h'.declaration name decl (h.declaration name decl hd),
    fun name hn => h'.known name (h.known name hn), more ++ more', ?_, fun name hn => ?_⟩
  · rw [hmore', hmore, List.append_assoc]
  · rcases List.mem_append.1 hn with hn | hn
    · exact hnew name hn
    · refine Bool.eq_false_iff.2 fun hread => ?_
      have hlate := hnew' name hn
      rw [h.wasRead hread] at hlate
      cases hlate

/-- A class that has the same declaration in both directories as far as it has been read. -/
theorem declaration?_eq (h : d.Enlarges e) {name : String} (hread : e.wasRead name = true → d.wasRead name = true) :
    e.declaration? name = d.declaration? name := by
  cases hd : d.declaration? name with
  | some decl => exact h.declaration name decl hd
  | none =>
    cases he : e.declaration? name with
    | none => rfl
    | some decl =>
      have hd' := hread (by rw [Directory.wasRead, he]; rfl)
      rw [Directory.wasRead, hd] at hd'
      cases hd'

end Enlarges

theorem enlarges_takeIn (d : Directory) (c : ClassFile) (owned : Bool) : d.Enlarges (d.takeIn c owned) := by
  cases hr : d.refusal? c with
  | some fault =>
    rw [takeIn_of_refused owned hr]
    exact .refl d
  | none =>
    have hread := (refusal?_eq_none.1 hr).1
    refine ⟨fun name decl hd => ?_, fun name hn => (mem_classes_takeIn owned hr name).2 (.inr (.inr hn)), [c.name],
      ingested_takeIn owned hr, fun name hn => List.mem_singleton.1 hn ▸ hread⟩
    rw [declaration?_takeIn owned hr, if_neg fun hn => ?_]
    · exact hd
    · rw [wasRead, ← hn, hd] at hread
      cases hread

theorem enlarges_takeAll (d : Directory) (classes : List (ClassFile × Bool)) : d.Enlarges (d.takeAll classes) := by
  induction classes generalizing d with
  | nil => exact .refl d
  | cons c rest ih => exact (enlarges_takeIn d c.1 c.2).trans (ih _)

/-! ## The same classes -/

theorem SameClasses.mention {d e : Directory} (h : d.SameClasses e) (name : String) :
    (d.mention name).SameClasses (e.mention name) := by
  have hknows : e.knows name = d.knows name := by
    rw [Bool.eq_iff_iff, knows, knows, ExtTreeMap.contains_iff_mem, ExtTreeMap.contains_iff_mem, h.known]
  refine ⟨?_, ?_, fun n => ?_, fun n => ?_⟩
  · unfold Directory.mention
    rw [hknows]
    split
    · exact h.names
    · exact congrArg (· ++ [name]) h.names
  · unfold Directory.mention
    rw [hknows]
    split <;> exact h.ingested
  · rw [ExtTreeMap.mem_iff_isSome_getElem?, ExtTreeMap.mem_iff_isSome_getElem?, getElem?_mention, getElem?_mention]
    split
    · rfl
    · rw [← ExtTreeMap.mem_iff_isSome_getElem?, ← ExtTreeMap.mem_iff_isSome_getElem?, h.known]
  · rw [declaration?_mention, declaration?_mention, h.declaration]

theorem SameClasses.declare {d e : Directory} (h : d.SameClasses e) (name : String) (decl : Declaration) :
    (d.declare name decl).SameClasses (e.declare name decl) := by
  refine ⟨h.names, congrArg (· ++ [name]) h.ingested, fun n => ?_, fun n => ?_⟩
  · rw [Directory.declare, Directory.declare, mem_insert_iff, mem_insert_iff, h.known]
  · rw [declaration?, declaration?, Directory.declare, Directory.declare, getElem?_insert_eq, getElem?_insert_eq]
    split
    · rfl
    · exact h.declaration n

theorem SameClasses.takeIn {d e : Directory} (h : d.SameClasses e) (c : ClassFile) (owned : Bool) :
    (d.takeIn c owned).SameClasses (e.takeIn c owned) := by
  have hrefusal : e.refusal? c = d.refusal? c := by rw [refusal?, h.wasRead, ← refusal?]
  cases hr : d.refusal? c with
  | some fault =>
    rw [takeIn_of_refused owned hr, takeIn_of_refused owned (hrefusal.trans hr)]
    exact h
  | none =>
    rw [takeIn_of_accepted owned hr, takeIn_of_accepted owned (hrefusal.trans hr)]
    refine SameClasses.declare ?_ _ _
    exact List.foldl_rel (r := SameClasses) h fun name _ _ _ h => h.mention name

theorem SameClasses.takeAll {d e : Directory} (h : d.SameClasses e) (classes : List (ClassFile × Bool)) :
    (d.takeAll classes).SameClasses (e.takeAll classes) :=
  List.foldl_rel (r := SameClasses) h fun c _ _ _ h => h.takeIn c.1 c.2

end Directory
end RenameAudit
