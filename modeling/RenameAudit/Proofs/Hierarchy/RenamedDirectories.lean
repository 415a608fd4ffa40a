import Mathlib.Data.List.Find
import RenameAudit.Proofs.Hierarchy.LaterClasses
import RenameAudit.Proofs.Hierarchy.Renaming
/-!
# Proofs.Hierarchy.RenamedDirectories — directories with renamed classes

`Renamed ρ known d e` says that `e` is `d` with its classes renamed, as far as a resolution can tell: what is looked up
under a renamed name is renamed, and nothing else is there.  Methods are looked up by their keys, so the renaming has to
keep apart the keys of the methods that the classes know, and to keep the order of the methods of each class.

Looking up, the writes of a resolution and taking in a class respect the relation.
-/
namespace RenameAudit

open Std Relation ClassFile

namespace ClassRenaming

variable (ρ : ClassRenaming)

/-! ## Entries and sets of methods -/

def entry (e : ClassEntry) : ClassEntry :=
  { e with declaration := e.declaration.map ρ.declaration, stack := e.stack.map (·.map ρ.rename) }

def refs (s : MethodSet) : MethodSet :=
  ExtTreeSet.ofList (s.toList.map ρ.ref)

def merge (w : Directory.Merge) : Directory.Merge :=
  ⟨ρ.rename w.owner, ρ.ref w.bridge, ρ.ref w.target⟩

variable {ρ}

theorem mem_map_rename {names : List String} {n : String} : ρ.rename n ∈ names.map ρ.rename ↔ n ∈ names := by
  rw [List.mem_map]
  exact ⟨fun ⟨_, ha, h⟩ => rename_inj.1 h ▸ ha, fun h => ⟨n, h, rfl⟩⟩

theorem supertypes_declaration (decl : Declaration) :
    (ρ.declaration decl).supertypes = decl.supertypes.map ρ.rename := by
  rw [Declaration.supertypes, Declaration.supertypes, List.map_append, ← Option.toList_map]
  rfl

theorem mem_refs {s : MethodSet} {r : MemberRef} : r ∈ ρ.refs s ↔ ∃ x ∈ s, ρ.ref x = r := by
  rw [refs, mem_ofList_iff, List.mem_map]
  exact exists_congr fun x => and_congr_left fun _ => ExtTreeSet.mem_toList

theorem ref_mem_refs {s : MethodSet} {x : MemberRef} : ρ.ref x ∈ ρ.refs s ↔ x ∈ s := by
  rw [mem_refs]
  exact ⟨fun ⟨_, hy, h⟩ => ref_inj.1 h ▸ hy, fun h => ⟨x, h, rfl⟩⟩

theorem refs_isEmpty (s : MethodSet) : (ρ.refs s).isEmpty = s.isEmpty := by
  rw [Bool.eq_iff_iff, ExtTreeSet.isEmpty_iff, ExtTreeSet.isEmpty_iff, ← not_iff_not, ← ne_eq, ← ne_eq, set_ne_empty_iff,
    set_ne_empty_iff]
  refine ⟨fun ⟨r, hr⟩ => ?_, fun ⟨x, hx⟩ => ⟨ρ.ref x, ref_mem_refs.2 hx⟩⟩
  obtain ⟨x, hx, -⟩ := mem_refs.1 hr
  exact ⟨x, hx⟩

theorem refs_union (s t : MethodSet) : ρ.refs (s ∪ t) = ρ.refs s ∪ ρ.refs t :=
  ExtTreeSet.ext_mem fun r => by
    rw [mem_refs, ExtTreeSet.mem_union_iff, mem_refs, mem_refs]
    simp only [ExtTreeSet.mem_union_iff, or_and_right, exists_or]

theorem refs_erase (s : MethodSet) (m : MemberRef) : ρ.refs (s.erase m) = (ρ.refs s).erase (ρ.ref m) :=
  ExtTreeSet.ext_mem fun r => by
    rw [mem_refs, mem_set_erase_iff, mem_refs]
    constructor
    · rintro ⟨x, hx, rfl⟩
      obtain ⟨hx, hne⟩ := mem_set_erase_iff.1 hx
      exact ⟨⟨x, hx, rfl⟩, fun h => hne (ref_inj.1 h)⟩
    · rintro ⟨⟨x, hx, rfl⟩, hne⟩
      exact ⟨x, mem_set_erase_iff.2 ⟨hx, fun h => hne (congrArg ρ.ref h)⟩, rfl⟩

theorem refs_singleton (m : MemberRef) : ρ.refs (ExtTreeSet.ofList [m]) = ExtTreeSet.ofList [ρ.ref m] :=
  ExtTreeSet.ext_mem fun r => by
    rw [mem_refs, mem_ofList_iff, List.mem_singleton]
    simp only [mem_ofList_iff, List.mem_singleton]
    exact ⟨fun ⟨_, hx, hr⟩ => hx ▸ hr.symm, fun hr => ⟨m, rfl, hr.symm⟩⟩

theorem refs_empty : ρ.refs ∅ = ∅ :=
  ExtTreeSet.isEmpty_iff.1 ((refs_isEmpty ∅).trans ExtTreeSet.isEmpty_empty)

end ClassRenaming

namespace Directory

/-- **A renaming respects a declaration**: its methods, and those that they forward to, are among the known ones, and the
renaming keeps the order of its methods. -/
structure Respected (ρ : ClassRenaming) (known : MemberRef → Prop) (decl : Declaration) : Prop where
  known_ref : ∀ m ∈ decl.methods, known m.ref
  known_forward : ∀ m ∈ decl.methods, ∀ t, m.forwards = some t → known t
  order : ∀ m ∈ decl.methods, ∀ m' ∈ decl.methods, (ρ.ref m.ref).key ≤ (ρ.ref m'.ref).key ↔ m.key ≤ m'.key

theorem respected_toDeclaration {ρ : ClassRenaming} {known : MemberRef → Prop} {c : ClassFile}
    (hknown : ∀ r ∈ ClassRenaming.methodRefs c, known r)
    (horder : ∀ m ∈ c.methods, ∀ m' ∈ c.methods,
      (ρ.ref (c.memberRefOf m)).key ≤ (ρ.ref (c.memberRefOf m')).key ↔ (c.memberRefOf m).key ≤ (c.memberRefOf m').key)
    (owned : Bool) : Respected ρ known (c.toDeclaration owned) := by
  have hmember : ∀ m ∈ (c.toDeclaration owned).methods, ∃ f ∈ c.methods, c.methodOf owned c.lambdaKeys f = m :=
    fun m hm => List.mem_map.1 (mem_firstByKey hm)
  refine ⟨fun m hm => ?_, fun m hm t ht => ?_, fun m hm m' hm' => ?_⟩
  · obtain ⟨f, hf, rfl⟩ := hmember m hm
    exact hknown _ (List.mem_append_left _ (List.mem_map_of_mem hf))
  · obtain ⟨f, hf, rfl⟩ := hmember m hm
    exact hknown t (ClassRenaming.forwards_mem_methodRefs hf ht)
  · obtain ⟨f, hf, rfl⟩ := hmember m hm
    obtain ⟨f', hf', rfl⟩ := hmember m' hm'
    exact horder f hf f' hf'

/-- **A directory is another with its classes renamed**, by a renaming that keeps apart what is known. -/
structure Renamed (ρ : ClassRenaming) (known : MemberRef → Prop) (d e : Directory) : Prop where
  apart : ∀ a b, known a → known b → ((ρ.ref a).key = (ρ.ref b).key ↔ a.key = b.key)
  ingested : e.ingested = d.ingested.map ρ.rename
  classes : ∀ n, e.classes[ρ.rename n]? = d.classes[n]?.map ρ.entry
  named : ∀ n ∈ e.classes, ∃ n', ρ.rename n' = n
  respected : ∀ n decl, d.declaration? n = some decl → Respected ρ known decl
  bridges : e.bridges = d.bridges.map fun p => (ρ.ref p.1, ρ.ref p.2)
  known_bridge : ∀ p ∈ d.bridges, known p.1
  overrides : ∀ m, e.overrides[ρ.ref m]? = d.overrides[m]?.map ρ.refs
  overriding : ∀ m ∈ e.overrides, ∃ m', ρ.ref m' = m

namespace Renamed

variable {ρ : ClassRenaming} {known : MemberRef → Prop} {d e : Directory} (h : Renamed ρ known d e)

include h

/-! ## Looking up classes -/

theorem mem_classes (n : String) : ρ.rename n ∈ e.classes ↔ n ∈ d.classes := by
  rw [ExtTreeMap.mem_iff_isSome_getElem?, ExtTreeMap.mem_iff_isSome_getElem?, h.classes, Option.isSome_map]

theorem declaration? (n : String) : e.declaration? (ρ.rename n) = (d.declaration? n).map ρ.declaration := by
  rw [Directory.declaration?, h.classes, Directory.declaration?]
  cases d.classes[n]? <;> rfl

theorem wasRead (n : String) : e.wasRead (ρ.rename n) = d.wasRead n := by
  rw [Directory.wasRead, h.declaration?, Option.isSome_map, ← Directory.wasRead]

theorem isResolved (n : String) : e.isResolved (ρ.rename n) = d.isResolved n := by
  rw [Directory.isResolved, h.classes, Directory.isResolved]
  cases d.classes[n]? <;> rfl

theorem isOwned (n : String) : e.isOwned (ρ.rename n) = d.isOwned n := by
  rw [Directory.isOwned, h.declaration?, Directory.isOwned]
  cases d.declaration? n <;> rfl

theorem accessOf (n : String) : e.accessOf (ρ.rename n) = d.accessOf n := by
  rw [Directory.accessOf, h.declaration?, Directory.accessOf]
  cases d.declaration? n <;> rfl

theorem superclassOf? (n : String) : e.superclassOf? (ρ.rename n) = (d.superclassOf? n).map ρ.rename := by
  rw [Directory.superclassOf?, h.declaration?, Directory.superclassOf?]
  cases d.declaration? n <;> rfl

theorem supertypesOf (n : String) : e.supertypesOf (ρ.rename n) = (d.supertypesOf n).map ρ.rename := by
  rw [Directory.supertypesOf, h.declaration?, Directory.supertypesOf]
  cases d.declaration? n with
  | none => rfl
  | some decl => exact ClassRenaming.supertypes_declaration decl

theorem ancestors (n : String) : e.ancestors (ρ.rename n) = (d.ancestors n).map ρ.rename := by
  rw [Directory.ancestors, Directory.ancestors, h.supertypesOf]
  refine Graph.breadthFirst_map (fun _ => True) (fun _ _ _ _ he => ρ.injective _ _ he) (fun a _ => h.supertypesOf a)
    (fun _ _ _ _ => trivial) _ _ _ (fun a _ => ?_) fun _ _ => trivial
  rw [mem_erase_iff, mem_erase_iff, h.mem_classes]
  exact and_congr_right fun _ => not_congr ClassRenaming.rename_inj

theorem stackOf (n : String) : e.stackOf (ρ.rename n) = (d.stackOf n).map ρ.rename := by
  rw [Directory.stackOf, h.classes, h.ancestors, Directory.stackOf]
  cases d.classes[n]? with
  | none => rfl
  | some entry => cases hs : entry.stack <;> simp [ClassRenaming.entry, hs]

theorem readSuperclasses (n : String) : e.readSuperclasses (ρ.rename n) = (d.readSuperclasses n).map ρ.rename := by
  have hnext : ∀ a, (e.superclassOf? (ρ.rename a)).toList = (d.superclassOf? a).toList.map ρ.rename := fun a => by
    rw [h.superclassOf?, Option.toList_map]
  have hsearch : Graph.breadthFirst (fun n => (e.superclassOf? n).toList) e.classes ([n].map ρ.rename) = _ :=
    Graph.breadthFirst_map (fun _ => True) (fun _ _ _ _ he => ρ.injective _ _ he) (fun a _ => hnext a)
      (fun _ _ _ _ => trivial) d.classes [n] e.classes (fun a _ => h.mem_classes a) fun _ _ => trivial
  have hread : e.wasRead ∘ ρ.rename = d.wasRead := funext h.wasRead
  rw [List.map_singleton] at hsearch
  rw [Directory.readSuperclasses, hsearch, List.takeWhile_map, hread, ← Directory.readSuperclasses]

/-! ## Looking up methods -/

theorem known_ref {n : String} {m : Method} (hm : m ∈ d.methodsOf n) : known m.ref := by
  obtain ⟨decl, hd, hm⟩ := mem_methodsOf.1 hm
  exact (h.respected n decl hd).known_ref m hm

theorem methodsOf (n : String) : e.methodsOf (ρ.rename n) = (d.methodsOf n).map ρ.method := by
  rw [Directory.methodsOf, h.declaration?, Directory.methodsOf]
  cases hd : d.declaration? n with
  | none => rfl
  | some decl =>
    refine (List.map_mergeSort fun m hm m' hm' => ?_).symm
    exact decide_eq_decide.2 ((h.respected n decl hd).order m hm m' hm').symm

theorem methods : e.methods = d.methods.map ρ.method := by
  rw [Directory.methods, h.ingested, List.flatMap_map, Directory.methods, List.map_flatMap]
  refine List.flatMap_congr fun n _ => ?_
  rw [h.declaration?]
  cases d.declaration? n <;> rfl

/-- **Methods are looked up by the keys of renamed methods.** -/
theorem methodByKey? (n : String) {r : MemberRef} (hr : known r) :
    e.methodByKey? (ρ.rename n) (ρ.ref r).key = (d.methodByKey? n r.key).map ρ.method := by
  rw [Directory.methodByKey?, h.declaration?, Directory.methodByKey?]
  cases hd : d.declaration? n with
  | none => rfl
  | some decl =>
    rw [Option.map_some, Option.bind_some, Option.bind_some, Declaration.method?, Declaration.method?]
    have hmethods : (ρ.declaration decl).methods = decl.methods.map ρ.method := rfl
    rw [hmethods, List.find?_map]
    refine congrArg _ (List.find?_congr fun m hm => ?_)
    rw [Function.comp_apply, Bool.eq_iff_iff, beq_iff_eq, beq_iff_eq]
    exact h.apart m.ref r ((h.respected n decl hd).known_ref m hm) hr

/-- The nearest method with a key among classes that a condition allows. -/
theorem findSome?_methodByKey? (allowed : Method → Bool) (hallowed : ∀ m, allowed (ρ.method m) = allowed m)
    (stack : List String) {r : MemberRef} (hr : known r) :
    (stack.map ρ.rename).findSome? (fun c => (e.methodByKey? c (ρ.ref r).key).filter allowed) =
      (stack.findSome? fun c => (d.methodByKey? c r.key).filter allowed).map ρ.method := by
  rw [List.findSome?_map, List.map_findSome?]
  refine findSome?_congr fun c _ => ?_
  have hfilter : allowed ∘ ρ.method = allowed := funext hallowed
  rw [Function.comp_apply, Function.comp_apply, h.methodByKey? c hr, Option.filter_map, hfilter]

theorem nearestOverridable? (stack : List String) {r : MemberRef} (hr : known r) :
    e.nearestOverridable? (stack.map ρ.rename) (ρ.ref r).key = (d.nearestOverridable? stack r.key).map ρ.method :=
  h.findSome?_methodByKey? _ (fun _ => rfl) stack hr

theorem nearestConcrete? (scope : List String) {r : MemberRef} (hr : known r) :
    e.nearestConcrete? (scope.map ρ.rename) (ρ.ref r).key = (d.nearestConcrete? scope r.key).map ρ.method :=
  h.findSome?_methodByKey? (fun m => !m.isAbstract && m.canOverride) (fun _ => rfl) scope hr

/-! ## Bridges -/

theorem bridgeTarget? (bridge : Method) {t : MemberRef} (ht : known t) :
    e.bridgeTarget? (ρ.method bridge) (ρ.ref t) = (d.bridgeTarget? bridge t).map ρ.method := by
  have howner : (ρ.method bridge).ref.owner = (ρ.ref t).owner ↔ bridge.ref.owner = t.owner := ClassRenaming.rename_inj
  have hsuper : e.superclassOf? (ρ.method bridge).ref.owner = some (ρ.ref t).owner ↔
      d.superclassOf? bridge.ref.owner = some t.owner := by
    have hrenamed : e.superclassOf? (ρ.method bridge).ref.owner = _ := h.superclassOf? bridge.ref.owner
    rw [hrenamed]
    cases d.superclassOf? bridge.ref.owner with
    | none => exact iff_of_false (fun h => by cases h) fun h => by cases h
    | some s =>
      rw [Option.map_some, Option.some.injEq, Option.some.injEq]
      exact ClassRenaming.rename_inj
  unfold Directory.bridgeTarget?
  simp only [howner, hsuper]
  split
  · exact h.methodByKey? bridge.ref.owner ht
  · split
    · have hread : e.readSuperclasses (ρ.ref t).owner = (d.readSuperclasses t.owner).map ρ.rename :=
        h.readSuperclasses t.owner
      rw [hread, List.findSome?_map, List.map_findSome?]
      exact findSome?_congr fun c _ => h.methodByKey? c ht
    · rfl

theorem known_method {m : Method} (hm : m ∈ d.methods) : known m.ref ∧ ∀ t, m.forwards = some t → known t := by
  obtain ⟨n, -, hm⟩ := List.mem_flatMap.1 hm
  cases hd : d.declaration? n with
  | none =>
    rw [hd] at hm
    cases hm
  | some decl =>
    rw [hd] at hm
    exact ⟨(h.respected n decl hd).known_ref m hm, (h.respected n decl hd).known_forward m hm⟩

/-- **The bridges are found again**, in their order. -/
theorem findBridges : e.findBridges = d.findBridges.map fun p => (ρ.ref p.1, ρ.ref p.2) := by
  rw [Directory.findBridges, Directory.findBridges, h.methods, List.filterMap_map, List.map_filterMap]
  refine List.filterMap_congr fun m hm => ?_
  have hforwards : (ρ.method m).forwards = m.forwards.map ρ.ref := rfl
  rw [Function.comp_apply, hforwards]
  cases hf : m.forwards with
  | none => rfl
  | some t =>
    have ht := h.bridgeTarget? m ((h.known_method hm).2 t hf)
    simp only [Option.map_some, Option.bind_eq_bind, Option.bind_some, ht]
    cases d.bridgeTarget? m t with
    | none => rfl
    | some target =>
      have hself : (ρ.method target).ref = (ρ.method m).ref ↔ target.ref = m.ref := ClassRenaming.ref_inj
      simp only [Option.map_some, Option.bind_some, hself]
      split <;> rfl

theorem bridgesTo (target : MemberRef) : e.bridgesTo (ρ.ref target) = (d.bridgesTo target).map ρ.ref := by
  rw [Directory.bridgesTo, h.bridges, List.filter_map, List.map_map, Directory.bridgesTo, List.map_map]
  have hsame : ((fun p : MemberRef × MemberRef => p.2 == ρ.ref target) ∘
      fun p : MemberRef × MemberRef => (ρ.ref p.1, ρ.ref p.2)) = fun p => p.2 == target := funext fun p => by
    rw [Function.comp_apply, Bool.eq_iff_iff, beq_iff_eq, beq_iff_eq]
    exact ClassRenaming.ref_inj
  rw [hsame]
  rfl

/-! ## Overrides -/

theorem mem_overrides (m : MemberRef) : ρ.ref m ∈ e.overrides ↔ m ∈ d.overrides := by
  rw [ExtTreeMap.mem_iff_isSome_getElem?, ExtTreeMap.mem_iff_isSome_getElem?, h.overrides, Option.isSome_map]

theorem hasOverrides (m : MemberRef) : e.hasOverrides (ρ.ref m) = d.hasOverrides m := by
  rw [Bool.eq_iff_iff, hasOverrides_iff, hasOverrides_iff, h.mem_overrides]

theorem overridesOf (m : MemberRef) : e.overridesOf (ρ.ref m) = ρ.refs (d.overridesOf m) := by
  rw [Directory.overridesOf, ExtTreeMap.getD_eq_getD_getElem?, h.overrides, Directory.overridesOf,
    ExtTreeMap.getD_eq_getD_getElem?]
  cases d.overrides[m]? with
  | none => exact ClassRenaming.refs_empty.symm
  | some targets => rfl

theorem overrides_iff {m r : MemberRef} : e.Overrides (ρ.ref m) r ↔ ∃ x, d.Overrides m x ∧ ρ.ref x = r := by
  rw [Overrides, h.overridesOf, ClassRenaming.mem_refs]
  rfl

/-- **Overrides lead from a renamed method to renamed methods.** -/
theorem leads_iff {m r : MemberRef} :
    ReflTransGen e.Overrides (ρ.ref m) r ↔ ∃ x, ReflTransGen d.Overrides m x ∧ ρ.ref x = r := by
  constructor
  · intro hp
    induction hp with
    | refl => exact ⟨m, .refl, rfl⟩
    | tail _ hstep ih =>
      obtain ⟨x, hx, rfl⟩ := ih
      obtain ⟨y, hy, rfl⟩ := h.overrides_iff.1 hstep
      exact ⟨y, hx.tail hy, rfl⟩
  · rintro ⟨x, hp, rfl⟩
    induction hp with
    | refl => exact .refl
    | tail _ hstep ih => exact ih.tail (h.overrides_iff.2 ⟨_, hstep, rfl⟩)

/-- **The roots of a renamed method are its renamed roots.** -/
theorem rootSet (m : MemberRef) : e.rootSet (ρ.ref m) = ρ.refs (d.rootSet m) := by
  have hfound : (ExtTreeSet.ofList (Graph.leaves e.overrides e.overrides [ρ.ref m]) : MethodSet) =
      ρ.refs (ExtTreeSet.ofList (Graph.leaves d.overrides d.overrides [m])) := ExtTreeSet.ext_mem fun r => by
    rw [mem_ofList_iff, mem_leaves_overrides, h.leads_iff, ClassRenaming.mem_refs]
    simp only [mem_ofList_iff, mem_leaves_overrides]
    constructor
    · rintro ⟨hend, x, hp, rfl⟩
      exact ⟨x, ⟨fun hx => hend ((h.mem_overrides x).2 hx), hp⟩, rfl⟩
    · rintro ⟨x, ⟨hend, hp⟩, rfl⟩
      exact ⟨fun hx => hend ((h.mem_overrides x).1 hx), x, hp, rfl⟩
  unfold Directory.rootSet
  dsimp only
  rw [hfound, ClassRenaming.refs_isEmpty]
  split
  · exact (ClassRenaming.refs_singleton m).symm
  · rfl

/-! ## Writes -/

theorem addOverrides (m : MemberRef) (more : MethodSet) :
    Renamed ρ known (d.addOverrides m more) (e.addOverrides (ρ.ref m) (ρ.refs more)) := by
  unfold Directory.addOverrides
  rw [ClassRenaming.refs_isEmpty]
  split
  · exact h
  · refine { h with overrides := fun a => ?_, overriding := fun a ha => ?_ }
    · rw [getElem?_insert_eq, getElem?_insert_eq, h.overridesOf, ← ClassRenaming.refs_union, h.overrides]
      simp only [ClassRenaming.ref_inj]
      split <;> rfl
    · rcases mem_insert_iff.1 ha with rfl | ha
      · exact ⟨m, rfl⟩
      · exact h.overriding a ha

theorem addRoots (m p : MemberRef) :
    Renamed ρ known (d.addOverrides m ((d.rootSet p).erase m))
      (e.addOverrides (ρ.ref m) ((e.rootSet (ρ.ref p)).erase (ρ.ref m))) := by
  rw [h.rootSet, ← ClassRenaming.refs_erase]
  exact h.addOverrides m _

/-- **What changes no declaration may be done to the entries of a class and of the renamed class.** -/
theorem modify (n : String) {f f' : ClassEntry → ClassEntry} (hf : ∀ c, f' (ρ.entry c) = ρ.entry (f c))
    (hdecl : ∀ c, (f c).declaration = c.declaration) :
    Renamed ρ known { d with classes := d.classes.modify n f }
      { e with classes := e.classes.modify (ρ.rename n) f' } := by
  refine { h with classes := fun a => ?_, named := fun a ha => ?_, respected := fun a decl ha => ?_ }
  · dsimp only
    rw [getElem?_modify_eq, getElem?_modify_eq, h.classes]
    simp only [ClassRenaming.rename_inj]
    split
    · cases d.classes[a]? with
      | none => rfl
      | some c => exact congrArg some (hf c)
    · rfl
  · exact h.named a (ExtTreeMap.mem_modify.1 ha)
  · rw [(sameClasses_modify d n f hdecl).declaration] at ha
    exact h.respected a decl ha

theorem keepStack (n : String) : Renamed ρ known (d.keepStack n) (e.keepStack (ρ.rename n)) := by
  rw [keepStack_eq, keepStack_eq, h.ancestors]
  refine h.modify n (fun c => ?_) fun c => ?_
  · obtain ⟨declaration, resolved, stack⟩ := c
    cases stack <;> rfl
  · unfold keepIn
    split <;> rfl

theorem markResolved (n : String) : Renamed ρ known (d.markResolved n) (e.markResolved (ρ.rename n)) :=
  h.modify n (fun _ => rfl) fun _ => rfl

/-- **A directory made ready is the other one made ready, renamed.** -/
theorem prepare : Renamed ρ known d.prepare e.prepare := by
  refine { h with
    classes := fun n => ?_
    named := fun n hn => ?_
    respected := fun n decl hn => ?_
    bridges := h.findBridges
    known_bridge := fun p hp => ?_ }
  · simp only [Directory.prepare, dropStacks, ExtTreeMap.getElem?_map, h.classes]
    cases d.classes[n]? <;> rfl
  · exact h.named n (((sameClasses_prepare e).known n).1 hn)
  · rw [(sameClasses_prepare d).declaration] at hn
    exact h.respected n decl hn
  · obtain ⟨m, hm, hp⟩ := List.mem_filterMap.1 hp
    obtain ⟨t, -, hp⟩ := Option.bind_eq_some_iff.1 hp
    obtain ⟨target, -, hp⟩ := Option.bind_eq_some_iff.1 hp
    split at hp
    · cases hp
    · cases hp
      exact (h.known_method hm).1

/-! ## Taking in a class -/

theorem refusal? (c : ClassFile) : e.refusal? (ρ.classFile c) = none ↔ d.refusal? c = none := by
  have hread : e.wasRead (ρ.classFile c).name = d.wasRead c.name := h.wasRead c.name
  rw [refusal?_eq_none, refusal?_eq_none, hread, ClassRenaming.structureFault?_classFile]

/-- An accepted class changes the entries of the renamed directory as it changes those of the other. -/
theorem getElem?_takeIn_classFile {c : ClassFile} (hknown : ∀ r ∈ ClassRenaming.methodRefs c, known r) (owned : Bool)
    (hr : d.refusal? c = none) (n : String) :
    (e.takeIn (ρ.classFile c) owned).classes[ρ.rename n]? = (d.takeIn c owned).classes[n]?.map ρ.entry := by
  have hname : (ρ.classFile c).name = ρ.rename c.name := rfl
  have hdecl : (ρ.classFile c).toDeclaration owned = ρ.declaration (c.toDeclaration owned) :=
    ClassRenaming.toDeclaration_classFile (fun a ha b hb => h.apart a b (hknown a ha) (hknown b hb)) owned
  rw [getElem?_takeIn owned hr, getElem?_takeIn owned ((h.refusal? c).2 hr), hname, hdecl,
    ClassRenaming.supertypes_declaration, h.classes]
  simp only [ClassRenaming.rename_inj, ClassRenaming.mem_map_rename]
  split
  · cases d.classes[n]? <;> rfl
  · split
    · cases d.classes[n]? <;> rfl
    · rfl

/-- All classes that a renamed class file mentions have renamed names. -/
theorem named_takeIn_classFile {c : ClassFile} (hr : d.refusal? c = none) (owned : Bool) {n : String}
    (hn : n ∈ (e.takeIn (ρ.classFile c) owned).classes) : ∃ n', ρ.rename n' = n := by
  have hsuper : ((ρ.classFile c).toDeclaration owned).supertypes = (c.toDeclaration owned).supertypes.map ρ.rename :=
    ClassRenaming.supertypes_declaration (c.toDeclaration owned)
  rw [mem_classes_takeIn owned ((h.refusal? c).2 hr), hsuper] at hn
  rcases hn with rfl | hn | hn
  · exact ⟨c.name, rfl⟩
  · obtain ⟨s, -, rfl⟩ := List.mem_map.1 hn
    exact ⟨s, rfl⟩
  · exact h.named n hn

/-- **A renamed class is taken in as the class is**, if the renaming respects what the class says. -/
theorem takeIn {c : ClassFile} (hknown : ∀ r ∈ ClassRenaming.methodRefs c, known r)
    (horder : ∀ m ∈ c.methods, ∀ m' ∈ c.methods,
      (ρ.ref (c.memberRefOf m)).key ≤ (ρ.ref (c.memberRefOf m')).key ↔ (c.memberRefOf m).key ≤ (c.memberRefOf m').key)
    (owned : Bool) : Renamed ρ known (d.takeIn c owned) (e.takeIn (ρ.classFile c) owned) := by
  cases hr : d.refusal? c with
  | some fault =>
    have hr' : e.refusal? (ρ.classFile c) ≠ none := fun hnone => by
      rw [(h.refusal? c).1 hnone] at hr
      cases hr
    obtain ⟨fault', hr'⟩ := Option.ne_none_iff_exists'.1 hr'
    rw [takeIn_of_refused owned hr, takeIn_of_refused owned hr']
    exact h
  | none =>
    refine {
      apart := h.apart
      ingested := ?_
      classes := h.getElem?_takeIn_classFile hknown owned hr
      named := fun n => h.named_takeIn_classFile hr owned
      respected := fun n decl hn => ?_
      bridges := by rw [bridges_takeIn, bridges_takeIn, h.bridges]
      known_bridge := fun p hp => h.known_bridge p (bridges_takeIn d c owned ▸ hp)
      overrides := fun m => by rw [(overrides_takeIn ..).1, (overrides_takeIn ..).1, h.overrides]
      overriding := fun m hm => h.overriding m ((overrides_takeIn e _ owned).1 ▸ hm) }
    · rw [ingested_takeIn owned hr, ingested_takeIn owned ((h.refusal? c).2 hr), h.ingested, List.map_append]
      rfl
    · rw [declaration?_takeIn owned hr] at hn
      split at hn
      · cases hn
        exact respected_toDeclaration hknown horder owned
      · exact h.respected n decl hn

end Renamed

theorem renamed_empty {ρ : ClassRenaming} {known : MemberRef → Prop}
    (hapart : ∀ a b, known a → known b → ((ρ.ref a).key = (ρ.ref b).key ↔ a.key = b.key)) :
    Renamed ρ known empty empty where
  apart := hapart
  ingested := rfl
  classes n := by
    have hnone : ∀ n, empty.classes[n]? = none := fun n => getElem?_eq_none_iff.2 ExtTreeMap.not_mem_empty
    rw [hnone, hnone]
    rfl
  named n hn := absurd hn ExtTreeMap.not_mem_empty
  respected n decl hn := by
    rw [declaration?_empty] at hn
    cases hn
  bridges := rfl
  known_bridge p hp := absurd hp List.not_mem_nil
  overrides m := by
    have hnone : ∀ m, empty.overrides[m]? = none := fun m => getElem?_eq_none_iff.2 ExtTreeMap.not_mem_empty
    rw [hnone, hnone]
    rfl
  overriding m hm := absurd hm ExtTreeMap.not_mem_empty

end Directory
end RenameAudit
