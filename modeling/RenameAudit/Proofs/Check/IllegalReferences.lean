import RenameAudit.Proofs.Check.FindingOrder
import RenameAudit.Proofs.Hierarchy.Bookkeeping
import RenameAudit.Proofs.Text.Split
import RenameAudit.Check.AccessLevels
/-!
# Proofs.Check.IllegalReferences — the references that renaming makes illegal

What an instruction refers to depends on the classes alone (`RefersTo`), and whether its class may refer to that depends on
the new names only through the packages of the two classes (`Forbids`).  The check finds both (`illegal?_eq_some`), and of
the illegal references of a class that are reported with one text it keeps the first (`mem_firstByKey_iff`).  So each class
has one finding for each such text and no other (`illegal_references_exact`).
-/
namespace RenameAudit

open Std ClassFile

/-! ## The first of each key -/

section FirstByKey

variable {α : Type} (key : α → String) (items : List α)

theorem firstByKey_snoc (a : α) : firstByKey key (items ++ [a]) =
    if (firstByKey key items).any (fun b => key b == key a) then firstByKey key items else firstByKey key items ++ [a] := by
  rw [firstByKey, List.foldl_append]
  rfl

/-- Every key is kept. -/
theorem exists_mem_firstByKey {k : String} : (∃ b ∈ firstByKey key items, key b = k) ↔ ∃ b ∈ items, key b = k := by
  refine ⟨fun ⟨b, hb, hk⟩ => ⟨b, mem_firstByKey hb, hk⟩, ?_⟩
  induction items using List.reverseRecOn with
  | nil => exact fun ⟨b, hb, _⟩ => absurd hb List.not_mem_nil
  | append_singleton items a ih =>
    rintro ⟨b, hb, rfl⟩
    rw [firstByKey_snoc]
    rcases List.mem_append.1 hb with hb | hb
    · obtain ⟨c, hc, hk⟩ := ih ⟨b, hb, rfl⟩
      refine ⟨c, ?_, hk⟩
      split
      · exact hc
      · exact List.mem_append_left _ hc
    · obtain rfl := List.mem_singleton.1 hb
      split
      · rename_i hany
        simpa using hany
      · exact ⟨b, List.mem_append_right _ List.mem_cons_self, rfl⟩

/-- **What is kept is what no other with its key stands before.** -/
theorem mem_firstByKey_iff {a : α} :
    a ∈ firstByKey key items ↔ ∃ front back, items = front ++ a :: back ∧ ∀ b ∈ front, key b ≠ key a := by
  induction items using List.reverseRecOn with
  | nil => simp [firstByKey]
  | append_singleton items x ih =>
    have hlast : (∃ front back, items ++ [x] = front ++ a :: back ∧ ∀ b ∈ front, key b ≠ key a) ↔
        a ∈ firstByKey key items ∨ (x = a ∧ ∀ b ∈ items, key b ≠ key a) := by
      rw [ih]
      constructor
      · rintro ⟨front, back, heq, hfront⟩
        -- What follows the item ends in the last one, unless the item is the last one itself.
        induction back using List.reverseRecOn with
        | nil =>
          obtain ⟨rfl, hx⟩ := List.append_inj' heq rfl
          exact .inr ⟨(List.cons.inj hx).1, hfront⟩
        | append_singleton back y _ =>
          rw [← List.cons_append, ← List.append_assoc] at heq
          exact .inl ⟨front, back, (List.append_inj' heq rfl).1, hfront⟩
      · rintro (⟨front, back, rfl, hfront⟩ | ⟨rfl, hfront⟩)
        · exact ⟨front, back ++ [x], by simp, hfront⟩
        · exact ⟨items, [], rfl, hfront⟩
    rw [hlast, firstByKey_snoc]
    split
    · rename_i hany
      refine (or_iff_left fun ⟨hx, hfront⟩ => ?_).symm
      obtain ⟨b, hb, hk⟩ : ∃ b ∈ firstByKey key items, key b = key x := by simpa using hany
      exact hfront b (mem_firstByKey hb) (hx ▸ hk)
    · rename_i hnone
      rw [List.mem_append, List.mem_singleton]
      refine or_congr_right ⟨fun hx => ⟨hx.symm, fun b hb hk => hnone ?_⟩, fun h => h.1.symm⟩
      simpa [← hx] using (exists_mem_firstByKey key items).2 ⟨b, hb, hk⟩

end FirstByKey

/-- **The first that passes a filter** with a value, where those before it have others. -/
theorem exists_filterMap_split {α β : Type} {g : α → Option β} {l : List α} {b : β} {p : β → Prop} :
    (∃ front back, l.filterMap g = front ++ b :: back ∧ ∀ b' ∈ front, p b') ↔
      ∃ front a back, l = front ++ a :: back ∧ g a = some b ∧ ∀ a' ∈ front, ∀ b', g a' = some b' → p b' := by
  constructor
  · rintro ⟨front, back, heq, hfront⟩
    obtain ⟨l₁, l₂, rfl, rfl, hl₂⟩ := List.filterMap_eq_append_iff.1 heq
    obtain ⟨skipped, a, rest, rfl, hskipped, ha, -⟩ := List.filterMap_eq_cons_iff.1 hl₂
    refine ⟨l₁ ++ skipped, a, rest, (List.append_assoc ..).symm, ha, fun a' ha' b' hb' => ?_⟩
    rcases List.mem_append.1 ha' with ha' | ha'
    · exact hfront b' (List.mem_filterMap.2 ⟨a', ha', hb'⟩)
    · rw [hskipped a' ha'] at hb'
      cases hb'
  · rintro ⟨front, a, back, rfl, ha, hfront⟩
    refine ⟨front.filterMap g, back.filterMap g, by rw [List.filterMap_append, List.filterMap_cons_some ha], fun b' hb' => ?_⟩
    obtain ⟨a', ha', hb'⟩ := List.mem_filterMap.1 hb'
    exact hfront a' ha' b' hb'

namespace AccessLevels

open Directory

/-! ## References -/

/-- **The class of the elements** of an array type, or the class itself where the name is not that of an array. -/
inductive HasElement (name element : String) : Prop
  | plain (h : name.toList.head? ≠ some '[') (heq : name = element)
  | array (depth : Nat) (h : name.toList = List.replicate (depth + 1) '[' ++ 'L' :: (element.toList ++ [';']))

/-- The first class along a list that declares something declares this. -/
def IsFirst {α : Type} (declares : String → α → Prop) (classes : List String) (a : α) : Prop :=
  ∃ front c back, classes = front ++ c :: back ∧ declares c a ∧ ∀ b ∈ front, ∀ a', ¬ declares b a'

/-- A class refers by a name to a class other than itself that has been read. -/
structure Reaches (d : Directory) (c owner : String) : Prop where
  other : owner ≠ c
  read : d.wasRead owner = true

/-- **What an instruction of a class refers to**: the class of the declaration and the access flags.  A field is the first
with its name, and a method the first with its key, in the class that the instruction names and its ancestors. -/
inductive RefersTo (d : Directory) (c : String) : Instruction → String → Access → Prop
  | field {op : UInt8} {ref : MemberRef} {f : Field} (h : Reaches d c ref.owner)
      (hfirst : IsFirst (fun b f => f ∈ d.fieldsOf b ∧ f.ref.name = ref.name) (ref.owner :: d.stackOf ref.owner) f) :
      RefersTo d c (.field op ref) f.ref.owner f.access
  | method {op : UInt8} {ref : MemberRef} {viaInterface : Bool} {m : Method} (h : Reaches d c ref.owner)
      (hfirst : IsFirst (fun b m => m ∈ d.methodsOf b ∧ m.key = ref.key) (ref.owner :: d.stackOf ref.owner) m) :
      RefersTo d c (.call op ref viaInterface) m.ref.owner m.access
  | type {op : UInt8} {name element : String} (hname : HasElement name element) (h : Reaches d c element) :
      RefersTo d c (.type op name) element (d.accessOf element)

/-- The text in reports for what an instruction refers to in a class: the new names of the class and the member. -/
def displayOf (t : RenameTable) (declaring : String) : Instruction → String
  | .field _ ref => t.mapClass declaring ++ "/" ++ t.mapField declaring ref.name
  | .call _ ref _ => t.mapClass declaring ++ "/" ++ t.mapMethod declaring ref.name ref.descriptor ++
      t.mapDescriptor ref.descriptor
  | _ => t.mapClass declaring

/-- **A declaration is out of reach** under the new names, because of its visibility.  Of the flags public counts before
protected, and protected before private. -/
inductive Forbids (ctx : CheckContext) (c declaring : String) (access : Access) : AccessLevel → Prop
  | prot (hpublic : Access.isPublic access = false) (hprotected : Access.isProtected access = true)
      (hpackage : packageOf (ctx.table.mapClass declaring) ≠ packageOf (ctx.table.mapClass c))
      (hstack : declaring ∉ ctx.dir.stackOf c) : Forbids ctx c declaring access .prot
  | priv (hpublic : Access.isPublic access = false) (hprotected : Access.isProtected access = false)
      (hprivate : Access.isPrivate access = true) (hother : declaring ≠ c) : Forbids ctx c declaring access .priv
  | package (hpublic : Access.isPublic access = false) (hprotected : Access.isProtected access = false)
      (hprivate : Access.isPrivate access = false) (hother : declaring ≠ c)
      (hpackage : packageOf (ctx.table.mapClass declaring) ≠ packageOf (ctx.table.mapClass c)) :
      Forbids ctx c declaring access .package

/-- **An instruction of a class is an illegal reference** with a text and the level that forbids it. -/
def IsIllegal (ctx : CheckContext) (c : String) (i : Instruction) (display : String) (level : AccessLevel) : Prop :=
  ∃ declaring access, RefersTo ctx.dir c i declaring access ∧ Forbids ctx c declaring access level ∧
    displayOf ctx.table declaring i = display

/-- The instructions of a class, method by method. -/
def instructionsOf (d : Directory) (c : String) : List Instruction :=
  (d.methodsOf c).flatMap fun m => m.code.getD []

/-- **The first illegal reference** of a class with a text is forbidden by a level. -/
def IsFirstIllegal (ctx : CheckContext) (c display : String) (level : AccessLevel) : Prop :=
  ∃ front i back, instructionsOf ctx.dir c = front ++ i :: back ∧ IsIllegal ctx c i display level ∧
    ∀ j ∈ front, ∀ other, ¬ IsIllegal ctx c j display other

/-- **What is reported for a class**: each text of an illegal reference once, with the level of the first. -/
structure Reports (ctx : CheckContext) (c : String) (reports : List (String × AccessLevel)) : Prop where
  once : (reports.map Prod.fst).Nodup
  complete : ∀ display, display ∈ reports.map Prod.fst ↔
    ∃ i ∈ instructionsOf ctx.dir c, ∃ level, IsIllegal ctx c i display level
  first : ∀ display level, (display, level) ∈ reports ↔ IsFirstIllegal ctx c display level

/-! ## What the check finds -/

theorem exists_brackets (cs : List Char) : ∃ depth, cs = List.replicate depth '[' ++ cs.dropWhile (· == '[') := by
  refine ⟨(cs.takeWhile (· == '[')).length, ?_⟩
  have hall : cs.takeWhile (· == '[') = List.replicate (cs.takeWhile (· == '[')).length '[' :=
    List.eq_replicate_iff.2 ⟨rfl, fun c hc => beq_iff_eq.1 (List.all_eq_true.1 List.all_takeWhile c hc)⟩
  rw [← hall, List.takeWhile_append_dropWhile]

theorem dropWhile_brackets (depth : Nat) (cs : List Char) :
    (List.replicate depth '[' ++ 'L' :: cs).dropWhile (· == '[') = 'L' :: cs := by
  rw [List.dropWhile_append_of_pos fun c hc => beq_iff_eq.2 (List.eq_of_mem_replicate hc)]
  rfl

theorem elementClass?_eq_some {name element : String} : elementClass? name = some element ↔ HasElement name element := by
  constructor
  · intro h
    unfold elementClass? at h
    split at h
    · rename_i rest hname
      split at h
      · rename_i cs hdrop
        split at h
        · rename_i chars hsplit
          cases h
          obtain ⟨depth, hrest⟩ := exists_brackets rest
          rw [hdrop, Text.eq_of_splitLast? hsplit] at hrest
          refine .array depth ?_
          rw [hname, hrest, String.toList_ofList, List.replicate_succ, List.cons_append]
        · cases h
      · cases h
    · rename_i hname
      cases h
      refine .plain (fun hhead => ?_) rfl
      obtain ⟨rest, hrest⟩ := List.head?_eq_some_iff.1 hhead
      exact hname rest hrest
  · rintro (⟨hhead, rfl⟩ | ⟨depth, hname⟩)
    · unfold elementClass?
      split
      · rename_i rest hname
        rw [hname] at hhead
        exact absurd rfl hhead
      · rfl
    · rw [List.replicate_succ, List.cons_append] at hname
      rw [elementClass?, hname]
      simp only [dropWhile_brackets, Text.splitLast?_append _ List.not_mem_nil, String.ofList_toList]

section Resolved

variable {ctx : CheckContext} {c : String}

theorem isReadable_iff {owner : String} : isReadable ctx c owner = true ↔ Reaches ctx.dir c owner := by
  rw [isReadable, Bool.and_eq_true, bne_iff_ne]
  exact ⟨fun h => ⟨h.1, h.2⟩, fun h => ⟨h.other, h.read⟩⟩

theorem forbidden?_eq_some (hstack : ∀ c, ctx.dir.stackOf c = ctx.dir.ancestors c) {t : Target} {level : AccessLevel} :
    forbidden? ctx c t = some level ↔ Forbids ctx c t.declaring t.access level := by
  have hpackage : samePackage ctx c t.declaring = false ↔
      packageOf (ctx.table.mapClass t.declaring) ≠ packageOf (ctx.table.mapClass c) := by
    rw [samePackage, beq_eq_false_iff_ne, ne_comm]
  unfold forbidden? Access.visibility
  constructor
  · intro hlevel
    cases hpublic : Access.isPublic t.access with
    | true => simp [hpublic] at hlevel
    | false =>
      cases hprotected : Access.isProtected t.access with
      | true =>
        obtain ⟨⟨hother, hancestor⟩, rfl⟩ : (samePackage ctx c t.declaring = false ∧ t.declaring ∉ ctx.dir.ancestors c) ∧
            AccessLevel.prot = level := by
          simpa [hpublic, hprotected] using hlevel
        exact .prot hpublic hprotected (hpackage.1 hother) (hstack c ▸ hancestor)
      | false =>
        cases hprivate : Access.isPrivate t.access with
        | true =>
          obtain ⟨hother, rfl⟩ : t.declaring ≠ c ∧ AccessLevel.priv = level := by
            simpa [hpublic, hprotected, hprivate] using hlevel
          exact .priv hpublic hprotected hprivate hother
        | false =>
          obtain ⟨⟨hother, hne⟩, rfl⟩ : (t.declaring ≠ c ∧ samePackage ctx c t.declaring = false) ∧
              AccessLevel.package = level := by
            simpa [hpublic, hprotected, hprivate] using hlevel
          exact .package hpublic hprotected hprivate hother (hpackage.1 hne)
  · intro hforbids
    cases hforbids with
    | prot hpublic hprotected hne hancestor =>
      rw [hstack] at hancestor
      simp [hpublic, hprotected, hpackage.2 hne, hancestor]
    | priv hpublic hprotected hprivate hother => simp [hpublic, hprotected, hprivate, hother]
    | package hpublic hprotected hprivate hother hne =>
      simp [hpublic, hprotected, hprivate, hpackage.2 hne, hother]

variable (h : ctx.dir.Orderly) (hstack : ∀ c, ctx.dir.stackOf c = ctx.dir.ancestors c)

theorem search_eq_some {α : Type} {d : Directory} (hstack : ∀ c, d.stackOf c = d.ancestors c) {declares : String → α → Prop}
    {find? : String → Option α} (hfind : ∀ c a, find? c = some a ↔ declares c a) {start : String} {a : α} :
    search d start find? = some a ↔ IsFirst declares (start :: d.stackOf start) a := by
  rw [search, hstack, List.findSome?_eq_some_iff, IsFirst]
  refine exists_congr fun front => exists_congr fun c => exists_congr fun back => and_congr_right fun _ => ?_
  rw [hfind]
  refine and_congr_right fun _ => forall_congr' fun b => forall_congr' fun _ => ?_
  rw [Option.eq_none_iff_forall_ne_some]
  exact forall_congr' fun a' => not_congr (hfind b a')

include hstack in
/-- **A member is looked for from its readable owner on.** -/
theorem searched_eq_some {α : Type} {owner : String} {declares : String → α → Prop} {find? : String → Option α}
    (hfind : ∀ b a, find? b = some a ↔ declares b a) {target : α → Target} {t : Target} :
    (if isReadable ctx c owner then (search ctx.dir owner find?).map target else none) = some t ↔
      Reaches ctx.dir c owner ∧ ∃ a, IsFirst declares (owner :: ctx.dir.stackOf owner) a ∧ target a = t := by
  split
  · rename_i hread
    rw [Option.map_eq_some_iff, and_iff_right (isReadable_iff.1 hread)]
    exact exists_congr fun a => and_congr_left fun _ => search_eq_some hstack hfind
  · rename_i hread
    exact iff_of_false nofun fun h => hread (isReadable_iff.2 h.1)

include h hstack

theorem fieldTarget?_eq_some {op : UInt8} {ref : MemberRef} {t : Target} : fieldTarget? ctx c ref = some t ↔
    RefersTo ctx.dir c (.field op ref) t.declaring t.access ∧ displayOf ctx.table t.declaring (.field op ref) = t.display := by
  have hfind : ∀ b f, ctx.dir.field? b ref.name = some f ↔ f ∈ ctx.dir.fieldsOf b ∧ f.ref.name = ref.name :=
    fun b f => h.field?_eq_some
  rw [fieldTarget?, searched_eq_some hstack hfind]
  constructor
  · rintro ⟨hread, f, hfirst, rfl⟩
    exact ⟨.field hread hfirst, rfl⟩
  · obtain ⟨declaring, display, access⟩ := t
    rintro ⟨hrefers, hdisplay⟩
    dsimp only at hrefers hdisplay
    subst hdisplay
    cases hrefers with
    | field hread hfirst => exact ⟨hread, _, hfirst, rfl⟩

theorem methodTarget?_eq_some {op : UInt8} {ref : MemberRef} {viaInterface : Bool} {t : Target} :
    methodTarget? ctx c ref = some t ↔ RefersTo ctx.dir c (.call op ref viaInterface) t.declaring t.access ∧
      displayOf ctx.table t.declaring (.call op ref viaInterface) = t.display := by
  have hfind : ∀ b m, ctx.dir.methodByKey? b ref.key = some m ↔ m ∈ ctx.dir.methodsOf b ∧ m.key = ref.key :=
    fun b m => h.sound.methodByKey?_eq_some
  rw [methodTarget?, searched_eq_some hstack hfind]
  constructor
  · rintro ⟨hread, m, hfirst, rfl⟩
    exact ⟨.method hread hfirst, rfl⟩
  · obtain ⟨declaring, display, access⟩ := t
    rintro ⟨hrefers, hdisplay⟩
    dsimp only at hrefers hdisplay
    subst hdisplay
    cases hrefers with
    | method hread hfirst => exact ⟨hread, _, hfirst, rfl⟩

omit h hstack in
theorem typeTarget?_eq_some {op : UInt8} {name : String} {t : Target} : typeTarget? ctx c name = some t ↔
    RefersTo ctx.dir c (.type op name) t.declaring t.access ∧ displayOf ctx.table t.declaring (.type op name) = t.display := by
  unfold typeTarget?
  rw [Option.bind_eq_some_iff]
  constructor
  · rintro ⟨element, helement, ht⟩
    split at ht
    · rename_i hread
      cases ht
      exact ⟨.type (elementClass?_eq_some.1 helement) (isReadable_iff.1 hread), rfl⟩
    · cases ht
  · obtain ⟨declaring, display, access⟩ := t
    rintro ⟨hrefers, hdisplay⟩
    dsimp only at hrefers hdisplay
    subst hdisplay
    cases hrefers with
    | type hname hread =>
      refine ⟨declaring, elementClass?_eq_some.2 hname, ?_⟩
      rw [if_pos (isReadable_iff.2 hread)]
      rfl

/-- **What an instruction refers to is found**, and nothing else. -/
theorem target?_eq_some {i : Instruction} {t : Target} : target? ctx c i = some t ↔
    RefersTo ctx.dir c i t.declaring t.access ∧ displayOf ctx.table t.declaring i = t.display := by
  cases i with
  | field op ref => exact fieldTarget?_eq_some h hstack
  | call op ref viaInterface => exact methodTarget?_eq_some h hstack
  | type op name => exact typeTarget?_eq_some
  | slot | dynamic | ret | plain => exact iff_of_false nofun fun ⟨hrefers, _⟩ => nomatch hrefers

/-- **An instruction is found to be illegal exactly where it is.** -/
theorem illegal?_eq_some {i : Instruction} {display : String} {level : AccessLevel} :
    ((target? ctx c i).bind fun t => (forbidden? ctx c t).map fun level => (t.display, level)) = some (display, level) ↔
      IsIllegal ctx c i display level := by
  simp only [Option.bind_eq_some_iff, Option.map_eq_some_iff, Prod.mk.injEq, target?_eq_some h hstack,
    forbidden?_eq_some hstack]
  constructor
  · rintro ⟨t, ⟨hrefers, hdisplay⟩, level, hforbids, rfl, rfl⟩
    exact ⟨t.declaring, t.access, hrefers, hforbids, hdisplay⟩
  · rintro ⟨declaring, access, hrefers, hforbids, rfl⟩
    exact ⟨⟨declaring, _, access⟩, ⟨hrefers, rfl⟩, level, hforbids, rfl, rfl⟩

theorem mem_illegalIn {display : String} {level : AccessLevel} :
    (display, level) ∈ illegalIn ctx c ↔ ∃ i ∈ instructionsOf ctx.dir c, IsIllegal ctx c i display level := by
  rw [illegalIn, List.mem_filterMap]
  exact exists_congr fun i => and_congr_right fun _ => illegal?_eq_some h hstack

/-- **What is kept for a class are the first illegal references** with each text. -/
theorem reports_firstByKey : Reports ctx c (firstByKey Prod.fst (illegalIn ctx c)) where
  once := List.pairwise_map.2 (pairwise_firstByKey Prod.fst _)
  complete display := by
    rw [List.mem_map, exists_mem_firstByKey]
    constructor
    · rintro ⟨⟨_, level⟩, hmem, rfl⟩
      obtain ⟨i, hi, hillegal⟩ := (mem_illegalIn h hstack).1 hmem
      exact ⟨i, hi, level, hillegal⟩
    · rintro ⟨i, hi, level, hillegal⟩
      exact ⟨(display, level), (mem_illegalIn h hstack).2 ⟨i, hi, hillegal⟩, rfl⟩
  first display level := by
    rw [mem_firstByKey_iff, illegalIn, exists_filterMap_split]
    refine exists_congr fun front => exists_congr fun i => exists_congr fun back => and_congr_right fun _ => ?_
    rw [illegal?_eq_some h hstack]
    -- A reference before it with its text is illegal at some level, so it would be in the list that is searched.
    refine and_congr_right fun _ => forall_congr' fun j => forall_congr' fun _ => ?_
    constructor
    · exact fun hne other hillegal => hne (display, other) ((illegal?_eq_some h hstack).2 hillegal) rfl
    · rintro hnone ⟨_, other⟩ hsome rfl
      exact hnone other ((illegal?_eq_some h hstack).1 hsome)

end Resolved

/-! ## All findings -/

/-- **The illegal references are reported exactly**: for each class under audit each text of one, once, with the level of
the first in the order of the methods, which is that of their keys.  All findings stand in their order. -/
theorem illegal_references_exact (steps : List Step) (base : CheckContext) :
    let ctx := { base with dir := (after steps).resolve }
    ∃ reports : String → List (String × AccessLevel), (∀ c ∈ ctx.dir.owned, Reports ctx c (reports c)) ∧
      (findings ctx).Perm (ctx.dir.owned.flatMap fun c => (reports c).map fun r =>
        .invalidAccess (ctx.table.mapClass c) r.1 r.2) ∧
      (findings ctx).Pairwise (fun a b => (compare a b).isLE = true) ∧
      ∀ c, (ctx.dir.methodsOf c).Pairwise fun m m' => m.key < m'.key := by
  intro ctx
  have horderly : ctx.dir.Orderly := orderly_resolve steps
  have hstack : ∀ c, ctx.dir.stackOf c = ctx.dir.ancestors c := stackOf_resolve steps
  exact ⟨fun c => firstByKey Prod.fst (illegalIn ctx c), fun c _ => reports_firstByKey horderly hstack,
    List.mergeSort_perm _ _, Finding.pairwise_sorted _, ascending_methodsOf horderly.sound⟩

end AccessLevels
end RenameAudit
