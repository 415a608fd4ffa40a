import RenameAudit.Proofs.Arena.Consistent
import RenameAudit.Proofs.Hierarchy.Bookkeeping
import RenameAudit.Proofs.Hierarchy.LaterClasses
/-!
# Proofs.Arena.SameBooks — an arena and a directory with the same classes

`SameBooks a d` says that an arena and a directory have read the same: the same classes in the same order, with the same
declarations, and the same fields and methods in the order in which they were read.  What is looked up by number in the
one is looked up by name in the other.
-/
namespace RenameAudit

open Std ClassFile

namespace Arena

/-! ## What the records of an arena stand for -/

/-- The method that a record stands for. -/
def view (a : Arena) (r : MethodRecord) : Method :=
  r.toMethod (a.nameOf r.owner)

/-- The field that a record stands for. -/
def viewField (a : Arena) (f : FieldRecord) : Field :=
  f.toField (a.nameOf f.owner)

/-- What a class declares, if it has been read: its record, with the members of which it is the owner. -/
def declaration? (a : Arena) (id : ClassId) : Option Declaration :=
  if (a.record id).read then
    some
      { access := (a.record id).access
        owned := (a.record id).owned
        superclass := (a.record id).parent.map a.nameOf
        interfaces := (a.record id).interfaces.map a.nameOf
        fields := (a.fields.filter (·.owner == id)).map a.viewField
        methods := (a.methods.filter (·.owner == id)).map a.view }
  else none

theorem getElem?_record {a : Arena} {id : ClassId} (hid : id < a.classes.length) :
    a.classes[id]? = some (a.record id) := by
  rw [List.getElem?_eq_getElem hid, record_eq (List.getElem?_eq_getElem hid)]

theorem getElem?_methodRecord {a : Arena} {m : MethodId} (hm : m < a.methods.length) :
    a.methods[m]? = some (a.methodRecord m) := by
  rw [methodRecord, List.getElem?_eq_getElem hm]
  rfl

theorem methodRecord_eq {a : Arena} {m : MethodId} {r : MethodRecord} (h : a.methods[m]? = some r) :
    a.methodRecord m = r := by
  rw [methodRecord, h]
  rfl

/-- **Records are found under their numbers.** -/
theorem getElem?_byNumber {ρ : Type} (records : List ρ) (i : Nat) : (byNumber records)[i]? = records[i]? := by
  have hfst : (records.zipIdx.map Prod.swap).map Prod.fst = List.range' 0 records.length := by
    rw [List.map_map, ← List.zipIdx_map_snd]
    rfl
  unfold byNumber
  cases hr : records[i]? with
  | some r =>
    refine ExtTreeMap.getElem?_ofList_of_mem (k := i) Std.compare_self ?_ ?_
    · have hlt : (List.range' 0 records.length).Pairwise (· < ·) := List.pairwise_lt_range'
      rw [← hfst] at hlt
      exact (List.pairwise_map.1 hlt).imp fun hab heq => Nat.ne_of_lt hab (Std.compare_eq_iff_eq.1 heq)
    · exact List.mem_map.2 ⟨(r, i), List.mem_zipIdx_iff_getElem?.2 hr, rfl⟩
  | none =>
    refine ExtTreeMap.getElem?_ofList_of_contains_eq_false ?_
    rw [hfst, Bool.eq_false_iff, ne_eq, List.contains_iff_mem, List.mem_range'_1]
    have hlen := List.getElem?_eq_none_iff.1 hr
    omega

theorem mem_byNumber {ρ : Type} {records : List ρ} {i : Nat} : i ∈ byNumber records ↔ i < records.length := by
  rw [ExtTreeMap.mem_iff_isSome_getElem?, getElem?_byNumber]
  simp

theorem ancestors_lt {a : Arena} {id : ClassId} (s : ClassId) (hs : s ∈ a.ancestors id) : s < a.classes.length := by
  have hin := ((Graph.mem_breadthFirst _ _ _ _).1 hs).is_inside
  exact mem_byNumber.1 (mem_erase_iff.1 hin).1

theorem readSuperclasses_lt {a : Arena} {id : ClassId} (s : ClassId) (hs : s ∈ a.readSuperclasses id) : s < a.classes.length := by
  have hin := ((Graph.mem_breadthFirst _ _ _ _).1 ((List.takeWhile_sublist _).subset hs)).is_inside
  exact mem_byNumber.1 hin

/-! ### Only what is entered matters -/

section Entered

variable (a : Arena)

theorem record_entered (id : ClassId) : a.entered.record id = (a.record id).entered := by
  rw [record, record, entered, List.getElem?_map]
  cases a.classes[id]? <;> rfl

theorem methodRecord_entered (m : MethodId) : a.entered.methodRecord m = (a.methodRecord m).entered := by
  rw [methodRecord, methodRecord, entered, List.getElem?_map]
  cases a.methods[m]? <;> rfl

theorem nameOf_entered : a.entered.nameOf = a.nameOf := funext fun id => by
  rw [nameOf, record_entered]
  rfl

theorem view_entered (r : MethodRecord) : a.entered.view r.entered = a.view r := by
  rw [view, nameOf_entered]
  rfl

theorem viewField_entered : a.entered.viewField = a.viewField := funext fun f => by
  rw [viewField, nameOf_entered]
  rfl

theorem method_entered : a.entered.method = a.method := funext fun m => by
  rw [method, methodRecord_entered, nameOf_entered]
  rfl

theorem declaration?_entered : a.entered.declaration? = a.declaration? := funext fun id => by
  have hmethods : (a.entered.methods.filter (·.owner == id)).map a.entered.view =
      (a.methods.filter (·.owner == id)).map a.view := by
    have hmap : a.entered.methods = a.methods.map MethodRecord.entered := rfl
    rw [hmap, List.filter_map, List.map_map]
    exact List.map_congr_left fun r _ => view_entered a r
  unfold declaration?
  rw [record_entered, hmethods, nameOf_entered, viewField_entered]
  rfl

theorem views_entered : a.entered.methods.map a.entered.view = a.methods.map a.view := by
  have hmap : a.entered.methods = a.methods.map MethodRecord.entered := rfl
  rw [hmap, List.map_map]
  exact List.map_congr_left fun r _ => view_entered a r

end Entered

section Congr

variable {a b : Arena} (he : b.entered = a.entered)

include he

theorem nameOf_congr : b.nameOf = a.nameOf := by
  rw [← nameOf_entered b, he, nameOf_entered]

theorem method_congr : b.method = a.method := by
  rw [← method_entered b, he, method_entered]

theorem refOf_congr : b.refOf = a.refOf := funext fun m => by
  rw [refOf, method_congr he, ← refOf]

theorem methodRecord_congr (m : MethodId) : (b.methodRecord m).entered = (a.methodRecord m).entered := by
  rw [← methodRecord_entered, he, methodRecord_entered]

theorem lookup_congr : b.lookup = a.lookup := by
  have hbyName : b.byName = a.byName := (congrArg Arena.byName he :)
  funext n
  rw [lookup, hbyName, ← lookup]

end Congr

/-! ## The relation -/

/-- **An arena and a directory have read the same.** -/
structure SameBooks (a : Arena) (d : Directory) : Prop where
  orderly : a.Orderly
  sound : d.Sound
  names : d.names = a.classes.map (·.name)
  known : ∀ n, n ∈ d.classes ↔ (a.lookup n).isSome = true
  declaration : ∀ n, d.declaration? n = (a.lookup n).bind a.declaration?
  fields : d.fields = a.fields.map a.viewField
  methods : d.methods = a.methods.map a.view

theorem SameBooks.of_entered {a b : Arena} {d e : Directory} (h : SameBooks a d) (he : b.entered = a.entered)
    (hs : d.SameClasses e) : SameBooks b e := by
  have hfields : b.fields = a.fields := (congrArg Arena.fields he :)
  refine ⟨h.orderly.of_entered he, h.sound.of_sameClasses hs, ?_, fun n => ?_, fun n => ?_, ?_, ?_⟩
  · have hnames : ∀ c : Arena, c.entered.classes.map (·.name) = c.classes.map (·.name) := fun c => by
      rw [entered, List.map_map]
      rfl
    rw [hs.names, h.names, ← hnames a, ← he, hnames b]
  · rw [hs.known, h.known, lookup_congr he]
  · rw [hs.declaration, h.declaration, lookup_congr he, ← declaration?_entered b, he, declaration?_entered]
  · have hread : e.fields = d.fields := Directory.inReadOrder_congr hs.ingested hs.declaration _
    rw [hread, h.fields, hfields, ← viewField_entered b, he, viewField_entered]
  · rw [hs.methods, h.methods, ← views_entered b, he, views_entered]

namespace SameBooks

variable {a : Arena} {d : Directory} (h : SameBooks a d)

include h

/-! ## Looking up classes -/

theorem lookup_nameOf {id : ClassId} (hid : id < a.classes.length) : a.lookup (a.nameOf id) = some id := by
  rw [h.orderly.byName, List.getElem?_eq_getElem hid, nameOf, record_eq (List.getElem?_eq_getElem hid)]
  rfl

/-- **Classes have different names.** -/
theorem nameOf_inj {x y : ClassId} (hx : x < a.classes.length) (hy : y < a.classes.length)
    (hname : a.nameOf x = a.nameOf y) : x = y := by
  have hlookup := h.lookup_nameOf hx
  rw [hname, h.lookup_nameOf hy] at hlookup
  exact (Option.some.inj hlookup).symm

theorem nameOf_lookup {n : String} {id : ClassId} (hn : a.lookup n = some id) : a.nameOf id = n := by
  obtain ⟨r, hr, hname⟩ := Option.map_eq_some_iff.1 ((h.orderly.byName n id).1 hn)
  rw [nameOf, record_eq hr, hname]

theorem mem_classes {n : String} : n ∈ d.classes ↔ ∃ id < a.classes.length, a.nameOf id = n := by
  rw [h.known, Option.isSome_iff_exists]
  constructor
  · rintro ⟨id, hid⟩
    exact ⟨id, h.orderly.lookup_lt hid, h.nameOf_lookup hid⟩
  · rintro ⟨id, hid, rfl⟩
    exact ⟨id, h.lookup_nameOf hid⟩

theorem mem_map_nameOf {ids : List ClassId} (hids : ∀ x ∈ ids, x < a.classes.length) {id : ClassId}
    (hid : id < a.classes.length) : a.nameOf id ∈ ids.map a.nameOf ↔ id ∈ ids := by
  rw [List.mem_map]
  exact ⟨fun ⟨x, hx, he⟩ => h.nameOf_inj (hids x hx) hid he ▸ hx, fun hx => ⟨id, hx, rfl⟩⟩

section Class

variable {id : ClassId} (hid : id < a.classes.length)

include hid

theorem declaration?_nameOf : d.declaration? (a.nameOf id) = a.declaration? id := by
  rw [h.declaration, h.lookup_nameOf hid]
  rfl

theorem wasRead : d.wasRead (a.nameOf id) = (a.record id).read := by
  rw [Directory.wasRead, h.declaration?_nameOf hid, Arena.declaration?]
  split
  · rename_i hread
    rw [hread]
    rfl
  · rename_i hread
    rw [Bool.eq_false_iff.2 hread]
    rfl

/-- A class that was not read is as one that is only mentioned. -/
theorem entered_of_unread (hread : (a.record id).read = false) : (a.record id).entered = .stub (a.record id).name :=
  h.orderly.unread id _ (getElem?_record hid) hread

theorem accessOf : d.accessOf (a.nameOf id) = (a.record id).access := by
  rw [Directory.accessOf, h.declaration?_nameOf hid, Arena.declaration?]
  split
  · rfl
  · rename_i hread
    exact (congrArg ClassRecord.access (h.entered_of_unread hid (Bool.eq_false_iff.2 hread)).symm :)

theorem isOwned : d.isOwned (a.nameOf id) = (a.record id).owned := by
  rw [Directory.isOwned, h.declaration?_nameOf hid, Arena.declaration?]
  split
  · rfl
  · rename_i hread
    exact (congrArg ClassRecord.owned (h.entered_of_unread hid (Bool.eq_false_iff.2 hread)).symm :)

theorem superclassOf? : d.superclassOf? (a.nameOf id) = (a.record id).parent.map a.nameOf := by
  rw [Directory.superclassOf?, h.declaration?_nameOf hid, Arena.declaration?]
  split
  · rfl
  · rename_i hread
    have hnone : (a.record id).parent = none :=
      (congrArg ClassRecord.parent (h.entered_of_unread hid (Bool.eq_false_iff.2 hread)) :)
    rw [hnone]
    rfl

theorem supertypesOf : d.supertypesOf (a.nameOf id) = (a.supertypesOf id).map a.nameOf := by
  rw [Directory.supertypesOf, h.declaration?_nameOf hid, Arena.declaration?]
  split
  · rw [Arena.supertypesOf, ClassRecord.supertypes, List.map_append, ← Option.toList_map]
    rfl
  · rename_i hread
    have hnone : (a.record id).supertypes = [] :=
      (congrArg ClassRecord.supertypes (h.entered_of_unread hid (Bool.eq_false_iff.2 hread)) :)
    rw [Arena.supertypesOf, hnone]
    rfl

theorem supertypesOf_lt : ∀ s ∈ a.supertypesOf id, s < a.classes.length :=
  h.orderly.supertypes id _ (getElem?_record hid)

end Class

/-! ## Going up -/

theorem ancestors {id : ClassId} (hid : id < a.classes.length) :
    d.ancestors (a.nameOf id) = (a.ancestors id).map a.nameOf := by
  rw [Directory.ancestors, h.supertypesOf hid, Arena.ancestors]
  refine Graph.breadthFirst_map (· < a.classes.length) (fun x y hx hy he => h.nameOf_inj hx hy he)
    (fun x hx => h.supertypesOf hx) (fun x hx => h.supertypesOf_lt hx) _ _ _ (fun x hx => ?_) (h.supertypesOf_lt hid)
  rw [mem_erase_iff, mem_erase_iff, mem_byNumber, h.mem_classes]
  refine and_congr ⟨fun _ => hx, fun _ => ⟨x, hx, rfl⟩⟩ (not_congr ⟨h.nameOf_inj hx hid, fun he => he ▸ rfl⟩)

theorem readSuperclasses {id : ClassId} (hid : id < a.classes.length) :
    d.readSuperclasses (a.nameOf id) = (a.readSuperclasses id).map a.nameOf := by
  have hparent : ∀ x < a.classes.length, ∀ p ∈ (a.record x).parent.toList, p < a.classes.length := fun x hx p hp =>
    h.supertypesOf_lt hx p (List.mem_append_left _ hp)
  have hnext : ∀ x < a.classes.length,
      (d.superclassOf? (a.nameOf x)).toList = (a.record x).parent.toList.map a.nameOf := fun x hx => by
    rw [h.superclassOf? hx, Option.toList_map]
  have hsearch : Graph.breadthFirst (fun n => (d.superclassOf? n).toList) d.classes ([id].map a.nameOf) = _ :=
    Graph.breadthFirst_map (· < a.classes.length) (fun x y hx hy he => h.nameOf_inj hx hy he) hnext hparent
      (byNumber a.classes) [id] d.classes (fun x hx => by
        rw [mem_byNumber, h.mem_classes]
        exact ⟨fun _ => hx, fun _ => ⟨x, hx, rfl⟩⟩) (fun x hx => List.mem_singleton.1 hx ▸ hid)
  rw [List.map_singleton] at hsearch
  rw [Directory.readSuperclasses, hsearch, List.takeWhile_map, Arena.readSuperclasses]
  refine congrArg _ (takeWhile_congr fun x hx => ?_)
  exact h.wasRead (mem_byNumber.1 ((Graph.mem_breadthFirst _ _ _ _).1 hx).is_inside)

/-! ## Looking up methods -/

omit h in
theorem method_eq {m : MethodId} {r : MethodRecord} (hr : a.methods[m]? = some r) : a.method m = a.view r := by
  rw [Arena.method, methodRecord_eq hr, view]

theorem owner_lt {m : MethodId} (hm : m < a.methods.length) : (a.methodRecord m).owner < a.classes.length :=
  h.orderly.methods.owner_lt _ (List.mem_of_getElem? (getElem?_methodRecord hm))

theorem mem_methodsOf {id : ClassId} (hid : id < a.classes.length) {x : Method} :
    x ∈ d.methodsOf (a.nameOf id) ↔ ∃ r ∈ a.methods, r.owner = id ∧ a.view r = x := by
  rw [Directory.mem_methodsOf, h.declaration?_nameOf hid, Arena.declaration?]
  split
  · constructor
    · rintro ⟨decl, hdecl, hx⟩
      cases hdecl
      obtain ⟨r, hr, rfl⟩ := List.mem_map.1 hx
      obtain ⟨hr, howner⟩ := List.mem_filter.1 hr
      exact ⟨r, hr, beq_iff_eq.1 howner, rfl⟩
    · rintro ⟨r, hr, howner, rfl⟩
      exact ⟨_, rfl, List.mem_map_of_mem (List.mem_filter.2 ⟨hr, beq_iff_eq.2 howner⟩)⟩
  · rename_i hread
    have hnone : (a.record id).methods = ∅ :=
      (congrArg ClassRecord.methods (h.entered_of_unread hid (Bool.eq_false_iff.2 hread)) :)
    refine iff_of_false (fun ⟨_, hdecl, _⟩ => by cases hdecl) ?_
    rintro ⟨r, hr, howner, -⟩
    exact h.orderly.methods.owner_ne (getElem?_record hid) hnone hr howner

/-- **A method is found under its key in both.** -/
theorem methodByKey? {id : ClassId} (hid : id < a.classes.length) (key : String) :
    d.methodByKey? (a.nameOf id) key = (a.methodByKey? id key).map a.method := by
  refine Option.ext fun x => ?_
  rw [h.sound.methodByKey?_eq_some, h.mem_methodsOf hid, Option.map_eq_some_iff]
  constructor
  · rintro ⟨⟨r, hr, howner, rfl⟩, hkey⟩
    obtain ⟨m, hm⟩ := List.mem_iff_getElem?.1 hr
    exact ⟨m, h.orderly.methodByKey?_eq_some.2 ⟨r, hm, howner, hkey⟩, method_eq hm⟩
  · rintro ⟨m, hm, rfl⟩
    obtain ⟨r, hm, howner, hkey⟩ := h.orderly.methodByKey?_eq_some.1 hm
    rw [method_eq hm]
    exact ⟨⟨r, List.mem_of_getElem? hm, howner, rfl⟩, hkey⟩

omit h in
theorem mem_ids {id : ClassId} {m : MethodId} : m ∈ a.methodsOf id ↔ ∃ key, a.methodByKey? id key = some m := by
  rw [Arena.methodsOf, List.mem_map]
  constructor
  · rintro ⟨⟨key, m⟩, hm, rfl⟩
    exact ⟨key, ExtTreeMap.mem_toList_iff_getElem?_eq_some.1 hm⟩
  · rintro ⟨key, hm⟩
    exact ⟨(key, m), ExtTreeMap.mem_toList_iff_getElem?_eq_some.2 hm, rfl⟩

theorem methodByKey?_lt {id : ClassId} {key : String} {m : MethodId} (hm : a.methodByKey? id key = some m) :
    m < a.methods.length := by
  obtain ⟨r, hr, -⟩ := h.orderly.methodByKey?_eq_some.1 hm
  exact (List.getElem?_eq_some_iff.1 hr).1

theorem methodsOf_lt {id : ClassId} {m : MethodId} (hm : m ∈ a.methodsOf id) : m < a.methods.length := by
  obtain ⟨key, hkey⟩ := mem_ids.1 hm
  exact h.methodByKey?_lt hkey

theorem key_method {id : ClassId} {key : String} {m : MethodId} (hm : a.methodByKey? id key = some m) :
    (a.method m).key = key := by
  obtain ⟨r, hr, -, rfl⟩ := h.orderly.methodByKey?_eq_some.1 hm
  rw [method_eq hr]
  rfl

/-- **The methods of a class come in the same order.** -/
theorem methodsOf {id : ClassId} (hid : id < a.classes.length) :
    d.methodsOf (a.nameOf id) = (a.methodsOf id).map a.method := by
  have hascending : ((a.methodsOf id).map a.method).Pairwise fun x y => x.key < y.key := by
    rw [Arena.methodsOf, List.map_map, List.pairwise_map]
    refine ExtTreeMap.ordered_keys_toList.imp_of_mem fun {p q} hp hq hpq => ?_
    have hkey : ∀ p ∈ (a.record id).methods.toList, (a.method p.2).key = p.1 := fun p hp =>
      h.key_method (ExtTreeMap.mem_toList_iff_getElem?_eq_some.1 hp)
    rw [Function.comp_apply, Function.comp_apply, hkey p hp, hkey q hq]
    exact compare_string_eq_lt.1 hpq
  refine eq_of_ascending (fun _ _ => String.lt_asymm) (Directory.ascending_methodsOf h.sound _) hascending fun x => ?_
  have hfound : x ∈ d.methodsOf (a.nameOf id) ↔ d.methodByKey? (a.nameOf id) x.key = some x := by
    rw [h.sound.methodByKey?_eq_some]
    exact (and_iff_left rfl).symm
  rw [hfound, h.methodByKey? hid, Option.map_eq_some_iff, List.mem_map]
  constructor
  · rintro ⟨m, hm, rfl⟩
    exact ⟨m, mem_ids.2 ⟨_, hm⟩, rfl⟩
  · rintro ⟨m, hm, rfl⟩
    obtain ⟨key, hkey⟩ := mem_ids.1 hm
    exact ⟨m, by rw [h.key_method hkey, hkey], rfl⟩

/-- **Methods have different references.** -/
theorem refOf_inj {x y : MethodId} (hx : x < a.methods.length) (hy : y < a.methods.length)
    (href : a.refOf x = a.refOf y) : x = y := by
  have howner := h.nameOf_inj (h.owner_lt hx) (h.owner_lt hy) (congrArg MemberRef.owner href)
  have hkey : (a.methodRecord x).key = (a.methodRecord y).key := congrArg MemberRef.key href
  have hfound := h.orderly.methodByKey?_eq_some.2 ⟨_, getElem?_methodRecord hx, rfl, rfl⟩
  rw [howner, hkey, h.orderly.methodByKey?_eq_some.2 ⟨_, getElem?_methodRecord hy, rfl, rfl⟩] at hfound
  exact (Option.some.inj hfound).symm

theorem methods_eq : d.methods = (List.range a.methods.length).map a.method := by
  rw [h.methods]
  refine List.ext_getElem? fun i => ?_
  rw [List.getElem?_map, List.getElem?_map]
  by_cases hi : i < a.methods.length
  · rw [List.getElem?_range hi, getElem?_methodRecord hi]
    rfl
  · rw [List.getElem?_eq_none (Nat.le_of_not_lt hi), List.getElem?_eq_none (by simpa using hi)]
    rfl

/-! ## Bridges and classes under audit -/

theorem bridgeTarget? {m : MethodId} (hm : m < a.methods.length) (named : MemberRef) :
    d.bridgeTarget? (a.method m) named = (a.bridgeTarget? (a.methodRecord m).owner named).map a.method := by
  have hown := h.owner_lt hm
  have howner : (a.method m).ref.owner = a.nameOf (a.methodRecord m).owner := rfl
  unfold Directory.bridgeTarget? Arena.bridgeTarget?
  dsimp only
  rw [howner, h.superclassOf? hown]
  split
  · exact h.methodByKey? hown _
  · cases hparent : (a.record (a.methodRecord m).owner).parent with
    | none => rfl
    | some p =>
      have hp : p < a.classes.length :=
        h.supertypesOf_lt hown p (List.mem_append_left _ (Option.mem_toList.2 hparent))
      simp only [Option.map_some, Option.some.injEq]
      split
      · rename_i hname
        rw [← hname, h.readSuperclasses hp, List.findSome?_map, List.map_findSome?]
        exact Directory.findSome?_congr fun c hc => h.methodByKey? (readSuperclasses_lt c hc) _
      · rfl

/-- **The same bridges are found**, in the same order. -/
theorem findBridges : d.findBridges = a.findBridges.map fun p => (a.refOf p.1, a.refOf p.2) := by
  rw [Directory.findBridges, Arena.findBridges, h.methods_eq, List.filterMap_map, List.map_filterMap]
  refine List.filterMap_congr fun m hm => ?_
  have hm := List.mem_range.1 hm
  have hforwards : (a.method m).forwards = (a.methodRecord m).forwards := rfl
  rw [Function.comp_apply, hforwards, bridgeOf?]
  cases (a.methodRecord m).forwards with
  | none => rfl
  | some named =>
    simp only [Option.bind_eq_bind, Option.bind_some, h.bridgeTarget? hm]
    cases ht : a.bridgeTarget? (a.methodRecord m).owner named with
    | none => rfl
    | some t =>
      have hself : (a.method t).ref = (a.method m).ref ↔ t = m :=
        ⟨h.refOf_inj (h.orderly.bridgeTarget?_lt ht) hm, fun he => he ▸ rfl⟩
      simp only [Option.map_some, Option.bind_some, hself]
      split <;> rfl

/-- **The classes under audit come in the same order.** -/
theorem owned : d.owned = a.ownedIds.map a.nameOf := by
  have hascending : (a.ownedIds.map a.nameOf).Pairwise (· < ·) := List.pairwise_map.2 h.orderly.ascending_owned
  refine eq_of_ascending (fun _ _ => String.lt_asymm) (Directory.ascending_owned d) hascending fun n => ?_
  rw [Directory.mem_owned, h.mem_classes, List.mem_map]
  constructor
  · rintro ⟨⟨id, hid, rfl⟩, hown⟩
    exact ⟨id, h.orderly.mem_ownedIds.2 ⟨_, getElem?_record hid, (h.isOwned hid).symm.trans hown⟩, rfl⟩
  · rintro ⟨id, hid, rfl⟩
    obtain ⟨r, hr, hown⟩ := h.orderly.mem_ownedIds.1 hid
    have hlt := (List.getElem?_eq_some_iff.1 hr).1
    exact ⟨⟨id, hlt, rfl⟩, by rw [h.isOwned hlt, record_eq hr, hown]⟩

end SameBooks

end Arena
end RenameAudit
