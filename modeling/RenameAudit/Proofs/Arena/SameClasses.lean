import RenameAudit.Proofs.Arena.SameBooks
/-!
# Proofs.Arena.SameClasses — reading the same classes

An arena and a directory that have read the same have read the same after a class was mentioned in both
(`SameBooks.mention`) or taken in (`SameBooks.takeIn`).
-/
namespace RenameAudit

open Std ClassFile

namespace Directory

theorem declaration?_declare (d : Directory) (name : String) (decl : Declaration) (n : String) :
    (d.declare name decl).declaration? n = if n = name then some decl else d.declaration? n := by
  rw [declaration?, declare, getElem?_insert_eq]
  split <;> rfl

/-- **What is declared comes after all that was read before.** -/
theorem inReadOrder_declare {d : Directory} {name : String} (hnew : name ∉ d.ingested) (decl : Declaration) {α : Type}
    (part : Declaration → List α) : (d.declare name decl).inReadOrder part = d.inReadOrder part ++ part decl := by
  have hingested : (d.declare name decl).ingested = d.ingested ++ [name] := rfl
  rw [inReadOrder, hingested, List.flatMap_append, List.flatMap_singleton, declaration?_declare, if_pos rfl]
  refine congrArg (· ++ part decl) (List.flatMap_congr fun n hn => ?_)
  have hne : n ≠ name := fun he => hnew (he ▸ hn)
  rw [declaration?_declare, if_neg hne]

end Directory

namespace Arena

/-! ## More records -/

/-- **An arena has grown**: the records that were there have kept their names, their owners and their methods. -/
structure Grown (a b : Arena) : Prop where
  classes_le : a.classes.length ≤ b.classes.length
  methods_le : a.methods.length ≤ b.methods.length
  nameOf : ∀ id < a.classes.length, b.nameOf id = a.nameOf id
  methodRecord : ∀ m < a.methods.length, b.methodRecord m = a.methodRecord m

theorem nameOf_eq (a : Arena) (id : ClassId) : a.nameOf id = ((a.classes.map (·.name))[id]?).getD "" := by
  rw [nameOf, record, List.getElem?_map]
  cases a.classes[id]? <;> rfl

namespace Grown

variable {a b : Arena} (h : a.Grown b)

include h

theorem view {r : MethodRecord} (hr : r.owner < a.classes.length) : b.view r = a.view r := by
  rw [Arena.view, h.nameOf _ hr, ← Arena.view]

theorem method (ha : a.Orderly) {m : MethodId} (hm : m < a.methods.length) : b.method m = a.method m := by
  have hview : b.view (a.methodRecord m) = a.view (a.methodRecord m) :=
    h.view (ha.methods.owner_lt _ (List.mem_of_getElem? (getElem?_methodRecord hm)))
  rw [Arena.method, h.methodRecord m hm]
  exact hview

theorem refOf (ha : a.Orderly) {m : MethodId} (hm : m < a.methods.length) : b.refOf m = a.refOf m := by
  rw [Arena.refOf, h.method ha hm, ← Arena.refOf]

theorem views (ha : a.Orderly) : a.methods.map b.view = a.methods.map a.view :=
  List.map_congr_left fun r hr => h.view (ha.methods.owner_lt r hr)

theorem viewFields (ha : a.Orderly) : a.fields.map b.viewField = a.fields.map a.viewField :=
  List.map_congr_left fun f hf => by rw [viewField, h.nameOf _ (ha.fields.owner_lt f hf), ← viewField]

/-- A class whose record and members are the same declares the same. -/
theorem declaration? (ha : a.Orderly) {id : ClassId} (hid : id < a.classes.length) (hrecord : b.record id = a.record id)
    (hfields : b.fields.filter (·.owner == id) = a.fields.filter (·.owner == id))
    (hmethods : b.methods.filter (·.owner == id) = a.methods.filter (·.owner == id)) :
    b.declaration? id = a.declaration? id := by
  have hsuper := ha.supertypes id _ (getElem?_record hid)
  have hparent : (a.record id).parent.map b.nameOf = (a.record id).parent.map a.nameOf :=
    Option.map_congr fun p hp => h.nameOf p (hsuper p (List.mem_append_left _ (Option.mem_toList.2 hp)))
  have hinterfaces : (a.record id).interfaces.map b.nameOf = (a.record id).interfaces.map a.nameOf :=
    List.map_congr_left fun i hi => h.nameOf i (hsuper i (List.mem_append_right _ hi))
  have hviews : (a.methods.filter (·.owner == id)).map b.view = (a.methods.filter (·.owner == id)).map a.view :=
    List.map_congr_left fun r hr => h.view (ha.methods.owner_lt r (List.mem_filter.1 hr).1)
  have hviewFields : (a.fields.filter (·.owner == id)).map b.viewField = (a.fields.filter (·.owner == id)).map a.viewField :=
    List.map_congr_left fun f hf => by
      rw [viewField, h.nameOf _ (ha.fields.owner_lt f (List.mem_filter.1 hf).1), ← viewField]
  unfold Arena.declaration?
  rw [hrecord, hfields, hmethods, hparent, hinterfaces, hviews, hviewFields]

end Grown

/-! ## Mentioning a class -/

theorem grown_mention (a : Arena) (name : String) : a.Grown (a.mention name) := by
  obtain ⟨new, byName, he⟩ := mention_eq a name
  rw [he]
  refine ⟨?_, Nat.le_refl _, fun id hid => ?_, fun _ _ => rfl⟩
  · rw [List.length_append]
    exact Nat.le_add_right _ _
  · rw [nameOf_eq, nameOf_eq, List.map_append, List.getElem?_append_left (by rwa [List.length_map])]

theorem record_mention {a : Arena} {id : ClassId} (hid : id < a.classes.length) (name : String) :
    (a.mention name).record id = a.record id := by
  obtain ⟨new, byName, he⟩ := mention_eq a name
  rw [he, record, List.getElem?_append_left hid, ← record]

theorem SameBooks.knows {a : Arena} {d : Directory} (h : SameBooks a d) (n : String) :
    d.knows n = (a.lookup n).isSome := by
  rw [Bool.eq_iff_iff, Directory.knows, ExtTreeMap.contains_iff_mem, h.known]

/-- **A class is mentioned in both.** -/
theorem SameBooks.mention {a : Arena} {d : Directory} (h : SameBooks a d) (name : String) :
    SameBooks (a.mention name) (d.mention name) := by
  have hgrown := grown_mention a name
  have hdeclared := Directory.declaration?_mention d name
  have hingested := Directory.ingested_mention d name
  cases hn : a.lookup name with
  | some id =>
    have hknown : d.knows name = true := by rw [h.knows, hn]; rfl
    rw [mention_of_known hn, Directory.mention, if_pos hknown]
    exact h
  | none =>
    have hunknown : ¬ d.knows name = true := by rw [h.knows, hn]; exact Bool.false_ne_true
    have hlookup : ∀ n, (a.mention name).lookup n = if n = name then some a.classes.length else a.lookup n := fun n => by
      rw [mention_of_unknown hn, lookup, getElem?_insert_eq, ← lookup]
    refine ⟨h.orderly.mention name, h.sound.mention name, ?_, fun n => ?_, fun n => ?_, ?_, ?_⟩
    · rw [Directory.mention, if_neg hunknown, mention_of_unknown hn, List.map_append, ← h.names]
      rfl
    · rw [ExtTreeMap.mem_iff_isSome_getElem?, Directory.getElem?_mention, hlookup]
      split
      · exact iff_of_true rfl rfl
      · rw [← ExtTreeMap.mem_iff_isSome_getElem?, h.known]
    · rw [hdeclared, h.declaration, hlookup]
      split
      · rename_i hname
        have hstub : (a.mention name).record a.classes.length = .stub name := by
          rw [mention_of_unknown hn]
          refine record_eq ?_
          exact getElem?_snoc.2 (.inr ⟨rfl, rfl⟩)
        rw [hname, hn, Option.bind_some, Arena.declaration?, hstub]
        rfl
      · cases hm : a.lookup n with
        | none => rfl
        | some id =>
          have hid := h.orderly.lookup_lt hm
          refine (hgrown.declaration? h.orderly hid (record_mention hid name) ?_ ?_).symm
          · rw [mention_of_unknown hn]
          · rw [mention_of_unknown hn]
    · have hfields : (d.mention name).fields = d.fields := Directory.inReadOrder_congr hingested hdeclared _
      have hsame : (a.mention name).fields = a.fields := by rw [mention_of_unknown hn]
      rw [hfields, h.fields, hsame, hgrown.viewFields h.orderly]
    · have hmethods : (d.mention name).methods = d.methods := Directory.inReadOrder_congr hingested hdeclared _
      have hsame : (a.mention name).methods = a.methods := by rw [mention_of_unknown hn]
      rw [hmethods, h.methods, hsame, hgrown.views h.orderly]

theorem SameBooks.mentions {a : Arena} {d : Directory} (h : SameBooks a d) (names : List String) :
    SameBooks (names.foldl Arena.mention a) (names.foldl Directory.mention d) :=
  List.foldl_rel (r := SameBooks) h fun name _ _ _ h => h.mention name

/-! ## Members of one class -/

section Members

variable {ρ : Type} {key : ρ → String} {owner : ρ → ClassId} {records members : List ρ} {id : ClassId}
  (hmembers : ∀ m ∈ members, owner m = id)

include hmembers

theorem filter_enterAll (hnone : ∀ m ∈ records, owner m ≠ id) :
    (enterAll key records members).records.filter (fun m => owner m == id) = firstByKey key members := by
  have hold : records.filter (fun m => owner m == id) = [] :=
    List.filter_eq_nil_iff.2 fun m hm he => hnone m hm (beq_iff_eq.1 he)
  rw [(enterAll_spec key records members).1, List.filter_append, hold, List.nil_append, List.filter_eq_self]
  exact fun m hm => beq_iff_eq.2 (hmembers m (mem_firstByKey hm))

theorem filter_enterAll_of_ne {j : ClassId} (hj : id ≠ j) :
    (enterAll key records members).records.filter (fun m => owner m == j) = records.filter (fun m => owner m == j) := by
  have hnew : (firstByKey key members).filter (fun m => owner m == j) = [] :=
    List.filter_eq_nil_iff.2 fun m hm he => hj ((hmembers m (mem_firstByKey hm)).symm.trans (beq_iff_eq.1 he))
  rw [(enterAll_spec key records members).1, List.filter_append, hnew, List.append_nil]

end Members

/-! ## Filling in a class -/

theorem Orderly.map_nameOf {a : Arena} (h : a.Orderly) {ids : List ClassId} {names : List String}
    (he : ids.map some = names.map a.lookup) : ids.map a.nameOf = names := by
  induction ids generalizing names with
  | nil =>
    cases names with
    | nil => rfl
    | cons n rest => cases he
  | cons id ids ih =>
    cases names with
    | nil => cases he
    | cons n rest =>
      obtain ⟨hid, hrest⟩ := List.cons.inj he
      obtain ⟨r, hr, hname⟩ := Option.map_eq_some_iff.1 ((h.byName n id).1 hid.symm)
      rw [List.map_cons, ih hrest, nameOf, record_eq hr, hname]

section Fill

variable {a : Arena} {c : ClassFile} {id : ClassId} {parent : Option ClassId} {interfaces : List ClassId}

theorem owner_fieldRecords (c : ClassFile) (id : ClassId) : ∀ f ∈ fieldRecords c id, f.owner = id := fun f hf => by
  obtain ⟨m, -, rfl⟩ := List.mem_map.1 hf
  rfl

theorem owner_methodRecords (c : ClassFile) (owned : Bool) (id : ClassId) : ∀ m ∈ methodRecords c owned id, m.owner = id :=
  fun f hf => by
    obtain ⟨m, -, rfl⟩ := List.mem_map.1 hf
    rfl

/-- The fields that are entered are those of the declaration. -/
theorem views_fieldRecords (hid : a.nameOf id = c.name) (owned : Bool) :
    (firstByKey FieldRecord.name (fieldRecords c id)).map a.viewField = (c.toDeclaration owned).fields := by
  have hmap : (fieldRecords c id).map a.viewField = c.fields.map fun f => ⟨c.memberRefOf f, f.access⟩ := by
    rw [fieldRecords, List.map_map]
    refine List.map_congr_left fun f _ => ?_
    rw [Function.comp_apply, viewField, FieldRecord.toField, hid, memberRefOf]
  have hkept : firstByKey (fun f : Field => f.ref.name) ((fieldRecords c id).map a.viewField) =
      (firstByKey FieldRecord.name (fieldRecords c id)).map a.viewField := firstByKey_map _ fun _ _ _ _ => Iff.rfl
  rw [← hkept, hmap]
  rfl

/-- The methods that are entered are those of the declaration. -/
theorem views_methodRecords (hid : a.nameOf id = c.name) (owned : Bool) :
    (firstByKey MethodRecord.key (methodRecords c owned id)).map a.view = (c.toDeclaration owned).methods := by
  have hmap : (methodRecords c owned id).map a.view = c.methods.map (c.methodOf owned c.lambdaKeys) := by
    rw [methodRecords, List.map_map]
    refine List.map_congr_left fun m _ => ?_
    rw [Function.comp_apply, view, MethodRecord.toMethod, MethodRecord.ofMethod, hid]
    rfl
  have hkept : firstByKey Method.key ((methodRecords c owned id).map a.view) =
      (firstByKey MethodRecord.key (methodRecords c owned id)).map a.view := firstByKey_map _ fun _ _ _ _ => Iff.rfl
  rw [← hkept, hmap]
  rfl

theorem nameOf_fill (owned : Bool) : (a.fill c owned id parent interfaces).nameOf = a.nameOf := funext fun j => by
  rw [nameOf_eq, names_fill, ← nameOf_eq]

theorem grown_fill (owned : Bool) : a.Grown (a.fill c owned id parent interfaces) := by
  have hmethods := (enterAll_spec MethodRecord.key a.methods (methodRecords c owned id)).1
  refine ⟨?_, ?_, fun j _ => congrFun (nameOf_fill owned) j, fun m hm => ?_⟩
  · rw [fill, List.length_modify]
  · rw [fill, hmethods, List.length_append]
    exact Nat.le_add_right _ _
  · rw [methodRecord, fill, hmethods, List.getElem?_append_left hm, ← methodRecord]

theorem record_fill_of_ne (owned : Bool) {j : ClassId} (hj : id ≠ j) :
    (a.fill c owned id parent interfaces).record j = a.record j := by
  rw [record, classes_fill_of_ne owned hj, ← record]

/-- **A class that is filled in declares what its class file says.** -/
theorem declaration?_fill_self (h : a.Orderly) (hn : a.Numbered c id parent interfaces)
    (hread : ∀ r, a.classes[id]? = some r → r.read = false) (owned : Bool) :
    (a.fill c owned id parent interfaces).declaration? id = some (c.toDeclaration owned) := by
  obtain ⟨r, hr, hname⟩ := Option.map_eq_some_iff.1 ((h.byName _ _).1 hn.name)
  have hstub : r.entered = .stub r.name := h.unread id r hr (hread r hr)
  have hparent : parent.map a.nameOf = c.superclass := by
    have hlist := congrArg List.head? (h.map_nameOf hn.superclass)
    rwa [← Option.toList_map, Option.head?_toList, Option.head?_toList] at hlist
  have hinterfaces : interfaces.map a.nameOf = c.interfaces := h.map_nameOf hn.interfaces
  have hid : (a.fill c owned id parent interfaces).nameOf id = c.name := by rw [nameOf_fill, nameOf, record_eq hr, hname]
  have hfields : (a.fill c owned id parent interfaces).fields.filter (·.owner == id) = firstByKey _ (fieldRecords c id) :=
    filter_enterAll (owner_fieldRecords c id) fun f hf => h.fields.owner_ne hr (congrArg ClassRecord.fields hstub :) hf
  have hmethods : (a.fill c owned id parent interfaces).methods.filter (·.owner == id) =
      firstByKey _ (methodRecords c owned id) :=
    filter_enterAll (owner_methodRecords c owned id) fun m hm =>
      h.methods.owner_ne hr (congrArg ClassRecord.methods hstub :) hm
  rw [declaration?, record_eq (classes_fill_self owned hr), if_pos rfl, hfields, hmethods,
    views_fieldRecords hid owned, views_methodRecords hid, nameOf_fill, hparent, hinterfaces]
  rfl

/-- Filling in a class leaves what the others declare. -/
theorem declaration?_fill_of_ne (h : a.Orderly) (owned : Bool) {j : ClassId} (hj : id ≠ j) (hlt : j < a.classes.length) :
    (a.fill c owned id parent interfaces).declaration? j = a.declaration? j :=
  (grown_fill owned).declaration? h hlt (record_fill_of_ne owned hj)
    (filter_enterAll_of_ne (owner_fieldRecords c id) hj) (filter_enterAll_of_ne (owner_methodRecords c owned id) hj)

/-- **A class is filled in as it is declared.** -/
theorem SameBooks.fill {d : Directory} (h : SameBooks a d) (hn : a.Numbered c id parent interfaces)
    (hread : ∀ r, a.classes[id]? = some r → r.read = false) (owned : Bool)
    (hsound : (d.declare c.name (c.toDeclaration owned)).Sound) :
    SameBooks (a.fill c owned id parent interfaces) (d.declare c.name (c.toDeclaration owned)) := by
  have hgrown : a.Grown (a.fill c owned id parent interfaces) := grown_fill owned
  have hfields := (enterAll_spec FieldRecord.name a.fields (fieldRecords c id)).1
  have hmethods := (enterAll_spec MethodRecord.key a.methods (methodRecords c owned id)).1
  have hself := declaration?_fill_self h.orderly hn hread owned
  have hlookup : (a.fill c owned id parent interfaces).lookup = a.lookup := rfl
  have hlt := h.orderly.lookup_lt hn.name
  have hid : (a.fill c owned id parent interfaces).nameOf id = c.name := by rw [nameOf_fill, h.nameOf_lookup hn.name]
  have hnew : c.name ∉ d.ingested := fun hmem => by
    have hwas := (h.sound.mem_ingested _).1 hmem
    rw [← h.nameOf_lookup hn.name, h.wasRead hlt, hread _ (getElem?_record hlt)] at hwas
    cases hwas
  have hnamed : ∀ n, n = c.name ↔ a.lookup n = some id := fun n =>
    ⟨fun he => he ▸ hn.name, fun he => (h.nameOf_lookup he).symm.trans (h.nameOf_lookup hn.name)⟩
  have hdeclared : ∀ n, (d.declare c.name (c.toDeclaration owned)).declaration? n =
      if n = c.name then some (c.toDeclaration owned) else d.declaration? n :=
    Directory.declaration?_declare d c.name _
  refine ⟨h.orderly.fill hn hread owned, hsound, ?_, fun n => ?_, fun n => ?_, ?_, ?_⟩
  · rw [names_fill]
    exact h.names
  · rw [Directory.declare, mem_insert_iff, h.known, hnamed]
    refine or_iff_right_of_imp fun he => ?_
    rw [he]
    rfl
  · rw [hdeclared, hlookup, h.declaration]
    split
    · rename_i hname
      rw [hname, hn.name, Option.bind_some, hself]
    · rename_i hname
      cases hj : a.lookup n with
      | none => rfl
      | some j =>
        have hne : id ≠ j := fun he => hname ((hnamed n).2 (he ▸ hj))
        exact (declaration?_fill_of_ne h.orderly owned hne (h.orderly.lookup_lt hj)).symm
  · have hread : (d.declare c.name (c.toDeclaration owned)).fields = d.fields ++ (c.toDeclaration owned).fields :=
      Directory.inReadOrder_declare hnew _ _
    rw [hread, h.fields, ← views_fieldRecords hid owned, ← hgrown.viewFields h.orderly, ← List.map_append, ← hfields]
    rfl
  · have hread : (d.declare c.name (c.toDeclaration owned)).methods = d.methods ++ (c.toDeclaration owned).methods :=
      Directory.inReadOrder_declare hnew _ _
    rw [hread, h.methods, ← views_methodRecords hid owned, ← hgrown.views h.orderly, ← List.map_append, ← hmethods]
    rfl

theorem SameBooks.refusal? {d : Directory} (h : SameBooks a d) (c : ClassFile) : d.refusal? c = a.refusal? c := by
  have hread : d.wasRead c.name = (a.lookup c.name).any fun id => (a.record id).read := by
    cases hn : a.lookup c.name with
    | none =>
      rw [Directory.wasRead, h.declaration, hn]
      rfl
    | some id =>
      rw [Option.any_some, ← h.wasRead (h.orderly.lookup_lt hn), h.nameOf_lookup hn]
  rw [Directory.refusal?, hread, ← Arena.refusal?]

/-- **A class is taken in by both.** -/
theorem SameBooks.takeIn {d : Directory} (h : SameBooks a d) (c : ClassFile) (owned : Bool) :
    SameBooks (a.takeIn c owned) (d.takeIn c owned) := by
  cases hr : a.refusal? c with
  | some fault =>
    rw [takeIn_of_refused owned hr, Directory.takeIn_of_refused owned ((h.refusal? c).trans hr)]
    exact h
  | none =>
    obtain ⟨id, parent, interfaces, hn, he⟩ := takeIn_of_accepted hr owned
    have hsound := h.sound.takeIn c owned
    rw [Directory.takeIn_of_accepted owned ((h.refusal? c).trans hr)] at hsound ⊢
    rw [he]
    exact (h.mentions (mentionedBy c)).fill hn (fun r hmem => h.orderly.unread_of_numbered hr hn.name hmem) owned hsound

end Fill

end Arena
end RenameAudit
