import RenameAudit.Proofs.Arena.Runs
/-!
# Proofs.Arena.Consistent — the parts of an arena agree

Every call restores all parts of an arena together: the three lists, the tables of each class, both maps of names and
both maps of bridges (`consistent_after`).  Once a class has been read, no call changes what is entered of it, and all
numbers stay (`lasting_after`).
-/
namespace RenameAudit

open Std ClassFile

namespace Arena

/-! ## Bridges after any calls -/

theorem Bridged.of_entered {a b : Arena} (h : a.Bridged) (he : b.entered = a.entered) : b.Bridged := by
  have htargets : b.targets = a.targets := (congrArg Arena.targets he :)
  have hsources : b.sources = a.sources := (congrArg Arena.sources he :)
  exact h.of_eq htargets hsources (length_methods he).ge

theorem mention_eq (a : Arena) (name : String) :
    ∃ new byName, a.mention name = { a with classes := a.classes ++ new, byName } := by
  cases hn : a.lookup name with
  | some id => exact ⟨[], a.byName, by rw [mention_of_known hn, List.append_nil]⟩
  | none => exact ⟨_, _, mention_of_unknown hn⟩

theorem mentions_eq (names : List String) (a : Arena) :
    ∃ new byName, names.foldl mention a = { a with classes := a.classes ++ new, byName } := by
  induction names generalizing a with
  | nil => exact ⟨[], a.byName, by rw [List.append_nil]; rfl⟩
  | cons name rest ih =>
    obtain ⟨new, byName, hone⟩ := mention_eq a name
    obtain ⟨more, byName', hrest⟩ := ih (a.mention name)
    exact ⟨new ++ more, byName', by rw [List.foldl_cons, hrest, hone, List.append_assoc]⟩

theorem Bridged.takeIn {a : Arena} (h : a.Bridged) (c : ClassFile) (owned : Bool) : (a.takeIn c owned).Bridged := by
  cases hr : a.refusal? c with
  | some fault => rwa [takeIn_of_refused owned hr]
  | none =>
    obtain ⟨id, parent, interfaces, -, he⟩ := takeIn_of_accepted hr owned
    obtain ⟨new, byName, hm⟩ := mentions_eq (mentionedBy c) a
    have hrecords := (enterAll_spec MethodRecord.key a.methods (methodRecords c owned id)).1
    rw [he, hm]
    refine h.of_eq rfl rfl ?_
    rw [fill, hrecords, List.length_append]
    exact Nat.le_add_right _ _

theorem Bridged.apply {a : Arena} (ha : a.Orderly) (h : a.Bridged) (step : Directory.Step) : (a.apply step).Bridged := by
  cases step with
  | takeIn c owned => exact h.takeIn c owned
  | mention name =>
    obtain ⟨new, byName, hm⟩ := mention_eq a name
    rw [Arena.apply, hm]
    exact h.of_eq rfl rfl (Nat.le_refl _)
  | resolve =>
    exact (bridged_recordBridges (ha.of_entered (entered_dropKept a))).of_entered (entered_resolve a)
  | keepStack name =>
    rw [Arena.apply]
    cases a.lookup name with
    | none => exact h
    | some id => exact h.of_entered (entered_keepStack a id)
  | keepRoots m =>
    rw [Arena.apply]
    cases a.numberOf? m with
    | none => exact h
    | some i => exact h.of_entered (entered_keepRoots a i)

theorem bridged_empty : empty.Bridged where
  count b t := by
    rw [bridgesTo, bridgedBy?, empty, ExtTreeMap.getD_empty, ExtTreeMap.getElem?_empty]
    rfl
  methods b t ht := by
    rw [bridgedBy?, empty, ExtTreeMap.getElem?_empty] at ht
    cases ht

/-- **Both maps of bridges agree after any calls.** -/
theorem bridged_after (steps : List Directory.Step) : (after steps).Bridged := by
  have hrun := List.foldlRecOn (motive := fun a : Arena => a.Orderly ∧ a.Bridged) steps Arena.apply
    ⟨orderly_empty, bridged_empty⟩ fun a h step _ => ⟨h.1.apply step, h.2.apply h.1 step⟩
  exact hrun.2

/-! ## What agrees -/

/-- **The parts of an arena agree.**  A class is found under its own name and no other; one that was not read has nothing;
each member stands in the table of its owner under its own key, and in no other place; the classes under audit are
listed once each, by name, and all have been read; only they have bodies; and a bridge stands once among the bridges to
what it forwards to, which is another method, and among no others. -/
structure Consistent (a : Arena) : Prop where
  lookup : ∀ (n : String) (id : ClassId), a.lookup n = some id ↔ (a.classes[id]?).map (·.name) = some n
  unread : ∀ r ∈ a.classes, r.read = false →
    r.parent = none ∧ r.interfaces = [] ∧ r.fields = ∅ ∧ r.methods = ∅ ∧ r.access = 0 ∧ r.owned = false
  supertypes : ∀ r ∈ a.classes, ∀ s ∈ r.supertypes, s < a.classes.length
  methodTables : ∀ (i : MethodId) (m : MethodRecord), a.methods[i]? = some m → m.owner < a.classes.length ∧
    ∀ (id : ClassId) (r : ClassRecord), a.classes[id]? = some r → ∀ key,
      r.methods[key]? = some i ↔ id = m.owner ∧ key = m.key
  methodIds : ∀ r ∈ a.classes, ∀ (key : String) (i : MethodId), r.methods[key]? = some i → i < a.methods.length
  fieldTables : ∀ (i : FieldId) (f : FieldRecord), a.fields[i]? = some f → f.owner < a.classes.length ∧
    ∀ (id : ClassId) (r : ClassRecord), a.classes[id]? = some r → ∀ key,
      r.fields[key]? = some i ↔ id = f.owner ∧ key = f.name
  fieldIds : ∀ r ∈ a.classes, ∀ (key : String) (i : FieldId), r.fields[key]? = some i → i < a.fields.length
  mem_owned : ∀ id, id ∈ a.ownedIds ↔ ∃ r, a.classes[id]? = some r ∧ r.owned = true
  owned_read : ∀ r ∈ a.classes, r.owned = true → r.read = true
  owned_ascending : a.ownedIds.Pairwise fun x y => a.nameOf x < a.nameOf y
  bodies : ∀ m ∈ a.methods, m.code.isSome = true → (a.record m.owner).owned = true
  bridges : ∀ b t, (a.bridgesTo t).count b = if a.bridgedBy? b = some t then 1 else 0
  bridges_ne : ∀ b t, a.bridgedBy? b = some t → b ≠ t

section Tables

variable {ρ : Type} {classes : List ClassRecord} {records : List ρ} {table : ClassRecord → ExtTreeMap String Nat}
  {owner : ρ → ClassId} {key : ρ → String} (h : Tabled classes records table owner key)

include h

/-- **A member stands in the table of its owner under its own key**, and in no other place. -/
theorem Tabled.place {i : Nat} {m : ρ} (hm : records[i]? = some m) :
    owner m < classes.length ∧ ∀ (id : ClassId) (r : ClassRecord), classes[id]? = some r → ∀ k,
      (table r)[k]? = some i ↔ id = owner m ∧ k = key m := by
  refine ⟨h.owner_lt m (List.mem_of_getElem? hm), fun id r hr k => ?_⟩
  rw [h.table id r hr]
  constructor
  · rintro ⟨m', hm', rfl, rfl⟩
    obtain rfl := Option.some.inj (hm.symm.trans hm')
    exact ⟨rfl, rfl⟩
  · rintro ⟨rfl, rfl⟩
    exact ⟨m, hm, rfl, rfl⟩

theorem Tabled.lt_length {r : ClassRecord} (hr : r ∈ classes) {k : String} {i : Nat} (hi : (table r)[k]? = some i) :
    i < records.length := by
  obtain ⟨id, hid⟩ := List.mem_iff_getElem?.1 hr
  obtain ⟨m, hm, -⟩ := (h.table id r hid k i).1 hi
  exact (List.getElem?_eq_some_iff.1 hm).1

end Tables

namespace Orderly

variable {a : Arena} (h : a.Orderly)

include h

theorem mem_ownedIds {id : ClassId} : id ∈ a.ownedIds ↔ ∃ r, a.classes[id]? = some r ∧ r.owned = true := by
  rw [ownedIds, List.mem_map]
  constructor
  · rintro ⟨⟨n, j⟩, hj, rfl⟩
    obtain ⟨r, hr, -, hown⟩ := (h.owned n j).1 (ExtTreeMap.mem_toList_iff_getElem?_eq_some.1 hj)
    exact ⟨r, hr, hown⟩
  · rintro ⟨r, hr, hown⟩
    exact ⟨(r.name, id), ExtTreeMap.mem_toList_iff_getElem?_eq_some.2 ((h.owned _ _).2 ⟨r, hr, rfl, hown⟩), rfl⟩

/-- The entries of the map of classes under audit have the names of their classes. -/
theorem nameOf_owned {n : String} {id : ClassId} (hn : (n, id) ∈ a.owned.toList) : a.nameOf id = n := by
  obtain ⟨r, hr, hname, -⟩ := (h.owned n id).1 (ExtTreeMap.mem_toList_iff_getElem?_eq_some.1 hn)
  rw [nameOf, record_eq hr, hname]

theorem names_owned : a.ownedIds.map a.nameOf = a.owned.keys := by
  rw [ownedIds, List.map_map, ← ExtTreeMap.map_fst_toList_eq_keys]
  exact List.map_congr_left fun p hp => h.nameOf_owned hp

theorem ascending_owned : a.ownedIds.Pairwise fun x y => a.nameOf x < a.nameOf y := by
  have hkeys : a.owned.keys.Pairwise (· < ·) := ExtTreeMap.ordered_keys.imp compare_string_eq_lt.1
  rw [← h.names_owned] at hkeys
  exact List.pairwise_map.1 hkeys

theorem read_of_owned {r : ClassRecord} (hr : r ∈ a.classes) (hown : r.owned = true) : r.read = true := by
  obtain ⟨id, hid⟩ := List.mem_iff_getElem?.1 hr
  cases hread : r.read with
  | true => rfl
  | false =>
    have hnot : r.owned = false := (congrArg ClassRecord.owned (h.unread id r hid hread) :)
    rw [hnot] at hown
    cases hown

/-- **In an orderly arena whose bridges agree all parts agree.** -/
theorem consistent (hb : a.Bridged) : a.Consistent where
  lookup := h.byName
  unread r hr hread := by
    obtain ⟨id, hid⟩ := List.mem_iff_getElem?.1 hr
    have hstub := h.unread id r hid hread
    exact ⟨(congrArg ClassRecord.parent hstub :), (congrArg ClassRecord.interfaces hstub :),
      (congrArg ClassRecord.fields hstub :), (congrArg ClassRecord.methods hstub :), (congrArg ClassRecord.access hstub :),
      (congrArg ClassRecord.owned hstub :)⟩
  supertypes r hr := by
    obtain ⟨id, hid⟩ := List.mem_iff_getElem?.1 hr
    exact h.supertypes id r hid
  methodTables _ _ hm := h.methods.place hm
  methodIds _ hr _ _ hi := h.methods.lt_length hr hi
  fieldTables _ _ hf := h.fields.place hf
  fieldIds _ hr _ _ hi := h.fields.lt_length hr hi
  mem_owned _ := h.mem_ownedIds
  owned_read _ hr hown := h.read_of_owned hr hown
  owned_ascending := h.ascending_owned
  bodies m hm hcode := by
    obtain ⟨r, hr⟩ : ∃ r, a.classes[m.owner]? = some r := ⟨_, List.getElem?_eq_getElem (h.methods.owner_lt m hm)⟩
    rw [record_eq hr]
    cases hown : r.owned with
    | true => rfl
    | false =>
      rw [h.bodies m hm r hr hown] at hcode
      cases hcode
  bridges := hb.count
  bridges_ne _ _ ht := (hb.methods _ _ ht).2.2

end Orderly

/-- **All parts of an arena agree after any calls.** -/
theorem consistent_after (steps : List Directory.Step) : (after steps).Consistent :=
  (orderly_after steps).consistent (bridged_after steps)

/-! ## What lasts -/

/-- **What is entered in an arena lasts**: numbers stay, and of a class that has been read, and of its members, only the
marks and lists of resolutions change. -/
structure Lasting (a b : Arena) : Prop where
  lookup : ∀ n id, a.lookup n = some id → b.lookup n = some id
  classes : ∀ (id : ClassId) (r : ClassRecord), a.classes[id]? = some r → r.read = true →
    ∃ state stack, b.classes[id]? = some { r with state, stack }
  fields : a.fields <+: b.fields
  methods : ∀ (m : MethodId) (r : MethodRecord), a.methods[m]? = some r →
    ∃ overrides roots, b.methods[m]? = some { r with overrides, roots }

namespace Lasting

variable {a b c : Arena}

theorem refl (a : Arena) : a.Lasting a :=
  ⟨fun _ _ h => h, fun _ r hr _ => ⟨r.state, r.stack, hr⟩, List.prefix_rfl, fun _ r hr => ⟨r.overrides, r.roots, hr⟩⟩

theorem trans (h : a.Lasting b) (h' : b.Lasting c) : a.Lasting c := by
  refine ⟨fun n id hn => h'.lookup n id (h.lookup n id hn), fun id r hr hread => ?_, h.fields.trans h'.fields, fun m r hr => ?_⟩
  · obtain ⟨_, _, hr⟩ := h.classes id r hr hread
    have hlast := h'.classes id _ hr hread
    exact hlast
  · obtain ⟨_, _, hr⟩ := h.methods m r hr
    have hlast := h'.methods m _ hr
    exact hlast

/-- A resolution, and asking for lists, leave what is entered as it is. -/
theorem of_entered (he : b.entered = a.entered) : a.Lasting b := by
  have hbyName : b.byName = a.byName := (congrArg Arena.byName he :)
  have hfields : b.fields = a.fields := (congrArg Arena.fields he :)
  refine ⟨fun n id hn => ?_, fun id r hr _ => class_of_entered he.symm hr, hfields ▸ List.prefix_rfl,
    fun m r hr => method_of_entered he.symm hr⟩
  rwa [Arena.lookup, hbyName, ← Arena.lookup]

theorem mention (a : Arena) (name : String) : a.Lasting (a.mention name) := by
  obtain ⟨new, byName, he⟩ := mention_eq a name
  refine ⟨fun n id hn => lookup_mention hn name, fun id r hr _ => ⟨r.state, r.stack, ?_⟩, ?_, fun m r hr =>
    ⟨r.overrides, r.roots, ?_⟩⟩
  · rw [he, List.getElem?_append_left (List.getElem?_eq_some_iff.1 hr).1]
    exact hr
  · have hfields : (a.mention name).fields = a.fields := by rw [he]
    exact hfields ▸ List.prefix_rfl
  · rw [he]
    exact hr

theorem mentions (a : Arena) (names : List String) : a.Lasting (names.foldl Arena.mention a) :=
  List.foldlRecOn (motive := fun b : Arena => a.Lasting b) _ _ (.refl a) fun b hb name _ => hb.trans (.mention b name)

/-- **To fill in a class that was not read leaves all that were.** -/
theorem fill {cf : ClassFile} {id : ClassId} {parent : Option ClassId} {interfaces : List ClassId}
    (hread : ∀ r, a.classes[id]? = some r → r.read = false) (owned : Bool) :
    a.Lasting (a.fill cf owned id parent interfaces) := by
  have hfields := (enterAll_spec FieldRecord.name a.fields (fieldRecords cf id)).1
  have hmethods := (enterAll_spec MethodRecord.key a.methods (methodRecords cf owned id)).1
  refine ⟨fun _ _ hn => hn, fun j r hr hrr => ⟨r.state, r.stack, ?_⟩, ?_, fun m r hr => ⟨r.overrides, r.roots, ?_⟩⟩
  · have hj : id ≠ j := by
      rintro rfl
      rw [hread r hr] at hrr
      cases hrr
    rw [classes_fill_of_ne owned hj]
    exact hr
  · rw [Arena.fill, hfields]
    exact List.prefix_append _ _
  · rw [Arena.fill, hmethods, List.getElem?_append_left (List.getElem?_eq_some_iff.1 hr).1]
    exact hr

end Lasting

/-- **Every call leaves what is entered as it is.** -/
theorem Orderly.lasting_apply {a : Arena} (h : a.Orderly) (step : Directory.Step) : a.Lasting (a.apply step) := by
  cases step with
  | takeIn c owned =>
    cases hr : a.refusal? c with
    | some fault =>
      rw [Arena.apply, takeIn_of_refused owned hr]
      exact .refl a
    | none =>
      obtain ⟨id, parent, interfaces, hn, he⟩ := takeIn_of_accepted hr owned
      rw [Arena.apply, he]
      exact (Lasting.mentions a _).trans (.fill (fun r hmem => h.unread_of_numbered hr hn.name hmem) owned)
  | mention name => exact .mention a name
  | resolve =>
    obtain ⟨targets, sources, he⟩ := recordBridges_eq a.dropKept
    have hprepare : a.Lasting a.prepare := by
      have hdropped : a.Lasting a.dropKept := .of_entered (entered_dropKept a)
      rw [Arena.prepare, he]
      exact ⟨hdropped.lookup, hdropped.classes, hdropped.fields, hdropped.methods⟩
    exact hprepare.trans (.of_entered (entered_resolve a))
  | keepStack name =>
    rw [Arena.apply]
    cases a.lookup name with
    | none => exact .refl a
    | some id => exact .of_entered (entered_keepStack a id)
  | keepRoots m =>
    rw [Arena.apply]
    cases a.numberOf? m with
    | none => exact .refl a
    | some i => exact .of_entered (entered_keepRoots a i)

/-- **What is entered lasts through all further calls.** -/
theorem lasting_after (steps more : List Directory.Step) : (after steps).Lasting (after (steps ++ more)) := by
  have happend : after (steps ++ more) = more.foldl Arena.apply (after steps) := List.foldl_append
  rw [happend]
  have hrun := List.foldlRecOn (motive := fun b : Arena => b.Orderly ∧ (after steps).Lasting b) more Arena.apply
    ⟨orderly_after steps, .refl _⟩ fun b hb step _ => ⟨hb.1.apply step, hb.2.trans (hb.1.lasting_apply step)⟩
  exact hrun.2

end Arena
end RenameAudit
