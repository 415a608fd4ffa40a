import RenameAudit.Hierarchy.ArenaResolution
import RenameAudit.Proofs.Hierarchy.Reading
import RenameAudit.Proofs.Lists.Places
/-!
# Proofs.Arena.Books — what is entered in an arena

What is entered of a class or a member is what its class file says of it; the marks and lists that a resolution writes are
not.  `Orderly` says that what is entered agrees: classes are found by their names, a class that was not read has nothing,
each member stands in the table of its owner under its own key and in no other place, and the classes under audit are
listed.  Mentioning a class keeps that (`Orderly.mention`), and so does filling one in (`Orderly.fill`).
-/
namespace RenameAudit

open Std ClassFile

/-! ## What is entered -/

/-- What is entered of a class. -/
def ClassRecord.entered (r : ClassRecord) : ClassRecord :=
  { r with state := .stub, stack := none }

/-- What is entered of a method. -/
def MethodRecord.entered (r : MethodRecord) : MethodRecord :=
  { r with overrides := ∅, roots := none }

namespace Arena

/-- An arena with what is entered of its classes and methods. -/
def entered (a : Arena) : Arena :=
  { a with classes := a.classes.map ClassRecord.entered, methods := a.methods.map MethodRecord.entered }

/-! ## Entering members -/

section Entering

variable {ρ : Type} (key : ρ → String)

/-- **A table has the members from a place on**, by their keys. -/
def Indexes (from_ : Nat) (table : ExtTreeMap String Nat) (records : List ρ) : Prop :=
  ∀ k i, table[k]? = some i ↔ from_ ≤ i ∧ ∃ r, records[i]? = some r ∧ key r = k

/-- **Members are entered once for each key**, after those that were there, and the table has the entered ones. -/
theorem enterAll_spec (records members : List ρ) :
    (enterAll key records members).records = records ++ firstByKey key members ∧
      Indexes key records.length (enterAll key records members).table (enterAll key records members).records := by
  unfold enterAll firstByKey
  refine List.foldl_rel (r := fun (s : Entering ρ) kept =>
    s.records = records ++ kept ∧ Indexes key records.length s.table s.records) ?_ ?_
  · refine ⟨(List.append_nil _).symm, fun k i => ?_⟩
    grind
  · rintro r - s kept ⟨hrecords, htable⟩
    have hseen : s.table.contains (key r) = true ↔ ∃ b ∈ kept, key b = key r := by
      rw [ExtTreeMap.contains_iff_mem, ExtTreeMap.mem_iff_isSome_getElem?, Option.isSome_iff_exists,
        ← exists_getElem?_append (l := records), ← hrecords]
      exact exists_congr fun i => htable _ i
    have hany : (kept.any fun b => key b == key r) = s.table.contains (key r) := by
      rw [Bool.eq_iff_iff, hseen, List.any_eq_true]
      simp only [beq_iff_eq]
    unfold Entering.enter
    rw [hany]
    split
    · exact ⟨hrecords, htable⟩
    · rename_i hnew
      refine ⟨by rw [hrecords, List.append_assoc], fun k i => ?_⟩
      have hfrom : records.length ≤ s.records.length := by
        rw [hrecords, List.length_append]
        exact Nat.le_add_right _ _
      have hfree : s.table[key r]? = none := getElem?_eq_none_iff.2 fun h => hnew (ExtTreeMap.contains_iff_mem.2 h)
      dsimp only
      rw [getElem?_insert_eq]
      simp only [getElem?_snoc]
      split
      · rename_i hk
        have hnone := htable k i
        rw [hk, hfree] at hnone
        subst hk
        grind
      · have hold := htable k i
        grind

end Entering

/-! ## Tables -/

/-- **Each member stands in the table of its owner**, under its own key, and in no other place. -/
structure Tabled {ρ : Type} (classes : List ClassRecord) (records : List ρ)
    (table : ClassRecord → ExtTreeMap String Nat) (owner : ρ → ClassId) (key : ρ → String) : Prop where
  owner_lt : ∀ m ∈ records, owner m < classes.length
  table : ∀ id r, classes[id]? = some r → ∀ k i,
    (table r)[k]? = some i ↔ ∃ m, records[i]? = some m ∧ owner m = id ∧ key m = k

namespace Tabled

variable {ρ : Type} {classes : List ClassRecord} {records : List ρ} {table : ClassRecord → ExtTreeMap String Nat}
  {owner : ρ → ClassId} {key : ρ → String} (h : Tabled classes records table owner key)

include h

/-- A class with an empty table owns no members. -/
theorem owner_ne {id : ClassId} {r : ClassRecord} (hr : classes[id]? = some r) (hnone : table r = ∅) {m : ρ}
    (hm : m ∈ records) : owner m ≠ id := by
  intro howner
  obtain ⟨i, hi⟩ := List.mem_iff_getElem?.1 hm
  have hentry := (h.table id r hr (key m) i).2 ⟨m, hi, howner, rfl⟩
  rw [hnone, ExtTreeMap.getElem?_empty] at hentry
  cases hentry

theorem snoc {r : ClassRecord} (hnone : table r = ∅) : Tabled (classes ++ [r]) records table owner key where
  owner_lt m hm := by
    rw [List.length_append]
    exact Nat.lt_add_right _ (h.owner_lt m hm)
  table id r' hr' k i := by
    rcases getElem?_snoc.1 hr' with hr' | ⟨rfl, rfl⟩
    · exact h.table id r' hr' k i
    · rw [hnone, ExtTreeMap.getElem?_empty]
      refine iff_of_false (fun h => by cases h) ?_
      rintro ⟨m, hm, howner, -⟩
      exact absurd (h.owner_lt m (List.mem_of_getElem? hm)) (howner ▸ Nat.lt_irrefl _)

/-- **Members are entered for a class that has none.** -/
theorem enter {id : ClassId} {r : ClassRecord} (hr : classes[id]? = some r) (hnone : table r = ∅) {members : List ρ}
    (hmembers : ∀ m ∈ members, owner m = id) {f : ClassRecord → ClassRecord}
    (hf : table (f r) = (enterAll key records members).table) :
    Tabled (classes.modify id f) (enterAll key records members).records table owner key := by
  obtain ⟨hrecords, htable⟩ := enterAll_spec key records members
  have hnew : ∀ m ∈ firstByKey key members, owner m = id := fun m hm => hmembers m (mem_firstByKey hm)
  have hid : id < classes.length := (List.getElem?_eq_some_iff.1 hr).1
  refine ⟨fun m hm => ?_, fun j r' hr' k i => ?_⟩
  · rw [hrecords, List.mem_append] at hm
    rw [List.length_modify]
    exact hm.elim (h.owner_lt m) fun hm => hnew m hm ▸ hid
  · by_cases hj : id = j
    · subst hj
      rw [List.getElem?_modify_eq, hr] at hr'
      obtain rfl := Option.some.inj hr'
      rw [hf, htable]
      constructor
      · rintro ⟨hi, m, hm, hkey⟩
        refine ⟨m, hm, hnew m ?_, hkey⟩
        rw [hrecords, List.getElem?_append_right hi] at hm
        exact List.mem_of_getElem? hm
      · rintro ⟨m, hm, howner, hkey⟩
        refine ⟨Nat.le_of_not_lt fun hi => ?_, m, hm, hkey⟩
        rw [hrecords, List.getElem?_append_left hi] at hm
        exact h.owner_ne hr hnone (List.mem_of_getElem? hm) howner
    · rw [List.getElem?_modify_ne _ _ hj] at hr'
      rw [h.table j r' hr', hrecords]
      refine exists_congr fun m => ⟨fun ⟨hm, hrest⟩ => ⟨?_, hrest⟩, fun ⟨hm, howner, hkey⟩ => ⟨?_, howner, hkey⟩⟩
      · rwa [List.getElem?_append_left (List.getElem?_eq_some_iff.1 hm).1]
      · -- a new member belongs to the class that is read
        by_cases hi : i < records.length
        · rwa [List.getElem?_append_left hi] at hm
        · rw [List.getElem?_append_right (Nat.le_of_not_lt hi)] at hm
          exact absurd ((hnew m (List.mem_of_getElem? hm)).symm.trans howner) hj

end Tabled

/-! ## The invariant -/

/-- **What is entered in an arena agrees.** -/
structure Orderly (a : Arena) : Prop where
  byName : ∀ (n : String) (id : ClassId), a.lookup n = some id ↔ (a.classes[id]?).map (·.name) = some n
  unread : ∀ (id : ClassId) (r : ClassRecord), a.classes[id]? = some r → r.read = false → r.entered = .stub r.name
  supertypes : ∀ (id : ClassId) (r : ClassRecord), a.classes[id]? = some r → ∀ s ∈ r.supertypes, s < a.classes.length
  fields : Tabled a.classes a.fields ClassRecord.fields FieldRecord.owner FieldRecord.name
  methods : Tabled a.classes a.methods ClassRecord.methods MethodRecord.owner MethodRecord.key
  owned : ∀ (n : String) (id : ClassId),
    a.owned[n]? = some id ↔ ∃ r, a.classes[id]? = some r ∧ r.name = n ∧ r.owned = true
  bodies : ∀ m ∈ a.methods, ∀ r, a.classes[m.owner]? = some r → r.owned = false → m.code = none

theorem orderly_empty : empty.Orderly where
  byName n id := by
    rw [lookup, empty, ExtTreeMap.getElem?_empty]
    exact iff_of_false (fun h => by cases h) fun h => by cases h
  unread id r hr := by cases hr
  supertypes id r hr := by cases hr
  fields := ⟨fun m hm => absurd hm List.not_mem_nil, fun id r hr => by cases hr⟩
  methods := ⟨fun m hm => absurd hm List.not_mem_nil, fun id r hr => by cases hr⟩
  owned n id := by
    rw [empty, ExtTreeMap.getElem?_empty]
    exact iff_of_false (fun h => by cases h) fun ⟨r, hr, _⟩ => by cases hr
  bodies m hm := absurd hm List.not_mem_nil

namespace Orderly

variable {a : Arena} (h : a.Orderly)

include h

theorem lookup_lt {n : String} {id : ClassId} (hn : a.lookup n = some id) : id < a.classes.length := by
  obtain ⟨r, hr, -⟩ := Option.map_eq_some_iff.1 ((h.byName n id).1 hn)
  exact (List.getElem?_eq_some_iff.1 hr).1

end Orderly

/-! ## Mentioning classes -/

/-- The arena with a class mentioned. -/
def mention (a : Arena) (name : String) : Arena :=
  (a.getOrCreate name).2

theorem mention_of_known {a : Arena} {name : String} {id : ClassId} (h : a.lookup name = some id) :
    a.mention name = a := by
  rw [mention, getOrCreate, h]

theorem mention_of_unknown {a : Arena} {name : String} (h : a.lookup name = none) :
    a.mention name =
      { a with classes := a.classes ++ [.stub name], byName := a.byName.insert name a.classes.length } := by
  rw [mention, getOrCreate, h]

theorem lookup_getOrCreate (a : Arena) (name : String) : (a.mention name).lookup name = some (a.getOrCreate name).1 := by
  cases hn : a.lookup name with
  | some id => rw [mention_of_known hn, hn, getOrCreate, hn]
  | none => rw [mention_of_unknown hn, getOrCreate, hn, lookup, getElem?_insert_eq, if_pos rfl]

theorem lookup_mention {a : Arena} {n : String} {id : ClassId} (h : a.lookup n = some id) (name : String) :
    (a.mention name).lookup n = some id := by
  cases hn : a.lookup name with
  | some id' => rwa [mention_of_known hn]
  | none =>
    rw [mention_of_unknown hn, lookup, getElem?_insert_eq, if_neg]
    · exact h
    · rintro rfl
      rw [hn] at h
      cases h

theorem lookup_mentions {a : Arena} {n : String} {id : ClassId} (h : a.lookup n = some id) (names : List String) :
    (names.foldl mention a).lookup n = some id :=
  List.foldlRecOn (motive := fun b : Arena => b.lookup n = some id) _ _ h fun _ hb name _ => lookup_mention hb name

/-- **Classes get their numbers one after the other.** -/
theorem getOrCreateAll_eq (a : Arena) (names : List String) :
    (a.getOrCreateAll names).2 = names.foldl mention a ∧
      (a.getOrCreateAll names).1.map some = names.map (names.foldl mention a).lookup := by
  induction names generalizing a with
  | nil => exact ⟨rfl, rfl⟩
  | cons name rest ih =>
    obtain ⟨harena, hids⟩ := ih (a.mention name)
    have hid := lookup_mentions (lookup_getOrCreate a name) rest
    refine ⟨harena, ?_⟩
    rw [List.map_cons, List.foldl_cons, hid, ← hids]
    rfl

theorem Orderly.mention {a : Arena} (h : a.Orderly) (name : String) : (a.mention name).Orderly := by
  cases hn : a.lookup name with
  | some id => rwa [mention_of_known hn]
  | none =>
    rw [mention_of_unknown hn]
    refine ⟨fun n id => ?_, fun id r hr hread => ?_, fun id r hr s hs => ?_, h.fields.snoc rfl, h.methods.snoc rfl,
      fun n id => ?_, fun m hm r hr hown => ?_⟩
    · have hold := h.byName n id
      rw [Option.map_eq_some_iff] at hold ⊢
      rw [lookup, getElem?_insert_eq, ← lookup]
      simp only [getElem?_snoc]
      split
      · rename_i hname
        rw [hname, hn] at hold
        constructor
        · intro hid
          exact ⟨.stub name, .inr ⟨(Option.some.inj hid).symm, rfl⟩, hname.symm⟩
        · rintro ⟨r, hr | ⟨rfl, -⟩, hrn⟩
          · cases hold.2 ⟨r, hr, hrn.trans hname⟩
          · rfl
      · rename_i hname
        refine hold.trans (exists_congr fun r => ⟨fun ⟨hr, hrn⟩ => ⟨.inl hr, hrn⟩, fun ⟨hr, hrn⟩ => ⟨?_, hrn⟩⟩)
        rcases hr with hr | ⟨-, rfl⟩
        · exact hr
        · exact absurd hrn.symm hname
    · rcases getElem?_snoc.1 hr with hr | ⟨-, rfl⟩
      · exact h.unread id r hr hread
      · rfl
    · rw [List.length_append]
      rcases getElem?_snoc.1 hr with hr | ⟨-, rfl⟩
      · exact Nat.lt_add_right _ (h.supertypes id r hr s hs)
      · cases hs
    · rw [h.owned]
      simp only [getElem?_snoc]
      grind [ClassRecord.stub]
    · rcases getElem?_snoc.1 hr with hr | ⟨howner, rfl⟩
      · exact h.bodies m hm r hr hown
      · exact absurd (h.methods.owner_lt m hm) (howner ▸ Nat.lt_irrefl _)

theorem Orderly.mentions {a : Arena} (h : a.Orderly) (names : List String) : (names.foldl Arena.mention a).Orderly :=
  List.foldlRecOn (motive := Orderly) _ _ h fun _ hb name _ => hb.mention name

/-! ## Reading a class -/

/-- The names that a class file mentions for its class: its own, its superclass and its interfaces. -/
def mentionedBy (c : ClassFile) : List String :=
  c.name :: (c.superclass.toList ++ c.interfaces)

/-- **The numbers under which a class is filled in** are those of its name and of its supertypes. -/
structure Numbered (a : Arena) (c : ClassFile) (id : ClassId) (parent : Option ClassId) (interfaces : List ClassId) :
    Prop where
  name : a.lookup c.name = some id
  superclass : parent.toList.map some = c.superclass.toList.map a.lookup
  interfaces : interfaces.map some = c.interfaces.map a.lookup

/-- **A class that is accepted is filled in** after it and its supertypes have been mentioned. -/
theorem ingest_of_accepted {a : Arena} {c : ClassFile} (h : a.refusal? c = none) (owned : Bool) :
    ∃ id parent interfaces, ((mentionedBy c).foldl mention a).Numbered c id parent interfaces ∧
      a.ingest c owned = .ok (id, ((mentionedBy c).foldl mention a).fill c owned id parent interfaces) := by
  obtain ⟨hsuper, hparent⟩ := getOrCreateAll_eq (a.mention c.name) c.superclass.toList
  obtain ⟨hinter, hinterfaces⟩ := getOrCreateAll_eq (c.superclass.toList.foldl mention (a.mention c.name)) c.interfaces
  have hall : (mentionedBy c).foldl mention a =
      c.interfaces.foldl mention (c.superclass.toList.foldl mention (a.mention c.name)) := by
    rw [mentionedBy, List.foldl_cons, List.foldl_append]
  refine ⟨(a.getOrCreate c.name).1, ((a.mention c.name).getOrCreateAll c.superclass.toList).1.head?,
    ((c.superclass.toList.foldl mention (a.mention c.name)).getOrCreateAll c.interfaces).1, ⟨?_, ?_, ?_⟩, ?_⟩
  · rw [hall]
    exact lookup_mentions (lookup_mentions (lookup_getOrCreate a c.name) _) _
  · rw [hall]
    cases hs : c.superclass with
    | none => rfl
    | some s =>
      rw [hs] at hparent
      obtain ⟨id, hid⟩ := List.length_eq_one_iff.1 (by simpa using congrArg List.length hparent)
      rw [Option.toList_some, hid] at hparent
      rw [Option.toList_some, hid, List.head?_cons, Option.toList_some, hparent]
      have hlast : ((List.foldl mention (a.mention c.name) [s]).lookup s) = some id := (List.cons.inj hparent).1.symm
      rw [List.map_singleton, List.map_singleton, hlast, lookup_mentions hlast]
  · rw [hall]
    exact hinterfaces
  · rw [hall, ← hinter, ← hsuper, ingest, h]
    rfl

theorem record_eq {a : Arena} {id : ClassId} {r : ClassRecord} (h : a.classes[id]? = some r) : a.record id = r := by
  rw [record, h]
  rfl

theorem refusal?_eq_none {a : Arena} {c : ClassFile} :
    a.refusal? c = none ↔ (∀ id, a.lookup c.name = some id → (a.record id).read = false) ∧ c.structureFault? = none := by
  unfold refusal?
  cases a.lookup c.name with
  | none => simp
  | some id => cases hread : (a.record id).read <;> simp [hread]

/-- A class that has been mentioned was there, or has nothing but its name. -/
theorem mem_mentions {a : Arena} {names : List String} {r : ClassRecord} (h : r ∈ (names.foldl mention a).classes) :
    r ∈ a.classes ∨ r = .stub r.name := by
  induction names generalizing a with
  | nil => exact .inl h
  | cons name rest ih =>
    refine (ih h).elim (fun h => ?_) .inr
    cases hn : a.lookup name with
    | some id => exact .inl (mention_of_known hn ▸ h)
    | none =>
      rw [mention_of_unknown hn] at h
      rcases List.mem_append.1 h with h | h
      · exact .inl h
      · exact .inr (List.mem_singleton.1 h ▸ rfl)

/-- A class that is accepted has not been read. -/
theorem Orderly.unread_of_accepted {a : Arena} (h : a.Orderly) {c : ClassFile} (hr : a.refusal? c = none)
    (names : List String) {r : ClassRecord} (hmem : r ∈ (names.foldl Arena.mention a).classes) (hname : r.name = c.name) :
    r.read = false := by
  rcases mem_mentions hmem with hmem | hstub
  · obtain ⟨id, hid⟩ := List.mem_iff_getElem?.1 hmem
    have hlookup : a.lookup c.name = some id := (h.byName _ _).2 (by rw [hid, Option.map_some, hname])
    rw [← record_eq hid]
    exact (refusal?_eq_none.1 hr).1 id hlookup
  · rw [hstub]
    rfl

section Fill

variable {a : Arena} {c : ClassFile} {id : ClassId} {parent : Option ClassId} {interfaces : List ClassId}

theorem Numbered.supertypes_lt (h : a.Orderly) (hn : a.Numbered c id parent interfaces) {s : ClassId}
    (hs : s ∈ parent.toList ++ interfaces) : s < a.classes.length := by
  have hknown : ∀ (names : List String) (ids : List ClassId), ids.map some = names.map a.lookup → ∀ s ∈ ids,
      s < a.classes.length := fun names ids he s hs => by
    obtain ⟨n, -, hn⟩ := List.mem_map.1 (he ▸ List.mem_map_of_mem hs)
    exact h.lookup_lt hn
  exact (List.mem_append.1 hs).elim (hknown _ _ hn.superclass s) (hknown _ _ hn.interfaces s)

theorem names_fill (owned : Bool) :
    (a.fill c owned id parent interfaces).classes.map (·.name) = a.classes.map (·.name) := by
  refine map_modify (fun r => ?_) _ _
  rfl

theorem classes_fill_of_ne (owned : Bool) {j : ClassId} (hj : id ≠ j) :
    (a.fill c owned id parent interfaces).classes[j]? = a.classes[j]? :=
  List.getElem?_modify_ne _ _ hj

theorem classes_fill_self (owned : Bool) {r : ClassRecord} (hr : a.classes[id]? = some r) :
    (a.fill c owned id parent interfaces).classes[id]? = some
      { r with
        access := c.access
        owned
        read := true
        state := .read
        parent
        interfaces
        fields := (enterAll FieldRecord.name a.fields (fieldRecords c id)).table
        methods := (enterAll MethodRecord.key a.methods (methodRecords c owned id)).table } := by
  rw [fill, List.getElem?_modify_eq, hr]
  rfl

/-- **A class is filled in.** -/
theorem Orderly.fill (h : a.Orderly) (hn : a.Numbered c id parent interfaces)
    (hread : ∀ r, a.classes[id]? = some r → r.read = false) (owned : Bool) :
    (a.fill c owned id parent interfaces).Orderly := by
  obtain ⟨r₀, hr₀, hname⟩ := Option.map_eq_some_iff.1 ((h.byName _ _).1 hn.name)
  have hstub : r₀.entered = .stub r₀.name := h.unread id r₀ hr₀ (hread r₀ hr₀)
  have hnofields : r₀.fields = ∅ := congrArg ClassRecord.fields hstub
  have hnomethods : r₀.methods = ∅ := congrArg ClassRecord.methods hstub
  have hnotowned : r₀.owned = false := congrArg ClassRecord.owned hstub
  have hself : (a.fill c owned id parent interfaces).classes[id]? = _ := classes_fill_self owned hr₀
  refine ⟨fun n j => ?_, fun j r hr hunread => ?_, fun j r hr s hs => ?_, ?_, ?_, fun n j => ?_, fun m hm r hr hown => ?_⟩
  · refine (h.byName n j).trans ?_
    rw [← List.getElem?_map, ← List.getElem?_map, names_fill]
  · by_cases hj : id = j
    · subst hj
      rw [hself] at hr
      cases hr
      cases hunread
    · exact h.unread j r (classes_fill_of_ne owned hj ▸ hr) hunread
  · rw [Arena.fill, List.length_modify]
    by_cases hj : id = j
    · subst hj
      rw [hself] at hr
      cases hr
      exact hn.supertypes_lt h hs
    · exact h.supertypes j r (classes_fill_of_ne owned hj ▸ hr) s hs
  · refine h.fields.enter hr₀ hnofields (fun m hm => ?_) rfl
    obtain ⟨f, -, rfl⟩ := List.mem_map.1 hm
    rfl
  · refine h.methods.enter hr₀ hnomethods (fun m hm => ?_) rfl
    obtain ⟨f, -, rfl⟩ := List.mem_map.1 hm
    rfl
  · have hold := h.owned n j
    have hmap : (a.fill c owned id parent interfaces).owned[n]? =
        if owned = true ∧ n = c.name then some id else a.owned[n]? := by
      cases owned with
      | false => simp [Arena.fill]
      | true => simp [Arena.fill, getElem?_insert_eq]
    rw [hmap]
    by_cases hj : id = j
    · subst hj
      rw [hself]
      rw [hr₀] at hold
      have hfree : a.owned[n]? ≠ some id := fun ho => by
        obtain ⟨r, hr, -, hown⟩ := hold.1 ho
        cases hr
        rw [hnotowned] at hown
        cases hown
      split
      · rename_i hown
        exact iff_of_true rfl ⟨_, rfl, hname.trans hown.2.symm, hown.1⟩
      · rename_i hown
        refine iff_of_false hfree ?_
        rintro ⟨r, hr, hrn, hro⟩
        cases hr
        exact hown ⟨hro, hrn.symm.trans hname⟩
    · rw [classes_fill_of_ne owned hj]
      split
      · rename_i hown
        refine iff_of_false (fun he => hj (Option.some.inj he)) ?_
        rintro ⟨r, hr, hrn, -⟩
        have hlookup : a.lookup c.name = some j := (h.byName _ _).2 (by rw [hr, Option.map_some, hrn, hown.2])
        exact hj (Option.some.inj (hn.name.symm.trans hlookup))
      · exact hold
  · have hrecords := (enterAll_spec MethodRecord.key a.methods (methodRecords c owned id)).1
    have hm : m ∈ a.methods ++ firstByKey MethodRecord.key (methodRecords c owned id) := hrecords ▸ hm
    rcases List.mem_append.1 hm with hm | hm
    · have howner := h.methods.owner_ne hr₀ hnomethods hm
      exact h.bodies m hm r (classes_fill_of_ne owned howner.symm ▸ hr) hown
    · obtain ⟨f, -, rfl⟩ := List.mem_map.1 (mem_firstByKey hm)
      have howner : r.owned = owned := by
        have hr := hself.symm.trans hr
        cases hr
        rfl
      have hnone : owned = false := howner.symm.trans hown
      rw [hnone]
      rfl

end Fill

end Arena
end RenameAudit
