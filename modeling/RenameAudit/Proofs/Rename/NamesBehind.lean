import RenameAudit.Proofs.Hierarchy.Bookkeeping
import RenameAudit.Proofs.Rename.Reverse
/-!
# Proofs.Rename.NamesBehind — the member behind a new name

The reverse of a table is asked which member of a class has a new name.  It knows entries only: where none goes to the name,
the answer is the name itself, whether or not the member with that old name has kept it.  Where entries are for declared
members (`EntriesDeclared`) and the new names keep apart (`NamesApart`), this says which member is found
(`mapField_back_iff`, `mapMethod_back_iff`).
-/
namespace RenameAudit

open Std ClassFile

/-! ## Maps read backwards -/

section Back

variable {α : Type} [Ord α] [TransOrd α] [LawfulEqOrd α] {m : ExtTreeMap α String} {back : α × String → α × String} {k : α}

theorem exists_of_getElem?_ofList_back {old : String}
    (h : (ExtTreeMap.ofList (m.toList.map back) : ExtTreeMap α String)[k]? = some old) :
    ∃ a v, m[a]? = some v ∧ back (a, v) = (k, old) := by
  obtain ⟨⟨a, v⟩, hmem, heq⟩ := List.mem_map.1 (mem_of_getElem?_ofList h)
  exact ⟨a, v, ExtTreeMap.mem_toList_iff_getElem?_eq_some.1 hmem, heq⟩

theorem ne_of_getElem?_ofList_back_eq_none [DecidableEq α]
    (h : (ExtTreeMap.ofList (m.toList.map back) : ExtTreeMap α String)[k]? = none) {a : α} {v : String}
    (hv : m[a]? = some v) : (back (a, v)).1 ≠ k := by
  rintro rfl
  have hmem : (back (a, v)).1 ∈ (m.toList.map back).map Prod.fst :=
    List.mem_map_of_mem (List.mem_map_of_mem (ExtTreeMap.mem_toList_iff_getElem?_eq_some.2 hv))
  refine getElem?_eq_none_iff.1 h ?_
  rwa [ExtTreeMap.mem_ofList, List.contains_iff_mem]

/-- **What a map read backwards gives for a new name**, where the entries that go to it are for members, of which no two have
it: the name of the member that has it, and where there is none the new name itself. -/
theorem getD_ofList_back_iff [DecidableEq α] {ι : Type} {member : ι → Prop} {ref : ι → α} {name : α → String}
    {n g : String} (hname : ∀ a v, (back (a, v)).2 = name a)
    (hentry : ∀ a v, m[a]? = some v → (back (a, v)).1 = k → v = n ∧ ∃ x, member x ∧ ref x = a)
    (hplace : ∀ x, member x → (back (ref x, n)).1 = k)
    (hapart : ∀ x y, member x → member y → m.getD (ref x) (name (ref x)) = n → m.getD (ref y) (name (ref y)) = n → x = y) :
    (ExtTreeMap.ofList (m.toList.map back) : ExtTreeMap α String).getD k n = g ↔
      (∃ x, member x ∧ name (ref x) = g ∧ m.getD (ref x) (name (ref x)) = n) ∨
        (g = n ∧ ∀ x, member x → m.getD (ref x) (name (ref x)) ≠ n) := by
  have hgetD : ∀ a, m.getD a (name a) = m[a]?.getD (name a) := fun a => ExtTreeMap.getD_eq_getD_getElem?
  rw [ExtTreeMap.getD_eq_getD_getElem?]
  cases hback : (ExtTreeMap.ofList (m.toList.map back) : ExtTreeMap α String)[k]? with
  | some old =>
    obtain ⟨a, v, hv, heq⟩ := exists_of_getElem?_ofList_back hback
    obtain ⟨rfl, x, hx, rfl⟩ := hentry a v hv (by rw [heq])
    have hold : name (ref x) = old := by rw [← hname (ref x) v, heq]
    have hnew : m.getD (ref x) (name (ref x)) = v := by rw [hgetD, hv, Option.getD_some]
    rw [Option.getD_some]
    constructor
    · rintro rfl
      exact .inl ⟨x, hx, hold, hnew⟩
    · rintro (⟨y, hy, rfl, hyn⟩ | ⟨-, hnone⟩)
      · rw [← hold, hapart x y hx hy hnew hyn]
      · exact absurd hnew (hnone x hx)
  | none =>
    -- A member with the new name has no entry, so it has kept that name.
    have hkept : ∀ {x}, member x → m.getD (ref x) (name (ref x)) = n → name (ref x) = n := fun {x} hx hn => by
      cases hv : m[ref x]? with
      | none => rwa [hgetD, hv, Option.getD_none] at hn
      | some v =>
        obtain rfl : v = n := by rwa [hgetD, hv, Option.getD_some] at hn
        exact absurd (hplace x hx) (ne_of_getElem?_ofList_back_eq_none hback hv)
    rw [Option.getD_none]
    constructor
    · rintro rfl
      by_cases h : ∃ x, member x ∧ m.getD (ref x) (name (ref x)) = n
      · obtain ⟨x, hx, hn⟩ := h
        exact .inl ⟨x, hx, hkept hx hn, hn⟩
      · exact .inr ⟨rfl, fun x hx hn => h ⟨x, hx, hn⟩⟩
    · rintro (⟨x, hx, rfl, hn⟩ | ⟨rfl, -⟩)
      · exact (hkept hx hn).symm
      · rfl

end Back

namespace RenameTable

open Directory

/-! ## Tables and directories -/

/-- **New names keep apart**: those of the classes of a directory, of the fields of a class, and of the methods of a class
whose descriptors become one. -/
structure NamesApart (d : Directory) (t : RenameTable) : Prop where
  classes : ∀ c ∈ d.names, ∀ c' ∈ d.names, t.mapClass c = t.mapClass c' → c = c'
  fields : ∀ c ∈ d.ingested, ∀ f ∈ d.fieldsOf c, ∀ f' ∈ d.fieldsOf c,
    t.mapField c f.ref.name = t.mapField c f'.ref.name → f = f'
  methods : ∀ c ∈ d.ingested, ∀ m ∈ d.methodsOf c, ∀ m' ∈ d.methodsOf c,
    t.mapMethod c m.ref.name m.ref.descriptor = t.mapMethod c m'.ref.name m'.ref.descriptor →
    t.mapDescriptor m.ref.descriptor = t.mapDescriptor m'.ref.descriptor → m.ref = m'.ref

/-- **Entries are for what is declared**: where the class of an entry for a member gets the new name of a class that has been
read, it declares the member. -/
structure EntriesDeclared (d : Directory) (t : RenameTable) : Prop where
  fields : ∀ f ∈ t.fields.keys, ∀ c ∈ d.ingested, t.mapClass f.owner = t.mapClass c →
    ∃ x ∈ d.fieldsOf f.owner, x.ref.toFieldRef = f
  methods : ∀ m ∈ t.methods.keys, ∀ c ∈ d.ingested, t.mapClass m.owner = t.mapClass c →
    ∃ x ∈ d.methodsOf m.owner, x.ref = m

/-- Whether new names keep apart. -/
def namesApart (d : Directory) (t : RenameTable) : Bool :=
  (d.names.all fun c => d.names.all fun c' => t.mapClass c != t.mapClass c' || c == c') &&
  (d.ingested.all fun c => (d.fieldsOf c).all fun f => (d.fieldsOf c).all fun f' =>
    t.mapField c f.ref.name != t.mapField c f'.ref.name || f == f') &&
  d.ingested.all fun c => (d.methodsOf c).all fun m => (d.methodsOf c).all fun m' =>
    t.mapMethod c m.ref.name m.ref.descriptor != t.mapMethod c m'.ref.name m'.ref.descriptor ||
      (t.mapDescriptor m.ref.descriptor != t.mapDescriptor m'.ref.descriptor || m.ref == m'.ref)

theorem namesApart_iff {d : Directory} {t : RenameTable} : namesApart d t = true ↔ NamesApart d t := by
  simp only [namesApart, Bool.and_eq_true, List.all_eq_true, Bool.or_eq_true, bne_iff_ne, ne_eq, beq_iff_eq,
    ← imp_iff_not_or]
  exact ⟨fun ⟨⟨hc, hf⟩, hm⟩ => ⟨hc, hf, hm⟩, fun h => ⟨⟨h.classes, h.fields⟩, h.methods⟩⟩

/-- Whether entries are for what is declared. -/
def entriesDeclared (d : Directory) (t : RenameTable) : Bool :=
  (t.fields.keys.all fun f => d.ingested.all fun c =>
    t.mapClass f.owner != t.mapClass c || (d.fieldsOf f.owner).any fun x => x.ref.toFieldRef == f) &&
  t.methods.keys.all fun m => d.ingested.all fun c =>
    t.mapClass m.owner != t.mapClass c || (d.methodsOf m.owner).any fun x => x.ref == m

theorem entriesDeclared_iff {d : Directory} {t : RenameTable} : entriesDeclared d t = true ↔ EntriesDeclared d t := by
  simp only [entriesDeclared, Bool.and_eq_true, List.all_eq_true, Bool.or_eq_true, bne_iff_ne, ne_eq, beq_iff_eq,
    List.any_eq_true, ← imp_iff_not_or]
  exact ⟨fun ⟨hf, hm⟩ => ⟨hf, hm⟩, fun h => ⟨h.fields, h.methods⟩⟩

variable {d : Directory} {t : RenameTable} (h : d.Orderly) (hapart : t.NamesApart d) (hdeclared : t.EntriesDeclared d)
  {c : String} (hc : d.wasRead c = true)

include h hapart hdeclared hc

/-- **The field behind a new name** is the one that gets it, or else what has it as its old name. -/
theorem mapField_back_iff {n g : String} : t.reverse.mapField (t.mapClass c) n = g ↔
    (∃ f ∈ d.fieldsOf c, f.ref.name = g ∧ t.mapField c f.ref.name = n) ∨
      (g = n ∧ ∀ f ∈ d.fieldsOf c, t.mapField c f.ref.name ≠ n) := by
  -- Fields are looked up under the class that declares them.
  have hread : c ∈ d.ingested := (h.sound.mem_ingested c).2 hc
  let ref : Field → FieldRef := fun f => ⟨c, f.ref.name⟩
  have hentry : ∀ a v, t.fields[a]? = some v → (t.fieldBack (a, v)).1 = ⟨t.mapClass c, n⟩ →
      v = n ∧ ∃ f, f ∈ d.fieldsOf c ∧ ref f = a := by
    intro a v hv heq
    obtain ⟨howner, hn⟩ := FieldRef.mk.inj heq
    obtain ⟨f, hf, hfa⟩ := hdeclared.fields a (ExtTreeMap.mem_keys.2 (mem_of_getElem? hv)) c hread howner
    have hclass : a.owner = c := hapart.classes _ (h.mem_names_of_wasRead (wasRead_of_mem_fieldsOf hf)) _
      (h.mem_names_of_wasRead hc) howner
    have href : FieldRef.mk c f.ref.name = a := by rw [← hfa, MemberRef.toFieldRef, h.fieldOwner hf, hclass]
    exact ⟨hn, f, hclass ▸ hf, href⟩
  have hunique : ∀ f f', f ∈ d.fieldsOf c → f' ∈ d.fieldsOf c → t.mapField c f.ref.name = n →
      t.mapField c f'.ref.name = n → f = f' :=
    fun f f' hf hf' hn hn' => hapart.fields c hread f hf f' hf' (hn.trans hn'.symm)
  have hname : ∀ a v, (t.fieldBack (a, v)).2 = a.name := fun _ _ => rfl
  rw [mapField, fields_reverse]
  exact getD_ofList_back_iff hname hentry (fun _ _ => rfl) hunique

/-- **The method behind a new name** with a new descriptor is one that gets both, or else what has it as its old name. -/
theorem mapMethod_back_iff {n descriptor g : String} :
    t.reverse.mapMethod (t.mapClass c) n (t.mapDescriptor descriptor) = g ↔
      (∃ m, (m ∈ d.methodsOf c ∧ t.mapDescriptor m.ref.descriptor = t.mapDescriptor descriptor) ∧ m.ref.name = g ∧
        t.mapMethod c m.ref.name m.ref.descriptor = n) ∨
      (g = n ∧ ∀ m, m ∈ d.methodsOf c ∧ t.mapDescriptor m.ref.descriptor = t.mapDescriptor descriptor →
        t.mapMethod c m.ref.name m.ref.descriptor ≠ n) := by
  have hread : c ∈ d.ingested := (h.sound.mem_ingested c).2 hc
  -- Two descriptors can become one, so several descriptors of the class may be asked for at once.
  let ref : Method → MemberRef := fun m => ⟨c, m.ref.name, m.ref.descriptor⟩
  have hentry : ∀ a v, t.methods[a]? = some v →
      (t.methodBack (a, v)).1 = ⟨t.mapClass c, n, t.mapDescriptor descriptor⟩ →
      v = n ∧ ∃ m, (m ∈ d.methodsOf c ∧ t.mapDescriptor m.ref.descriptor = t.mapDescriptor descriptor) ∧ ref m = a := by
    intro a v hv heq
    obtain ⟨howner, hn, hdescriptor⟩ := MemberRef.mk.inj heq
    obtain ⟨m, hm, rfl⟩ := hdeclared.methods a (ExtTreeMap.mem_keys.2 (mem_of_getElem? hv)) c hread howner
    have hclass : m.ref.owner = c := hapart.classes _ (h.mem_names_of_wasRead (wasRead_of_mem_methodsOf hm)) _
      (h.mem_names_of_wasRead hc) howner
    have href : MemberRef.mk c m.ref.name m.ref.descriptor = m.ref := by rw [← hclass]
    exact ⟨hn, m, ⟨hclass ▸ hm, hdescriptor⟩, href⟩
  have hplace : ∀ m, m ∈ d.methodsOf c ∧ t.mapDescriptor m.ref.descriptor = t.mapDescriptor descriptor →
      (t.methodBack (ref m, n)).1 = ⟨t.mapClass c, n, t.mapDescriptor descriptor⟩ := by
    rintro m ⟨-, hdescriptor⟩
    rw [methodBack, hdescriptor]
  have hunique : ∀ m m', (m ∈ d.methodsOf c ∧ t.mapDescriptor m.ref.descriptor = t.mapDescriptor descriptor) →
      (m' ∈ d.methodsOf c ∧ t.mapDescriptor m'.ref.descriptor = t.mapDescriptor descriptor) →
      t.mapMethod c m.ref.name m.ref.descriptor = n → t.mapMethod c m'.ref.name m'.ref.descriptor = n → m = m' :=
    fun m m' hm hm' hn hn' => h.sound.eq_of_ref hm.1 hm'.1
      (hapart.methods c hread m hm.1 m' hm'.1 (hn.trans hn'.symm) (hm.2.trans hm'.2.symm))
  have hname : ∀ a v, (t.methodBack (a, v)).2 = a.name := fun _ _ => rfl
  rw [mapMethod, methods_reverse]
  exact getD_ofList_back_iff hname hentry hplace hunique

end RenameTable
end RenameAudit
