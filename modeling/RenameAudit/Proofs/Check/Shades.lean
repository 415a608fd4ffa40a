import Mathlib
import RenameAudit.Proofs.Check.Mismatch
import RenameAudit.Proofs.Rename.NamesBehind
/-!
# Proofs.Check.Shades — members that meet under a new name

A member of a class shades one of an ancestor when it gets the same new name.  The check asks the reverse of the table which
member of the ancestor has the new name, and the answer is the name itself where the table has no entry for it.  So besides the
members that meet, it reports those whose new name is an old name of the ancestor that nothing in it has any more
(`shades_exact`), and that is no shade (`given_up_name_reported`).  An entry for a member that is not declared hides a shade.
-/
namespace RenameAudit
namespace OverrideNames

open Std Directory

variable {ctx : CheckContext}

/-! ## Pairs of members -/

/-- **A field of a class under audit and one of an ancestor** that could meet: the first belongs to objects, and the second
is not private. -/
structure FieldPair (d : Directory) (c f p g : String) : Prop where
  owned : c ∈ d.owned
  ancestor : p ∈ d.stackOf c
  field : ∃ x ∈ d.fieldsOf c, Access.isStatic x.access = false ∧ x.ref.name = f
  above : ∃ y ∈ d.fieldsOf p, Access.isPrivate y.access = false ∧ y.ref.name = g

/-- **A method of a class under audit and another of an ancestor** that could meet: the first belongs to objects and makes
none, and the second has its descriptor and is not private. -/
structure MethodPair (d : Directory) (clash : MethodClash) : Prop where
  owned : clash.owner ∈ d.owned
  ancestor : clash.parent ∈ d.stackOf clash.owner
  method : ∃ m ∈ d.methodsOf clash.owner, m.isStatic = false ∧ m.isInitializer = false ∧
    m.ref = ⟨clash.owner, clash.method, clash.descriptor⟩
  above : ∃ m ∈ d.methodsOf clash.parent, m.isPrivate = false ∧ m.key = clash.parentMethod ++ clash.descriptor
  other : clash.method ≠ clash.parentMethod

/-- **What a new name stands for among the fields of a class**: the field that gets it, or else an old name that no field has
any more. -/
inductive FieldBehind (d : Directory) (t : RenameTable) (p n g : String) : Prop
  | renamed (h : t.mapField p g = n)
  | givenUp (h : g = n) (hnone : ∀ y ∈ d.fieldsOf p, t.mapField p y.ref.name ≠ n)

/-- **What a new name and a new descriptor stand for among the methods of a class**: the method that gets both, or one whose
other descriptor becomes the same, or else an old name that no method with the new descriptor has any more. -/
inductive MethodBehind (d : Directory) (t : RenameTable) (p n descriptor g : String) : Prop
  | renamed {m : Method} (hm : m ∈ d.methodsOf p) (href : m.ref = ⟨p, g, descriptor⟩) (h : t.mapMethod p g descriptor = n)
  | otherDescriptor {m : Method} (hm : m ∈ d.methodsOf p) (hname : m.ref.name = g) (hne : m.ref.descriptor ≠ descriptor)
      (hdescriptor : t.mapDescriptor m.ref.descriptor = t.mapDescriptor descriptor)
      (h : t.mapMethod p g m.ref.descriptor = n)
  | givenUp (h : g = n) (hnone : ∀ m ∈ d.methodsOf p, t.mapDescriptor m.ref.descriptor = t.mapDescriptor descriptor →
      t.mapMethod p m.ref.name m.ref.descriptor ≠ n)

/-! ## What the check finds -/

theorem mismatch_of_mismatch? {methods : List MemberRef} {finding : Finding} (h : mismatch? ctx methods = some finding) :
    ∃ groups, finding = .overrideMismatch groups := by
  rw [mismatch?_eq] at h
  split at h
  · cases h
  · exact ⟨_, (Option.some.inj h).symm⟩

theorem mismatch_of_mem_closure {finding : Finding} (h : finding ∈ closureFindings ctx) :
    ∃ groups, finding = .overrideMismatch groups := by
  obtain ⟨_, -, hf⟩ := List.mem_filterMap.1 h
  exact mismatch_of_mismatch? hf

theorem mismatch_of_mem_interface {finding : Finding} (h : finding ∈ interfaceFindings ctx) :
    ∃ groups, finding = .overrideMismatch groups := by
  obtain ⟨_, -, hi⟩ := List.mem_flatMap.1 h
  obtain ⟨m, -, hm⟩ := List.mem_flatMap.1 hi
  obtain ⟨name, -, hf⟩ := List.mem_filterMap.1 hm
  unfold interfaceMismatch? at hf
  split at hf
  · split at hf
    · exact mismatch_of_mismatch? hf
    · cases hf
  · cases hf

/-- A finding of another kind comes from a class and its ancestors. -/
theorem mem_findings_of_ne {finding : Finding} (h : ∀ groups, finding ≠ .overrideMismatch groups) :
    finding ∈ findings ctx ↔ ∃ c ∈ ctx.dir.owned, finding ∈ fieldFindings ctx c ∨ finding ∈ methodFindings ctx c := by
  have hancestor : finding ∈ ancestorFindings ctx ↔
      ∃ c ∈ ctx.dir.owned, finding ∈ fieldFindings ctx c ∨ finding ∈ methodFindings ctx c := by
    rw [ancestorFindings, List.mem_flatMap]
    exact exists_congr fun c => and_congr_right fun _ => List.mem_append
  rw [mem_findings, hancestor]
  refine or_iff_left fun hmem => ?_
  cases hstrategy : ctx.strategy with
  | closure =>
    rw [hstrategy] at hmem
    obtain ⟨groups, heq⟩ := mismatch_of_mem_closure hmem
    exact h groups heq
  | quick =>
    rw [hstrategy] at hmem
    obtain ⟨groups, heq⟩ := mismatch_of_mem_interface hmem
    exact h groups heq

theorem fieldShade?_eq_some {f : Field} {p c name parent old n : String} :
    fieldShade? ctx f p = some (.fieldShade c name parent old n) ↔
      (∃ y, ctx.dir.field? p old = some y ∧ Access.isPrivate y.access = false) ∧ ctx.mappedField f = n ∧
        ctx.reverse.mapField (ctx.table.mapClass p) n = old ∧ f.ref.owner = c ∧ f.ref.name = name ∧ p = parent := by
  unfold fieldShade?
  constructor
  · intro h
    dsimp only at h
    split at h
    · rename_i y hy
      split at h
      · cases h
      · rename_i hprivate
        cases h
        exact ⟨⟨y, hy, Bool.eq_false_iff.2 hprivate⟩, rfl, rfl, rfl, rfl, rfl⟩
    · cases h
  · rintro ⟨⟨y, hy, hprivate⟩, rfl, rfl, rfl, rfl, rfl⟩
    simp only [hy, hprivate, Bool.false_eq_true, if_false]

theorem methodClash?_eq_some {m : Method} {p : String} {clash : MethodClash} :
    methodClash? ctx m p = some (.methodShade clash) ↔
      (∃ other, ctx.dir.method? ⟨p, clash.parentMethod, m.ref.descriptor⟩ = some other ∧ other.isPrivate = false) ∧
        ctx.mappedMethod m.ref = clash.mapped ∧
        ctx.reverse.mapMethod (ctx.table.mapClass p) clash.mapped (ctx.table.mapDescriptor m.ref.descriptor) =
          clash.parentMethod ∧
        m.ref = ⟨clash.owner, clash.method, clash.descriptor⟩ ∧ p = clash.parent ∧ clash.method ≠ clash.parentMethod := by
  unfold methodClash?
  constructor
  · intro h
    dsimp only at h
    split at h
    · rename_i other hother
      split at h
      · split at h <;> cases h
      · rename_i hprivate
        split at h
        · cases h
        · rename_i hne
          cases h
          exact ⟨⟨other, hother, Bool.eq_false_iff.2 hprivate⟩, rfl, rfl, rfl, rfl, hne⟩
    · cases h
  · obtain ⟨c, name, descriptor, parent, old, n⟩ := clash
    dsimp only
    rintro ⟨⟨other, hother, hprivate⟩, rfl, rfl, href, rfl, hne⟩
    rw [href] at hother hne ⊢
    simp only [hother, hprivate, Bool.false_eq_true, if_false, hne]

/-- A finding of another kind for a method and an ancestor is a clash. -/
theorem methodFinding?_eq_some_of_ne {m : Method} {p : String} {finding : Finding}
    (h : ∀ groups, finding ≠ .overrideMismatch groups) :
    methodFinding? ctx m p = some finding ↔ methodClash? ctx m p = some finding := by
  have hmismatch : ancestorMismatch? ctx m p ≠ some finding := fun hf => by
    unfold ancestorMismatch? at hf
    split at hf
    · cases hf
    · split at hf
      · split at hf
        · obtain ⟨groups, rfl⟩ := mismatch_of_mismatch? hf
          exact h groups rfl
        · cases hf
      · cases hf
  unfold methodFinding?
  cases methodClash? ctx m p with
  | some clash => rfl
  | none =>
    dsimp only
    split
    · exact iff_of_false hmismatch nofun
    · rfl

theorem mem_methodFindings_of_ne {c : String} {finding : Finding} (h : ∀ groups, finding ≠ .overrideMismatch groups) :
    finding ∈ methodFindings ctx c ↔ ∃ m ∈ ctx.dir.methodsOf c, (m.isStatic = false ∧ m.isInitializer = false) ∧
      ∃ p ∈ ctx.dir.ancestors c, methodClash? ctx m p = some finding := by
  simp only [methodFindings, List.mem_flatMap, List.mem_filter, List.mem_filterMap, Bool.and_eq_true,
    Bool.not_eq_true', methodFinding?_eq_some_of_ne h, and_assoc]

theorem mem_fieldFindings {c : String} {finding : Finding} :
    finding ∈ fieldFindings ctx c ↔ ∃ x ∈ ctx.dir.fieldsOf c, Access.isStatic x.access = false ∧
      ∃ p ∈ ctx.dir.ancestors c, fieldShade? ctx x p = some finding := by
  simp only [fieldFindings, List.mem_flatMap, List.mem_filter, List.mem_filterMap, Bool.not_eq_true', and_assoc]

section Resolved

variable (h : ctx.dir.Orderly) (hstack : ∀ c, ctx.dir.stackOf c = ctx.dir.ancestors c)

include h hstack

/-- **The fields that are reported**: pairs whose second field is found under the new name of the first. -/
theorem fieldShade_mem_findings {c f p g n : String} : .fieldShade c f p g n ∈ findings ctx ↔
    FieldPair ctx.dir c f p g ∧ ctx.table.mapField c f = n ∧ ctx.reverse.mapField (ctx.table.mapClass p) n = g := by
  have hkind : ∀ groups, Finding.fieldShade c f p g n ≠ .overrideMismatch groups := nofun
  have hmethod : ∀ c', .fieldShade c f p g n ∉ methodFindings ctx c' := fun c' hmem => by
    obtain ⟨m, -, -, p', -, hclash⟩ := (mem_methodFindings_of_ne hkind).1 hmem
    unfold methodClash? at hclash
    dsimp only at hclash
    repeat' split at hclash
    all_goals cases hclash
  rw [mem_findings_of_ne hkind]
  constructor
  · rintro ⟨c', howned, hf | hm⟩
    · obtain ⟨x, hx, hstatic, p', hp', hsome⟩ := mem_fieldFindings.1 hf
      obtain ⟨⟨y, hy, hprivate⟩, hn, hback, rfl, hname, rfl⟩ := fieldShade?_eq_some.1 hsome
      obtain rfl := h.fieldOwner hx
      rw [← hstack] at hp'
      refine ⟨⟨howned, hp', ⟨x, hx, hstatic, hname⟩, ⟨y, ?_, hprivate, ?_⟩⟩, ?_, hback⟩
      · exact (h.field?_eq_some.1 hy).1
      · exact (h.field?_eq_some.1 hy).2
      · rw [← hname]
        exact hn
    · exact absurd hm (hmethod c')
  · rintro ⟨⟨howned, hp, ⟨x, hx, hstatic, rfl⟩, ⟨y, hy, hprivate, hname⟩⟩, hn, hback⟩
    have howner := h.fieldOwner hx
    rw [hstack] at hp
    refine ⟨c, howned, .inl (mem_fieldFindings.2 ⟨x, hx, hstatic, p, hp, fieldShade?_eq_some.2 ?_⟩)⟩
    refine ⟨⟨y, h.field?_eq_some.2 ⟨hy, hname⟩, hprivate⟩, ?_, hback, howner, rfl, rfl⟩
    rw [CheckContext.mappedField, howner]
    exact hn

/-- **The methods that are reported**: pairs whose second method is found under the new name and descriptor of the first. -/
theorem methodShade_mem_findings {clash : MethodClash} : .methodShade clash ∈ findings ctx ↔
    MethodPair ctx.dir clash ∧ ctx.table.mapMethod clash.owner clash.method clash.descriptor = clash.mapped ∧
      ctx.reverse.mapMethod (ctx.table.mapClass clash.parent) clash.mapped (ctx.table.mapDescriptor clash.descriptor) =
        clash.parentMethod := by
  have hkind : ∀ groups, Finding.methodShade clash ≠ .overrideMismatch groups := nofun
  have hfield : ∀ c, .methodShade clash ∉ fieldFindings ctx c := fun c hmem => by
    obtain ⟨x, -, -, p, -, hshade⟩ := mem_fieldFindings.1 hmem
    unfold fieldShade? at hshade
    dsimp only at hshade
    repeat' split at hshade
    all_goals cases hshade
  rw [mem_findings_of_ne hkind]
  constructor
  · rintro ⟨c, howned, hf | hm⟩
    · exact absurd hf (hfield c)
    · obtain ⟨m, hm, ⟨hstatic, hinit⟩, p, hp, hclash⟩ := (mem_methodFindings_of_ne hkind).1 hm
      obtain ⟨⟨other, hother, hprivate⟩, hn, hback, href, rfl, hne⟩ := methodClash?_eq_some.1 hclash
      obtain rfl : clash.owner = c := by rw [← h.sound.owner hm, href]
      rw [← hstack] at hp
      rw [href] at hn hback hother
      obtain ⟨hmem, hkey⟩ := h.sound.methodByKey?_eq_some.1 hother
      exact ⟨⟨howned, hp, ⟨m, hm, hstatic, hinit, href⟩, ⟨other, hmem, hprivate, hkey⟩, hne⟩, hn, hback⟩
  · rintro ⟨⟨howned, hp, ⟨m, hm, hstatic, hinit, href⟩, ⟨other, hmem, hprivate, hkey⟩, hne⟩, hn, hback⟩
    rw [hstack] at hp
    refine ⟨clash.owner, howned, .inr ((mem_methodFindings_of_ne hkind).2 ⟨m, hm, ⟨hstatic, hinit⟩, clash.parent, hp, ?_⟩)⟩
    rw [methodClash?_eq_some, href]
    exact ⟨⟨other, h.sound.methodByKey?_eq_some.2 ⟨hmem, hkey⟩, hprivate⟩, hn, hback, rfl, rfl, hne⟩

end Resolved

/-- **The shades are reported exactly**, where the new names keep apart and the table has entries for declared members only: each
pair of members whose second is behind the new name of the first, which it has or has given up. -/
theorem shades_exact (steps : List Step) (base : CheckContext) (t : RenameTable)
    (hapart : t.NamesApart (after steps).resolve) (hdeclared : t.EntriesDeclared (after steps).resolve) :
    let ctx := { base with dir := (after steps).resolve, table := t, reverse := t.reverse }
    (∀ c f p g n, .fieldShade c f p g n ∈ findings ctx ↔
      FieldPair ctx.dir c f p g ∧ t.mapField c f = n ∧ FieldBehind ctx.dir t p n g) ∧
    ∀ clash, .methodShade clash ∈ findings ctx ↔
      MethodPair ctx.dir clash ∧ t.mapMethod clash.owner clash.method clash.descriptor = clash.mapped ∧
        MethodBehind ctx.dir t clash.parent clash.mapped clash.descriptor clash.parentMethod := by
  intro ctx
  have horderly : ctx.dir.Orderly := orderly_resolve steps
  have hstack : ∀ c, ctx.dir.stackOf c = ctx.dir.ancestors c := stackOf_resolve steps
  constructor
  · intro c f p g n
    rw [fieldShade_mem_findings horderly hstack]
    refine and_congr_right fun hpair => and_congr_right fun _ => ?_
    obtain ⟨y, hy, -, hname⟩ := hpair.above
    refine (RenameTable.mapField_back_iff horderly hapart hdeclared (wasRead_of_mem_fieldsOf hy)).trans ⟨?_, ?_⟩
    · rintro (⟨x, hx, rfl, hn⟩ | ⟨hg, hnone⟩)
      · exact .renamed hn
      · exact .givenUp hg hnone
    · rintro (hn | ⟨hg, hnone⟩)
      · exact .inl ⟨y, hy, hname, hname ▸ hn⟩
      · exact .inr ⟨hg, hnone⟩
  · intro clash
    rw [methodShade_mem_findings horderly hstack]
    refine and_congr_right fun hpair => and_congr_right fun _ => ?_
    obtain ⟨m, hm, -, -⟩ := hpair.above
    refine (RenameTable.mapMethod_back_iff horderly hapart hdeclared (wasRead_of_mem_methodsOf hm)).trans ⟨?_, ?_⟩
    · rintro (⟨x, ⟨hx, hdescriptor⟩, hname, hn⟩ | ⟨hg, hnone⟩)
      · by_cases hsame : x.ref.descriptor = clash.descriptor
        · have href : x.ref = ⟨clash.parent, clash.parentMethod, clash.descriptor⟩ := by
            rw [← hsame, ← hname, ← horderly.sound.owner hx]
          exact .renamed hx href (by rw [← hname, ← hsame, hn])
        · exact .otherDescriptor hx hname hsame hdescriptor (hname ▸ hn)
      · exact .givenUp hg fun x hx hdescriptor => hnone x ⟨hx, hdescriptor⟩
    · rintro (⟨hx, href, hn⟩ | ⟨hx, hname, -, hdescriptor, hn⟩ | ⟨hg, hnone⟩)
      · exact .inl ⟨_, ⟨hx, by rw [href]⟩, by rw [href], by rw [href, hn]⟩
      · exact .inl ⟨_, ⟨hx, hdescriptor⟩, hname, hname ▸ hn⟩
      · exact .inr ⟨hg, fun x hx => hnone x hx.1 hx.2⟩

/-- A class with a field and a method. -/
def classWith (name : String) (superclass : Option String) (field method : String) : ClassFile where
  minor := 0
  major := 52
  access := 0x0021
  name
  superclass
  interfaces := []
  fields := [⟨0x0001, field, "I", none⟩]
  methods := [⟨0x0001, method, "()V", some ⟨0, 1, [.ret 0xb1]⟩⟩]

/-- A class `P` with its subclass `C`, under a table. -/
def subclassUnder (entries : List RenameEntry) : CheckContext where
  dir := (after [.takeIn (classWith "P" none "b" "d") true, .takeIn (classWith "C" (some "P") "a" "c") true]).resolve
  table := .ofEntries entries
  reverse := (RenameTable.ofEntries entries).reverse
  constructors := none
  suffixes := none
  naming := .default
  strategy := .closure

theorem subclassUnder_pair (entries : List RenameEntry) : FieldPair (subclassUnder entries).dir "C" "a" "P" "b" where
  owned := by
    have howned : (subclassUnder entries).dir.owned = ["C", "P"] := by cbv
    exact howned ▸ List.mem_cons_self
  ancestor := by
    have hstack : (subclassUnder entries).dir.stackOf "C" = ["P"] := by cbv
    exact hstack ▸ List.mem_cons_self
  field := by
    have hfields : (subclassUnder entries).dir.fieldsOf "C" = [⟨⟨"C", "a", "I"⟩, 1⟩] := by cbv
    exact ⟨_, hfields ▸ List.mem_cons_self, by decide, rfl⟩
  above := by
    have hfields : (subclassUnder entries).dir.fieldsOf "P" = [⟨⟨"P", "b", "I"⟩, 1⟩] := by cbv
    exact ⟨_, hfields ▸ List.mem_cons_self, by decide, rfl⟩

theorem subclassUnder_methodPair (entries : List RenameEntry) :
    MethodPair (subclassUnder entries).dir ⟨"C", "c", "()V", "P", "d", "run"⟩ where
  owned := (subclassUnder_pair entries).owned
  ancestor := (subclassUnder_pair entries).ancestor
  method := by
    have hmethods : (subclassUnder entries).dir.methodsOf "C" =
        [⟨⟨"C", "c", "()V"⟩, 1, false, none, some [.ret 0xb1]⟩] := by cbv
    exact ⟨_, hmethods ▸ List.mem_cons_self, by decide, by decide, rfl⟩
  above := by
    have hmethods : (subclassUnder entries).dir.methodsOf "P" =
        [⟨⟨"P", "d", "()V"⟩, 1, false, none, some [.ret 0xb1]⟩] := by cbv
    exact ⟨_, hmethods ▸ List.mem_cons_self, by decide, rfl⟩
  other := by decide

/-- A field of each of the two classes gets the same new name, and so does a method of each. -/
def sameName : CheckContext :=
  subclassUnder [.field "P" "b" "value", .field "C" "a" "value", .method "P" "d" "()V" "run", .method "C" "c" "()V" "run"]

theorem sameName_apart : RenameTable.NamesApart sameName.dir sameName.table :=
  RenameTable.namesApart_iff.1 (by cbv)

theorem sameName_declared : RenameTable.EntriesDeclared sameName.dir sameName.table :=
  RenameTable.entriesDeclared_iff.1 (by cbv)

theorem sameName_shade : RenameTable.NamesApart sameName.dir sameName.table ∧
    RenameTable.EntriesDeclared sameName.dir sameName.table ∧ .fieldShade "C" "a" "P" "b" "value" ∈ findings sameName ∧
    .methodShade ⟨"C", "c", "()V", "P", "d", "run"⟩ ∈ findings sameName := by
  have hexact := shades_exact [.takeIn (classWith "P" none "b" "d") true, .takeIn (classWith "C" (some "P") "a" "c") true]
    sameName sameName.table sameName_apart sameName_declared
  refine ⟨sameName_apart, sameName_declared, (hexact.1 "C" "a" "P" "b" "value").2 ⟨subclassUnder_pair _, ?_, .renamed ?_⟩,
    (hexact.2 ⟨"C", "c", "()V", "P", "d", "run"⟩).2 ⟨subclassUnder_methodPair _, ?_, ?_⟩⟩
  · cbv
  · cbv
  · cbv
  · have hmethods : sameName.dir.methodsOf "P" = [⟨⟨"P", "d", "()V"⟩, 1, false, none, some [.ret 0xb1]⟩] := by cbv
    exact .renamed (hmethods ▸ List.mem_cons_self) rfl (by cbv)

/-- The members of the superclass get other new names, and those of the subclass get their old ones. -/
def givenUp : CheckContext :=
  subclassUnder [.field "P" "b" "x", .field "C" "a" "b", .method "P" "d" "()V" "y", .method "C" "c" "()V" "d"]

theorem givenUp_findings :
    findings givenUp = [.fieldShade "C" "a" "P" "b" "b", .methodShade ⟨"C", "c", "()V", "P", "d", "d"⟩] := by
  cbv

/-- **A name that was given up is reported**, though the members do not meet. -/
theorem given_up_name_reported : RenameTable.NamesApart givenUp.dir givenUp.table ∧
    ¬ (∀ c f p g n, .fieldShade c f p g n ∈ findings givenUp ↔
      FieldPair givenUp.dir c f p g ∧ givenUp.table.mapField c f = n ∧ givenUp.table.mapField p g = n) ∧
    ¬ ∀ clash, .methodShade clash ∈ findings givenUp ↔ MethodPair givenUp.dir clash ∧
      givenUp.table.mapMethod clash.owner clash.method clash.descriptor = clash.mapped ∧
      givenUp.table.mapMethod clash.parent clash.parentMethod clash.descriptor = clash.mapped := by
  refine ⟨RenameTable.namesApart_iff.1 (by cbv), fun h => ?_, fun h => ?_⟩
  · have hnew : givenUp.table.mapField "P" "b" = "x" := by cbv
    have hmeets := ((h "C" "a" "P" "b" "b").1 (givenUp_findings ▸ List.mem_cons_self)).2.2
    rw [hnew] at hmeets
    exact absurd hmeets (by decide)
  · have hnew : givenUp.table.mapMethod "P" "d" "()V" = "y" := by cbv
    have hmeets := ((h ⟨"C", "c", "()V", "P", "d", "d"⟩).1
      (givenUp_findings ▸ List.mem_cons_of_mem _ List.mem_cons_self)).2.2
    dsimp only at hmeets
    rw [hnew] at hmeets
    exact absurd hmeets (by decide)

/-- An entry for a field that the superclass does not have hides a shade. -/
example : findings (subclassUnder [.field "C" "a" "b", .field "P" "z" "b"]) = [] := by cbv

end OverrideNames
end RenameAudit
