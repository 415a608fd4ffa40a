import RenameAudit.Proofs.Descriptor.Texts
import RenameAudit.Proofs.Hierarchy.ForwardingShape
import RenameAudit.Proofs.Hierarchy.TakingIn
/-!
# Proofs.Hierarchy.Renaming — class files with renamed classes

A renaming gives each class a name of its own and leaves the classes of the lambda factory alone.  It is carried out in
every place of a class file where a class is named, in descriptors too.  What a directory takes from a class file is
renamed with it (`toDeclaration_classFile`), as long as the renaming keeps apart the keys of methods that had different
ones, which the text of a name followed by a descriptor does not do by itself.
-/
namespace RenameAudit

open ClassFile

/-- The classes that the descriptors of the lambda factory name, and its own. -/
def factoryClasses : List String :=
  [lambdaFactory, "java/lang/invoke/MethodHandles$Lookup", "java/lang/String", "java/lang/invoke/MethodType",
    "java/lang/invoke/MethodHandle", "java/lang/invoke/CallSite", "java/lang/Object"]

/-- **A renaming of classes**: different classes get different names, names that can stand in descriptors get such names,
and the classes of the lambda factory keep theirs. -/
structure ClassRenaming where
  rename : String → String
  injective : ∀ a b, rename a = rename b → a = b
  isClassName : ∀ name, IsClassName name → IsClassName (rename name)
  factory : ∀ name ∈ factoryClasses, rename name = name

namespace ClassRenaming

variable (ρ : ClassRenaming)

/-! ## Descriptors -/

/-- The descriptor with its classes renamed; any other text is kept. -/
def descriptor (s : String) : String :=
  match MethodType.parse? s, FieldType.parse s with
  | some m, _ => (m.mapClasses ρ.rename).text
  | none, .ok t => (t.mapClasses ρ.rename).text
  | none, .error _ => s

variable {ρ}

theorem rename_inj {a b : String} : ρ.rename a = ρ.rename b ↔ a = b :=
  ⟨ρ.injective a b, congrArg ρ.rename⟩

/-- **The type of a renamed descriptor is the renamed type.** -/
theorem parse?_descriptor (s : String) :
    MethodType.parse? (ρ.descriptor s) = (MethodType.parse? s).map (MethodType.mapClasses ρ.rename) := by
  unfold descriptor
  cases hm : MethodType.parse? s with
  | some m =>
    exact MethodType.parse?_text _ ((MethodType.text_of_parse? hm).2.mapClasses ρ.isClassName)
  | none =>
    cases ht : FieldType.parse s with
    | error fault => exact hm
    | ok t =>
      obtain ⟨c, cs, hcs⟩ := List.exists_cons_of_ne_nil (t.mapClasses ρ.rename).chars_ne_nil
      have hne := (FieldType.head_chars_ne _ hcs).1
      dsimp only
      rw [MethodType.parse?, FieldType.text, String.toList_ofList, hcs]
      split
      · rename_i heq
        exact absurd (List.cons.inj heq).1 hne
      · rfl

theorem parse_descriptor (s : String) (h : MethodType.parse? s = none) :
    (FieldType.parse (ρ.descriptor s)).toOption = (FieldType.parse s).toOption.map (FieldType.mapClasses ρ.rename) := by
  unfold descriptor
  rw [h]
  cases ht : FieldType.parse s with
  | error fault =>
    dsimp only
    rw [ht]
    rfl
  | ok t =>
    dsimp only
    rw [FieldType.parse_text _ ((FieldType.text_of_parse ht).2.mapClasses ρ.isClassName)]
    rfl

theorem descriptor_of_no_type {s : String} (hm : MethodType.parse? s = none) (ht : (FieldType.parse s).toOption = none) :
    ρ.descriptor s = s := by
  unfold descriptor
  rw [hm]
  cases h : FieldType.parse s with
  | ok t =>
    rw [h] at ht
    cases ht
  | error fault => rfl

theorem parse_of_toOption {s : String} {t : FieldType} (h : (FieldType.parse s).toOption = some t) :
    FieldType.parse s = .ok t := by
  cases hs : FieldType.parse s with
  | ok t' =>
    rw [hs] at h
    exact congrArg Except.ok (Option.some.inj h)
  | error fault =>
    rw [hs] at h
    cases h

/-- **Different texts stay different**: each is read from its type, or is kept. -/
theorem descriptor_injective {s s' : String} (h : ρ.descriptor s = ρ.descriptor s') : s = s' := by
  have hmethods : Function.Injective (MethodType.mapClasses ρ.rename) := fun _ _ =>
    MethodType.mapClasses_injective ρ.injective
  have hfields : Function.Injective (FieldType.mapClasses ρ.rename) := fun _ _ =>
    FieldType.mapClasses_injective ρ.injective
  have hmethod : MethodType.parse? s = MethodType.parse? s' := Option.map_injective hmethods (by
    rw [← parse?_descriptor, ← parse?_descriptor, h])
  cases hm : MethodType.parse? s with
  | some m =>
    have hm' : MethodType.parse? s' = some m := hmethod ▸ hm
    rw [← (MethodType.text_of_parse? hm).1, ← (MethodType.text_of_parse? hm').1]
  | none =>
    have hm' : MethodType.parse? s' = none := hmethod ▸ hm
    have hfield : (FieldType.parse s).toOption = (FieldType.parse s').toOption := Option.map_injective hfields (by
      rw [← parse_descriptor s hm, ← parse_descriptor s' hm', h])
    cases ht : (FieldType.parse s).toOption with
    | some t =>
      have ht' : (FieldType.parse s').toOption = some t := hfield ▸ ht
      rw [← (FieldType.text_of_parse (parse_of_toOption ht)).1, ← (FieldType.text_of_parse (parse_of_toOption ht')).1]
    | none =>
      have ht' : (FieldType.parse s').toOption = none := hfield ▸ ht
      rwa [descriptor_of_no_type hm ht, descriptor_of_no_type hm' ht'] at h

/-! ## Code -/

section Code

variable (ρ)

/-- A class name, or the descriptor of an array. -/
def typeName (name : String) : String :=
  if Text.startsWith "[" name.toList then ρ.descriptor name else ρ.rename name

def ref (m : MemberRef) : MemberRef :=
  ⟨ρ.rename m.owner, m.name, ρ.descriptor m.descriptor⟩

def handle (h : MethodHandle) : MethodHandle :=
  { h with target := ρ.ref h.target }

def argument : BootstrapArgument → BootstrapArgument
  | .classRef name => .classRef (ρ.typeName name)
  | .handle h => .handle (ρ.handle h)
  | .methodType descriptor => .methodType (ρ.descriptor descriptor)
  | .dynamic name descriptor => .dynamic name (ρ.descriptor descriptor)
  | constant => constant

def site (s : CallSite) : CallSite :=
  ⟨s.name, ρ.descriptor s.descriptor, ⟨ρ.handle s.bootstrap.handle, s.bootstrap.arguments.map ρ.argument⟩⟩

def instruction : Instruction → Instruction
  | .type op name => .type op (ρ.typeName name)
  | .field op target => .field op (ρ.ref target)
  | .call op target viaInterface => .call op (ρ.ref target) viaInterface
  | .dynamic s => .dynamic (ρ.site s)
  | other => other

end Code

theorem ref_inj {a b : MemberRef} : ρ.ref a = ρ.ref b ↔ a = b := by
  refine ⟨fun h => ?_, congrArg ρ.ref⟩
  obtain ⟨howner, hname, hdesc⟩ := MemberRef.mk.inj h
  cases a
  cases b
  rw [MemberRef.mk.injEq]
  exact ⟨ρ.injective _ _ howner, hname, descriptor_injective hdesc⟩

theorem descriptor_of_fixed {s : String} {m : MethodType} (h : MethodType.parse? s = some m)
    (hfixed : m.mapClasses ρ.rename = m) : ρ.descriptor s = s := by
  unfold descriptor
  rw [h]
  dsimp only
  rw [hfixed, (MethodType.text_of_parse? h).1]

theorem descriptor_factory :
    ρ.descriptor lambdaFactoryDescriptor = lambdaFactoryDescriptor ∧
      ρ.descriptor lambdaAltFactoryDescriptor = lambdaAltFactoryDescriptor := by
  have hfixed := ρ.factory
  simp only [factoryClasses, List.forall_mem_cons] at hfixed
  have hthree : MethodType.parse? lambdaFactoryDescriptor = some
      ⟨[.object "java/lang/invoke/MethodHandles$Lookup", .object "java/lang/String", .object "java/lang/invoke/MethodType",
        .object "java/lang/invoke/MethodType", .object "java/lang/invoke/MethodHandle",
        .object "java/lang/invoke/MethodType"], .value (.object "java/lang/invoke/CallSite")⟩ := by cbv
  have hfour : MethodType.parse? lambdaAltFactoryDescriptor = some
      ⟨[.object "java/lang/invoke/MethodHandles$Lookup", .object "java/lang/String", .object "java/lang/invoke/MethodType",
        .array (.object "java/lang/Object")], .value (.object "java/lang/invoke/CallSite")⟩ := by cbv
  constructor
  · refine descriptor_of_fixed hthree ?_
    simp [MethodType.mapClasses, FieldType.mapClasses, ReturnType.mapClasses, hfixed]
  · refine descriptor_of_fixed hfour ?_
    simp [MethodType.mapClasses, FieldType.mapClasses, ReturnType.mapClasses, hfixed]

/-- **The bodies of lambda expressions are told apart from other constants as before.** -/
theorem isLambdaFactory_site (s : CallSite) : isLambdaFactory (ρ.site s).bootstrap = isLambdaFactory s.bootstrap := by
  have howner : (ρ.rename s.bootstrap.handle.target.owner == lambdaFactory) =
      (s.bootstrap.handle.target.owner == lambdaFactory) := by
    have hfixed := ρ.factory lambdaFactory List.mem_cons_self
    rw [Bool.eq_iff_iff, beq_iff_eq, beq_iff_eq]
    exact ⟨fun h => ρ.injective _ _ (h.trans hfixed.symm), fun h => h ▸ hfixed⟩
  have hdesc : ∀ d, ρ.descriptor d = d → (ρ.descriptor s.bootstrap.handle.target.descriptor == d) =
      (s.bootstrap.handle.target.descriptor == d) := fun d hd => by
    rw [Bool.eq_iff_iff, beq_iff_eq, beq_iff_eq]
    exact ⟨fun h => descriptor_injective (h.trans hd.symm), fun h => h ▸ hd⟩
  have hlength : (ρ.site s).bootstrap.arguments.length = s.bootstrap.arguments.length := List.length_map _
  unfold isLambdaFactory
  rw [hlength]
  dsimp only [site, handle, ref]
  rw [howner, hdesc _ descriptor_factory.1, hdesc _ descriptor_factory.2]

theorem lambdaBody?_site (s : CallSite) : lambdaBody? (ρ.site s) = (lambdaBody? s).map ρ.handle := by
  unfold lambdaBody?
  rw [isLambdaFactory_site]
  split
  · have harguments : (ρ.site s).bootstrap.arguments = s.bootstrap.arguments.map ρ.argument := rfl
    rw [harguments]
    cases s.bootstrap.arguments with
    | nil => rfl
    | cons a rest =>
      cases rest with
      | nil => rfl
      | cons b rest => cases b <;> rfl
  · rfl

theorem callShape?_instruction (code : List Instruction) :
    callShape? (code.map ρ.instruction) =
      (callShape? code).map fun (loads, target) => (loads.map ρ.instruction, ρ.ref target) := by
  cases code with
  | nil => rfl
  | cons first rest =>
    cases first with
    | slot op index =>
      have hfirst : ((Instruction.slot op index) :: rest).map ρ.instruction =
          .slot op index :: rest.map ρ.instruction := rfl
      rw [hfirst, callShape?, callShape?, ← List.map_reverse]
      split
      · cases rest.reverse with
        | nil => rfl
        | cons last rest' =>
          cases last with
          | ret op' =>
            cases rest' with
            | nil => rfl
            | cons call loads =>
              cases call with
              | call op'' target viaInterface =>
                simp [instruction]
              | _ => rfl
          | _ => rfl
      · rfl
    | _ => rfl

theorem loadsInOrder_instruction (slot : Nat) (params : List FieldType) (code : List Instruction) :
    loadsInOrder slot (params.map (FieldType.mapClasses ρ.rename)) (code.map ρ.instruction) =
      loadsInOrder slot params code := by
  fun_induction loadsInOrder slot params code with
  | case1 => rw [List.map_nil, loadsInOrder]
  | case2 slot p params op index rest ih =>
    have hfirst : (Instruction.slot op index :: rest).map ρ.instruction = .slot op index :: rest.map ρ.instruction := rfl
    rw [hfirst, List.map_cons, loadsInOrder, FieldType.slots_mapClasses, ih]
  | case3 slot params op name rest ih =>
    have hfirst : (Instruction.type op name :: rest).map ρ.instruction =
        .type op (ρ.typeName name) :: rest.map ρ.instruction := rfl
    rw [hfirst, loadsInOrder, ih]
  | case4 code slot params hnil hslot htype =>
    cases code with
    | nil => exact absurd rfl hnil
    | cons i rest =>
      cases i with
      | slot op index =>
        cases params with
        | nil => rfl
        | cons p params => exact (hslot p params op index rest rfl rfl).elim
      | type op name => exact (htype op name rest rfl).elim
      | _ => cases params <;> rfl

theorem footprint_mapClasses (m : MethodType) : (m.mapClasses ρ.rename).footprint = m.footprint := by
  have hparams : (m.params.map (FieldType.mapClasses ρ.rename)).map FieldType.slots = m.params.map FieldType.slots := by
    rw [List.map_map]
    exact List.map_congr_left fun t _ => t.slots_mapClasses ρ.rename
  rw [MethodType.footprint, MethodType.footprint, MethodType.paramSlots, MethodType.paramSlots, MethodType.mapClasses,
    hparams, ReturnType.slots_mapClasses]

/-- **A method forwards as before**, to the renamed method. -/
theorem forwardTarget?_instruction (access : Access) (descriptor : String) (code : List Instruction) (isLambda : Bool) :
    forwardTarget? access (ρ.descriptor descriptor) (code.map ρ.instruction) isLambda =
      (forwardTarget? access descriptor code isLambda).map ρ.ref := by
  unfold forwardTarget?
  split
  · rfl
  · rw [parse?_descriptor, callShape?_instruction]
    cases MethodType.parse? descriptor with
    | none => rfl
    | some own =>
      cases callShape? code with
      | none => rfl
      | some shape =>
        obtain ⟨loads, target⟩ := shape
        have htarget : (ρ.ref target).descriptor = ρ.descriptor target.descriptor := rfl
        simp only [Option.map_some, htarget, parse?_descriptor]
        cases MethodType.parse? target.descriptor with
        | none => rfl
        | some called =>
          have hparams : (own.mapClasses ρ.rename).params = own.params.map (FieldType.mapClasses ρ.rename) := rfl
          simp only [Option.map_some, hparams, loadsInOrder_instruction, footprint_mapClasses]
          split <;> rfl

/-! ## Class files and declarations -/

section Classes

variable (ρ)

def body (b : Body) : Body :=
  { b with instructions := b.instructions.map ρ.instruction }

def member (m : Member) : Member :=
  { m with descriptor := ρ.descriptor m.descriptor, body := m.body.map ρ.body }

/-- The class file with every class in it renamed. -/
def classFile (c : ClassFile) : ClassFile :=
  { c with
    name := ρ.rename c.name
    superclass := c.superclass.map ρ.rename
    interfaces := c.interfaces.map ρ.rename
    fields := c.fields.map ρ.member
    methods := c.methods.map ρ.member }

def field (f : Field) : Field :=
  ⟨ρ.ref f.ref, f.access⟩

def method (m : Method) : Method :=
  { m with ref := ρ.ref m.ref, forwards := m.forwards.map ρ.ref, code := m.code.map (·.map ρ.instruction) }

def declaration (d : Declaration) : Declaration :=
  { d with
    superclass := d.superclass.map ρ.rename
    interfaces := d.interfaces.map ρ.rename
    fields := d.fields.map ρ.field
    methods := d.methods.map ρ.method }

end Classes

theorem isFieldDescriptor_descriptor (s : String) :
    ClassFile.isFieldDescriptor (ρ.descriptor s) = ClassFile.isFieldDescriptor s := by
  have hoption : ∀ s, ClassFile.isFieldDescriptor s = (FieldType.parse s).toOption.isSome := fun s => by
    unfold ClassFile.isFieldDescriptor
    cases FieldType.parse s <;> rfl
  have hmethod : ∀ {s m}, MethodType.parse? s = some m → ClassFile.isFieldDescriptor s = false := fun {s m} hm => by
    obtain ⟨rest, hrest⟩ := opens_of_parse? hm
    rw [hoption]
    cases ht : FieldType.parse s with
    | error fault => rfl
    | ok t =>
      rw [← (FieldType.text_of_parse ht).1, FieldType.text, String.toList_ofList] at hrest
      exact absurd rfl (t.head_chars_ne hrest).1
  cases hm : MethodType.parse? s with
  | some m =>
    have hm' : MethodType.parse? (ρ.descriptor s) = some (m.mapClasses ρ.rename) := by rw [parse?_descriptor, hm]; rfl
    rw [hmethod hm, hmethod hm']
  | none => rw [hoption, hoption, parse_descriptor s hm, Option.isSome_map]

theorem structureFault?_eq_none {c : ClassFile} :
    c.structureFault? = none ↔ c.superclass ≠ some c.name ∧ c.name ∉ c.interfaces ∧
      (∀ f ∈ c.fields, ClassFile.isFieldDescriptor f.descriptor = true) ∧
      ∀ m ∈ c.methods, MethodType.parse? m.descriptor ≠ none := by
  unfold ClassFile.structureFault?
  split
  · rename_i hself
    refine iff_of_false (fun h => by cases h) fun h => hself.elim h.1 h.2.1
  · rename_i hself
    rw [not_or] at hself
    rw [← and_assoc, and_iff_right hself]
    split
    · rename_i f hf
      refine iff_of_false (fun h => by cases h) fun h => ?_
      have hbad := List.find?_some hf
      rw [h.1 f (List.mem_of_find?_eq_some hf)] at hbad
      cases hbad
    · rename_i hfields
      rw [Option.map_eq_none_iff, List.find?_eq_none]
      refine ⟨fun h => ⟨fun f hf => ?_, fun m hm => ?_⟩, fun h m hm => ?_⟩
      · simpa using List.find?_eq_none.1 hfields f hf
      · simpa using h m hm
      · simpa using h.2 m hm

/-- **A renamed class file is refused for what it says exactly if it was before.** -/
theorem structureFault?_classFile (c : ClassFile) :
    (ρ.classFile c).structureFault? = none ↔ c.structureFault? = none := by
  rw [structureFault?_eq_none, structureFault?_eq_none]
  have hsuper : (ρ.classFile c).superclass = some (ρ.classFile c).name ↔ c.superclass = some c.name := by
    dsimp only [classFile]
    cases c.superclass with
    | none => exact iff_of_false (fun h => by cases h) fun h => by cases h
    | some s => simp [rename_inj]
  have hinterfaces : (ρ.classFile c).name ∈ (ρ.classFile c).interfaces ↔ c.name ∈ c.interfaces := by
    dsimp only [classFile]
    simp [rename_inj]
  refine and_congr (not_congr hsuper) (and_congr (not_congr hinterfaces) (and_congr ?_ ?_))
  · dsimp only [classFile]
    simp [member, isFieldDescriptor_descriptor]
  · dsimp only [classFile]
    simp [member, parse?_descriptor]

/-- The methods that a class has, calls, or takes for bodies of lambda expressions. -/
def calledBy : Instruction → List MemberRef
  | .call _ target _ => [target]
  | .dynamic s => (lambdaBody? s).toList.map (·.target)
  | _ => []

def methodRefs (c : ClassFile) : List MemberRef :=
  c.methods.map c.memberRefOf ++ (c.methods.flatMap ClassFile.Member.instructions).flatMap calledBy

/-- What a method forwards to it calls. -/
theorem call_of_forwardTarget? {access : Access} {descriptor : String} {code : List Instruction} {isLambda : Bool}
    {target : MemberRef} (h : forwardTarget? access descriptor code isLambda = some target) :
    ∃ op viaInterface, Instruction.call op target viaInterface ∈ code := by
  unfold forwardTarget? at h
  split at h
  · cases h
  · split at h
    · rename_i own loads called hown hshape
      split at h
      · split at h
        · cases h
          obtain ⟨op, viaInterface, ret, rfl⟩ := callShape?_eq_some.1 hshape
          exact ⟨op, viaInterface, by simp⟩
        · cases h
      · cases h
    · cases h

/-- The bodies of lambda expressions in a class that are methods of it. -/
def lambdaBodies (c : ClassFile) : List MemberRef :=
  (c.methods.flatMap ClassFile.Member.instructions).filterMap fun
    | .dynamic s => (lambdaBody? s).bind fun h => if h.target.owner = c.name then some h.target else none
    | _ => none

theorem lambdaKeys_eq (c : ClassFile) : c.lambdaKeys = (lambdaBodies c).map MemberRef.key := by
  unfold ClassFile.lambdaKeys lambdaBodies
  rw [List.map_filterMap]
  refine List.filterMap_congr fun i _ => ?_
  cases i with
  | dynamic s =>
    dsimp only
    cases lambdaBody? s with
    | none => rfl
    | some h =>
      simp only [Option.bind_some]
      split <;> rfl
  | _ => rfl

theorem mem_methodRefs_of_mem_lambdaBodies {c : ClassFile} {r : MemberRef} (h : r ∈ lambdaBodies c) : r ∈ methodRefs c := by
  obtain ⟨i, hi, hr⟩ := List.mem_filterMap.1 h
  refine List.mem_append_right _ (List.mem_flatMap.2 ⟨i, hi, ?_⟩)
  cases i with
  | dynamic s =>
    obtain ⟨handle, hhandle, hr⟩ := Option.bind_eq_some_iff.1 hr
    split at hr
    · cases hr
      rw [calledBy, hhandle]
      exact List.mem_singleton_self _
    · cases hr
  | _ => cases hr

theorem lambdaBodies_classFile (c : ClassFile) : lambdaBodies (ρ.classFile c) = (lambdaBodies c).map ρ.ref := by
  have hcode : (ρ.classFile c).methods.flatMap ClassFile.Member.instructions =
      (c.methods.flatMap ClassFile.Member.instructions).map ρ.instruction := by
    have hmethods : (ρ.classFile c).methods = c.methods.map ρ.member := rfl
    rw [hmethods, List.flatMap_map, List.map_flatMap]
    refine List.flatMap_congr fun m _ => ?_
    dsimp only [ClassFile.Member.instructions, member]
    cases m.body <;> rfl
  unfold lambdaBodies
  rw [hcode, List.filterMap_map, List.map_filterMap]
  refine List.filterMap_congr fun i _ => ?_
  cases i with
  | dynamic s =>
    have hi : ρ.instruction (.dynamic s) = .dynamic (ρ.site s) := rfl
    rw [Function.comp_apply, hi]
    dsimp only
    rw [lambdaBody?_site]
    cases lambdaBody? s with
    | none => rfl
    | some h =>
      have howner : (ρ.handle h).target.owner = (ρ.classFile c).name ↔ h.target.owner = c.name := rename_inj
      simp only [Option.map_some, Option.bind_some, howner]
      split <;> rfl
  | _ => rfl

theorem methodOf_classFile {c : ClassFile} (hkeys : ∀ a ∈ methodRefs c, ∀ b ∈ methodRefs c,
    (ρ.ref a).key = (ρ.ref b).key ↔ a.key = b.key) (owned : Bool) {m : Member} (hm : m ∈ c.methods) :
    (ρ.classFile c).methodOf owned (ρ.classFile c).lambdaKeys (ρ.member m) =
      ρ.method (c.methodOf owned c.lambdaKeys m) := by
  have href : c.memberRefOf m ∈ methodRefs c := List.mem_append_left _ (List.mem_map_of_mem hm)
  have hlambda : (ρ.classFile c).lambdaKeys.contains (ρ.ref (c.memberRefOf m)).key =
      c.lambdaKeys.contains (c.memberRefOf m).key := by
    rw [lambdaKeys_eq, lambdaKeys_eq, lambdaBodies_classFile, List.map_map, Bool.eq_iff_iff, List.contains_iff_mem,
      List.contains_iff_mem, List.mem_map, List.mem_map]
    exact exists_congr fun r => and_congr_right fun hr => hkeys r (mem_methodRefs_of_mem_lambdaBodies hr) _ href
  have hself : (ρ.classFile c).memberRefOf (ρ.member m) = ρ.ref (c.memberRefOf m) := rfl
  have hcode : (ρ.member m).body.map (·.instructions) = (m.body.map (·.instructions)).map (·.map ρ.instruction) := by
    dsimp only [member]
    cases m.body <;> rfl
  unfold ClassFile.methodOf method
  dsimp only
  rw [hself, hlambda, hcode]
  cases m.body with
  | none => cases owned <;> rfl
  | some b =>
    simp only [Option.map_some, Option.bind_some]
    have hforward := forwardTarget?_instruction (ρ := ρ) m.access m.descriptor b.instructions
      (c.lambdaKeys.contains (c.memberRefOf m).key)
    have haccess : (ρ.member m).access = m.access := rfl
    have hdescriptor : (ρ.member m).descriptor = ρ.descriptor m.descriptor := rfl
    rw [haccess, hdescriptor, hforward]
    cases owned <;> rfl

theorem forwards_mem_methodRefs {c : ClassFile} {owned : Bool} {m : Member} (hm : m ∈ c.methods) {t : MemberRef}
    (ht : (c.methodOf owned c.lambdaKeys m).forwards = some t) : t ∈ methodRefs c := by
  obtain ⟨code, hcode, hforward⟩ := Option.bind_eq_some_iff.1 ht
  obtain ⟨op, viaInterface, hcall⟩ := call_of_forwardTarget? hforward
  have hcalls : t ∈ calledBy (.call op t viaInterface) := List.mem_singleton_self t
  refine List.mem_append_right _ (List.mem_flatMap.2 ⟨_, List.mem_flatMap.2 ⟨m, hm, ?_⟩, hcalls⟩)
  rwa [ClassFile.Member.instructions, hcode]

/-- **What a directory takes from a renamed class file** is what it takes from the class file, renamed. -/
theorem toDeclaration_classFile {c : ClassFile} (hkeys : ∀ a ∈ methodRefs c, ∀ b ∈ methodRefs c,
    (ρ.ref a).key = (ρ.ref b).key ↔ a.key = b.key) (owned : Bool) :
    (ρ.classFile c).toDeclaration owned = ρ.declaration (c.toDeclaration owned) := by
  have hmethods : ((ρ.classFile c).methods.map ((ρ.classFile c).methodOf owned (ρ.classFile c).lambdaKeys)) =
      (c.methods.map (c.methodOf owned c.lambdaKeys)).map ρ.method := by
    have hmap : (ρ.classFile c).methods = c.methods.map ρ.member := rfl
    rw [hmap, List.map_map, List.map_map]
    exact List.map_congr_left fun m hm => methodOf_classFile hkeys owned hm
  have hfields : ((ρ.classFile c).fields.map fun f => (⟨(ρ.classFile c).memberRefOf f, f.access⟩ : Field)) =
      (c.fields.map fun f => (⟨c.memberRefOf f, f.access⟩ : Field)).map ρ.field := by
    have hmap : (ρ.classFile c).fields = c.fields.map ρ.member := rfl
    rw [hmap, List.map_map, List.map_map]
    rfl
  have hfirstMethods := @firstByKey_map _ _ Method.key Method.key ρ.method (c.methods.map (c.methodOf owned c.lambdaKeys))
    fun a ha b hb => by
      obtain ⟨m, hm, rfl⟩ := List.mem_map.1 ha
      obtain ⟨m', hm', rfl⟩ := List.mem_map.1 hb
      exact hkeys _ (List.mem_append_left _ (List.mem_map_of_mem hm)) _
        (List.mem_append_left _ (List.mem_map_of_mem hm'))
  have hfirstFields := @firstByKey_map _ _ (·.ref.name) (·.ref.name) ρ.field
    (c.fields.map fun f => (⟨c.memberRefOf f, f.access⟩ : Field)) fun _ _ _ _ => Iff.rfl
  unfold ClassFile.toDeclaration declaration
  rw [hmethods, hfields, hfirstMethods, hfirstFields]
  rfl

end ClassRenaming
end RenameAudit
