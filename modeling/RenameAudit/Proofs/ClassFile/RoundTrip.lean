import Mathlib
import RenameAudit.ClassFile.Parser
import RenameAudit.Proofs.ClassFile.Instructions
/-!
# Proofs.ClassFile.RoundTrip — a written class is read back

The attributes, the members and the class are written so that they are read back (`writes_member`,
`writes_classAttributes`, `writes_afterPool`).  The plan of a class that fits the format holds everything that it needs,
so the class can be written, and what is read back equals it (`parse_encode`); it is the class whose calls share their
bootstrap methods, which is another one only where a bootstrap method has the other zero.
-/
namespace RenameAudit
namespace ClassFile

open ListReader Reader

/-! ## Attributes -/

/-- The name and contents of one attribute. -/
def readAttribute (pool : Pool) : Reader (String × Bytes) := do
  let index ← u2
  let name ← lift (pool.text index)
  let length ← u4
  let info ← take length.toNat
  return (name, info)

/-- One bootstrap method. -/
def BootstrapMethod.readEntry (pool : Pool) : Reader BootstrapMethod := do
  let index ← u2
  let handle ← lift (pool.methodHandle index)
  let arguments ← Reader.table do
    let index ← u2
    lift (pool.loadable index)
  return ⟨handle, arguments⟩

section Attributes

variable {pool : Pool} {table : List BootstrapMethod}

theorem reads_noAttributes : Reads (readAttributes pool) (Bytes.ofU16 0) [] :=
  (reads_u2 0).bind_last (reads_pure [])

theorem reads_namedAttribute {name : String} {index : UInt16} (h : Stands pool index (.text name)) {info : Bytes}
    (hinfo : info.length < 4294967296) :
    Reads (readAttributes pool) (Bytes.ofU16 1 ++ Writing.namedAttribute index info) [(name, info)] := by
  have hlength : (UInt32.ofNat info.length).toNat = info.length := UInt32.toNat_ofNat_of_lt' hinfo
  have hitem : Reads (readAttribute pool) (Writing.namedAttribute index info) (name, info) := by
    rw [Writing.namedAttribute, List.append_assoc]
    exact (reads_u2 index).bind (Reads.after_lift h.text ((reads_u4 _).bind ((reads_take info hlength).bind_last
      (reads_pure _))))
  have hitems : Reads ((readAttribute pool).times 1) [Writing.namedAttribute index info].flatten [(name, info)] :=
    Reads.times (.cons hitem .nil) rfl
  rw [List.flatten_singleton] at hitems
  exact (reads_u2 1).bind hitems

theorem codeOf_code (info : Bytes) : codeOf [("Code", info)] = .ok (some info) := by
  simp [codeOf, attributesNamed]

theorem bootstrapsOf_table {info : Bytes} (h : Reads (BootstrapMethod.readTable pool) info table) :
    bootstrapsOf pool [("BootstrapMethods", info)] = .ok table := by
  simp [bootstrapsOf, attributesNamed, Reader.all_of_reads h]

end Attributes

section Steps

variable {plan : Plan} {pre : Pool → Prop} {bs : List BootstrapMethod}

theorem writes_argumentIndex {a : BootstrapArgument} (hproper : a.Proper) (h : a.entries ⊆ plan.needed) :
    Writes plan pre bs (do return Bytes.ofU16 (← Writing.argument a)) bs fun pool part =>
      part.length = 2 ∧ Reads (do let index ← u2; lift (pool.loadable index)) part a :=
  (writes_argument hproper h).bind fun index => .pure fun _ hpre =>
    ⟨rfl, (reads_u2 index).bind_last (reads_lift hpre.2)⟩

/-- **A written bootstrap method is read back.** -/
theorem writes_bootstrapEntry {b : BootstrapMethod} (hproper : b.Proper) (hneeded : b.entries ⊆ plan.needed)
    (harguments : b.arguments.length < 65536) (hbs : bs <+: plan.table) :
    Writes plan pre bs (Writing.bootstrapEntry b) bs fun pool bytes =>
      bytes.length = 4 + 2 * b.arguments.length ∧ Reads (BootstrapMethod.readEntry pool) bytes b := by
  rw [BootstrapMethod.entries, List.append_subset] at hneeded
  refine (writes_methodHandle hneeded.1).bind fun handle => (Writes.table_plain (fun a ha bs _ =>
    writes_argumentIndex (hproper.2 a ha) fun e he => hneeded.2 (List.mem_flatMap.2 ⟨a, ha, he⟩)) hbs).bind
      fun arguments => .pure fun pool hpre => ?_
  obtain ⟨⟨-, hhandle⟩, parts, hparts, rfl⟩ := hpre
  have hlength : parts.flatten.length = (b.arguments.map fun _ => 2).sum :=
    length_flatten_of_sizes (hparts.imp fun _ _ hpart => hpart.1)
  have href := hhandle.methodHandle
  rw [b.handle.reference_eq hproper.1] at href
  refine ⟨?_, (reads_u2 handle).bind (Reads.after_lift href ?_)⟩
  · rw [List.map_const', List.sum_replicate, smul_eq_mul] at hlength
    simp only [List.length_append, Bytes.length_ofU16, hlength]
    omega
  · exact (reads_table (hparts.imp fun _ _ hpart => hpart.2).flip harguments).bind_last (reads_pure _)

/-- **The attributes of a class** give back its bootstrap methods. -/
theorem writes_classAttributes (hproper : ∀ b ∈ plan.table, b.Proper) (hneeded : tableEntries plan.table ⊆ plan.needed)
    (harguments : ∀ b ∈ plan.table, b.arguments.length < 65536) (hsize : tableSize plan.table < 4294967296) :
    Writes plan pre plan.table Writing.classAttributes plan.table fun pool bytes =>
      ∃ attributes, Reads (readAttributes pool) bytes attributes ∧ bootstrapsOf pool attributes = .ok plan.table := by
  refine Writes.of_get (f := fun bootstraps => if bootstraps.isEmpty then return Bytes.ofU16 0
    else do
      let info ← Writing.table Writing.bootstrapEntry bootstraps
      let name ← Writing.text "BootstrapMethods"
      return Bytes.ofU16 1 ++ Writing.namedAttribute name info) ?_
  cases hempty : plan.table.isEmpty with
  | true =>
    rw [List.isEmpty_iff.1 hempty]
    exact .pure fun pool _ => ⟨[], reads_noAttributes, rfl⟩
  | false =>
    rw [tableEntries, hempty, if_neg Bool.false_ne_true, List.append_subset] at hneeded
    refine (Writes.table_plain (fun b hb bs => writes_bootstrapEntry (hproper b hb) (fun e he =>
      hneeded.1 (List.mem_flatMap.2 ⟨b, hb, he⟩)) (harguments b hb)) List.prefix_rfl).bind fun info =>
        (writes_text (hneeded.2 List.mem_cons_self)).bind fun name => .pure fun pool hpre => ?_
    obtain ⟨⟨-, parts, hparts, rfl⟩, hname⟩ := hpre
    have hlength : parts.flatten.length = (plan.table.map fun b => 4 + 2 * b.arguments.length).sum :=
      length_flatten_of_sizes (hparts.imp fun _ _ hpart => hpart.1)
    rw [tableSize] at hsize
    have htable : Reads (BootstrapMethod.readTable pool) _ plan.table :=
      reads_table (hparts.imp fun _ _ hpart => hpart.2).flip plan.table_fits
    refine ⟨_, reads_namedAttribute hname ?_, bootstrapsOf_table htable⟩
    rw [List.length_append, Bytes.length_ofU16, hlength]
    exact hsize

/-- The attributes of a member give back its body. -/
theorem writes_memberAttributes {body : Option Body} (hproper : ∀ b, body = some b → ∀ i ∈ b.instructions, i.Proper)
    (hneeded : body.elim [] (Body.entries plan.table) ⊆ plan.needed)
    (hsize : ∀ b, body = some b → b.size < 4294967296)
    (htable : (body.elim [] Body.bootstraps).foldl shared bs <+: plan.table) :
    Writes plan pre bs (Writing.memberAttributes body) ((body.elim [] Body.bootstraps).foldl shared bs)
      fun pool bytes => ∃ attributes code, Reads (readAttributes pool) bytes attributes ∧ codeOf attributes = .ok code ∧
        ∀ access name descriptor, MemberLayout.decode pool plan.table ⟨access, name, descriptor, code⟩ =
          .ok ⟨access, name, descriptor, body.map (Body.sharing plan.table)⟩ := by
  cases body with
  | none => exact .pure fun pool _ => ⟨[], none, reads_noAttributes, rfl, fun _ _ _ => rfl⟩
  | some b =>
    have hcode : .text "Code" ∈ plan.needed := hneeded (List.mem_append_right _ List.mem_cons_self)
    refine (writes_body (hproper b rfl) hneeded (hsize b rfl) htable).bind fun info => (writes_text hcode).bind
      fun name => .pure fun pool hpre => ?_
    obtain ⟨⟨-, hlength, hparse⟩, hname⟩ := hpre
    refine ⟨_, some info, reads_namedAttribute hname (hlength ▸ hsize b rfl), codeOf_code info, fun _ _ _ => ?_⟩
    simp only [MemberLayout.decode, hparse]
    rfl

/-- **A written member is read back.** -/
theorem writes_member {m : Member} (hproper : ∀ b, m.body = some b → ∀ i ∈ b.instructions, i.Proper)
    (hneeded : m.entries plan.table ⊆ plan.needed) (hsize : ∀ b, m.body = some b → b.size < 4294967296)
    (htable : m.bootstraps.foldl shared bs <+: plan.table) :
    Writes plan pre bs (Writing.member m) (m.bootstraps.foldl shared bs) fun pool bytes =>
      ∃ l, Reads (MemberLayout.read pool) bytes l ∧ l.decode pool plan.table = .ok (m.sharing plan.table) := by
  rw [Member.entries, List.append_subset] at hneeded
  refine (writes_text (hneeded.1 (by simp))).bind fun name => (writes_text (hneeded.1 (by simp))).bind fun descriptor =>
    (writes_memberAttributes hproper hneeded.2 hsize htable).bind fun bytes => .pure fun pool hpre => ?_
  obtain ⟨⟨⟨-, hname⟩, hdescriptor⟩, attributes, code, hattributes, hcode, hdecode⟩ := hpre
  refine ⟨⟨m.access, m.name, m.descriptor, code⟩, ?_, hdecode _ _ _⟩
  simp only [List.append_assoc]
  exact (reads_u2 m.access).bind ((reads_u2 name).bind (Reads.after_lift hname.text ((reads_u2 descriptor).bind
    (Reads.after_lift hdescriptor.text (hattributes.bind_last (Reads.after_lift hcode (reads_pure _)))))))

/-- Values that are read and then decoded, each from its part. -/
theorem exists_decoded {α β γ : Type} {reader : Reader β} {decode : β → Except Fault γ} {value : α → γ} {as : List α}
    {parts : List Bytes}
    (h : List.Forall₂ (fun a part => ∃ b, Reads reader part b ∧ decode b = .ok (value a)) as parts) :
    ∃ bs, List.Forall₂ (Reads reader) parts bs ∧ bs.mapM decode = .ok (as.map value) ∧ bs.length = as.length := by
  induction h with
  | nil => exact ⟨[], .nil, rfl, rfl⟩
  | cons hpart _ ih =>
    obtain ⟨b, hread, hdecode⟩ := hpart
    obtain ⟨bs, hreads, hdecodes, hlength⟩ := ih
    refine ⟨b :: bs, .cons hread hreads, ?_, congrArg Nat.succ hlength⟩
    rw [List.mapM_cons, hdecode, hdecodes]
    rfl

/-- A written table of members is read back, and then decoded. -/
theorem writes_members {members : List Member} (hproper : ∀ m ∈ members, ∀ b, m.body = some b →
      ∀ i ∈ b.instructions, i.Proper)
    (hneeded : members.flatMap (Member.entries plan.table) ⊆ plan.needed)
    (hsize : ∀ m ∈ members, ∀ b, m.body = some b → b.size < 4294967296) (hcount : members.length < 65536)
    (htable : (members.flatMap Member.bootstraps).foldl shared bs <+: plan.table) :
    Writes plan pre bs (Writing.table Writing.member members) ((members.flatMap Member.bootstraps).foldl shared bs)
      fun pool bytes => ∃ layouts, Reads (Reader.table (MemberLayout.read pool)) bytes layouts ∧
        layouts.mapM (MemberLayout.decode pool plan.table) = .ok (members.map (Member.sharing plan.table)) := by
  rw [List.foldl_flatMap] at htable ⊢
  refine (Writes.table _ (fun bs m => prefix_foldl_shared bs m.bootstraps) (fun m hm bs htable => writes_member
    (hproper m hm) (fun e he => hneeded (List.mem_flatMap.2 ⟨m, hm, he⟩)) (hsize m hm) htable) htable).imp
    (fun _ hpre => hpre) fun pool bytes _ ⟨parts, hparts, hbytes⟩ => ?_
  obtain ⟨layouts, hreads, hdecode, hlength⟩ := exists_decoded hparts
  refine ⟨layouts, ?_, hdecode⟩
  rw [hbytes, ← hlength]
  exact reads_table hreads (hlength ▸ hcount)

/-! ## Classes -/

/-- **What is after the pool of a class**: the parts of its layout, and the bodies in it. -/
inductive AfterPool (table : List BootstrapMethod) (c : ClassFile) (pool : Pool) : Bytes → Prop where
  | mk {name superclass : UInt16} {interfaces fields methods attributes : Bytes}
      {fieldLayouts methodLayouts : List MemberLayout} {named : List (String × Bytes)}
      (hname : pool.className name = .ok c.name)
      (hsuperclass : superclass = 0 ∧ c.superclass = none ∨
        superclass ≠ 0 ∧ ∃ s, c.superclass = some s ∧ pool.className superclass = .ok s)
      (hinterfaces : Reads (Reader.table do let index ← u2; lift (pool.className index)) interfaces c.interfaces)
      (hfields : Reads (Reader.table (MemberLayout.read pool)) fields fieldLayouts)
      (hmethods : Reads (Reader.table (MemberLayout.read pool)) methods methodLayouts)
      (hattributes : Reads (readAttributes pool) attributes named)
      (htable : bootstrapsOf pool named = .ok table)
      (hfieldBodies : fieldLayouts.mapM (MemberLayout.decode pool table) = .ok (c.fields.map (Member.sharing table)))
      (hmethodBodies : methodLayouts.mapM (MemberLayout.decode pool table) =
        .ok (c.methods.map (Member.sharing table))) :
      AfterPool table c pool (Bytes.ofU16 c.access ++ Bytes.ofU16 name ++ Bytes.ofU16 superclass ++ interfaces ++
        fields ++ methods ++ attributes)

/-- **The layout of a class is read back**, if its pool is and what is after it, and its bodies are decoded. -/
theorem AfterPool.exists_layout {c : ClassFile} {pool : Pool} {rest : Bytes} (hrest : AfterPool c.bootstraps c pool rest)
    (hpool : ∀ d ∈ pool, d.Fits) (hcount : pool.width + 1 < 65536) :
    ∃ l, Reads Layout.read (Bytes.ofU32 0xCAFEBABE ++ Bytes.ofU16 c.minor ++ Bytes.ofU16 c.major ++
      Bytes.ofU16 (UInt16.ofNat (pool.width + 1)) ++ pool.encode ++ rest) l ∧ l.decode = .ok c.sharing := by
  cases hrest with
  | @mk name superclass interfaces fields methods attributes fieldLayouts methodLayouts named hname hsuperclass
      hinterfaces hfields hmethods hattributes htable hfieldBodies hmethodBodies =>
    obtain ⟨l, hl⟩ : ∃ l : Layout, l = ⟨c.minor, c.major, pool, c.access, c.name, c.superclass, c.interfaces,
      fieldLayouts, methodLayouts, c.bootstraps⟩ := ⟨_, rfl⟩
    refine ⟨l, ?_, by simp only [hl, Layout.decode, hfieldBodies, hmethodBodies]; rfl⟩
    simp only [List.append_assoc]
    refine (reads_u4 0xCAFEBABE).bind ?_
    rw [if_neg (by simp [magic])]
    -- The count and the constants of the pool are read at once.
    rw [← List.append_assoc (Bytes.ofU16 (UInt16.ofNat (pool.width + 1)))]
    refine (reads_u2 c.minor).bind ((reads_u2 c.major).bind ((Pool.reads_encode hpool hcount).bind
      ((reads_u2 c.access).bind ((reads_u2 name).bind (Reads.after_lift hname ((reads_u2 superclass).bind ?_))))))
    extract_lets afterSuperclass
    have hafter : ∀ s, s = c.superclass →
        Reads (afterSuperclass s) (interfaces ++ (fields ++ (methods ++ attributes))) l := by
      rintro s rfl
      rw [hl]
      exact hinterfaces.bind (hfields.bind (hmethods.bind (hattributes.bind_last (Reads.after_lift htable
        (reads_pure _)))))
    rcases hsuperclass with ⟨hzero, hnone⟩ | ⟨hne, s, hsome, hs⟩
    · rw [if_pos hzero]
      exact (reads_pure none).bind (hafter none hnone.symm)
    · rw [if_neg hne]
      exact Reads.after_lift (by rw [hs]; rfl) (hafter (some s) hsome.symm)

/-- The index of a superclass is written, or 0 where there is none. -/
theorem writes_superclass {α : Type} {superclass : Option String} {f : UInt16 → Writing α} {bs' : List BootstrapMethod}
    {post : Pool → α → Prop} (hneeded : superclass.elim [] (namedEntries .classRef) ⊆ plan.needed)
    (hf : ∀ i, Writes plan (fun pool => pre pool ∧ (i = 0 ∧ superclass = none ∨
      i ≠ 0 ∧ ∃ s, superclass = some s ∧ pool.className i = .ok s)) bs (f i) bs' post) :
    Writes plan pre bs (match superclass with
      | some s => Writing.className s >>= f
      | none => pure 0 >>= f) bs' post := by
  cases superclass with
  | none => exact (Writes.pure fun _ _ => .inl ⟨rfl, rfl⟩).bind hf
  | some s =>
    exact ((writes_className hneeded).imp (fun _ hpre => hpre) fun _ _ _ hstands =>
      .inr ⟨hstands.ne_zero, s, rfl, hstands.className⟩).bind hf

/-- A table of the indices of classes. -/
theorem writes_classNames {names : List String} (hneeded : names.flatMap (namedEntries .classRef) ⊆ plan.needed)
    (hcount : names.length < 65536) (hbs : bs <+: plan.table) :
    Writes plan pre bs (Writing.table (fun i => return Bytes.ofU16 (← Writing.className i)) names) bs
      fun pool bytes => Reads (Reader.table do let index ← u2; lift (pool.className index)) bytes names := by
  refine (Writes.table_plain (R := fun pool name part => Reads (do let index ← u2; lift (pool.className index)) part name)
    (fun name hname bs _ => ?_) hbs).imp (fun _ hpre => hpre) fun pool bytes _ ⟨parts, hparts, hbytes⟩ => ?_
  · exact (writes_className fun e he => hneeded (List.mem_flatMap.2 ⟨name, hname, he⟩)).bind fun index =>
      .pure fun _ hpre => (reads_u2 index).bind_last (reads_lift hpre.2.className)
  · rw [hbytes]
    exact reads_table hparts.flip hcount

end Steps

/-! ## Plans -/

theorem mem_of_foldl_shared {new bs : List BootstrapMethod} {b : BootstrapMethod} (h : b ∈ new.foldl shared bs) :
    b ∈ bs ∨ b ∈ new := by
  induction new generalizing bs with
  | nil => exact .inl h
  | cons b' new ih =>
    rcases ih h with hshared | hnew
    · unfold shared at hshared
      split at hshared
      · exact .inl hshared
      · exact (List.mem_append.1 hshared).imp id fun hb => List.mem_cons.2 (.inl (List.mem_singleton.1 hb))
    · exact .inr (List.mem_cons_of_mem b' hnew)

theorem Proper.of_mem_bootstraps {c : ClassFile} (h : c.Proper) {b : BootstrapMethod} (hb : b ∈ c.bootstraps) :
    b.Proper := by
  obtain hnil | hb := mem_of_foldl_shared hb
  · cases hnil
  · obtain ⟨m, hm, hb⟩ := List.mem_flatMap.1 hb
    exact h.bootstrap hm hb

/-- The bootstrap methods are collected from the fields first, and then from the methods. -/
theorem bootstraps_eq (c : ClassFile) : c.bootstraps =
    (c.methods.flatMap Member.bootstraps).foldl shared ((c.fields.flatMap Member.bootstraps).foldl shared []) := by
  rw [bootstraps, List.flatMap_append, List.foldl_append]

/-- **A class is written after its pool**, from nothing, by a plan for it. -/
theorem writes_afterPool (plan : Plan) {c : ClassFile} (hproper : c.Proper) (h : c.Fits)
    (hneeded : c.entries ⊆ plan.needed) (hplan : c.bootstraps = plan.table) :
    Writes plan (fun _ => True) [] (Writing.afterPool c) plan.table
      fun pool bytes => AfterPool plan.table c pool bytes := by
  have hproperTable : ∀ b ∈ plan.table, b.Proper := hplan ▸ fun b hb => hproper.of_mem_bootstraps hb
  have harguments : ∀ b ∈ plan.table, b.arguments.length < 65536 := hplan ▸ h.arguments
  have hsize : tableSize plan.table < 4294967296 := hplan ▸ h.table
  rw [entries, hplan, List.flatMap_append] at hneeded
  simp only [List.append_subset] at hneeded
  obtain ⟨⟨⟨⟨hname, hsuperclass⟩, hinterfaces⟩, hfields, hmethods⟩, htable⟩ := hneeded
  rw [bootstraps_eq] at hplan
  have hmethodTable : (c.methods.flatMap Member.bootstraps).foldl shared
      ((c.fields.flatMap Member.bootstraps).foldl shared []) <+: plan.table := by rw [hplan]
  have hfieldTable := (prefix_foldl_shared _ (c.methods.flatMap Member.bootstraps)).trans hmethodTable
  refine (writes_className hname).bind fun name => ?_
  extract_lets afterSuperclass
  refine writes_superclass hsuperclass fun superclass =>
    (writes_classNames hinterfaces h.interfaces List.nil_prefix).bind fun interfaces =>
    (writes_members (fun m hm => hproper m (List.mem_append_left _ hm)) hfields
      (fun m hm => h.bodies m (List.mem_append_left _ hm)) h.fields hfieldTable).bind fun fields =>
    (writes_members (fun m hm => hproper m (List.mem_append_right _ hm)) hmethods
      (fun m hm => h.bodies m (List.mem_append_right _ hm)) h.methods hmethodTable).bind fun methods => ?_
  rw [hplan]
  refine (writes_classAttributes hproperTable htable harguments hsize).bind fun attributes => .pure fun pool hpre => ?_
  obtain ⟨⟨⟨⟨⟨⟨-, hname⟩, hsuperclass⟩, hinterfaces⟩, fieldLayouts, hfields, hfieldBodies⟩, methodLayouts, hmethods,
    hmethodBodies⟩, named, hattributes, htable⟩ := hpre
  exact .mk hname.className hsuperclass hinterfaces hfields hmethods hattributes htable hfieldBodies hmethodBodies

namespace Fits

variable {c : ClassFile}

/-- The plan of a class that fits the format. -/
def plan (h : c.Fits) : Plan :=
  ⟨c.entries, c.bootstraps, h.pool, h.bootstraps⟩

/-- The texts of a pool that is within the plan fit. -/
theorem constant (h : c.Fits) {pool : Pool} (hwithin : Within h.plan.needed pool) : ∀ d ∈ pool, d.Fits := by
  intro d hd
  obtain ⟨i, e, hi, he, hstands⟩ := hwithin.needed d hd
  cases d with
  | utf8 s =>
    have hentry : e = .text s := by
      cases hstands with
      | value hget => exact congrArg Entry.value (Option.some_inj.1 (hget.symm.trans hi))
      | @named _ _ kind _ hget => cases kind <;> cases hget.symm.trans hi
      | @member _ _ _ kind _ hget => cases kind <;> cases hget.symm.trans hi
      | nameAndType hget | handle hget | invokeDynamic hget => cases hget.symm.trans hi
    exact h.texts s (hentry ▸ he)
  | _ => trivial

end Fits

/-- **A written class is read back**: a class whose instructions can be written, and that fits the format, is written, and
what is read from the octets equals it. -/
theorem parse_encode (c : ClassFile) (hproper : c.Proper) (hfits : c.Fits) :
    ∃ bytes, c.encode = .ok bytes ∧ ∃ c', parse bytes = .ok c' ∧ (c' == c) = true := by
  have hempty : Within hfits.plan.needed [] := ⟨List.nodup_nil, fun _ hd => absurd hd List.not_mem_nil⟩
  obtain ⟨rest, pool, hrun, hwithin, -, hpost⟩ := writes_afterPool hfits.plan hproper hfits
    (List.Subset.refl _) rfl [] hempty fun _ _ => trivial
  obtain ⟨l, hread, hdecode⟩ :=
    (hpost pool List.prefix_rfl).exists_layout (hfits.constant hwithin) hwithin.index_lt
  refine ⟨_, by rw [encode, hrun]; rfl, c.sharing, ?_, sharing_beq hproper⟩
  rw [parse, Reader.all_of_reads hread]
  exact hdecode

/-- A call whose bootstrap method is given a number of 32 bits, and a number of two indices. -/
def callWith (bits : UInt32) : Instruction :=
  .dynamic ⟨"f", "()V", ⟨⟨6, ⟨"B", "b", "()V"⟩, false⟩, [.float ⟨bits⟩, .long 7]⟩⟩

/-- A class `A` with a field, and a method that loads a variable beyond the first 256 and makes two calls, one with 0.0
and one with -0.0. -/
def twoZeros : ClassFile :=
  ⟨0, 52, 33, "A", some "B", [], [⟨2, "f", "I", none⟩],
    [⟨9, "m", "()V", some ⟨1, 301, [.slot 0x15 300, callWith 0, callWith 0x80000000, .ret 0xb1]⟩⟩]⟩

/-- The two calls of that class share a bootstrap method, and what is read back equals it all the same. -/
theorem twoZeros_read_back : twoZeros.Proper ∧ twoZeros.Fits ∧
    ∃ bytes, twoZeros.encode = .ok bytes ∧ ∃ c', parse bytes = .ok c' ∧ (c' == twoZeros) = true := by
  have hproper : twoZeros.Proper := by decide +kernel
  have hfits : twoZeros.Fits := by decide +kernel
  exact ⟨hproper, hfits, parse_encode twoZeros hproper hfits⟩

end ClassFile
end RenameAudit
