import Mathlib
import RenameAudit.ClassFile.Parser
import RenameAudit.Proofs.ClassFile.ReadingBack
import RenameAudit.Proofs.ClassFile.RoundTrip
import RenameAudit.Proofs.Lists.Outcomes
/-!
# Proofs.ClassFile.RawClass — class files as tables of octets

A raw class has the tables of a class file with nothing looked up in its pool: members and attributes have the indices
of their names, and the contents of attributes are octets.  What is read from the octets of a raw class that fits the
format is computed from its tables (`RawClass.parse_bytes`), and from those of a raw body everything but its attributes
(`RawBody.reads_bytes`).  Nothing else is read: every file whose layout is read is the octets of a raw class
(`RawClass.exists_of_run`), and what is read as a body those of a raw body (`RawBody.exists_of_all`).
-/
namespace RenameAudit

/-- **A word that was read is written as it was.** -/
theorem Bytes.ofU16_toU16 (a b : UInt8) : ofU16 (toU16 a b) = [a, b] := by
  have ha := a.toNat_lt
  have hb := b.toNat_lt
  simp only [ofU16, octet, toU16, List.cons.injEq, ← UInt8.toNat_inj, UInt8.toNat_ofNat', UInt16.toNat_ofNat', and_true]
  omega

/-- **A word that was read is written as it was.** -/
theorem Bytes.ofU32_toU32 (a b c d : UInt8) : ofU32 (toU32 a b c d) = [a, b, c, d] := by
  have ha := a.toNat_lt
  have hb := b.toNat_lt
  have hc := c.toNat_lt
  have hd := d.toNat_lt
  simp only [ofU32, octet, toU32, List.cons.injEq, ← UInt8.toNat_inj, UInt8.toNat_ofNat', UInt32.toNat_ofNat', and_true]
  omega

namespace ClassFile

open ListReader Reader

/-! ## Tables -/

variable {α β : Type}

/-- The octets of a table: a count of two octets and the octets of as many parts. -/
def tableBytes (part : α → Bytes) (as : List α) : Bytes :=
  Bytes.ofU16 (UInt16.ofNat as.length) ++ as.flatMap part

/-- **A table fits the format** when its count fits two octets and each part fits the format. -/
def TableFits (Fits : α → Prop) (as : List α) : Prop :=
  as.length < 65536 ∧ ∀ a ∈ as, Fits a

instance (Fits : α → Prop) [DecidablePred Fits] : DecidablePred (TableFits Fits) := fun as =>
  inferInstanceAs (Decidable (as.length < 65536 ∧ ∀ a ∈ as, Fits a))

theorem makes_table {item : Reader β} {part : α → Bytes} {value : α → Except Fault β} {Fits : α → Prop} {as : List α}
    (hfits : TableFits Fits as) (h : ∀ a, Fits a → Makes item (part a) (value a)) :
    Makes (table item) (tableBytes part as) (as.mapM value) := by
  refine Makes.after (reads_u2 _) ?_
  rw [UInt16.toNat_ofNat_of_lt' hfits.1]
  exact Makes.times fun a ha => h a (hfits.2 a ha)

theorem Reader.all_of_makes {p : Reader α} {bytes : Bytes} {x : Except Fault α} (h : Makes p bytes x) (region : Region) :
    p.all region bytes = x := by
  have hrun := h []
  rw [List.append_nil] at hrun
  rw [Reader.all, hrun]
  cases x <;> rfl

/-! ## Parts of a class file -/

/-- An attribute with the index of its name. -/
structure RawAttribute where
  name : UInt16
  info : Bytes

namespace RawAttribute

def bytes (a : RawAttribute) : Bytes :=
  Bytes.ofU16 a.name ++ (Bytes.ofU32 (UInt32.ofNat a.info.length) ++ a.info)

/-- The length of the contents fits four octets. -/
def Fits (a : RawAttribute) : Prop :=
  a.info.length < 4294967296

instance : DecidablePred Fits := fun a =>
  inferInstanceAs (Decidable (a.info.length < 4294967296))

/-- The attribute with its name looked up. -/
def named (pool : Pool) (a : RawAttribute) : Except Fault (String × Bytes) := do
  let name ← pool.text a.name
  return (name, a.info)

theorem makes_bytes (pool : Pool) {a : RawAttribute} (h : a.Fits) : Makes (readAttribute pool) a.bytes (a.named pool) :=
  Makes.after (reads_u2 a.name) <| Makes.after_lift fun name => Makes.after (reads_u4 _) <|
    ((reads_take a.info (UInt32.toNat_ofNat_of_lt' h)).bind_last (reads_pure (name, a.info))).makes

end RawAttribute

/-- A field or method with the indices of its name and descriptor. -/
structure RawMember where
  access : Access
  name : UInt16
  descriptor : UInt16
  attributes : List RawAttribute

namespace RawMember

def bytes (m : RawMember) : Bytes :=
  Bytes.ofU16 m.access ++ (Bytes.ofU16 m.name ++ (Bytes.ofU16 m.descriptor ++
    tableBytes RawAttribute.bytes m.attributes))

def Fits (m : RawMember) : Prop :=
  TableFits RawAttribute.Fits m.attributes

instance : DecidablePred Fits := fun m =>
  inferInstanceAs (Decidable (TableFits RawAttribute.Fits m.attributes))

/-- The member with everything looked up. -/
def layout (pool : Pool) (m : RawMember) : Except Fault MemberLayout := do
  let name ← pool.text m.name
  let descriptor ← pool.text m.descriptor
  let attributes ← m.attributes.mapM (RawAttribute.named pool)
  let code ← codeOf attributes
  return ⟨m.access, name, descriptor, code⟩

theorem makes_bytes (pool : Pool) {m : RawMember} (h : m.Fits) : Makes (MemberLayout.read pool) m.bytes (m.layout pool) :=
  Makes.after (reads_u2 m.access) <| Makes.after (reads_u2 m.name) <| Makes.after_lift fun _ =>
    Makes.after (reads_u2 m.descriptor) <| Makes.after_lift fun _ =>
      (makes_table h fun _ ha => RawAttribute.makes_bytes pool ha).bind_last fun _ => Makes.after_lift fun _ =>
        makes_lift (.ok _)

end RawMember

/-- A class file with indices in place of names.  The octets of its pool are kept as they are, since a text may be written
in more than one way. -/
structure RawClass where
  minor : UInt16
  major : UInt16
  constants : Bytes
  pool : Pool
  access : Access
  name : UInt16
  superclass : UInt16
  interfaces : List UInt16
  fields : List RawMember
  methods : List RawMember
  attributes : List RawAttribute

namespace RawClass

def bytes (c : RawClass) : Bytes :=
  Bytes.ofU32 magic ++ (Bytes.ofU16 c.minor ++ (Bytes.ofU16 c.major ++ (c.constants ++ (Bytes.ofU16 c.access ++
    (Bytes.ofU16 c.name ++ (Bytes.ofU16 c.superclass ++ (tableBytes Bytes.ofU16 c.interfaces ++
      (tableBytes RawMember.bytes c.fields ++ (tableBytes RawMember.bytes c.methods ++
        tableBytes RawAttribute.bytes c.attributes)))))))))

/-- The octets of the pool are those of the pool, and all counts and lengths fit their octets. -/
structure Fits (c : RawClass) : Prop where
  constants : Reads Pool.read c.constants c.pool
  interfaces : c.interfaces.length < 65536
  fields : TableFits RawMember.Fits c.fields
  methods : TableFits RawMember.Fits c.methods
  attributes : TableFits RawAttribute.Fits c.attributes

/-- The name of the superclass; index 0 stands for none. -/
def superclassName (c : RawClass) : Except Fault (Option String) :=
  if c.superclass = 0 then .ok none else some <$> c.pool.className c.superclass

/-- The class with everything looked up. -/
def layout (c : RawClass) : Except Fault Layout := do
  let name ← c.pool.className c.name
  let superclass ← c.superclassName
  let interfaces ← c.interfaces.mapM c.pool.className
  let fields ← c.fields.mapM (RawMember.layout c.pool)
  let methods ← c.methods.mapM (RawMember.layout c.pool)
  let attributes ← c.attributes.mapM (RawAttribute.named c.pool)
  let bootstraps ← bootstrapsOf c.pool attributes
  return ⟨c.minor, c.major, c.pool, c.access, name, superclass, interfaces, fields, methods, bootstraps⟩

theorem makes_bytes {c : RawClass} (h : c.Fits) : Makes Layout.read c.bytes c.layout := by
  refine Makes.after (reads_u4 magic) ?_
  rw [if_neg (not_not.2 rfl)]
  refine Makes.after (reads_u2 c.minor) <| Makes.after (reads_u2 c.major) <| Makes.after h.constants <|
    Makes.after (reads_u2 c.access) <| Makes.after (reads_u2 c.name) <| Makes.after_lift fun name =>
      Makes.after (reads_u2 c.superclass) ?_
  have hinterfaces : TableFits (fun _ => True) c.interfaces := ⟨h.interfaces, fun _ _ => trivial⟩
  -- Whether there is a superclass or not, reading goes on with the rest.
  extract_lets afterSuperclass
  have hafter : ∀ superclass, Makes (afterSuperclass superclass) _ _ := fun superclass =>
    (makes_table hinterfaces fun index _ => Makes.after (reads_u2 index) (makes_lift _)).bind fun _ =>
    (makes_table h.fields fun _ hm => RawMember.makes_bytes c.pool hm).bind fun _ =>
    (makes_table h.methods fun _ hm => RawMember.makes_bytes c.pool hm).bind fun _ =>
    (makes_table h.attributes fun _ ha => RawAttribute.makes_bytes c.pool ha).bind_last fun _ =>
      Makes.after_lift fun _ => makes_lift (.ok _)
  rw [superclassName]
  split
  · exact Makes.after_lift (y := .ok none) hafter
  · exact Makes.after_lift hafter

/-- **Parsing the octets of a raw class** looks everything up in its tables and then decodes the bodies. -/
theorem parse_bytes {c : RawClass} (h : c.Fits) : parse c.bytes = c.layout >>= Layout.decode := by
  rw [parse, all_of_makes (makes_bytes h)]

end RawClass

/-- The contents of a `Code` attribute with its tables as octets.  A handler takes eight octets. -/
structure RawBody where
  maxStack : UInt16
  maxLocals : UInt16
  code : Bytes
  handlerCount : UInt16
  handlers : Bytes
  attributes : List RawAttribute

namespace RawBody

def bytes (b : RawBody) : Bytes :=
  Bytes.ofU16 b.maxStack ++ (Bytes.ofU16 b.maxLocals ++ (Bytes.ofU32 (UInt32.ofNat b.code.length) ++ (b.code ++
    (Bytes.ofU16 b.handlerCount ++ (b.handlers ++ tableBytes RawAttribute.bytes b.attributes)))))

/-- The handlers are as many as counted, and all counts and lengths fit their octets. -/
structure Fits (b : RawBody) : Prop where
  code : b.code.length < 4294967296
  handlers : b.handlers.length = b.handlerCount.toNat * 8
  attributes : TableFits RawAttribute.Fits b.attributes

/-- **Of a body its limits and its octets of code are read**, whatever its attributes. -/
theorem reads_bytes {b : RawBody} (h : b.Fits) : Reads Body.readLayout b.bytes (b.maxStack, b.maxLocals, b.code) := by
  have hskip : ∀ a : RawAttribute, a.Fits → Makes (do skip 2; let length ← u4; skip length.toNat) a.bytes (.ok ()) :=
    fun a ha => ((reads_skip (Bytes.ofU16 a.name) rfl).bind ((reads_u4 _).bind
      (reads_skip a.info (UInt32.toNat_ofNat_of_lt' ha)))).makes
  have hattributes := makes_table h.attributes hskip
  -- Skipping gives nothing for each attribute, and it never fails.
  have hunits : (b.attributes.mapM fun _ => Except.ok ()) = (.ok (b.attributes.map fun _ => ()) : Except Fault _) :=
    List.mapM_pure
  rw [hunits] at hattributes
  exact (reads_u2 b.maxStack).bind <| (reads_u2 b.maxLocals).bind <| (reads_u4 _).bind <|
    (reads_take b.code (UInt32.toNat_ofNat_of_lt' h.code)).bind <| (reads_u2 b.handlerCount).bind <|
    (reads_skip b.handlers h.handlers.symm).bind <| Reads.bind_last hattributes (reads_pure _)

/-- **Bodies that differ in their attributes are the same.** -/
theorem parse_attributes {b : RawBody} {attributes : List RawAttribute} (hb : b.Fits)
    (hb' : { b with attributes := attributes }.Fits) (pool : Pool) (table : List BootstrapMethod) :
    Body.parse pool table { b with attributes := attributes }.bytes = Body.parse pool table b.bytes := by
  rw [Body.parse, Body.parse, all_of_reads (reads_bytes hb), all_of_reads (reads_bytes hb')]

end RawBody

/-! ## Every accepted file has its tables -/

namespace Reader

theorem of_all {p : Reader α} {region : Region} {b : Bytes} {a : α} (h : p.all region b = .ok a) :
    p.run b = .ok (a, []) := by
  unfold Reader.all at h
  split at h
  · cases h
    assumption
  · cases h
  · cases h

theorem of_run_u2 {b rest : Bytes} {v : UInt16} (h : u2.run b = .ok (v, rest)) : b = Bytes.ofU16 v ++ rest := by
  match b, h with
  | x :: y :: r, h =>
    cases h
    rw [Bytes.ofU16_toU16]
    rfl

theorem of_run_u4 {b rest : Bytes} {v : UInt32} (h : u4.run b = .ok (v, rest)) : b = Bytes.ofU32 v ++ rest := by
  match b, h with
  | x :: y :: z :: w :: r, h =>
    cases h
    rw [Bytes.ofU32_toU32]
    rfl

theorem of_run_take {n : Nat} {b items rest : Bytes} (h : (take n).run b = .ok (items, rest)) :
    b = items ++ rest ∧ items.length = n :=
  of_run_takeOr h

theorem of_run_skip {n : Nat} {b rest : Bytes} (h : (skip n).run b = .ok ((), rest)) :
    ∃ items, b = items ++ rest ∧ items.length = n := by
  obtain ⟨items, mid, hitems, hrest⟩ := exists_of_run_bind h
  cases hrest
  exact ⟨items, of_run_take hitems⟩

theorem exact_u1 : Exact u1 :=
  exact_next _

theorem exact_u2 : Exact u2 := fun _ v _ h =>
  ⟨Bytes.ofU16 v, of_run_u2 h, reads_u2 v⟩

theorem exact_u4 : Exact u4 := fun _ v _ h =>
  ⟨Bytes.ofU32 v, of_run_u4 h, reads_u4 v⟩

theorem exact_u8 : Exact u8 :=
  exact_u4.bind fun _ => exact_u4.bind fun _ => exact_lift (.ok _)

/-- A table is read from the octets of a table of such parts as its values are read from. -/
theorem exists_of_run_table {item : Reader β} {part : α → Bytes} {Fits : α → Prop}
    (hitem : ∀ b x rest, item.run b = .ok (x, rest) → ∃ a, Fits a ∧ b = part a ++ rest) {b rest : Bytes} {xs : List β}
    (h : (table item).run b = .ok (xs, rest)) : ∃ as, TableFits Fits as ∧ b = tableBytes part as ++ rest := by
  obtain ⟨count, mid, hcount, hitems⟩ := exists_of_run_bind h
  obtain ⟨as, hlength, has, rfl⟩ := exists_parts_of_times hitem hitems
  have hcount' : UInt16.ofNat as.length = count := by rw [hlength, UInt16.ofNat_toNat]
  refine ⟨as, ⟨?_, has⟩, ?_⟩
  · rw [hlength]
    exact count.toNat_lt
  · rw [of_run_u2 hcount, tableBytes, hcount', List.append_assoc]

end Reader

theorem RawAttribute.exists_of_run (pool : Pool) {b rest : Bytes} {x : String × Bytes}
    (h : (readAttribute pool).run b = .ok (x, rest)) : ∃ a : RawAttribute, a.Fits ∧ b = a.bytes ++ rest := by
  obtain ⟨index, _, hindex, h⟩ := exists_of_run_bind h
  obtain ⟨name, _, hname, h⟩ := exists_of_run_bind h
  obtain ⟨length, _, hlength, h⟩ := exists_of_run_bind h
  obtain ⟨info, _, hinfo, h⟩ := exists_of_run_bind h
  cases h
  obtain ⟨rfl, hsize⟩ := of_run_take hinfo
  obtain ⟨-, rfl⟩ := of_run_lift hname
  refine ⟨⟨index, info⟩, ?_, ?_⟩
  · rw [Fits, hsize]
    exact length.toNat_lt
  · rw [bytes, hsize, UInt32.ofNat_toNat, of_run_u2 hindex, of_run_u4 hlength]
    simp only [List.append_assoc]

theorem RawMember.exists_of_run (pool : Pool) {b rest : Bytes} {l : MemberLayout}
    (h : (MemberLayout.read pool).run b = .ok (l, rest)) : ∃ m : RawMember, m.Fits ∧ b = m.bytes ++ rest := by
  obtain ⟨access, _, haccess, h⟩ := exists_of_run_bind h
  obtain ⟨name, _, hname, h⟩ := exists_of_run_bind h
  obtain ⟨_, _, htext, h⟩ := exists_of_run_bind h
  obtain ⟨descriptor, _, hdescriptor, h⟩ := exists_of_run_bind h
  obtain ⟨_, _, htext', h⟩ := exists_of_run_bind h
  obtain ⟨_, _, hattributes, h⟩ := exists_of_run_bind h
  obtain ⟨_, _, hcode, h⟩ := exists_of_run_bind h
  cases h
  obtain ⟨-, rfl⟩ := of_run_lift htext
  obtain ⟨-, rfl⟩ := of_run_lift htext'
  obtain ⟨-, rfl⟩ := of_run_lift hcode
  obtain ⟨attributes, hfits, rfl⟩ := exists_of_run_table (fun _ _ _ => RawAttribute.exists_of_run pool) hattributes
  refine ⟨⟨access, name, descriptor, attributes⟩, hfits, ?_⟩
  rw [bytes, of_run_u2 haccess, of_run_u2 hname, of_run_u2 hdescriptor]
  simp only [List.append_assoc]

/-- An attribute is skipped with its length, whatever its name. -/
theorem RawAttribute.exists_of_run_skipped {b rest : Bytes} {x : Unit}
    (h : (do skip 2; let length ← u4; skip length.toNat : Reader Unit).run b = .ok (x, rest)) :
    ∃ a : RawAttribute, a.Fits ∧ b = a.bytes ++ rest := by
  obtain ⟨_, _, hindex, h⟩ := exists_of_run_bind h
  obtain ⟨length, _, hlength, hinfo⟩ := exists_of_run_bind h
  obtain ⟨index, rfl, htwo⟩ := of_run_skip hindex
  obtain ⟨info, rfl, hsize⟩ := of_run_skip hinfo
  obtain ⟨x, y, rfl⟩ := List.length_eq_two.1 htwo
  refine ⟨⟨Bytes.toU16 x y, info⟩, ?_, ?_⟩
  · rw [Fits, hsize]
    exact length.toNat_lt
  · rw [bytes, Bytes.ofU16_toU16, hsize, UInt32.ofNat_toNat, of_run_u4 hlength]
    simp only [List.append_assoc]

theorem exists_of_run_classIndex (pool : Pool) {b rest : Bytes} {x : String}
    (h : (do let index ← u2; lift (pool.className index) : Reader String).run b = .ok (x, rest)) :
    ∃ index, True ∧ b = Bytes.ofU16 index ++ rest := by
  obtain ⟨index, _, hindex, h⟩ := exists_of_run_bind h
  obtain ⟨-, rfl⟩ := of_run_lift h
  exact ⟨index, trivial, of_run_u2 hindex⟩

theorem Constant.exact_readText : Exact Constant.readText := by
  refine exact_u2.bind fun length => (exact_takeOr _ _).bind fun octets => ?_
  split
  · exact exact_lift (.ok _)
  · exact exact_lift (.error _)

theorem Constant.exact_readParts (tag : UInt8) : Exact (Constant.readParts tag) := by
  unfold Constant.readParts
  split
  · exact exact_readText.map _
  · exact exact_u4.map _
  · exact exact_u4.map _
  · exact exact_u8.map _
  · exact exact_u8.map _
  · exact exact_u2.map _
  · exact exact_u2.map _
  · exact (exact_u2.map _).seq exact_u2
  · exact (exact_u2.map _).seq exact_u2
  · exact (exact_u2.map _).seq exact_u2
  · exact (exact_u2.map _).seq exact_u2
  · exact (exact_u1.map _).seq exact_u2
  · exact exact_u2.map _
  · exact (exact_u2.map _).seq exact_u2
  · exact (exact_u2.map _).seq exact_u2
  · exact exact_u2.map _
  · exact exact_u2.map _
  · exact exact_lift (.error _)

theorem Constant.exact_read : Exact Constant.read :=
  exact_u1.bind Constant.exact_readParts

theorem Pool.exact_readUpTo (n : Nat) : Exact (Pool.readUpTo n) := by
  fun_induction Pool.readUpTo n with
  | case1 => exact exact_lift (.ok _)
  | case2 => exact Constant.exact_read.bind fun _ => exact_lift (.ok _)
  | case3 n ihWide ihNarrow =>
    refine Constant.exact_read.bind fun c => ?_
    dsimp only
    split
    · exact ihWide.bind fun _ => exact_lift (.ok _)
    · exact ihNarrow.bind fun _ => exact_lift (.ok _)

theorem Pool.exact_read : Exact Pool.read :=
  exact_u2.bind fun _ => Pool.exact_readUpTo _

/-- **Every file whose layout is read has its tables.** -/
theorem RawClass.exists_of_run {b : Bytes} {l : Layout} (h : Layout.read.run b = .ok (l, [])) :
    ∃ c : RawClass, c.Fits ∧ c.bytes = b := by
  obtain ⟨found, _, hfound, h⟩ := exists_of_run_bind h
  split at h
  · cases h
  rename_i hmagic
  obtain ⟨minor, _, hminor, h⟩ := exists_of_run_bind h
  obtain ⟨major, _, hmajor, h⟩ := exists_of_run_bind h
  obtain ⟨pool, _, hpool, h⟩ := exists_of_run_bind h
  obtain ⟨access, _, haccess, h⟩ := exists_of_run_bind h
  obtain ⟨name, _, hname, h⟩ := exists_of_run_bind h
  obtain ⟨_, _, hclass, h⟩ := exists_of_run_bind h
  obtain ⟨superclass, mid, hsuperclass, h⟩ := exists_of_run_bind h
  extract_lets afterSuperclass at h
  -- Whether there is a superclass or not, reading goes on with the rest.
  have hrest : ∃ s, (afterSuperclass s).run mid = .ok (l, []) := by
    split at h
    · exact ⟨none, h⟩
    · obtain ⟨s, _, hs, h⟩ := exists_of_run_bind h
      obtain ⟨-, rfl⟩ := of_run_lift hs
      exact ⟨s, h⟩
  obtain ⟨_, h⟩ := hrest
  obtain ⟨_, _, hinterfaces, h⟩ := exists_of_run_bind h
  obtain ⟨_, _, hfields, h⟩ := exists_of_run_bind h
  obtain ⟨_, _, hmethods, h⟩ := exists_of_run_bind h
  obtain ⟨_, _, hattributes, h⟩ := exists_of_run_bind h
  obtain ⟨_, _, hbootstraps, h⟩ := exists_of_run_bind h
  cases h
  obtain ⟨-, rfl⟩ := of_run_lift hclass
  obtain ⟨-, rfl⟩ := of_run_lift hbootstraps
  obtain ⟨constants, rfl, hconstants⟩ := Pool.exact_read _ _ _ hpool
  obtain ⟨interfaces, hcount, rfl⟩ := exists_of_run_table (fun _ _ _ => exists_of_run_classIndex pool) hinterfaces
  obtain ⟨fields, hfieldsFit, rfl⟩ := exists_of_run_table (fun _ _ _ => RawMember.exists_of_run pool) hfields
  obtain ⟨methods, hmethodsFit, rfl⟩ := exists_of_run_table (fun _ _ _ => RawMember.exists_of_run pool) hmethods
  obtain ⟨attributes, hattributesFit, rfl⟩ :=
    exists_of_run_table (fun _ _ _ => RawAttribute.exists_of_run pool) hattributes
  refine ⟨⟨minor, major, constants, pool, access, name, superclass, interfaces, fields, methods, attributes⟩,
    ⟨hconstants, hcount.1, hfieldsFit, hmethodsFit, hattributesFit⟩, ?_⟩
  rw [bytes, of_run_u4 hfound, not_not.1 hmagic, of_run_u2 hminor, of_run_u2 hmajor, of_run_u2 haccess, of_run_u2 hname,
    of_run_u2 hsuperclass, List.append_nil]

/-- **What is read as a body has its tables.** -/
theorem RawBody.exists_of_all {info : Bytes} {x : UInt16 × UInt16 × Bytes} (h : Body.readLayout.all .code info = .ok x) :
    ∃ b : RawBody, b.Fits ∧ b.bytes = info := by
  obtain ⟨maxStack, _, hmaxStack, h⟩ := exists_of_run_bind (of_all h)
  obtain ⟨maxLocals, _, hmaxLocals, h⟩ := exists_of_run_bind h
  obtain ⟨length, _, hlength, h⟩ := exists_of_run_bind h
  obtain ⟨code, _, hcode, h⟩ := exists_of_run_bind h
  obtain ⟨handlerCount, _, hhandlerCount, h⟩ := exists_of_run_bind h
  obtain ⟨_, _, hhandlers, h⟩ := exists_of_run_bind h
  obtain ⟨_, _, hattributes, h⟩ := exists_of_run_bind h
  cases h
  obtain ⟨rfl, hcodeSize⟩ := of_run_take hcode
  obtain ⟨handlers, rfl, hhandlersSize⟩ := of_run_skip hhandlers
  obtain ⟨attributes, hfits, rfl⟩ := exists_of_run_table (fun _ _ _ => RawAttribute.exists_of_run_skipped) hattributes
  refine ⟨⟨maxStack, maxLocals, code, handlerCount, handlers, attributes⟩, ⟨?_, hhandlersSize, hfits⟩, ?_⟩
  · rw [hcodeSize]
    exact length.toNat_lt
  · rw [bytes, hcodeSize, UInt32.ofNat_toNat, of_run_u2 hmaxStack, of_run_u2 hmaxLocals, of_run_u4 hlength,
      of_run_u2 hhandlerCount, List.append_nil]

end ClassFile
end RenameAudit
