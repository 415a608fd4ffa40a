import Mathlib
import RenameAudit.Proofs.ClassFile.Decoding
import RenameAudit.Proofs.ClassFile.RawClass
import RenameAudit.Proofs.ClassFile.SelfDelimiting
/-!
# Proofs.ClassFile.UnknownAttributes — attributes that nothing looks at change nothing

A table of attributes may get one more whose name is neither `Code` nor `BootstrapMethods`, and the table inside a `Code`
attribute one more of any name (`RawAttribute.Extended`).  Every step of reading then has the same outcome, a fault or
tables, members and layouts whose bodies decode alike (`SameOutcome`), so the file is read as the same class or refused
with the same fault (`RawClass.parse_extended`).
-/
namespace RenameAudit
namespace ClassFile

/-! ## The same outcomes -/

section SameOutcome

variable {α β γ δ : Type} {R : α → β → Prop} {S : γ → δ → Prop}

/-- **The same outcome**: the same fault, or values that are related. -/
inductive SameOutcome (R : α → β → Prop) : Except Fault α → Except Fault β → Prop
  | ok {a : α} {b : β} (h : R a b) : SameOutcome R (.ok a) (.ok b)
  | error (e : Fault) : SameOutcome R (.error e) (.error e)

namespace SameOutcome

theorem refl {R : α → α → Prop} (hR : ∀ a, R a a) (x : Except Fault α) : SameOutcome R x x := by
  cases x with
  | ok a => exact .ok (hR a)
  | error e => exact .error e

theorem bind {x : Except Fault α} {y : Except Fault β} {f : α → Except Fault γ} {g : β → Except Fault δ}
    (h : SameOutcome R x y) (hfg : ∀ a b, R a b → SameOutcome S (f a) (g b)) : SameOutcome S (x >>= f) (y >>= g) := by
  cases h with
  | ok h => exact hfg _ _ h
  | error e => exact .error e

/-- One computation before two with the same outcome. -/
theorem bind_same {x : Except Fault α} {f : α → Except Fault γ} {g : α → Except Fault δ}
    (hfg : ∀ a, SameOutcome S (f a) (g a)) : SameOutcome S (x >>= f) (x >>= g) :=
  (refl (R := Eq) (fun _ => rfl) x).bind fun a _ h => h ▸ hfg a

theorem mapM {f : α → Except Fault γ} {g : β → Except Fault δ} {as : List α} {bs : List β}
    (h : List.Forall₂ (fun a b => SameOutcome S (f a) (g b)) as bs) :
    SameOutcome (List.Forall₂ S) (as.mapM f) (bs.mapM g) := by
  induction h with
  | nil => exact .ok .nil
  | cons hab _ ih =>
    rw [List.mapM_cons, List.mapM_cons]
    exact hab.bind fun _ _ hcd => ih.bind fun _ _ hs => .ok (.cons hcd hs)

theorem eq {x y : Except Fault α} (h : SameOutcome Eq x y) : x = y := by
  cases h with
  | ok h => rw [h]
  | error e => rfl

end SameOutcome
end SameOutcome

/-! ## Tables with one attribute more -/

/-- **A table with one attribute more** that the class does not depend on.  There is room for its count, and the lengths of
what it is put into fit their octets. -/
inductive RawAttribute.Extended (pool : Pool) : List RawAttribute → List RawAttribute → Prop
  /-- An attribute whose name is neither of those that are looked for. -/
  | unknown (front back : List RawAttribute) (a : RawAttribute) {name : String} (hroom : (front ++ back).length < 65535)
      (ha : a.Fits) (hname : pool.text a.name = .ok name) (hcode : name ≠ "Code")
      (hbootstraps : name ≠ "BootstrapMethods") :
      Extended pool (front ++ back) (front ++ a :: back)
  /-- Any attribute, in the table inside a `Code` attribute. -/
  | inCode (front back : List RawAttribute) {index : UInt16} (hname : pool.text index = .ok "Code") (body : RawBody)
      (hbody : body.Fits) (before after : List RawAttribute) (hattributes : body.attributes = before ++ after)
      (a : RawAttribute) (hroom : (before ++ after).length < 65535) (ha : a.Fits)
      (hinfo : { body with attributes := before ++ a :: after }.bytes.length < 4294967296) :
      Extended pool (front ++ ⟨index, body.bytes⟩ :: back)
        (front ++ ⟨index, { body with attributes := before ++ a :: after }.bytes⟩ :: back)

/-- **A class with one attribute more**: on one of its fields, on one of its methods or on itself. -/
inductive RawClass.Extended (c : RawClass) : RawClass → Prop
  | inField (front back : List RawMember) (m : RawMember) (attributes : List RawAttribute)
      (hfields : c.fields = front ++ m :: back) (h : RawAttribute.Extended c.pool m.attributes attributes) :
      Extended c { c with fields := front ++ { m with attributes := attributes } :: back }
  | inMethod (front back : List RawMember) (m : RawMember) (attributes : List RawAttribute)
      (hmethods : c.methods = front ++ m :: back) (h : RawAttribute.Extended c.pool m.attributes attributes) :
      Extended c { c with methods := front ++ { m with attributes := attributes } :: back }
  | inClass (attributes : List RawAttribute) (h : RawAttribute.Extended c.pool c.attributes attributes) :
      Extended c { c with attributes := attributes }

/-- A table with room for one more fits with one more. -/
theorem TableFits.insert {α : Type} {Fits : α → Prop} {front back : List α} {a : α}
    (h : TableFits Fits (front ++ back)) (hroom : (front ++ back).length < 65535) (ha : Fits a) :
    TableFits Fits (front ++ a :: back) := by
  obtain ⟨hfront, hback⟩ := List.forall_mem_append.1 h.2
  refine ⟨?_, List.forall_mem_append.2 ⟨hfront, List.forall_mem_cons.2 ⟨ha, hback⟩⟩⟩
  rw [List.length_append] at hroom ⊢
  exact Nat.succ_lt_succ hroom

/-- A table fits with another part in place of one. -/
theorem TableFits.replace {α : Type} {Fits : α → Prop} {front back : List α} {a a' : α}
    (h : TableFits Fits (front ++ a :: back)) (ha' : Fits a') : TableFits Fits (front ++ a' :: back) := by
  obtain ⟨hfront, hback⟩ := List.forall_mem_append.1 h.2
  refine ⟨?_, List.forall_mem_append.2 ⟨hfront, List.forall_mem_cons.2 ⟨ha', (List.forall_mem_cons.1 hback).2⟩⟩⟩
  have hcount := h.1
  rwa [List.length_append, List.length_cons] at hcount ⊢

theorem RawAttribute.Extended.fits {pool : Pool} {as as' : List RawAttribute} (h : Extended pool as as')
    (has : TableFits Fits as) : TableFits Fits as' := by
  cases h with
  | unknown front back a hroom ha => exact has.insert hroom ha
  | inCode front back hname body hbody before after hattributes a hroom ha hinfo => exact has.replace hinfo

theorem RawClass.Extended.fits {c c' : RawClass} (h : c.Extended c') (hc : c.Fits) : c'.Fits := by
  cases h with
  | inField front back m attributes hfields h =>
    have hall : TableFits RawMember.Fits (front ++ m :: back) := hfields ▸ hc.fields
    have hm : m.Fits := hall.2 m (List.mem_append_right front List.mem_cons_self)
    exact { hc with fields := hall.replace (h.fits hm) }
  | inMethod front back m attributes hmethods h =>
    have hall : TableFits RawMember.Fits (front ++ m :: back) := hmethods ▸ hc.methods
    have hm : m.Fits := hall.2 m (List.mem_append_right front List.mem_cons_self)
    exact { hc with methods := hall.replace (h.fits hm) }
  | inClass attributes h => exact { hc with attributes := h.fits hc.attributes }

/-! ## What is read stays the same -/

/-- Contents of a `Code` attribute that hold the same body. -/
def SameBody (pool : Pool) (info info' : Bytes) : Prop :=
  ∀ table, Body.parse pool table info' = Body.parse pool table info

/-- Attributes with the same bodies and the same bootstrap methods. -/
structure SameAttributes (pool : Pool) (attributes attributes' : List (String × Bytes)) : Prop where
  bodies : List.Forall₂ (SameBody pool) (attributesNamed "Code" attributes) (attributesNamed "Code" attributes')
  bootstraps : attributesNamed "BootstrapMethods" attributes' = attributesNamed "BootstrapMethods" attributes

/-- Members that decode alike. -/
def SameMember (pool : Pool) (m m' : MemberLayout) : Prop :=
  ∀ table, m'.decode pool table = m.decode pool table

variable {pool : Pool}

theorem attributesNamed_append (name : String) (front back : List (String × Bytes)) :
    attributesNamed name (front ++ back) = attributesNamed name front ++ attributesNamed name back := by
  rw [attributesNamed, List.filter_append, List.map_append]
  rfl

theorem attributesNamed_cons_self (name : String) (info : Bytes) (attributes : List (String × Bytes)) :
    attributesNamed name ((name, info) :: attributes) = info :: attributesNamed name attributes := by
  simp [attributesNamed]

theorem attributesNamed_cons_of_ne {name other : String} (h : other ≠ name) (info : Bytes)
    (attributes : List (String × Bytes)) :
    attributesNamed name ((other, info) :: attributes) = attributesNamed name attributes := by
  simp [attributesNamed, h]

theorem SameBody.refl_all (infos : List Bytes) : List.Forall₂ (SameBody pool) infos infos :=
  List.forall₂_same.2 fun _ _ _ => rfl

theorem SameAttributes.refl (attributes : List (String × Bytes)) : SameAttributes pool attributes attributes :=
  ⟨SameBody.refl_all _, rfl⟩

theorem SameAttributes.unknown {name : String} (hcode : name ≠ "Code") (hbootstraps : name ≠ "BootstrapMethods")
    (info : Bytes) (front back : List (String × Bytes)) :
    SameAttributes pool (front ++ back) (front ++ (name, info) :: back) where
  bodies := by
    rw [attributesNamed_append, attributesNamed_append, attributesNamed_cons_of_ne hcode]
    exact SameBody.refl_all _
  bootstraps := by
    rw [attributesNamed_append, attributesNamed_append, attributesNamed_cons_of_ne hbootstraps]

theorem SameAttributes.inCode {info info' : Bytes} (h : SameBody pool info info') (front back : List (String × Bytes)) :
    SameAttributes pool (front ++ ("Code", info) :: back) (front ++ ("Code", info') :: back) where
  bodies := by
    rw [attributesNamed_append, attributesNamed_append, attributesNamed_cons_self, attributesNamed_cons_self]
    exact List.rel_append (SameBody.refl_all _) (.cons h (SameBody.refl_all _))
  bootstraps := by
    have hne : "Code" ≠ "BootstrapMethods" := by decide
    rw [attributesNamed_append, attributesNamed_append, attributesNamed_cons_of_ne hne, attributesNamed_cons_of_ne hne]

theorem RawAttribute.Extended.sameOutcome {as as' : List RawAttribute} (h : Extended pool as as') :
    SameOutcome (SameAttributes pool) (as.mapM (named pool)) (as'.mapM (named pool)) := by
  cases h with
  | unknown front back a hroom ha hname hcode hbootstraps =>
    rename_i name
    -- The name is found, so the new attribute is read, and its name is not looked for.
    have hnamed : a.named pool = pure (name, a.info) := by
      rw [named, hname]
      rfl
    rw [List.mapM_append, List.mapM_append, List.mapM_cons, hnamed]
    simp only [pure_bind, bind_assoc]
    exact .bind_same fun front => .bind_same fun back => .ok (SameAttributes.unknown hcode hbootstraps a.info front back)
  | inCode front back hname body hbody before after hattributes a hroom ha hinfo =>
    rename_i index
    have hbody' : { body with attributes := before ++ a :: after }.Fits :=
      { hbody with attributes := .insert (hattributes ▸ hbody.attributes) hroom ha }
    have hnamed : ∀ info, named pool ⟨index, info⟩ = pure ("Code", info) := by
      intro info
      rw [named, hname]
      rfl
    have hsame : SameBody pool body.bytes { body with attributes := before ++ a :: after }.bytes :=
      RawBody.parse_attributes hbody hbody' pool
    rw [List.mapM_append, List.mapM_append, List.mapM_cons, List.mapM_cons, hnamed, hnamed]
    simp only [pure_bind, bind_assoc]
    exact .bind_same fun front => .bind_same fun back => .ok (SameAttributes.inCode hsame front back)

theorem sameOutcome_codeOf {attributes attributes' : List (String × Bytes)}
    (h : SameAttributes pool attributes attributes') :
    SameOutcome (Option.Rel (SameBody pool)) (codeOf attributes) (codeOf attributes') := by
  have hbodies := h.bodies
  unfold codeOf
  generalize attributesNamed "Code" attributes = infos at hbodies ⊢
  generalize attributesNamed "Code" attributes' = infos' at hbodies ⊢
  match infos, infos', hbodies with
  | [], [], .nil => exact .ok .none
  | [_], [_], .cons hinfo .nil => exact .ok (.some hinfo)
  | _ :: _ :: _, _ :: _ :: _, .cons _ (.cons _ _) => exact .error _

theorem SameMember.of_code {access : Access} {name descriptor : String} {code code' : Option Bytes}
    (h : Option.Rel (SameBody pool) code code') :
    SameMember pool ⟨access, name, descriptor, code⟩ ⟨access, name, descriptor, code'⟩ := by
  intro table
  cases h with
  | some hinfo => simp only [MemberLayout.decode, hinfo table]
  | none => rfl

/-- A member with one attribute more decodes alike. -/
theorem RawMember.sameOutcome {m : RawMember} {attributes : List RawAttribute}
    (h : RawAttribute.Extended pool m.attributes attributes) :
    SameOutcome (SameMember pool) (m.layout pool) ({ m with attributes := attributes }.layout pool) :=
  .bind_same fun _ => .bind_same fun _ => h.sameOutcome.bind fun _ _ hnamed =>
    (sameOutcome_codeOf hnamed).bind fun _ _ hcode => .ok (.of_code hcode)

theorem SameMember.refl_all (pool : Pool) (ms : List MemberLayout) : List.Forall₂ (SameMember pool) ms ms :=
  List.forall₂_same.2 fun _ _ _ => rfl

theorem sameOutcome_members (front back : List RawMember) {m : RawMember} {attributes : List RawAttribute}
    (h : RawAttribute.Extended pool m.attributes attributes) :
    SameOutcome (List.Forall₂ (SameMember pool)) ((front ++ m :: back).mapM (RawMember.layout pool))
      ((front ++ { m with attributes := attributes } :: back).mapM (RawMember.layout pool)) := by
  have hsame : ∀ ms : List RawMember,
      List.Forall₂ (fun m m' => SameOutcome (SameMember pool) (m.layout pool) (m'.layout pool)) ms ms :=
    fun ms => List.forall₂_same.2 fun m _ => .refl (fun _ _ => rfl) (m.layout pool)
  exact .mapM (List.rel_append (hsame front) (.cons (RawMember.sameOutcome h) (hsame back)))

theorem mapM_decode_of_sameMember {layouts layouts' : List MemberLayout}
    (h : List.Forall₂ (SameMember pool) layouts layouts') (table : List BootstrapMethod) :
    layouts'.mapM (MemberLayout.decode pool table) = layouts.mapM (MemberLayout.decode pool table) := by
  induction h with
  | nil => rfl
  | cons hm _ ih => rw [List.mapM_cons, List.mapM_cons, hm table, ih]

/-- Classes whose tables have the same outcomes decode alike. -/
theorem RawClass.decode_layout (c : RawClass) {fields methods : List RawMember} {attributes : List RawAttribute}
    (hfields : SameOutcome (List.Forall₂ (SameMember c.pool)) (c.fields.mapM (RawMember.layout c.pool))
      (fields.mapM (RawMember.layout c.pool)))
    (hmethods : SameOutcome (List.Forall₂ (SameMember c.pool)) (c.methods.mapM (RawMember.layout c.pool))
      (methods.mapM (RawMember.layout c.pool)))
    (hattributes : SameOutcome (SameAttributes c.pool) (c.attributes.mapM (RawAttribute.named c.pool))
      (attributes.mapM (RawAttribute.named c.pool))) :
    c.layout >>= Layout.decode =
      { c with fields := fields, methods := methods, attributes := attributes }.layout >>= Layout.decode := by
  have hlayouts : SameOutcome (fun l l' => l.decode = l'.decode) c.layout
      { c with fields := fields, methods := methods, attributes := attributes }.layout :=
    .bind_same fun _ => .bind_same fun _ => .bind_same fun _ => hfields.bind fun _ _ hfields =>
      hmethods.bind fun _ _ hmethods => hattributes.bind fun named named' hnamed => by
        have hbootstraps : bootstrapsOf c.pool named' = bootstrapsOf c.pool named := by
          rw [bootstrapsOf, bootstrapsOf, hnamed.bootstraps]
        -- The bodies are decoded with one table of bootstrap methods, the same in both.
        rw [hbootstraps]
        refine .bind_same fun table => .ok ?_
        rw [Layout.decode, Layout.decode, mapM_decode_of_sameMember hfields, mapM_decode_of_sameMember hmethods]
  exact (hlayouts.bind fun l l' h => h ▸ SameOutcome.refl (fun _ => rfl) _).eq

/-- **A file with one attribute more is read as the same class**, or refused with the same fault. -/
theorem RawClass.parse_extended {c c' : RawClass} (h : c.Extended c') (hc : c.Fits) :
    parse c'.bytes = parse c.bytes := by
  have hmembers : ∀ ms : List RawMember, SameOutcome (List.Forall₂ (SameMember c.pool))
      (ms.mapM (RawMember.layout c.pool)) (ms.mapM (RawMember.layout c.pool)) := fun ms => .refl (SameMember.refl_all c.pool) _
  have hattributes : SameOutcome (SameAttributes c.pool) (c.attributes.mapM (RawAttribute.named c.pool))
      (c.attributes.mapM (RawAttribute.named c.pool)) := .refl SameAttributes.refl _
  rw [parse_bytes hc, parse_bytes (h.fits hc)]
  cases h with
  | inField front back m attributes hfields h =>
    exact (c.decode_layout (hfields ▸ sameOutcome_members front back h) (hmembers c.methods) hattributes).symm
  | inMethod front back m attributes hmethods h =>
    exact (c.decode_layout (hmembers c.fields) (hmethods ▸ sameOutcome_members front back h) hattributes).symm
  | inClass attributes h => exact (c.decode_layout (hmembers c.fields) (hmembers c.methods) h.sameOutcome).symm

/-! ## Accepted files -/

theorem exists_of_bind {α β : Type} {x : Except Fault α} {f : α → Except Fault β} {b : β} (h : x >>= f = .ok b) :
    ∃ a, x = .ok a ∧ f a = .ok b := by
  cases x with
  | ok a => exact ⟨a, rfl, h⟩
  | error e => cases h

theorem exists_of_mapM {α β : Type} {f : α → Except Fault β} {as : List α} {bs : List β} (h : as.mapM f = .ok bs) :
    ∀ a ∈ as, ∃ b ∈ bs, f a = .ok b := by
  induction as generalizing bs with
  | nil => exact nofun
  | cons a as ih =>
    rw [List.mapM_cons] at h
    obtain ⟨b, hb, h⟩ := exists_of_bind h
    obtain ⟨bs', hbs', h⟩ := exists_of_bind h
    cases h
    refine List.forall_mem_cons.2 ⟨⟨b, List.mem_cons_self, hb⟩, fun a' ha' => ?_⟩
    obtain ⟨b', hb', hfa'⟩ := ih hbs' a' ha'
    exact ⟨b', List.mem_cons_of_mem b hb', hfa'⟩

theorem eq_some_of_codeOf {attributes : List (String × Bytes)} {code : Option Bytes} (h : codeOf attributes = .ok code)
    {info : Bytes} (hinfo : ("Code", info) ∈ attributes) : code = some info := by
  have hmem : info ∈ attributesNamed "Code" attributes :=
    List.mem_map.2 ⟨("Code", info), List.mem_filter.2 ⟨hinfo, beq_self_eq_true "Code"⟩, rfl⟩
  unfold codeOf at h
  generalize attributesNamed "Code" attributes = infos at h hmem
  match infos, hmem, h with
  | [_], hmem, h =>
    cases h
    rw [List.mem_singleton.1 hmem]

/-- Of a member that is decoded, the contents of a `Code` attribute are those of a body. -/
theorem RawMember.exists_body {m : RawMember} {layout : MemberLayout} {table : List BootstrapMethod} {member : Member}
    (hlayout : m.layout pool = .ok layout) (hdecode : layout.decode pool table = .ok member) {a : RawAttribute}
    (ha : a ∈ m.attributes) (hcode : pool.text a.name = .ok "Code") :
    ∃ body : RawBody, body.Fits ∧ body.bytes = a.info := by
  obtain ⟨name, -, hlayout⟩ := exists_of_bind hlayout
  obtain ⟨descriptor, -, hlayout⟩ := exists_of_bind hlayout
  obtain ⟨attributes, hattributes, hlayout⟩ := exists_of_bind hlayout
  obtain ⟨code, hcodeOf, hlayout⟩ := exists_of_bind hlayout
  cases hlayout
  have hinfo : ("Code", a.info) ∈ attributes := by
    obtain ⟨entry, hentry, hnamed⟩ := exists_of_mapM hattributes a ha
    rw [RawAttribute.named, hcode] at hnamed
    cases hnamed
    exact hentry
  obtain rfl := eq_some_of_codeOf hcodeOf hinfo
  obtain ⟨body, hbody, -⟩ := exists_ok_of_map hdecode
  obtain ⟨parts, hparts, -⟩ := exists_of_bind hbody
  exact RawBody.exists_of_all hparts

theorem RawClass.exists_body {c : RawClass} {parsed : ClassFile} (hc : c.Fits) (h : parse c.bytes = .ok parsed)
    {m : RawMember} (hm : m ∈ c.fields ++ c.methods) {a : RawAttribute} (ha : a ∈ m.attributes)
    (hcode : c.pool.text a.name = .ok "Code") : ∃ body : RawBody, body.Fits ∧ body.bytes = a.info := by
  rw [parse_bytes hc] at h
  -- Every step before the one that reads the bodies of the members has succeeded.
  obtain ⟨layout, hlayout, hdecode⟩ := exists_of_bind h
  obtain ⟨_, -, hlayout⟩ := exists_of_bind hlayout
  obtain ⟨_, -, hlayout⟩ := exists_of_bind hlayout
  obtain ⟨_, -, hlayout⟩ := exists_of_bind hlayout
  obtain ⟨fields, hfields, hlayout⟩ := exists_of_bind hlayout
  obtain ⟨methods, hmethods, hlayout⟩ := exists_of_bind hlayout
  obtain ⟨_, -, hlayout⟩ := exists_of_bind hlayout
  obtain ⟨table, -, hlayout⟩ := exists_of_bind hlayout
  cases hlayout
  obtain ⟨_, hfieldBodies, hdecode⟩ := exists_of_bind hdecode
  obtain ⟨_, hmethodBodies, -⟩ := exists_of_bind hdecode
  rcases List.mem_append.1 hm with hm | hm
  · obtain ⟨l, hl, hlayout⟩ := exists_of_mapM hfields m hm
    obtain ⟨_, -, hdecode⟩ := exists_of_mapM hfieldBodies l hl
    exact RawMember.exists_body hlayout hdecode ha hcode
  · obtain ⟨l, hl, hlayout⟩ := exists_of_mapM hmethods m hm
    obtain ⟨_, -, hdecode⟩ := exists_of_mapM hmethodBodies l hl
    exact RawMember.exists_body hlayout hdecode ha hcode

/-- **Unknown attributes are transparent.**  An accepted file has its tables, and the contents of each `Code` attribute of a
member theirs.  With one attribute more, of an unknown name in the table of a field, a method or the class or of any name in
the table inside a `Code` attribute, the file is read as the same class. -/
theorem unknown_attributes_transparent (b : Bytes) (c : ClassFile) (h : parse b = .ok c) :
    (∃ r : RawClass, r.Fits ∧ r.bytes = b) ∧
    ∀ r : RawClass, r.Fits → r.bytes = b →
      (∀ m ∈ r.fields ++ r.methods, ∀ a ∈ m.attributes, r.pool.text a.name = .ok "Code" →
        ∃ body : RawBody, body.Fits ∧ body.bytes = a.info) ∧
      ∀ r', r.Extended r' → parse r'.bytes = .ok c := by
  obtain ⟨l, hl, -⟩ := layout_of_parse h
  refine ⟨RawClass.exists_of_run hl, ?_⟩
  rintro r hr rfl
  refine ⟨fun m hm a ha hcode => RawClass.exists_body hr h hm ha hcode, fun r' hr' => ?_⟩
  rw [RawClass.parse_extended hr' hr, h]

/-- The body of a method that returns at once. -/
def returningBody : RawBody :=
  ⟨0, 0, [0xb1], 0, [], []⟩

/-- The tables of the file with one method. -/
def oneMethodTables : RawClass where
  minor := 0
  major := 52
  constants := [0, 6, 1, 0, 1, 65, 7, 0, 1, 1, 0, 1, 109, 1, 0, 3, 40, 41, 86, 1, 0, 4, 67, 111, 100, 101]
  pool := [.utf8 "A", .classRef 1, .utf8 "m", .utf8 "()V", .utf8 "Code"]
  access := 33
  name := 2
  superclass := 0
  interfaces := []
  fields := []
  methods := [⟨9, 3, 4, [⟨5, returningBody.bytes⟩]⟩]
  attributes := []

/-- The file with one method may get a class attribute `m` of two octets, and in the body of its method an attribute with
the index 0 of no name. -/
theorem oneMethodFile_unknown_attributes :
    parse oneMethodFile = .ok oneMethodClass ∧
    parse (oneMethodFile.take 73 ++ [0, 1, 0, 3, 0, 0, 0, 2, 7, 7]) = .ok oneMethodClass ∧
    parse (oneMethodFile.take 56 ++ [0, 0, 0, 20, 0, 0, 0, 0, 0, 0, 0, 1, 0xb1, 0, 0, 0, 1, 0, 0, 0, 0, 0, 1, 9, 0, 0]) =
      .ok oneMethodClass := by
  have hparse : parse oneMethodFile = .ok oneMethodClass := by cbv
  have hfits : oneMethodTables.Fits :=
    ⟨Pool.exact_read.reads (by cbv), by decide, by decide, by decide, by decide⟩
  obtain ⟨-, hall⟩ := unknown_attributes_transparent oneMethodFile oneMethodClass hparse
  obtain ⟨-, hextended⟩ := hall oneMethodTables hfits (by decide)
  refine ⟨hparse, ?_, ?_⟩
  · exact hextended _ (.inClass _ (.unknown [] [] ⟨3, [7, 7]⟩ (by decide) (by decide) rfl (by decide) (by decide)))
  · have hbody : returningBody.Fits := ⟨by decide, by decide, by decide⟩
    exact hextended _ (.inMethod [] [] _ _ rfl
      (.inCode [] [] rfl returningBody hbody [] [] rfl ⟨0, [9]⟩ (by decide) (by decide) (by decide)))

end ClassFile
end RenameAudit
