import Mathlib
import RenameAudit.Auditor
import RenameAudit.Proofs.ClassFile.SelfDelimiting
import RenameAudit.Proofs.Hierarchy.Runs
/-!
# Proofs.Check.RefusedClasses — a bad class affects nothing but itself

`Directory.readInPlace` reads a class step by step, writes to the directory as it goes, and stops with a fault where it
finds one; what it has written by then stays.  It finds all faults before it writes (`run_readInPlace`), so a class that is
refused leaves no trace.  An auditor that works in place keeps whatever directory a reading leaves, and so a list of files
comes to the same as the files of it that are accepted (`loadAll_accepted`), where acceptance at a place of the
list is said without running anything (`accepts_after_iff`).
-/
namespace RenameAudit

open Std ClassFile

namespace Directory

/-! ## Reading in place -/

/-- A reading that writes to a directory and may stop with a fault; what it has written stays. -/
abbrev Reading : Type → Type :=
  ExceptT StructureFault (StateM Directory)

/-- Stops at the first bad member of a class. -/
def stopAtMember (c : ClassFile) (bad : Member → Bool) (members : List Member) : Reading Unit :=
  members.forM fun m => do
    if bad m then throw (.invalidDescriptor c.name m.name m.descriptor)

/-- Reads a class into the directory, one write after the other. -/
def readInPlace (c : ClassFile) (owned : Bool) : Reading Unit := do
  if (← get).wasRead c.name then throw (.alreadyRead c.name)
  if c.superclass = some c.name ∨ c.name ∈ c.interfaces then throw (.selfInheritance c.name)
  stopAtMember c (fun f => !isFieldDescriptor f.descriptor) c.fields
  stopAtMember c (fun m => (MethodType.parse? m.descriptor).isNone) c.methods
  modify (·.mention c.name)
  c.superclass.toList.forM fun name => modify (·.mention name)
  c.interfaces.forM fun name => modify (·.mention name)
  modify (·.declare c.name (c.toDeclaration owned))

theorem run_bind {α β : Type} (x : Reading α) (f : α → Reading β) (d : Directory) :
    (x >>= f).run d =
      match x.run d with
      | (.ok a, e) => (f a).run e
      | (.error fault, e) => (.error fault, e) := by
  have hbind : (x >>= f).run d = ExceptT.bindCont f (x.run d).1 (x.run d).2 := rfl
  rw [hbind]
  obtain ⟨_ | _, e⟩ := x.run d <;> rfl

theorem run_bind_of_ok {α β : Type} {x : Reading α} {d e : Directory} {a : α} (h : x.run d = (.ok a, e))
    (f : α → Reading β) : (x >>= f).run d = (f a).run e := by
  rw [run_bind, h]

theorem run_stopAtMember (c : ClassFile) (bad : Member → Bool) (members : List Member) (d : Directory) :
    (stopAtMember c bad members).run d =
      match members.find? bad with
      | some m => (.error (.invalidDescriptor c.name m.name m.descriptor), d)
      | none => (.ok (), d) := by
  induction members with
  | nil => rfl
  | cons m rest ih =>
    rw [stopAtMember, List.forM_eq_forM, List.forM_cons, run_bind, List.find?_cons]
    cases hm : bad m with
    | false => exact ih
    | true => rfl

theorem run_modify (f : Directory → Directory) (d : Directory) : (modify f : Reading Unit).run d = (.ok (), f d) :=
  rfl

theorem run_mentions (names : List String) (d : Directory) :
    (names.forM fun name => modify (·.mention name) : Reading Unit).run d = (.ok (), names.foldl mention d) := by
  induction names generalizing d with
  | nil => rfl
  | cons name rest ih => exact ih (d.mention name)

/-- **Faults are found before anything is written**: a reading in place that stops leaves the directory as it was, and one
that does not stop leaves the directory that is said to come of it. -/
theorem run_readInPlace (c : ClassFile) (owned : Bool) (d : Directory) :
    (readInPlace c owned).run d =
      match d.ingest c owned with
      | .ok e => (.ok (), e)
      | .error fault => (.error fault, d) := by
  have hget : (get : Reading Directory).run d = (.ok d, d) := rfl
  rw [readInPlace, run_bind_of_ok hget, ingest, refusal?, structureFault?]
  dsimp only
  split
  · rfl
  split
  · rfl
  rw [run_bind, run_stopAtMember]
  cases c.fields.find? fun f => !isFieldDescriptor f.descriptor with
  | some f => rfl
  | none =>
    dsimp only
    rw [run_bind, run_stopAtMember]
    cases c.methods.find? fun m => (MethodType.parse? m.descriptor).isNone with
    | some m => rfl
    | none =>
      -- nothing is at fault: all that is left are the writes
      have hsupertypes : (c.toDeclaration owned).supertypes = c.superclass.toList ++ c.interfaces := rfl
      dsimp only [Option.map_none]
      rw [run_bind_of_ok (run_modify _ _), run_bind_of_ok (run_mentions _ _), run_bind_of_ok (run_mentions _ _), run_modify,
        hsupertypes, List.foldl_cons, List.foldl_append]

end Directory

namespace Auditor

/-! ## Loading in place -/

/-- Takes a class into the directory of an auditor, and whether it was accepted.  The directory is the one that the
reading leaves, whether it stopped or not. -/
def ingestInPlace (c : ClassFile) (owned : Bool) : StateM Auditor Bool := fun a =>
  match (Directory.readInPlace c owned).run a.dir with
  | (.ok _, dir) => (true, { a with dir, resolved := false })
  | (.error _, dir) => (false, { a with dir })

/-- Takes a class file into an auditor, and counts it where it was accepted. -/
def loadOneInPlace (owned : Bool) (loaded : Nat) (bytes : Bytes) : StateM Auditor Nat :=
  match ClassFile.parse bytes with
  | .error _ => pure loaded
  | .ok c => do
    let taken ← ingestInPlace c owned
    return if taken then loaded + 1 else loaded

/-- Takes class files into an auditor, and how many were accepted. -/
def loadInPlace (files : List Bytes) (owned : Bool) : StateM Auditor Nat :=
  files.foldlM (loadOneInPlace owned) 0

theorem run_ingestInPlace (c : ClassFile) (owned : Bool) (a : Auditor) :
    (ingestInPlace c owned).run a =
      match a.ingest c owned with
      | .ok b => (true, b)
      | .error _ => (false, a) := by
  show ingestInPlace c owned a = _
  rw [ingestInPlace, Directory.run_readInPlace, ingest]
  cases a.dir.ingest c owned <;> rfl

/-- One more class file in a count of those that were accepted. -/
def loadOne (owned : Bool) (s : Auditor × Nat) (bytes : Bytes) : Auditor × Nat :=
  ((s.1.load bytes owned).1, if (s.1.load bytes owned).2 then s.2 + 1 else s.2)

theorem run_loadOneInPlace (owned : Bool) (loaded : Nat) (bytes : Bytes) (a : Auditor) :
    (loadOneInPlace owned loaded bytes).run a = (loadOne owned (a, loaded) bytes).swap := by
  cases hparse : ClassFile.parse bytes with
  | error e =>
    simp only [loadOneInPlace, loadOne, load, hparse]
    rfl
  | ok c =>
    have hrun : ((ingestInPlace c owned >>= fun taken => pure (if taken then loaded + 1 else loaded)).run a) =
        (if ((ingestInPlace c owned).run a).1 then loaded + 1 else loaded, ((ingestInPlace c owned).run a).2) := rfl
    cases hingest : a.ingest c owned <;>
      simp only [loadOneInPlace, loadOne, load, hparse, hrun, run_ingestInPlace, hingest] <;> rfl

/-- **An auditor that works in place counts and leaves what is said of the loading of a list.** -/
theorem run_loadInPlace (files : List Bytes) (owned : Bool) (a : Auditor) :
    (loadInPlace files owned).run a = (a.loadAll files owned).swap := by
  suffices h : ∀ loaded, (files.foldlM (loadOneInPlace owned) loaded).run a =
      (files.foldl (loadOne owned) (a, loaded)).swap from h 0
  induction files generalizing a with
  | nil => exact fun _ => rfl
  | cons bytes rest ih =>
    intro loaded
    rw [List.foldlM_cons, StateT.run_bind, run_loadOneInPlace, List.foldl_cons]
    exact ih _ _

/-! ## The files that are accepted -/

/-- Whether a class file is accepted: it can be decoded, and the directory does not refuse its class. -/
def accepts (a : Auditor) (bytes : Bytes) : Bool :=
  match ClassFile.parse bytes with
  | .error _ => false
  | .ok c => (a.dir.refusal? c).isNone

/-- The class files of a list that are accepted when the accepted ones before them are there. -/
def accepted (a : Auditor) (owned : Bool) : List Bytes → List Bytes
  | [] => []
  | bytes :: rest =>
    if a.accepts bytes then bytes :: (a.load bytes owned).1.accepted owned rest else a.accepted owned rest

theorem load_of_not_accepts {a : Auditor} {bytes : Bytes} (owned : Bool) (h : ¬ a.accepts bytes = true) :
    a.load bytes owned = (a, false) := by
  rw [accepts] at h
  rw [load]
  cases hparse : ClassFile.parse bytes with
  | error e => rfl
  | ok c =>
    rw [hparse] at h
    obtain ⟨fault, hfault⟩ := Option.ne_none_iff_exists'.1 fun hnone => h (Option.isNone_iff_eq_none.2 hnone)
    simp only [ingest, Directory.ingest, hfault]
    rfl

theorem load_of_accepts {a : Auditor} {bytes : Bytes} (owned : Bool) (h : a.accepts bytes = true) :
    ∃ c, ClassFile.parse bytes = .ok c ∧ a.dir.refusal? c = none ∧
      a.load bytes owned = ({ a with dir := a.dir.takeIn c owned, resolved := false }, true) := by
  rw [accepts] at h
  rw [load]
  cases hparse : ClassFile.parse bytes with
  | error e =>
    rw [hparse] at h
    cases h
  | ok c =>
    rw [hparse] at h
    have hnone : a.dir.refusal? c = none := Option.isNone_iff_eq_none.1 h
    refine ⟨c, rfl, hnone, ?_⟩
    simp only [ingest, Directory.takeIn, Directory.ingest, hnone]
    rfl

/-- **A list of files comes to the same as the files of it that are accepted.** -/
theorem loadAll_accepted (a : Auditor) (files : List Bytes) (owned : Bool) :
    a.loadAll (a.accepted owned files) owned = a.loadAll files owned := by
  suffices h : ∀ n, (a.accepted owned files).foldl (loadOne owned) (a, n) = files.foldl (loadOne owned) (a, n) from h 0
  induction files generalizing a with
  | nil => exact fun _ => rfl
  | cons bytes rest ih =>
    intro n
    rw [accepted, List.foldl_cons]
    split
    · exact ih _ _
    · rename_i h
      rw [ih, loadOne, load_of_not_accepts owned h]
      rfl

/-- As many files are counted as are accepted. -/
theorem count_loadAll (a : Auditor) (files : List Bytes) (owned : Bool) :
    (a.loadAll files owned).2 = (a.accepted owned files).length := by
  suffices h : ∀ n, (files.foldl (loadOne owned) (a, n)).2 = (a.accepted owned files).length + n from h 0
  induction files generalizing a with
  | nil => exact fun n => (Nat.zero_add n).symm
  | cons bytes rest ih =>
    intro n
    rw [accepted, List.foldl_cons, ih]
    split
    · rename_i h
      obtain ⟨c, -, -, hload⟩ := load_of_accepts owned h
      simp only [loadOne, hload, if_true, List.length_cons]
      omega
    · rename_i h
      simp only [loadOne, load_of_not_accepts owned h, Bool.false_eq_true, if_false]

/-- Of a class file, what is left of it when its last octet is cut off, and the same file again, one is taken in. -/
example (table : RenameTable) :
    ((new table).loadAll [oneMethodFile, oneMethodFile.take 74, oneMethodFile] true).2 = 1 := by
  cbv

/-! ## When a file is accepted -/

/-- A file holds a class of a name, and there is nothing wrong with it whatever classes are there. -/
def Holds (bytes : Bytes) (name : String) : Prop :=
  ∃ c, ClassFile.parse bytes = .ok c ∧ c.structureFault? = none ∧ c.name = name

theorem Holds.name_eq {bytes : Bytes} {name other : String} (h : Holds bytes name) (h' : Holds bytes other) :
    name = other := by
  obtain ⟨c, hparse, -, rfl⟩ := h
  obtain ⟨c', hparse', -, rfl⟩ := h'
  rw [hparse] at hparse'
  cases hparse'
  rfl

theorem accepts_iff {a : Auditor} {bytes : Bytes} :
    a.accepts bytes = true ↔ ∃ name, Holds bytes name ∧ a.dir.wasRead name = false := by
  rw [accepts]
  constructor
  · intro h
    cases hparse : ClassFile.parse bytes with
    | error e =>
      rw [hparse] at h
      cases h
    | ok c =>
      rw [hparse] at h
      obtain ⟨hread, hsound⟩ := Directory.refusal?_eq_none.1 (Option.isNone_iff_eq_none.1 h)
      exact ⟨c.name, ⟨c, hparse, hsound, rfl⟩, hread⟩
  · rintro ⟨_, ⟨c, hparse, hsound, rfl⟩, hread⟩
    rw [hparse]
    exact Option.isNone_iff_eq_none.2 (Directory.refusal?_eq_none.2 ⟨hread, hsound⟩)

/-- The classes that were read after a file: those before, and the one that it holds. -/
theorem wasRead_load (a : Auditor) (bytes : Bytes) (owned : Bool) (name : String) :
    (a.load bytes owned).1.dir.wasRead name = true ↔ a.dir.wasRead name = true ∨ Holds bytes name := by
  by_cases h : a.accepts bytes = true
  · obtain ⟨c, hparse, hnone, hload⟩ := load_of_accepts owned h
    have hholds : Holds bytes c.name := ⟨c, hparse, (Directory.refusal?_eq_none.1 hnone).2, rfl⟩
    rw [hload, Directory.wasRead, Directory.declaration?_takeIn owned hnone]
    split
    · rename_i hname
      exact iff_of_true rfl (.inr (hname ▸ hholds))
    · rename_i hname
      exact ⟨.inl, fun hor => hor.resolve_right fun hn => hname (hn.name_eq hholds)⟩
  · rw [load_of_not_accepts owned h]
    refine ⟨.inl, fun hor => hor.elim id fun hn => ?_⟩
    by_contra hread
    exact h (accepts_iff.2 ⟨name, hn, Bool.eq_false_iff.2 hread⟩)

theorem wasRead_loadAll (a : Auditor) (files : List Bytes) (owned : Bool) (name : String) :
    (a.loadAll files owned).1.dir.wasRead name = true ↔
      a.dir.wasRead name = true ∨ ∃ bytes ∈ files, Holds bytes name := by
  suffices h : ∀ n, (files.foldl (loadOne owned) (a, n)).1.dir.wasRead name = true ↔
      a.dir.wasRead name = true ∨ ∃ bytes ∈ files, Holds bytes name from h 0
  induction files generalizing a with
  | nil => simp
  | cons bytes rest ih =>
    intro n
    rw [List.foldl_cons, loadOne, ih, wasRead_load, List.exists_mem_cons_iff, or_assoc]

/-- **A file at its place in a list is accepted** exactly when it holds a class that was not there before the list and that
no file before it in the list holds. -/
theorem accepts_after_iff (a : Auditor) (front : List Bytes) (owned : Bool) (bytes : Bytes) :
    (a.loadAll front owned).1.accepts bytes = true ↔
      ∃ name, Holds bytes name ∧ a.dir.wasRead name = false ∧ ∀ earlier ∈ front, ¬ Holds earlier name := by
  have hread : ∀ name, (a.loadAll front owned).1.dir.wasRead name = false ↔
      a.dir.wasRead name = false ∧ ∀ earlier ∈ front, ¬ Holds earlier name := fun name => by
    rw [← Bool.not_eq_true, wasRead_loadAll, not_or, Bool.not_eq_true]
    exact and_congr_right fun _ => ⟨fun h e he hh => h ⟨e, he, hh⟩, fun h ⟨e, he, hh⟩ => h e he hh⟩
  rw [accepts_iff]
  exact exists_congr fun name => and_congr_right fun _ => hread name

/-- **A bad class affects nothing but itself.**  A class file that is refused leaves the directory it was written to, and
the auditor with its mark of being resolved, as they were; and a list of files leaves what its accepted files leave, and
counts as many, where a file of the list is accepted when it is decoded to a class without fault that is new at its place. -/
theorem refused_leave_no_trace :
    (∀ (d e : Directory) (c : ClassFile) (owned : Bool) (fault : StructureFault),
      (Directory.readInPlace c owned).run d = (.error fault, e) ↔ d.ingest c owned = .error fault ∧ e = d) ∧
    (∀ (a b : Auditor) (c : ClassFile) (owned : Bool),
      (ingestInPlace c owned).run a = (false, b) ↔ (∃ fault, a.dir.ingest c owned = .error fault) ∧ b = a) ∧
    (∀ (a : Auditor) (files : List Bytes) (owned : Bool),
      (loadInPlace files owned).run a = (loadInPlace (a.accepted owned files) owned).run a ∧
      ((loadInPlace files owned).run a).1 = (a.accepted owned files).length) ∧
    ∀ (a : Auditor) (front : List Bytes) (owned : Bool) (bytes : Bytes),
      ((loadInPlace front owned).run a).2.accepts bytes = true ↔
        ∃ name, Holds bytes name ∧ a.dir.wasRead name = false ∧ ∀ earlier ∈ front, ¬ Holds earlier name := by
  refine ⟨fun d e c owned fault => ?_, fun a b c owned => ?_, fun a files owned => ⟨?_, ?_⟩,
    fun a front owned bytes => ?_⟩
  · rw [Directory.run_readInPlace]
    cases d.ingest c owned with
    | ok d' => exact iff_of_false (fun h => by cases h) fun h => by cases h.1
    | error fault' =>
      refine ⟨fun h => ?_, fun ⟨h, he⟩ => ?_⟩
      · cases h
        exact ⟨rfl, rfl⟩
      · cases h
        rw [he]
  · rw [run_ingestInPlace, ingest]
    cases a.dir.ingest c owned with
    | ok d' => exact iff_of_false (fun h => by cases h) fun ⟨⟨_, h⟩, _⟩ => by cases h
    | error fault' =>
      refine ⟨fun h => ?_, fun ⟨_, he⟩ => by rw [he]; rfl⟩
      cases h
      exact ⟨⟨fault', rfl⟩, rfl⟩
  · rw [run_loadInPlace, run_loadInPlace, loadAll_accepted]
  · rw [run_loadInPlace]
    exact count_loadAll a files owned
  · rw [run_loadInPlace]
    exact accepts_after_iff a front owned bytes

end Auditor
end RenameAudit
