import Mathlib
import RenameAudit.ClassFile.Parser
import RenameAudit.Proofs.Lists.Delimited
/-!
# Proofs.ClassFile.SelfDelimiting — a class file says where it ends

Every part of a class file is either of a fixed length or preceded by its length or count, so the readers of all parts
look at nothing but what they take (`ListReader.Delimited`), and so does `Layout.read`.  A file that is accepted is
therefore no longer one with anything after it, and with anything cut off its end it ends too soon
(`parse_delimited`).
-/
namespace RenameAudit
namespace ClassFile

open Reader ListReader

namespace Reader

variable {α : Type}

theorem delimited_u1 : Delimited Fault.unexpectedEnd u1 :=
  delimited_next

theorem delimited_u2 : Delimited Fault.unexpectedEnd u2 where
  append {b _ _} more h := by
    match b, h with
    | _ :: _ :: _, h => cases h; rfl
  cut {b more _ _} h := by
    match b, h with
    | [], _ | [_], _ => exact .inl rfl
    | x :: y :: r, h => cases h; exact .inr ⟨r, rfl, rfl⟩

theorem delimited_u4 : Delimited Fault.unexpectedEnd u4 where
  append {b _ _} more h := by
    match b, h with
    | _ :: _ :: _ :: _ :: _, h => cases h; rfl
  cut {b more _ _} h := by
    match b, h with
    | [], _ | [_], _ | [_, _], _ | [_, _, _], _ => exact .inl rfl
    | x :: y :: z :: w :: r, h => cases h; exact .inr ⟨r, rfl, rfl⟩

theorem delimited_u8 : Delimited Fault.unexpectedEnd u8 :=
  delimited_u4.bind fun _ => delimited_u4.bind fun _ => delimited_pure _

theorem delimited_take (n : Nat) : Delimited Fault.unexpectedEnd (take n) :=
  delimited_takeOr n

theorem delimited_table {item : Reader α} (h : Delimited Fault.unexpectedEnd item) :
    Delimited Fault.unexpectedEnd (table item) :=
  delimited_u2.bind fun count => h.times count.toNat

end Reader

/-! ## The parts of a class file -/

theorem Constant.delimited_readText : Delimited Fault.unexpectedEnd Constant.readText := by
  refine delimited_u2.bind fun length => (delimited_take _).bind fun octets => ?_
  split
  · exact delimited_pure _
  · exact delimited_fail _

theorem Constant.delimited_readParts (tag : UInt8) : Delimited Fault.unexpectedEnd (Constant.readParts tag) := by
  unfold Constant.readParts
  split
  · exact delimited_readText.map _
  · exact delimited_u4.map _
  · exact delimited_u4.map _
  · exact delimited_u8.map _
  · exact delimited_u8.map _
  · exact delimited_u2.map _
  · exact delimited_u2.map _
  · exact (delimited_u2.map _).seq delimited_u2
  · exact (delimited_u2.map _).seq delimited_u2
  · exact (delimited_u2.map _).seq delimited_u2
  · exact (delimited_u2.map _).seq delimited_u2
  · exact (delimited_u1.map _).seq delimited_u2
  · exact delimited_u2.map _
  · exact (delimited_u2.map _).seq delimited_u2
  · exact (delimited_u2.map _).seq delimited_u2
  · exact delimited_u2.map _
  · exact delimited_u2.map _
  · exact delimited_fail _

theorem Constant.delimited_read : Delimited Fault.unexpectedEnd Constant.read :=
  delimited_u1.bind Constant.delimited_readParts

theorem Pool.delimited_readUpTo (n : Nat) : Delimited Fault.unexpectedEnd (Pool.readUpTo n) := by
  fun_induction Pool.readUpTo n with
  | case1 => exact delimited_pure _
  | case2 => exact Constant.delimited_read.bind fun _ => delimited_pure _
  | case3 n ihWide ihNarrow =>
    refine Constant.delimited_read.bind fun c => ?_
    dsimp only
    split
    · exact ihWide.bind fun _ => delimited_pure _
    · exact ihNarrow.bind fun _ => delimited_pure _

theorem Pool.delimited_read : Delimited Fault.unexpectedEnd Pool.read :=
  delimited_u2.bind fun _ => Pool.delimited_readUpTo _

variable (pool : Pool)

theorem delimited_readAttributes : Delimited Fault.unexpectedEnd (readAttributes pool) :=
  delimited_table <| delimited_u2.bind fun _ => (delimited_lift _).bind fun _ => delimited_u4.bind fun _ =>
    (delimited_take _).bind fun _ => delimited_pure _

theorem MemberLayout.delimited_read : Delimited Fault.unexpectedEnd (MemberLayout.read pool) :=
  delimited_u2.bind fun _ => delimited_u2.bind fun _ => (delimited_lift _).bind fun _ =>
    delimited_u2.bind fun _ => (delimited_lift _).bind fun _ => (delimited_readAttributes pool).bind fun _ =>
      (delimited_lift _).bind fun _ => delimited_pure _

theorem Layout.delimited_read : Delimited Fault.unexpectedEnd Layout.read := by
  refine delimited_u4.bind fun found => ?_
  split
  · exact delimited_fail _
  · refine delimited_u2.bind fun minor => delimited_u2.bind fun major => Pool.delimited_read.bind fun pool =>
      delimited_u2.bind fun access => delimited_u2.bind fun _ => (delimited_lift _).bind fun name =>
      delimited_u2.bind fun index => ?_
    -- Whether there is a superclass or not, reading goes on with the rest.
    extract_lets afterSuperclass
    have hafter : ∀ superclass, Delimited Fault.unexpectedEnd (afterSuperclass superclass) := fun superclass =>
      (delimited_table (delimited_u2.bind fun _ => delimited_lift _)).bind fun _ =>
        (delimited_table (MemberLayout.delimited_read pool)).bind fun _ =>
        (delimited_table (MemberLayout.delimited_read pool)).bind fun _ =>
        (delimited_readAttributes pool).bind fun _ => (delimited_lift _).bind fun _ => delimited_pure _
    split
    · exact (delimited_pure _).bind hafter
    · exact (delimited_lift _).bind hafter

/-! ## Whole files -/

/-- What is left after the layout of an accepted file is nothing. -/
theorem layout_of_parse {b : Bytes} {c : ClassFile} (h : parse b = .ok c) :
    ∃ l, Layout.read.run b = .ok (l, []) ∧ l.decode = .ok c := by
  unfold parse Reader.all at h
  cases hrun : Layout.read.run b with
  | error e => rw [hrun] at h; cases h
  | ok r =>
    obtain ⟨l, rest⟩ := r
    rw [hrun] at h
    cases rest with
    | nil => exact ⟨l, rfl, h⟩
    | cons x xs => cases h

/-- **Class files are self-delimiting**: an accepted file with anything after it has trailing octets, and with anything
cut off it ends too soon.  So no accepted file begins with another. -/
theorem parse_delimited (b : Bytes) (c : ClassFile) (h : parse b = .ok c) :
    (∀ more, more ≠ [] → parse (b ++ more) = .error (.trailing .file)) ∧
    (∀ start, start <+: b → start ≠ b → parse start = .error .unexpectedEnd) ∧
    (∀ b' c', parse b' = .ok c' → b <+: b' → b' = b) := by
  obtain ⟨l, hl, -⟩ := layout_of_parse h
  have hmore : ∀ more, more ≠ [] → parse (b ++ more) = .error (.trailing .file) := by
    intro more hne
    obtain ⟨x, xs, rfl⟩ := List.exists_cons_of_ne_nil hne
    have hrun := Layout.delimited_read.append (x :: xs) hl
    simp only [parse, Reader.all, hrun, List.nil_append]
    rfl
  refine ⟨hmore, fun start hstart hne => ?_, fun b' c' hb' hprefix => ?_⟩
  · obtain ⟨more, rfl⟩ := hstart
    rcases Layout.delimited_read.cut hl with hend | ⟨left, -, hleft⟩
    · simp only [parse, Reader.all, hend]
      rfl
    · have hnil : more = [] := (List.append_eq_nil_iff.1 hleft.symm).2
      exact absurd (by rw [hnil, List.append_nil]) hne
  · obtain ⟨more, rfl⟩ := hprefix
    by_contra hne
    have hmissing := hmore more fun hnil => hne (by rw [hnil, List.append_nil])
    rw [hmissing] at hb'
    cases hb'

/-- The octets of a class `A` with one method, whose body returns at once. -/
def oneMethodFile : Bytes :=
  [0xca, 0xfe, 0xba, 0xbe, 0, 0, 0, 52, 0, 6,
    1, 0, 1, 65, 7, 0, 1, 1, 0, 1, 109, 1, 0, 3, 40, 41, 86, 1, 0, 4, 67, 111, 100, 101,
    0, 33, 0, 2, 0, 0, 0, 0, 0, 0, 0, 1,
    0, 9, 0, 3, 0, 4, 0, 1, 0, 5, 0, 0, 0, 13, 0, 0, 0, 0, 0, 0, 0, 1, 0xb1, 0, 0, 0, 0,
    0, 0]

/-- The class of those octets. -/
def oneMethodClass : ClassFile :=
  ⟨0, 52, 33, "A", none, [], [], [⟨9, "m", "()V", some ⟨0, 0, [.ret 0xb1]⟩⟩]⟩

/-- An octet after that file is one too many, and without its last octet, or with its magic number alone, it ends too
soon. -/
theorem oneMethodFile_delimited :
    parse oneMethodFile = .ok oneMethodClass ∧ parse (oneMethodFile ++ [0]) = .error (.trailing .file) ∧
    parse (oneMethodFile.take 74) = .error .unexpectedEnd ∧ parse (oneMethodFile.take 4) = .error .unexpectedEnd := by
  have hparse : parse oneMethodFile = .ok oneMethodClass := by cbv
  obtain ⟨hmore, hcut, -⟩ := parse_delimited oneMethodFile oneMethodClass hparse
  exact ⟨hparse, hmore [0] (by decide), hcut _ (List.take_prefix 74 _) (by decide),
    hcut _ (List.take_prefix 4 _) (by decide)⟩

end ClassFile
end RenameAudit
