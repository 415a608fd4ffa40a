import RenameAudit.ClassFile.Writer
import RenameAudit.Proofs.Lists.Reads
import RenameAudit.Proofs.Text.ModifiedUtf8
/-!
# Proofs.ClassFile.ReadingBack — words, tables and pools are read back

The readers of a class file take what the writers of its parts leave: words (`Reader.reads_u2` and its siblings), tables
(`Reader.reads_table`), constants (`Constant.reads_encode`) and pools (`Pool.reads_encode`).  The lengths and counts
have to fit the two octets that they are written in.
-/
namespace RenameAudit
namespace ClassFile

open ListReader

namespace Reader

variable {α : Type}

theorem reads_u1 (v : UInt8) : Reads u1 [v] v :=
  reads_next _ v

theorem reads_u2 (v : UInt16) : Reads u2 (Bytes.ofU16 v) v := by
  intro rest
  exact congrArg (fun w => Except.ok (w, rest)) (Bytes.toU16_octet v)

theorem reads_u4 (v : UInt32) : Reads u4 (Bytes.ofU32 v) v := by
  intro rest
  exact congrArg (fun w => Except.ok (w, rest)) (Bytes.toU32_octet v)

theorem reads_u8 (v : UInt64) : Reads u8 (Bytes.ofU64 v) v := by
  refine (reads_u4 _).bind ((reads_u4 _).bind_last ?_)
  rw [Bytes.toU64_halves]
  exact reads_pure v

theorem reads_take {n : Nat} (bytes : Bytes) (h : n = bytes.length) : Reads (take n) bytes bytes :=
  reads_takeOr _ h

theorem reads_skip {n : Nat} (bytes : Bytes) (h : n = bytes.length) : Reads (skip n) bytes () :=
  (reads_take bytes h).bind_last (reads_pure ())

/-- A table is read back, if its count fits. -/
theorem reads_table {item : Reader α} {parts : List Bytes} {as : List α} (h : List.Forall₂ (Reads item) parts as)
    (hcount : as.length < 65536) :
    Reads (table item) (Bytes.ofU16 (UInt16.ofNat as.length) ++ parts.flatten) as :=
  (reads_u2 _).bind (Reads.times h (UInt16.toNat_ofNat_of_lt' hcount))

end Reader

namespace Constant

open Reader

/-- Whether the text of a constant fits its length of two octets. -/
def Fits : Constant → Prop
  | utf8 text => (ModifiedUtf8.encode text).length < 65536
  | _ => True

theorem reads_readText {octets : Bytes} {text : String} (htext : ModifiedUtf8.decode octets = some text)
    (h : octets.length < 65536) :
    Reads readText (Bytes.ofU16 (UInt16.ofNat octets.length) ++ octets) text := by
  refine (reads_u2 _).bind ((reads_take octets (UInt16.toNat_ofNat_of_lt' h)).bind_last ?_)
  rw [htext]
  exact reads_pure text

/-- **A constant is read back**, if its text fits. -/
theorem reads_encode {c : Constant} (h : c.Fits) : Reads read c.encode c := by
  cases c with
  | utf8 text =>
    exact (reads_u1 1).bind ((reads_readText (ModifiedUtf8.decode_encode text) h).map _)
  | integer value =>
    have hparts := (reads_u4 value.toUInt32).map fun v => integer v.toInt32
    rw [show value.toUInt32.toInt32 = value from rfl] at hparts
    exact (reads_u1 3).bind hparts
  | float value => exact (reads_u1 4).bind ((reads_u4 value.bits).map _)
  | long value =>
    have hparts := (reads_u8 value.toUInt64).map fun v => long v.toInt64
    rw [show value.toUInt64.toInt64 = value from rfl] at hparts
    exact (reads_u1 5).bind hparts
  | double value => exact (reads_u1 6).bind ((reads_u8 value.bits).map _)
  | classRef name => exact (reads_u1 7).bind ((reads_u2 name).map _)
  | string text => exact (reads_u1 8).bind ((reads_u2 text).map _)
  | fieldRef owner nat => exact (reads_u1 9).bind (((reads_u2 owner).map _).seq (reads_u2 nat))
  | methodRef owner nat => exact (reads_u1 10).bind (((reads_u2 owner).map _).seq (reads_u2 nat))
  | interfaceMethodRef owner nat => exact (reads_u1 11).bind (((reads_u2 owner).map _).seq (reads_u2 nat))
  | nameAndType name descriptor => exact (reads_u1 12).bind (((reads_u2 name).map _).seq (reads_u2 descriptor))
  | methodHandle kind reference => exact (reads_u1 15).bind (((reads_u1 kind).map _).seq (reads_u2 reference))
  | methodType descriptor => exact (reads_u1 16).bind ((reads_u2 descriptor).map _)
  | dynamic bootstrap nat => exact (reads_u1 17).bind (((reads_u2 bootstrap).map _).seq (reads_u2 nat))
  | invokeDynamic bootstrap nat => exact (reads_u1 18).bind (((reads_u2 bootstrap).map _).seq (reads_u2 nat))
  | module name => exact (reads_u1 19).bind ((reads_u2 name).map _)
  | package name => exact (reads_u1 20).bind ((reads_u2 name).map _)

theorem width_pos (c : Constant) : 0 < c.width := by
  unfold width
  split <;> decide

end Constant

namespace Pool

open Reader

theorem width_cons (c : Constant) (pool : Pool) : width (c :: pool) = c.width + width pool := by
  rw [width, List.map_cons, List.sum_cons, width]

theorem eq_nil_of_width {pool : Pool} (h : pool.width = 0) : pool = [] := by
  cases pool with
  | nil => rfl
  | cons c pool =>
    have hpos := c.width_pos
    rw [width_cons] at h
    omega

/-- The constants of a pool are read back until they take as many indices as the pool. -/
theorem reads_readUpTo {pool : Pool} (h : ∀ c ∈ pool, c.Fits) : Reads (readUpTo pool.width) pool.encode pool := by
  induction pool with
  | nil => exact reads_pure []
  | cons c pool ih =>
    have hc := Constant.reads_encode (h c List.mem_cons_self)
    have hpool := ih fun d hd => h d (List.mem_cons_of_mem c hd)
    rw [width_cons, encode, List.flatMap_cons, ← encode, Constant.width]
    cases hwide : c.isWide with
    | true =>
      rw [if_pos rfl, Nat.add_comm, readUpTo]
      refine hc.bind ?_
      rw [hwide, if_pos rfl]
      exact hpool.bind_last (reads_pure _)
    | false =>
      rw [if_neg Bool.false_ne_true, Nat.add_comm]
      cases hrest : width pool with
      | zero =>
        rw [eq_nil_of_width hrest]
        exact hc.bind (reads_pure [c])
      | succ n =>
        rw [readUpTo]
        refine hc.bind ?_
        rw [hwide, if_neg Bool.false_ne_true, ← hrest]
        exact hpool.bind_last (reads_pure _)

/-- **A pool is read back**, if its texts and its count fit. -/
theorem reads_encode {pool : Pool} (h : ∀ c ∈ pool, c.Fits) (hcount : pool.width + 1 < 65536) :
    Reads read (Bytes.ofU16 (UInt16.ofNat (pool.width + 1)) ++ pool.encode) pool := by
  refine (reads_u2 _).bind ?_
  have hwidth : (UInt16.ofNat (pool.width + 1)).toNat - 1 = pool.width := by rw [UInt16.toNat_ofNat_of_lt' hcount]; rfl
  rw [hwidth]
  exact reads_readUpTo h

end Pool
end ClassFile
end RenameAudit
