import Mathlib.Data.List.Basic
import RenameAudit.Text.ModifiedUtf8
/-!
# Proofs.Text.ModifiedUtf8 — written texts are read back

The units of a text are found again in their groups (`ModifiedUtf8.units_encodeUnit`), and the characters in their units
(`Utf16.decode_encodeChar`), so every text is read back (`ModifiedUtf8.decode_encode`).  A string of single groups may
be read octet by octet (`decodeGroups_of_singles`).
-/
namespace RenameAudit

namespace Utf16

theorem isLeading_ofNat {c : Char} (h : c.toNat < 0x10000) : isLeading (UInt16.ofNat c.toNat) = false := by
  have hvalid : c.toNat < 0xD800 ∨ 0xDFFF < c.toNat ∧ c.toNat < 0x110000 := c.valid
  have hunit : (UInt16.ofNat c.toNat).toNat = c.toNat := by rw [UInt16.toNat_ofNat']; omega
  rw [isLeading, hunit, Bool.and_eq_false_iff, decide_eq_false_iff_not, decide_eq_false_iff_not]
  omega

theorem isTrailing_ofNat {c : Char} (h : c.toNat < 0x10000) : isTrailing (UInt16.ofNat c.toNat) = false := by
  have hvalid : c.toNat < 0xD800 ∨ 0xDFFF < c.toNat ∧ c.toNat < 0x110000 := c.valid
  have hunit : (UInt16.ofNat c.toNat).toNat = c.toNat := by rw [UInt16.toNat_ofNat']; omega
  rw [isTrailing, hunit, Bool.and_eq_false_iff, decide_eq_false_iff_not, decide_eq_false_iff_not]
  omega

theorem decode_cons {u : UInt16} (hlead : isLeading u = false) (htrail : isTrailing u = false) (rest : List UInt16) :
    decode (u :: rest) = (decode rest).map (Char.ofNat u.toNat :: ·) := by
  rw [decode.eq_def]
  simp only [hlead, htrail]
  rfl

theorem decode_pair {u v : UInt16} (hlead : isLeading u = true) (htrail : isTrailing v = true) (rest : List UInt16) :
    decode (u :: v :: rest) = (decode rest).map (pairChar u v :: ·) := by
  rw [decode.eq_def]
  simp only [hlead, htrail]
  rfl

/-- **A character is found again in its units**, whatever follows. -/
theorem decode_encodeChar (c : Char) (rest : List UInt16) :
    decode (encodeChar c ++ rest) = (decode rest).map (c :: ·) := by
  have hvalid : c.toNat < 0xD800 ∨ 0xDFFF < c.toNat ∧ c.toNat < 0x110000 := c.valid
  rw [encodeChar]
  split
  · rename_i h
    have hunit : (UInt16.ofNat c.toNat).toNat = c.toNat := by rw [UInt16.toNat_ofNat']; omega
    rw [List.singleton_append, decode_cons (isLeading_ofNat h) (isTrailing_ofNat h), hunit, Char.ofNat_toNat]
  · rename_i h
    have hlead : (leading c).toNat = 0xD800 + (c.toNat - 0x10000) / 0x400 := by
      rw [leading, UInt16.toNat_ofNat']; omega
    have htrail : (trailing c).toNat = 0xDC00 + (c.toNat - 0x10000) % 0x400 := by
      rw [trailing, UInt16.toNat_ofNat']; omega
    have hleading : isLeading (leading c) = true := by
      rw [isLeading, hlead, Bool.and_eq_true, decide_eq_true_iff, decide_eq_true_iff]; omega
    have htrailing : isTrailing (trailing c) = true := by
      rw [isTrailing, htrail, Bool.and_eq_true, decide_eq_true_iff, decide_eq_true_iff]; omega
    have hpair : pairChar (leading c) (trailing c) = c := by
      have hsum : 0x10000 + (0xD800 + (c.toNat - 0x10000) / 0x400 - 0xD800) * 0x400 +
          (0xDC00 + (c.toNat - 0x10000) % 0x400 - 0xDC00) = c.toNat := by omega
      rw [pairChar, hlead, htrail, hsum, Char.ofNat_toNat]
    rw [List.cons_append, List.singleton_append, decode_pair hleading htrailing, hpair]

theorem decode_encode (cs : List Char) : decode (encode cs) = some cs := by
  induction cs with
  | nil => rfl
  | cons c cs ih =>
    rw [encode, List.flatMap_cons, decode_encodeChar, ← encode, ih]
    rfl

end Utf16

namespace ModifiedUtf8

theorem units_single {a : UInt8} (ha : isSingle a = true) (rest : Bytes) :
    units (a :: rest) = (units rest).map (UInt16.ofNat a.toNat :: ·) := by
  rw [units.eq_def]
  simp only [ha]
  rfl

theorem units_two {a b : UInt8} (hsingle : isSingle a = false) (ha : opensTwo a = true) (hb : isContinuation b = true)
    (rest : Bytes) : units (a :: b :: rest) = (units rest).map (unitOfTwo a b :: ·) := by
  rw [units.eq_def]
  simp only [hsingle, ha, hb]
  rfl

theorem units_three {a b c : UInt8} (hsingle : isSingle a = false) (htwo : opensTwo a = false)
    (ha : opensThree a = true) (hb : isContinuation b = true) (hc : isContinuation c = true) (rest : Bytes) :
    units (a :: b :: c :: rest) = (units rest).map (unitOfThree a b c :: ·) := by
  rw [units.eq_def]
  simp only [hsingle, htwo, ha, hb, hc]
  rfl

theorem isContinuation_ofNat {n : Nat} (h : n < 0x40) : isContinuation (UInt8.ofNat (0x80 + n)) = true := by
  have hoctet : (UInt8.ofNat (0x80 + n)).toNat = 0x80 + n := by rw [UInt8.toNat_ofNat']; omega
  rw [isContinuation, hoctet, Bool.and_eq_true, decide_eq_true_iff, decide_eq_true_iff]
  omega

/-- **A unit is found again in its group**, whatever follows. -/
theorem units_encodeUnit (u : UInt16) (rest : Bytes) : units (encodeUnit u ++ rest) = (units rest).map (u :: ·) := by
  have hu : u.toNat < 65536 := u.toNat_lt
  have hlast : (UInt8.ofNat (0x80 + u.toNat % 0x40)).toNat = 0x80 + u.toNat % 0x40 := by
    rw [UInt8.toNat_ofNat']; omega
  unfold encodeUnit
  dsimp only
  split
  · rename_i h
    have hoctet : (UInt8.ofNat u.toNat).toNat = u.toNat := by rw [UInt8.toNat_ofNat']; omega
    have hsingle : isSingle (UInt8.ofNat u.toNat) = true := by
      rw [isSingle, hoctet, Bool.and_eq_true, decide_eq_true_iff, decide_eq_true_iff]; omega
    rw [List.singleton_append, units_single hsingle, hoctet, UInt16.ofNat_toNat]
  split
  · rename_i h _
    have hfirst : (UInt8.ofNat (0xC0 + u.toNat / 0x40)).toNat = 0xC0 + u.toNat / 0x40 := by
      rw [UInt8.toNat_ofNat']; omega
    have hsingle : isSingle (UInt8.ofNat (0xC0 + u.toNat / 0x40)) = false := by
      rw [isSingle, hfirst, Bool.and_eq_false_iff, decide_eq_false_iff_not, decide_eq_false_iff_not]; omega
    have hopens : opensTwo (UInt8.ofNat (0xC0 + u.toNat / 0x40)) = true := by
      rw [opensTwo, hfirst, Bool.and_eq_true, decide_eq_true_iff, decide_eq_true_iff]; omega
    have hunit : unitOfTwo (UInt8.ofNat (0xC0 + u.toNat / 0x40)) (UInt8.ofNat (0x80 + u.toNat % 0x40)) = u := by
      apply UInt16.toNat_inj.1
      rw [unitOfTwo, hfirst, hlast, UInt16.toNat_ofNat']
      omega
    rw [List.cons_append, List.singleton_append, units_two hsingle hopens (isContinuation_ofNat (by omega)), hunit]
  · have hfirst : (UInt8.ofNat (0xE0 + u.toNat / 0x1000)).toNat = 0xE0 + u.toNat / 0x1000 := by
      rw [UInt8.toNat_ofNat']; omega
    have hmiddle : (UInt8.ofNat (0x80 + u.toNat / 0x40 % 0x40)).toNat = 0x80 + u.toNat / 0x40 % 0x40 := by
      rw [UInt8.toNat_ofNat']; omega
    have hsingle : isSingle (UInt8.ofNat (0xE0 + u.toNat / 0x1000)) = false := by
      rw [isSingle, hfirst, Bool.and_eq_false_iff, decide_eq_false_iff_not, decide_eq_false_iff_not]; omega
    have htwo : opensTwo (UInt8.ofNat (0xE0 + u.toNat / 0x1000)) = false := by
      rw [opensTwo, hfirst, Bool.and_eq_false_iff, decide_eq_false_iff_not, decide_eq_false_iff_not]; omega
    have hopens : opensThree (UInt8.ofNat (0xE0 + u.toNat / 0x1000)) = true := by
      rw [opensThree, hfirst, Bool.and_eq_true, decide_eq_true_iff, decide_eq_true_iff]; omega
    have hunit : unitOfThree (UInt8.ofNat (0xE0 + u.toNat / 0x1000)) (UInt8.ofNat (0x80 + u.toNat / 0x40 % 0x40))
        (UInt8.ofNat (0x80 + u.toNat % 0x40)) = u := by
      apply UInt16.toNat_inj.1
      rw [unitOfThree, hfirst, hmiddle, hlast, UInt16.toNat_ofNat']
      omega
    rw [List.cons_append, List.cons_append, List.singleton_append, units_three hsingle htwo hopens
      (isContinuation_ofNat (by omega)) (isContinuation_ofNat (by omega)), hunit]

theorem units_flatMap_encodeUnit (us : List UInt16) : units (us.flatMap encodeUnit) = some us := by
  induction us with
  | nil => rfl
  | cons u us ih => rw [List.flatMap_cons, units_encodeUnit, ih]; rfl

/-- **A string of single groups** may be read octet by octet. -/
theorem decodeGroups_of_singles {bytes : Bytes} (h : bytes.all isSingle = true) :
    decodeGroups bytes = some (decodeSingles bytes) := by
  have hunits : units bytes = some (bytes.map fun b => UInt16.ofNat b.toNat) ∧
      Utf16.decode (bytes.map fun b => UInt16.ofNat b.toNat) = some (bytes.map fun b => Char.ofNat b.toNat) := by
    induction bytes with
    | nil => exact ⟨rfl, rfl⟩
    | cons a rest ih =>
      rw [List.all_cons, Bool.and_eq_true] at h
      obtain ⟨hrest, hchars⟩ := ih h.2
      have ha : a.toNat < 0x80 := by
        have hsingle := h.1
        rw [isSingle, Bool.and_eq_true, decide_eq_true_iff, decide_eq_true_iff] at hsingle
        exact hsingle.2
      have hunit : (UInt16.ofNat a.toNat).toNat = a.toNat := by rw [UInt16.toNat_ofNat']; omega
      have hlead : Utf16.isLeading (UInt16.ofNat a.toNat) = false := by
        rw [Utf16.isLeading, hunit, Bool.and_eq_false_iff, decide_eq_false_iff_not]; omega
      have htrail : Utf16.isTrailing (UInt16.ofNat a.toNat) = false := by
        rw [Utf16.isTrailing, hunit, Bool.and_eq_false_iff, decide_eq_false_iff_not]; omega
      refine ⟨by rw [units_single h.1, hrest]; rfl, ?_⟩
      rw [List.map_cons, Utf16.decode_cons hlead htrail, hchars, hunit]
      rfl
  rw [decodeGroups, hunits.1, Option.bind_some, hunits.2]
  rfl

theorem decode_eq (bytes : Bytes) : decode bytes = decodeGroups bytes := by
  rw [decode]
  split
  · rw [decodeGroups_of_singles ‹_›]
  · rfl

/-- **A written text is read back.** -/
theorem decode_encode (s : String) : decode (encode s) = some s := by
  rw [decode_eq, decodeGroups, encode, units_flatMap_encodeUnit, Option.bind_some, Utf16.decode_encode]
  exact congrArg some String.ofList_toList

end ModifiedUtf8
end RenameAudit
