import Mathlib
import RenameAudit.Proofs.Text.ModifiedUtf8
/-!
# Proofs.Text.Groups — which octets are a text

Octets are a text exactly when they divide into groups of one, two or three (`ModifiedUtf8.Groups`) whose units have no
unit of a pair that stands alone (`Utf16.WellFormed`); the text is then the one that has these units.  Groups are told here
by their bits: a group's first octet says its length, and the payloads of its octets are put together.
-/
namespace RenameAudit

namespace Utf16

/-- **Well-formed units**: a unit that opens a pair stands before one that closes it, and no other closes one. -/
inductive WellFormed : List UInt16 → Prop where
  | nil : WellFormed []
  | single {u : UInt16} {us : List UInt16} : u < 0xD800 ∨ 0xE000 ≤ u → WellFormed us → WellFormed (u :: us)
  | pair {u v : UInt16} {us : List UInt16} : 0xD800 ≤ u → u < 0xDC00 → 0xDC00 ≤ v → v < 0xE000 → WellFormed us →
      WellFormed (u :: v :: us)

theorem isLeading_iff {u : UInt16} : isLeading u = true ↔ 0xD800 ≤ u ∧ u < 0xDC00 := by
  simp [isLeading, UInt16.le_iff_toNat_le, UInt16.lt_iff_toNat_lt]

theorem isTrailing_iff {u : UInt16} : isTrailing u = true ↔ 0xDC00 ≤ u ∧ u < 0xE000 := by
  simp [isTrailing, UInt16.le_iff_toNat_le, UInt16.lt_iff_toNat_lt]

theorem not_isPart_iff {u : UInt16} : isLeading u = false ∧ isTrailing u = false ↔ u < 0xD800 ∨ 0xE000 ≤ u := by
  simp only [← Bool.not_eq_true, isLeading_iff, isTrailing_iff, UInt16.le_iff_toNat_le, UInt16.lt_iff_toNat_lt,
    UInt16.reduceToNat]
  omega

theorem encodeChar_single {u : UInt16} (h : u < 0xD800 ∨ 0xE000 ≤ u) : encodeChar (Char.ofNat u.toNat) = [u] := by
  have hu : u.toNat < 65536 := u.toNat_lt
  rw [UInt16.lt_iff_toNat_lt, UInt16.le_iff_toNat_le] at h
  simp only [UInt16.reduceToNat] at h
  have hchar : (Char.ofNat u.toNat).toNat = u.toNat := by
    rw [Char.toNat_ofNat, if_pos]
    unfold Nat.isValidChar
    omega
  rw [encodeChar, hchar, if_pos hu, UInt16.ofNat_toNat]

theorem encodeChar_pair {u v : UInt16} (hu : 0xD800 ≤ u) (hu' : u < 0xDC00) (hv : 0xDC00 ≤ v) (hv' : v < 0xE000) :
    encodeChar (pairChar u v) = [u, v] := by
  rw [UInt16.le_iff_toNat_le] at hu hv
  rw [UInt16.lt_iff_toNat_lt] at hu' hv'
  simp only [UInt16.reduceToNat] at hu hu' hv hv'
  have hchar : (pairChar u v).toNat = 0x10000 + (u.toNat - 0xD800) * 0x400 + (v.toNat - 0xDC00) := by
    rw [pairChar, Char.toNat_ofNat, if_pos]
    unfold Nat.isValidChar
    omega
  have hleading : leading (pairChar u v) = u := by
    apply UInt16.toNat_inj.1
    rw [leading, hchar, UInt16.toNat_ofNat']
    omega
  have htrailing : trailing (pairChar u v) = v := by
    apply UInt16.toNat_inj.1
    rw [trailing, hchar, UInt16.toNat_ofNat']
    omega
  rw [encodeChar, if_neg (by omega), hleading, htrailing]

/-- **Well-formed units are those of one text.** -/
theorem exists_decode_of_wellFormed {us : List UInt16} (h : WellFormed us) :
    ∃ cs, decode us = some cs ∧ encode cs = us := by
  induction h with
  | nil => exact ⟨[], rfl, rfl⟩
  | @single u us hu _ ih =>
    obtain ⟨cs, hcs, henc⟩ := ih
    obtain ⟨hlead, htrail⟩ := not_isPart_iff.2 hu
    refine ⟨Char.ofNat u.toNat :: cs, by rw [decode_cons hlead htrail, hcs]; rfl, ?_⟩
    rw [encode, List.flatMap_cons, encodeChar_single hu, ← encode, henc]
    rfl
  | @pair u v us hu hu' hv hv' _ ih =>
    obtain ⟨cs, hcs, henc⟩ := ih
    refine ⟨pairChar u v :: cs, by rw [decode_pair (isLeading_iff.2 ⟨hu, hu'⟩) (isTrailing_iff.2 ⟨hv, hv'⟩), hcs]; rfl, ?_⟩
    rw [encode, List.flatMap_cons, encodeChar_pair hu hu' hv hv', ← encode, henc]
    rfl

theorem wellFormed_of_decode {us : List UInt16} {cs : List Char} (h : decode us = some cs) : WellFormed us := by
  fun_induction decode us generalizing cs with
  | case1 => exact .nil
  | case2 u hu v rest hv ih =>
    obtain ⟨cs', hcs, -⟩ := Option.map_eq_some_iff.1 h
    obtain ⟨hu, hu'⟩ := isLeading_iff.1 hu
    obtain ⟨hv, hv'⟩ := isTrailing_iff.1 hv
    exact .pair hu hu' hv hv' (ih hcs)
  | case3 => cases h
  | case4 => cases h
  | case5 => cases h
  | case6 u rest hlead htrail ih =>
    obtain ⟨cs', hcs, -⟩ := Option.map_eq_some_iff.1 h
    exact .single (not_isPart_iff.1 ⟨by simpa using hlead, by simpa using htrail⟩) (ih hcs)

theorem decode_eq_some_iff {us : List UInt16} {cs : List Char} : decode us = some cs ↔ encode cs = us := by
  constructor
  · intro h
    obtain ⟨cs', hcs, henc⟩ := exists_decode_of_wellFormed (wellFormed_of_decode h)
    rw [h] at hcs
    cases hcs
    exact henc
  · rintro rfl
    exact decode_encode cs

end Utf16

namespace ModifiedUtf8

/-- Whether an octet continues a group: its upper bits are `10`. -/
def Continues (b : UInt8) : Prop :=
  b &&& 0xC0 = 0x80

/-- The six bits that an octet adds to a group. -/
def payload (b : UInt8) : UInt16 :=
  b.toUInt16 &&& 0x3F

/-- **Octets as groups, and the unit of each group.** -/
inductive Groups : Bytes → List UInt16 → Prop where
  | nil : Groups [] []
  | one {a : UInt8} {bytes : Bytes} {us : List UInt16} : 0x01 ≤ a → a ≤ 0x7F → Groups bytes us →
      Groups (a :: bytes) (a.toUInt16 :: us)
  | two {a b : UInt8} {bytes : Bytes} {us : List UInt16} : 0xC0 ≤ a → a ≤ 0xDF → Continues b → Groups bytes us →
      Groups (a :: b :: bytes) (((a.toUInt16 &&& 0x1F) <<< 6 ||| payload b) :: us)
  | three {a b c : UInt8} {bytes : Bytes} {us : List UInt16} : 0xE0 ≤ a → a ≤ 0xEF → Continues b → Continues c →
      Groups bytes us →
      Groups (a :: b :: c :: bytes) (((a.toUInt16 &&& 0x0F) <<< 12 ||| payload b <<< 6 ||| payload c) :: us)

/-! ## Bits -/

theorem isContinuation_iff {b : UInt8} : isContinuation b = true ↔ Continues b := by
  have hall : ∀ n < 256, (128 ≤ n ∧ n < 192 ↔ n &&& 192 = 128) := by decide +kernel
  have hbits : Continues b ↔ b.toNat &&& 192 = 128 := by
    rw [Continues, ← UInt8.toNat_inj, UInt8.toNat_and]
    rfl
  rw [isContinuation, Bool.and_eq_true, decide_eq_true_iff, decide_eq_true_iff, hbits, hall _ b.toNat_lt]

theorem isSingle_iff {a : UInt8} : isSingle a = true ↔ 0x01 ≤ a ∧ a ≤ 0x7F := by
  simp only [isSingle, Bool.and_eq_true, decide_eq_true_iff, UInt8.le_iff_toNat_le, UInt8.reduceToNat]
  omega

theorem opensTwo_iff {a : UInt8} : opensTwo a = true ↔ 0xC0 ≤ a ∧ a ≤ 0xDF := by
  simp only [opensTwo, Bool.and_eq_true, decide_eq_true_iff, UInt8.le_iff_toNat_le, UInt8.reduceToNat]
  omega

theorem opensThree_iff {a : UInt8} : opensThree a = true ↔ 0xE0 ≤ a ∧ a ≤ 0xEF := by
  simp only [opensThree, Bool.and_eq_true, decide_eq_true_iff, UInt8.le_iff_toNat_le, UInt8.reduceToNat]
  omega

theorem toNat_payload (b : UInt8) : (payload b).toNat = b.toNat % 64 := by
  rw [payload, UInt16.toNat_and, UInt8.toNat_toUInt16]
  exact Nat.and_two_pow_sub_one_eq_mod b.toNat 6

theorem unitOfOne_eq (a : UInt8) : UInt16.ofNat a.toNat = a.toUInt16 := by
  apply UInt16.toNat_inj.1
  have ha : a.toNat < 256 := a.toNat_lt
  rw [UInt16.toNat_ofNat', UInt8.toNat_toUInt16]
  omega

/-- What stands below a shifted number is added to it. -/
theorem shiftLeft_or {low width : Nat} (h : low < 2 ^ width) (high : Nat) :
    high <<< width ||| low = high * 2 ^ width + low := by
  rw [← Nat.shiftLeft_add_eq_or_of_lt h, Nat.shiftLeft_eq]

theorem unitOfTwo_eq (a b : UInt8) : unitOfTwo a b = (a.toUInt16 &&& 0x1F) <<< 6 ||| payload b := by
  have ha : a.toNat &&& 31 = a.toNat % 32 := Nat.and_two_pow_sub_one_eq_mod a.toNat 5
  apply UInt16.toNat_inj.1
  rw [UInt16.toNat_or, UInt16.toNat_shiftLeft, UInt16.toNat_and, UInt8.toNat_toUInt16, toNat_payload]
  have hshift : (a.toNat % 32) <<< 6 % 2 ^ 16 = (a.toNat % 32) <<< 6 := by
    rw [Nat.shiftLeft_eq]
    omega
  show (unitOfTwo a b).toNat = (a.toNat &&& 31) <<< 6 % 2 ^ 16 ||| b.toNat % 64
  rw [ha, hshift, shiftLeft_or (by omega), unitOfTwo, UInt16.toNat_ofNat']
  omega

theorem unitOfThree_eq (a b c : UInt8) :
    unitOfThree a b c = (a.toUInt16 &&& 0x0F) <<< 12 ||| payload b <<< 6 ||| payload c := by
  have ha : a.toNat &&& 15 = a.toNat % 16 := Nat.and_two_pow_sub_one_eq_mod a.toNat 4
  apply UInt16.toNat_inj.1
  rw [UInt16.toNat_or, UInt16.toNat_or, UInt16.toNat_shiftLeft, UInt16.toNat_shiftLeft, UInt16.toNat_and,
    UInt8.toNat_toUInt16, toNat_payload, toNat_payload]
  have hhigh : (a.toNat % 16) <<< 12 % 2 ^ 16 = (a.toNat % 16) <<< 12 := by
    rw [Nat.shiftLeft_eq]
    omega
  have hmiddle : (b.toNat % 64) <<< 6 % 2 ^ 16 = (b.toNat % 64) <<< 6 := by
    rw [Nat.shiftLeft_eq]
    omega
  have hlow : (b.toNat % 64) <<< 6 ||| c.toNat % 64 = b.toNat % 64 * 2 ^ 6 + c.toNat % 64 := shiftLeft_or (by omega) _
  show (unitOfThree a b c).toNat =
    (a.toNat &&& 15) <<< 12 % 2 ^ 16 ||| (b.toNat % 64) <<< 6 % 2 ^ 16 ||| c.toNat % 64
  rw [ha, hhigh, hmiddle, Nat.or_assoc, hlow, shiftLeft_or (by omega), unitOfThree, UInt16.toNat_ofNat']
  omega

/-! ## Groups -/

theorem units_of_groups {bytes : Bytes} {us : List UInt16} (h : Groups bytes us) : units bytes = some us := by
  induction h with
  | nil => rfl
  | one ha ha' _ ih => rw [units_single (isSingle_iff.2 ⟨ha, ha'⟩), ih, ← unitOfOne_eq]; rfl
  | @two a b _ _ ha ha' hb _ ih =>
    have hsingle : isSingle a = false := by
      rw [UInt8.le_iff_toNat_le] at ha
      simpa [isSingle] using fun _ => Nat.le_trans (by decide) ha
    rw [units_two hsingle (opensTwo_iff.2 ⟨ha, ha'⟩) (isContinuation_iff.2 hb), ih, ← unitOfTwo_eq]
    rfl
  | @three a b c _ _ ha ha' hb hc _ ih =>
    have hsingle : isSingle a = false := by
      rw [UInt8.le_iff_toNat_le] at ha
      simpa [isSingle] using fun _ => Nat.le_trans (by decide) ha
    have htwo : opensTwo a = false := by
      rw [UInt8.le_iff_toNat_le] at ha
      simpa [opensTwo] using fun _ => Nat.le_trans (by decide) ha
    rw [units_three hsingle htwo (opensThree_iff.2 ⟨ha, ha'⟩) (isContinuation_iff.2 hb) (isContinuation_iff.2 hc), ih,
      ← unitOfThree_eq]
    rfl

theorem groups_of_units {bytes : Bytes} {us : List UInt16} (h : units bytes = some us) : Groups bytes us := by
  fun_induction units bytes generalizing us with
  | case1 => cases h; exact .nil
  | case2 a rest hsingle ih =>
    obtain ⟨us', hus, rfl⟩ := Option.map_eq_some_iff.1 h
    obtain ⟨ha, ha'⟩ := isSingle_iff.1 hsingle
    rw [unitOfOne_eq]
    exact .one ha ha' (ih hus)
  | case3 a _ htwo b rest hb ih =>
    obtain ⟨us', hus, rfl⟩ := Option.map_eq_some_iff.1 h
    obtain ⟨ha, ha'⟩ := opensTwo_iff.1 htwo
    rw [unitOfTwo_eq]
    exact .two ha ha' (isContinuation_iff.1 hb) (ih hus)
  | case6 a _ _ hthree b c rest hbc ih =>
    obtain ⟨us', hus, rfl⟩ := Option.map_eq_some_iff.1 h
    obtain ⟨ha, ha'⟩ := opensThree_iff.1 hthree
    obtain ⟨hb, hc⟩ := Bool.and_eq_true_iff.1 hbc
    rw [unitOfThree_eq]
    exact .three ha ha' (isContinuation_iff.1 hb) (isContinuation_iff.1 hc) (ih hus)
  | _ => cases h

theorem units_eq_some_iff {bytes : Bytes} {us : List UInt16} : units bytes = some us ↔ Groups bytes us :=
  ⟨groups_of_units, units_of_groups⟩

theorem decodeGroups_eq_some_iff {bytes : Bytes} {s : String} :
    decodeGroups bytes = some s ↔ ∃ us, Groups bytes us ∧ Utf16.encode s.toList = us := by
  rw [decodeGroups, Option.bind_eq_some_iff]
  refine exists_congr fun us => and_congr units_eq_some_iff ?_
  rw [Option.map_eq_some_iff]
  constructor
  · rintro ⟨cs, hcs, rfl⟩
    rw [String.toList_ofList]
    exact Utf16.decode_eq_some_iff.1 hcs
  · exact fun h => ⟨s.toList, Utf16.decode_eq_some_iff.2 h, String.ofList_toList⟩

/-- **Which octets are a text, and of which text.**  Written texts are read back; reading octet by octet gives the same as
reading groups; octets can be read exactly when they divide into groups with well-formed units, and then as the text that
has these units. -/
theorem texts_read_exactly :
    (∀ s, decode (encode s) = some s) ∧
    (∀ bytes, bytes.all isSingle = true → some (decodeSingles bytes) = decodeGroups bytes) ∧
    (∀ bytes, (∃ s, decode bytes = some s) ↔ ∃ us, Groups bytes us ∧ Utf16.WellFormed us) ∧
    ∀ bytes s, decode bytes = some s ↔ ∃ us, Groups bytes us ∧ Utf16.encode s.toList = us := by
  refine ⟨decode_encode, fun bytes h => (decodeGroups_of_singles h).symm, fun bytes => ?_, fun bytes s => ?_⟩
  · simp only [decode_eq, decodeGroups_eq_some_iff]
    constructor
    · rintro ⟨s, us, hgroups, hunits⟩
      exact ⟨us, hgroups, Utf16.wellFormed_of_decode (Utf16.decode_eq_some_iff.2 hunits)⟩
    · rintro ⟨us, hgroups, hwell⟩
      obtain ⟨cs, -, hcs⟩ := Utf16.exists_decode_of_wellFormed hwell
      exact ⟨String.ofList cs, us, hgroups, by rw [String.toList_ofList, hcs]⟩
  · rw [decode_eq, decodeGroups_eq_some_iff]

/-- A letter, NUL in two octets and a character outside the basic plane in six are read; the first three of these six alone
are half a pair. -/
theorem letter_nul_pair_read :
    decode [0x61, 0xC0, 0x80, 0xED, 0xA0, 0xBD, 0xED, 0xB8, 0x80] = some "a\x00😀" ∧
    (¬ ∃ us, Groups [0xED, 0xA0, 0xBD] us ∧ Utf16.WellFormed us) ∧
    decodeGroups [0x61, 0x62] = some (decodeSingles [0x61, 0x62]) := by
  obtain ⟨-, hsingles, hread, htext⟩ := texts_read_exactly
  refine ⟨(htext _ _).2 ⟨[0x61, 0, 0xD83D, 0xDE00], ?_, by decide⟩, fun h => ?_, (hsingles [0x61, 0x62] (by decide)).symm⟩
  · have hface : Groups [0xED, 0xA0, 0xBD, 0xED, 0xB8, 0x80] [0xD83D, 0xDE00] :=
      .three (by decide) (by decide) rfl rfl (.three (by decide) (by decide) rfl rfl .nil)
    exact .one (by decide) (by decide) (.two (by decide) (by decide) rfl hface)
  · obtain ⟨s, hs⟩ := (hread _).2 h
    have hnone : decode [0xED, 0xA0, 0xBD] = none := by decide
    exact Option.some_ne_none s (hs.symm.trans hnone)

end ModifiedUtf8
end RenameAudit
