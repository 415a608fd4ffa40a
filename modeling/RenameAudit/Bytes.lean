/-!
# Bytes — octet strings and big-endian words

A binary file is a list of octets, so that every reader and writer in the library is a function on lists.  Words of
two, four and eight octets are written most significant octet first, by division, so that the laws below are
arithmetic on `Nat`.
-/
namespace RenameAudit

-- Powers of numbers are those of the core library, whatever else is imported.
attribute [local instance (high)] instPowNat

/-- An octet string. -/
abbrev Bytes := List UInt8

namespace Bytes

/-- The octet of `n` with weight `256 ^ k`. -/
def octet (n k : Nat) : UInt8 :=
  UInt8.ofNat (n / 256 ^ k)

/-- The two octets of a word, high octet first. -/
def ofU16 (v : UInt16) : Bytes :=
  [octet v.toNat 1, octet v.toNat 0]

/-- The four octets of a word, high octet first. -/
def ofU32 (v : UInt32) : Bytes :=
  [octet v.toNat 3, octet v.toNat 2, octet v.toNat 1, octet v.toNat 0]

/-- The eight octets of a word, high octet first. -/
def ofU64 (v : UInt64) : Bytes :=
  ofU32 (UInt32.ofNat (v.toNat / 2 ^ (32 : Nat))) ++ ofU32 (UInt32.ofNat v.toNat)

/-- The word with high octet `a` and low octet `b`. -/
def toU16 (a b : UInt8) : UInt16 :=
  UInt16.ofNat (a.toNat * 256 + b.toNat)

/-- The word with octets `a b c d`, high octet first. -/
def toU32 (a b c d : UInt8) : UInt32 :=
  UInt32.ofNat (((a.toNat * 256 + b.toNat) * 256 + c.toNat) * 256 + d.toNat)

/-- The double word with high half `high` and low half `low`. -/
def toU64 (high low : UInt32) : UInt64 :=
  UInt64.ofNat (high.toNat * 2 ^ (32 : Nat) + low.toNat)

@[simp] theorem length_ofU16 (v : UInt16) : (ofU16 v).length = 2 := rfl

@[simp] theorem length_ofU32 (v : UInt32) : (ofU32 v).length = 4 := rfl

/-- **A written word reads back.** -/
theorem toU16_octet (v : UInt16) : toU16 (octet v.toNat 1) (octet v.toNat 0) = v := by
  have hv := v.toNat_lt
  apply UInt16.toNat_inj.1
  simp only [toU16, octet, UInt8.toNat_ofNat', UInt16.toNat_ofNat']
  omega

/-- **A written word reads back.** -/
theorem toU32_octet (v : UInt32) :
    toU32 (octet v.toNat 3) (octet v.toNat 2) (octet v.toNat 1) (octet v.toNat 0) = v := by
  have hv := v.toNat_lt
  apply UInt32.toNat_inj.1
  simp only [toU32, octet, UInt8.toNat_ofNat', UInt32.toNat_ofNat']
  omega

/-- **A double word is its two halves.** -/
theorem toU64_halves (v : UInt64) : toU64 (UInt32.ofNat (v.toNat / 2 ^ (32 : Nat))) (UInt32.ofNat v.toNat) = v := by
  have hv := v.toNat_lt
  apply UInt64.toNat_inj.1
  simp only [toU64, UInt32.toNat_ofNat', UInt64.toNat_ofNat']
  omega

end Bytes
end RenameAudit
