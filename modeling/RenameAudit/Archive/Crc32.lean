import RenameAudit.Bytes
/-!
# Archive.Crc32 — the checksum of archives

The remainder of a division of polynomials over two elements: the octets, least significant bit first, are the dividend,
and a fixed polynomial of degree 32 is the divisor.
-/
namespace RenameAudit
namespace Crc32

/-- The divisor without its leading term, least significant bit first. -/
def polynomial : UInt32 := 0xEDB88320

/-- The remainder after one more bit. -/
def shift (crc : UInt32) : UInt32 :=
  if crc &&& 1 = 1 then (crc >>> 1) ^^^ polynomial else crc >>> 1

/-- The remainder after one more octet. -/
def step (crc : UInt32) (b : UInt8) : UInt32 :=
  Nat.repeat shift 8 (crc ^^^ UInt32.ofNat b.toNat)

/-- The checksum of an octet string. -/
def ofBytes (bytes : Bytes) : UInt32 :=
  bytes.foldl step 0xFFFFFFFF ^^^ 0xFFFFFFFF

end Crc32
end RenameAudit
