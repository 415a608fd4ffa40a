import RenameAudit.Bytes
/-!
# Archive.Zip — records of an archive

The records of an archive begin with marks and hold numbers with the least significant octet first.
-/
namespace RenameAudit
namespace Zip

/-- The number of octets, of which the first is the least significant. -/
def numberOf (bytes : Bytes) : Nat :=
  bytes.foldr (fun b n => b.toNat + 256 * n) 0

/-- The octets from a place on, as many as there are. -/
def slice (file : ByteArray) (place count : Nat) : Bytes :=
  (file.extract place (place + count)).data.toList

/-- The number of `width` octets at a place. -/
def number (file : ByteArray) (place width : Nat) : Nat :=
  numberOf (slice file place width)

/-- Whether a record with a mark begins at a place. -/
def hasMark (mark : Bytes) (file : ByteArray) (place : Nat) : Bool :=
  slice file place mark.length == mark

/-- The mark of an entry of the directory. -/
def entryMark : Bytes := [0x50, 0x4B, 0x01, 0x02]

/-- The mark of the header before the octets of a file. -/
def headerMark : Bytes := [0x50, 0x4B, 0x03, 0x04]

/-- The mark of the record at the end. -/
def endMark : Bytes := [0x50, 0x4B, 0x05, 0x06]

/-- The mark of the record with wide numbers at the end. -/
def wideEndMark : Bytes := [0x50, 0x4B, 0x06, 0x06]

/-- The mark of the record that says where the one with wide numbers is. -/
def locatorMark : Bytes := [0x50, 0x4B, 0x06, 0x07]

/-- The methods of files that are not compressed, that are, and that are encrypted by a method of their own. -/
def storedMethod : Nat := 0
def deflatedMethod : Nat := 8
def cipherMethod : Nat := 99

/-- The greatest numbers of two and of four octets.  They stand where a number is too great for its place. -/
def greatest16 : Nat := 0xFFFF
def greatest32 : Nat := 0xFFFFFFFF

/-- What the directory of an archive says about a file. -/
structure Entry where
  name : String
  /-- The name in the octets that write it. -/
  rawName : Bytes
  comment : String
  isLink : Bool
  encrypted : Bool
  /-- Whether the file is encrypted by a method of its own. -/
  hasCipher : Bool
  method : Nat
  checksum : UInt32
  /-- The number of octets in the archive. -/
  size : Nat
  /-- The number of octets of the file. -/
  fullSize : Nat
  /-- The place of the header before the octets. -/
  place : Nat
  deriving DecidableEq, Repr

end Zip
end RenameAudit
