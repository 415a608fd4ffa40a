import RenameAudit.Bytes
import RenameAudit.Text.Utf16
/-!
# ModifiedUtf8 — the text form of class file constants

Each UTF-16 unit is a group of one octet (`01`–`7F`), of two (`C0`–`DF`, then a continuation) or of three (`E0`–`EF`,
then two continuations), so a character outside the basic plane takes six octets and NUL takes two.  Reading takes
any group of that shape, also one longer than it need be, and refuses every other octet; the units then have to be
well-formed UTF-16.
-/
namespace RenameAudit
namespace ModifiedUtf8

/-- The group of one unit. -/
def encodeUnit (u : UInt16) : Bytes :=
  let n := u.toNat
  if n ≠ 0 ∧ n < 0x80 then [UInt8.ofNat n]
  else if n < 0x800 then [UInt8.ofNat (0xC0 + n / 0x40), UInt8.ofNat (0x80 + n % 0x40)]
  else [UInt8.ofNat (0xE0 + n / 0x1000), UInt8.ofNat (0x80 + n / 0x40 % 0x40), UInt8.ofNat (0x80 + n % 0x40)]

/-- The octets of a text. -/
def encode (s : String) : Bytes :=
  (Utf16.encode s.toList).flatMap encodeUnit

/-- Whether an octet continues a group: `80`–`BF`. -/
def isContinuation (b : UInt8) : Bool :=
  0x80 ≤ b.toNat && b.toNat < 0xC0

/-- Whether an octet is a group of its own: `01`–`7F`. -/
def isSingle (b : UInt8) : Bool :=
  0x01 ≤ b.toNat && b.toNat < 0x80

/-- Whether an octet opens a group of two: `C0`–`DF`. -/
def opensTwo (b : UInt8) : Bool :=
  0xC0 ≤ b.toNat && b.toNat < 0xE0

/-- Whether an octet opens a group of three: `E0`–`EF`. -/
def opensThree (b : UInt8) : Bool :=
  0xE0 ≤ b.toNat && b.toNat < 0xF0

/-- The unit of a group of two. -/
def unitOfTwo (a b : UInt8) : UInt16 :=
  UInt16.ofNat (a.toNat % 0x20 * 0x40 + b.toNat % 0x40)

/-- The unit of a group of three. -/
def unitOfThree (a b c : UInt8) : UInt16 :=
  UInt16.ofNat (a.toNat % 0x10 * 0x1000 + b.toNat % 0x40 * 0x40 + c.toNat % 0x40)

/-- The units of a sequence of groups, none where the octets are no such sequence. -/
def units : Bytes → Option (List UInt16)
  | [] => some []
  | a :: rest =>
    if isSingle a then (units rest).map (UInt16.ofNat a.toNat :: ·)
    else if opensTwo a then
      match rest with
      | b :: rest' => if isContinuation b then (units rest').map (unitOfTwo a b :: ·) else none
      | [] => none
    else if opensThree a then
      match rest with
      | b :: c :: rest' =>
        if isContinuation b && isContinuation c then (units rest').map (unitOfThree a b c :: ·) else none
      | _ => none
    else none

/-- The text of a sequence of groups. -/
def decodeGroups (bytes : Bytes) : Option String :=
  (units bytes).bind fun us => (Utf16.decode us).map String.ofList

/-- The text of a string of single groups, read octet by octet. -/
def decodeSingles (bytes : Bytes) : String :=
  String.ofList (bytes.map fun b => Char.ofNat b.toNat)

/-- The text of an octet string.  Constants are ASCII nearly always, and then each octet is its own character. -/
def decode (bytes : Bytes) : Option String :=
  if bytes.all isSingle then some (decodeSingles bytes) else decodeGroups bytes

end ModifiedUtf8
end RenameAudit
