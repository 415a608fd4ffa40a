/-!
# Utf16 — sixteen-bit units of a text

A character below `0x10000` is one unit; a character above is a pair, a leading unit of `D800`–`DBFF` and a trailing
unit of `DC00`–`DFFF`.  `decode` refuses a unit of a pair that stands alone.
-/
namespace RenameAudit
namespace Utf16

/-- The leading unit of a character's pair, for a character at or above `0x10000`. -/
def leading (c : Char) : UInt16 :=
  UInt16.ofNat (0xD800 + (c.toNat - 0x10000) / 0x400)

/-- The trailing unit of a character's pair, for a character at or above `0x10000`. -/
def trailing (c : Char) : UInt16 :=
  UInt16.ofNat (0xDC00 + (c.toNat - 0x10000) % 0x400)

/-- The units of one character. -/
def encodeChar (c : Char) : List UInt16 :=
  if c.toNat < 0x10000 then [UInt16.ofNat c.toNat] else [leading c, trailing c]

/-- The units of a text. -/
def encode (cs : List Char) : List UInt16 :=
  cs.flatMap encodeChar

/-- Whether a unit opens a pair. -/
def isLeading (u : UInt16) : Bool :=
  0xD800 ≤ u.toNat && u.toNat < 0xDC00

/-- Whether a unit closes a pair. -/
def isTrailing (u : UInt16) : Bool :=
  0xDC00 ≤ u.toNat && u.toNat < 0xE000

/-- The character of a pair of units. -/
def pairChar (u v : UInt16) : Char :=
  Char.ofNat (0x10000 + (u.toNat - 0xD800) * 0x400 + (v.toNat - 0xDC00))

/-- The text of a list of units; a unit of a pair without its partner is refused. -/
def decode : List UInt16 → Option (List Char)
  | [] => some []
  | u :: rest =>
    if isLeading u then
      match rest with
      | v :: rest' => if isTrailing v then (decode rest').map (pairChar u v :: ·) else none
      | [] => none
    else if isTrailing u then none
    else (decode rest).map (Char.ofNat u.toNat :: ·)

end Utf16
end RenameAudit
