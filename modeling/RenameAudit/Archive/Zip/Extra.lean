import RenameAudit.Archive.Crc32
import RenameAudit.Archive.Zip.Basic
import RenameAudit.ListReader
import RenameAudit.Text.Utf8
/-!
# Archive.Zip.Extra — additions to an entry

After its name an entry may have fields, each with a number for its kind and a length.  Some of them change what the entry
says, and some make it unreadable where they are not as they should be.  Where the octets end within a field, what has been
changed up to there counts.
-/
namespace RenameAudit
namespace Zip

open ListReader

/-- Why fields are not read on. -/
inductive Stop where
  | ended | refused
  deriving DecidableEq, Repr

/-- A reader of fields; a fault keeps the entry as it is up to there. -/
abbrev ExtraReader := ListReader UInt8 (Stop × Entry)

/-- The next octets. -/
def octets (e : Entry) (count : Nat) : ExtraReader Bytes :=
  takeOr (.ended, e) count

/-- The number of the next octets. -/
def readNumber (e : Entry) (width : Nat) : ExtraReader Nat := do
  return numberOf (← octets e width)

/-- Refuses unless a condition holds. -/
def demand (e : Entry) (condition : Bool) : ExtraReader Unit :=
  if condition then return () else fail (.refused, e)

/-- The value that there has to be. -/
def given {α : Type} (e : Entry) : Option α → ExtraReader α
  | some a => return a
  | none => fail (.refused, e)

/-- A wide number in the place of one, if it stands here, and how many octets it takes. -/
def widen (e : Entry) (length old : Nat) : ExtraReader (Nat × Nat) := do
  if 24 ≤ length ∨ old = greatest32 then return (← readNumber e 8, 8) else return (old, 0)

/-- Wide numbers.  All three stand in a long field, and else those for which there was no place. -/
def readWide (e : Entry) (length : Nat) : ExtraReader Entry := do
  let (fullSize, a) ← widen e length e.fullSize
  let e := { e with fullSize }
  let (size, b) ← widen e length e.size
  let e := { e with size }
  let (place, c) ← widen e length e.place
  let e := { e with place }
  demand e (a + b + c ≤ length)
  let _ ← octets e (length - (a + b + c))
  return e

/-- Three times with their own tag and size. -/
def readFileTimes (e : Entry) (length : Nat) : ExtraReader Entry := do
  demand e (length = 32)
  let _ ← octets e 4
  demand e ((← readNumber e 2) = 1)
  demand e ((← readNumber e 2) = 24)
  let _ ← octets e 24
  return e

/-- How a file is encrypted, and the method that it is compressed by. -/
def readCipher (e : Entry) (length : Nat) : ExtraReader Entry := do
  demand e (length = 7)
  let version ← readNumber e 2
  let vendor ← readNumber e 2
  let strength ← readNumber e 1
  let method ← readNumber e 2
  demand e (vendor = 0x4541 && (version = 1 || version = 2) && 1 ≤ strength && strength ≤ 3)
  return { e with hasCipher := true, method }

/-- Up to three times, a flag for each.  A field of five octets has the first one only. -/
def readTimes (e : Entry) (length : Nat) : ExtraReader Entry := do
  let flags ← readNumber e 1
  let count := ((List.range 8).filter flags.testBit).length
  demand e ((length = 5 || length = 1 + 4 * count) && flags < 8)
  let _ ← octets e (if length = 5 then 4 else 4 * count)
  return e

/-- A text in the place of another, of which the field has the checksum. -/
def readText (e : Entry) (length : Nat) (old : Bytes) : ExtraReader (Bytes × String) := do
  let _ ← octets e 1
  let checksum ← readNumber e 4
  demand e (5 ≤ length)
  let bytes ← octets e (length - 5)
  demand e (UInt32.ofNat checksum = Crc32.ofBytes old)
  return (bytes, ← given e (Utf8.decode? ⟨bytes.toArray⟩))

/-- One field. -/
def readField (e : Entry) : ExtraReader Entry := do
  let kind ← readNumber e 2
  let length ← readNumber e 2
  match kind with
  | 0x0001 => readWide e length
  | 0x000a => readFileTimes e length
  | 0x9901 => readCipher e length
  | 0x5455 => readTimes e length
  | 0x6375 =>
    let (_, comment) ← readText e length e.comment.toUTF8.data.toList
    return { e with comment }
  | 0x7075 =>
    let (rawName, name) ← readText e length e.rawName
    return { e with rawName, name }
  | _ =>
    let _ ← octets e length
    return e

theorem consumes_readField (e : Entry) : (readField e).Consumes :=
  ((consumes_takeOr _ (by decide)).bind _).bind _

/-- One field, and whether it is the last. -/
def stepFields (e : Entry) : ExtraReader (Entry ⊕ Entry) := do
  let e ← readField e
  if ← atEnd then return .inr e else return .inl e

theorem consumes_stepFields (e : Entry) : (stepFields e).Consumes :=
  (consumes_readField e).bind _

/-- The entry changed by its fields. -/
def withExtra? (e : Entry) (fields : Bytes) : Option Entry :=
  if fields.isEmpty then some e
  else
    match (loop stepFields consumes_stepFields e).run fields with
    | .ok (e, _) => some e
    | .error (.ended, e) => some e
    | .error (.refused, _) => none

end Zip
end RenameAudit
