import RenameAudit.Archive.Zip.Extra
import RenameAudit.Text.CodePage437
/-!
# Archive.Zip.Directory — the entries of an archive

At its end an archive has a record that says where its directory begins and how many entries that has.  Where a number is
too great for it, another record before it has wide numbers, and a third one between them says where that is.  Octets
before the archive shift all its places, so that a record is looked for from the given place on.  Where a record at the end
leads to no directory, an earlier one may.
-/
namespace RenameAudit
namespace Zip

-- Powers of numbers are those of the core library, whatever else is imported.
attribute [local instance (high)] instPowNat

/-- Where the entries of an archive begin, how many there are, and how many octets stand before the archive. -/
structure Listing where
  start : Nat
  count : Nat
  shift : Nat
  deriving DecidableEq, Repr

/-! ## The end of an archive -/

/-- The first place from `place` on, among `count` places, with a property. -/
def firstPlace? (p : Nat → Bool) (place : Nat) : Nat → Option Nat
  | 0 => none
  | count + 1 => if p place then some place else firstPlace? p (place + 1) count

/-- How many octets stand before an archive whose last record stands at a place. -/
def plainShift? (file : ByteArray) (place : Nat) : Option Nat :=
  let offset := number file (place + 16) 4
  if number file (place + 10) 2 = 0 then some (place - offset)
  else (firstPlace? (hasMark entryMark file) offset (place - offset)).map (· - offset)

/-- What the last record says by itself, where it stands at a place. -/
def plainListing? (file : ByteArray) (place : Nat) : Option Listing :=
  (plainShift? file place).bind fun shift =>
    if number file (place + 4) 2 = number file (place + 6) 2 then
      some ⟨number file (place + 16) 4 + shift, number file (place + 8) 2, shift⟩
    else none

/-- Whether a record with wide numbers begins at a place and goes up to the one at `locator`, which leads to it. -/
def isWideEnd (file : ByteArray) (locator place : Nat) : Bool :=
  let size := number file (place + 4) 8
  hasMark wideEndMark file place && 44 ≤ size && place + size + 12 == locator &&
    number file (place + 20) 4 == number file (locator + 4) 4 &&
    46 * number file (place + 32) 8 + number file (place + 48) 8 ≤ place

/-- What the record with wide numbers says, which the one at `locator` leads to. -/
def wideListing? (file : ByteArray) (locator : Nat) : Option Listing :=
  let offset := number file (locator + 8) 8
  if 1 < number file (locator + 16) 4 then none
  else
    (firstPlace? (isWideEnd file locator) offset (locator - offset)).bind fun place =>
      let shift := place - offset
      let count := number file (place + 32) 8
      if number file (place + 24) 8 ≤ count ∧ number file (place + 14) 2 ≤ number file (place + 12) 2 ∧
          number file (place + 16) 4 = number file (place + 20) 4 then
        some ⟨number file (place + 48) 8 + shift, count, shift⟩
      else none

/-- Whether the last record may have no place for a number. -/
def mayBeWide (file : ByteArray) (place : Nat) : Bool :=
  number file (place + 10) 2 == greatest16 || number file (place + 16) 4 == greatest32

/-- What the last record tells of the directory, where it stands at a place. -/
def listingAt? (file : ByteArray) (place : Nat) : Option Listing :=
  if hasMark endMark file place && place + 22 + number file (place + 20) 2 ≤ file.size then
    if mayBeWide file place && 20 ≤ place && hasMark locatorMark file (place - 20) then wideListing? file (place - 20)
    else plainListing? file place
  else none

/-! ## Entries -/

/-- Whether a file is a symbolic link: the attributes have the mode of a file where the system that made the archive
knows modes. -/
def isLink (system attributes : Nat) : Bool :=
  system == 3 && attributes / 2 ^ (16 : Nat) &&& 0xA000 == 0xA000

/-- A text of an entry, in one of two character sets. -/
def textOf (flags : Nat) (bytes : Bytes) : String :=
  String.ofList (if flags.testBit 11 then Utf8.decodeReplacing bytes else CodePage437.decode bytes)

/-- The entry at a place as it is without its fields. -/
def plainEntry (file : ByteArray) (place nameLength extraLength : Nat) : Entry :=
  let flags := number file (place + 8) 2
  let rawName := slice file (place + 46) nameLength
  { name := textOf flags rawName
    rawName
    comment := textOf flags (slice file (place + 46 + nameLength + extraLength) (number file (place + 32) 2))
    isLink := isLink (number file (place + 5) 1) (number file (place + 38) 4)
    encrypted := flags.testBit 0
    hasCipher := false
    method := number file (place + 10) 2
    checksum := UInt32.ofNat (number file (place + 16) 4)
    size := number file (place + 20) 4
    fullSize := number file (place + 24) 4
    place := number file (place + 42) 4 }

/-- The entry at a place and the place after it.  Its file stands before the directory, and a method for encrypted files
says how they are encrypted. -/
def entryAt? (file : ByteArray) (l : Listing) (place : Nat) : Option (Entry × Nat) :=
  let nameLength := number file (place + 28) 2
  let extraLength := number file (place + 30) 2
  let next := place + 46 + nameLength + extraLength + number file (place + 32) 2
  if hasMark entryMark file place && next ≤ file.size then
    (withExtra? (plainEntry file place nameLength extraLength) (slice file (place + 46 + nameLength) extraLength)).bind
      fun e =>
        let e := { e with place := e.place + l.shift }
        if (e.method = cipherMethod ∧ !e.hasCipher) ∨ l.start ≤ e.place then none else some (e, next)
  else none

/-- As many entries from a place on. -/
def entriesFrom? (file : ByteArray) (l : Listing) (place : Nat) : Nat → Option (List Entry)
  | 0 => some []
  | count + 1 =>
    (entryAt? file l place).bind fun (entry, next) => (entriesFrom? file l next count).map (entry :: ·)

/-- The first answer for the places below a number, the last place first. -/
def fromLast? {α : Type} (f : Nat → Option α) : Nat → Option α
  | 0 => none
  | n + 1 =>
    match f n with
    | some a => some a
    | none => fromLast? f n

/-- Entries of which a later one takes the place of an earlier one of the same name. -/
def replaceByName (entries : List Entry) : List Entry :=
  entries.foldl (fun kept e =>
    if kept.any (·.name == e.name) then kept.map fun k => if k.name == e.name then e else k else kept ++ [e]) []

/-- The entries of an archive. -/
def entries? (file : ByteArray) : Option (List Entry) :=
  let found := fromLast? (fun place => (listingAt? file place).bind fun l => entriesFrom? file l l.start l.count)
    (file.size - 21)
  found.map replaceByName

end Zip
end RenameAudit
