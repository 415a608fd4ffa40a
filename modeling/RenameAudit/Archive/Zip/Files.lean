import RenameAudit.Archive.Basic
import RenameAudit.Archive.Inflate
import RenameAudit.Archive.Zip.Directory
/-!
# Archive.Zip.Files — files in one file

An entry of the directory leads to a header, after which the octets of the file stand, compressed or not.  `Zip.library`
is the library with which a run reads jars.
-/
namespace RenameAudit
namespace Zip

/-- Why a file of an archive cannot be read. -/
inductive EntryFault where
  | missing | encrypted | header | method | cipher | incomplete | corrupt | checksum
  deriving DecidableEq, Repr

/-- The words of the report. -/
def EntryFault.message : EntryFault → String
  | missing => "specified file not found in archive"
  | encrypted => "unsupported Zip archive: Password required to decrypt file"
  | header => "invalid Zip archive: Invalid local file header"
  | method => "unsupported Zip archive: Compression method not supported"
  | cipher => "provided password is incorrect"
  | incomplete => "incomplete deflate stream"
  | corrupt => "corrupt deflate stream"
  | checksum => "Invalid checksum"

/-- The place of the octets of an entry. -/
def startOf (file : ByteArray) (e : Entry) : Except EntryFault Nat :=
  if e.encrypted then .error .encrypted
  else if !(hasMark headerMark file e.place && e.place + 30 ≤ file.size) then .error .header
  else if e.method ∉ [storedMethod, deflatedMethod, cipherMethod] then .error .method
  else if e.hasCipher then .error .cipher
  else .ok (e.place + 30 + number file (e.place + 26) 2 + number file (e.place + 28) 2)

/-- The octets of a compressed file. -/
def inflate (raw : Bytes) : Except EntryFault Bytes :=
  match Inflate.decompress raw with
  | .ok bytes => .ok bytes
  | .error .ended => .error .incomplete
  | .error .corrupt => .error .corrupt

/-- The octets of an entry, which have to have its checksum. -/
def contentsOf (file : ByteArray) (e : Entry) (start : Nat) : Except EntryFault Bytes := do
  let raw := slice file start e.size
  let bytes ← if e.method = storedMethod then pure raw else inflate raw
  if Crc32.ofBytes bytes = e.checksum then return bytes else .error .checksum

/-- Whether an entry is a regular file: it is no link, and its name is not that of a folder. -/
def Entry.isFile (e : Entry) : Bool :=
  !e.isLink && !(e.name.toList.getLast?.any fun c => c == '/' || c == '\\')

/-- The octets of an archive with the entries of its directory. -/
structure Opened where
  file : ByteArray
  entries : List Entry

/-- The entry at an index and the place of its octets. -/
def Opened.find (a : Opened) (index : Nat) : Except EntryFault (Entry × Nat) :=
  match a.entries[index]? with
  | none => .error .missing
  | some e => (startOf a.file e).map (e, ·)

/-- The library of this module. -/
def library : ZipLibrary Opened EntryFault where
  open? file := (entries? file).map (Opened.mk file)
  count a := a.entries.length
  entry a index := (a.find index).map fun (e, _) => ⟨e.name, e.isFile⟩
  contents a index := (a.find index).bind fun (e, start) => contentsOf a.file e start

end Zip
end RenameAudit
