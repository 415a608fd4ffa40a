import RenameAudit.Bytes
import RenameAudit.Text.Split
/-!
# Archive — the class files of a jar or of a folder

A class file is one whose path ends in `.class`, unless it lies in `META-INF`.  The name of its class is the path without
the ending.  In a folder a file is no class file when the ending is all of its name.

A jar is read by means of a library for zip archives, which is a parameter.
-/
namespace RenameAudit

/-- A class file of an archive. -/
structure ArchivedClass where
  name : String
  bytes : Bytes
  deriving DecidableEq, Repr

/-- What a library tells of an entry before its octets are read. -/
structure ZipEntry where
  name : String
  /-- Whether it is a regular file: no folder and no link. -/
  isFile : Bool
  deriving DecidableEq, Repr

/-- A library for zip archives.  `α` has the archives that it has opened, and `ε` why an entry cannot be read. -/
structure ZipLibrary (α ε : Type) where
  /-- Opens the archive that octets are, if they are one. -/
  open? : ByteArray → Option α
  /-- The number of entries. -/
  count : α → Nat
  /-- The entry at an index. -/
  entry : α → Nat → Except ε ZipEntry
  /-- The octets of the entry at an index. -/
  contents : α → Nat → Except ε Bytes

/-- Why a jar cannot be read. -/
inductive JarFault (ε : Type) where
  | noArchive
  | entry (index : Nat) (fault : ε)
  | contents (name : String) (fault : ε)
  deriving DecidableEq, Repr

namespace Archive

/-- The ending of class files. -/
def ending : List Char := ".class".toList

/-- The name of the class of a file. -/
def className? (path : String) : Option String :=
  let cs := path.toList
  if Text.startsWith "META-INF/" cs then none
  else if ending.isSuffixOf cs then some (String.ofList (cs.take (cs.length - ending.length)))
  else none

/-- Classes in the order of their names. -/
def sorted (classes : List ArchivedClass) : List ArchivedClass :=
  classes.mergeSort fun a b => decide (a.name ≤ b.name)

/-- The class of a file. -/
def class? (file : String × Bytes) : Option ArchivedClass :=
  (className? file.1).map fun name => ⟨name, file.2⟩

/-- The last part of a path. -/
def fileName (path : String) : List Char :=
  match Text.splitLast? '/' path.toList with
  | some (_, name) => name
  | none => path.toList

/-- Whether a file has the ending of class files after something else in its name. -/
def hasEnding (path : String) : Bool :=
  let name := fileName path
  ending.isSuffixOf name && name.length != ending.length

/-- The classes of the files of a folder, whose paths are relative to it and have slashes. -/
def ofFolder (files : List (String × Bytes)) : List ArchivedClass :=
  sorted ((files.filter fun f => hasEnding f.1).filterMap class?)

section Jar

variable {α ε : Type} (library : ZipLibrary α ε)

/-- The class of the entry at an index.  The octets are read only where the entry is a class file. -/
def classAt? (archive : α) (index : Nat) : Except (JarFault ε) (Option ArchivedClass) :=
  match library.entry archive index with
  | .error fault => .error (.entry index fault)
  | .ok e =>
    if !e.isFile then .ok none
    else
      match className? e.name with
      | none => .ok none
      | some name =>
        match library.contents archive index with
        | .error fault => .error (.contents e.name fault)
        | .ok bytes => .ok (some ⟨name, bytes⟩)

/-- The classes of the octets of a jar: those of its entries one after another, up to the first that cannot be read. -/
def readJar (file : ByteArray) : Except (JarFault ε) (List ArchivedClass) :=
  match library.open? file with
  | none => .error .noArchive
  | some archive => sorted <$> (List.range (library.count archive)).filterMapM (classAt? library archive)

end Jar

end Archive
end RenameAudit
