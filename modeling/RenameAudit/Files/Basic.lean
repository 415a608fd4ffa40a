import RenameAudit.Bytes
/-!
# Files — what a path leads to

The library does not touch a disk: whoever runs it says what each path leads to, and takes what is added to a file.
-/
namespace RenameAudit

/-- What a path leads to.  The files of a folder and of the folders in it have paths relative to it. -/
inductive Place where
  | file (contents : ByteArray)
  | folder (files : List (String × Bytes))

/-- Why a file cannot be read. -/
inductive FileFault where
  | missing
  | notFolder
  | isFolder
  | nameTooLong
  | nameHasNull
  | notText
  | other (message : String)
  deriving DecidableEq, Repr

/-- The words of the report. -/
def FileFault.message : FileFault → String
  | missing => "No such file or directory (os error 2)"
  | notFolder => "Not a directory (os error 20)"
  | isFolder => "Is a directory (os error 21)"
  | nameTooLong => "File name too long (os error 36)"
  | nameHasNull => "file name contained an unexpected NUL byte"
  | notText => "stream did not contain valid UTF-8"
  | other message => message

/-- The way to look paths up. -/
abbrev Lookup (m : Type → Type) := String → m (Except FileFault Place)

/-- Where files are. -/
structure Disk (m : Type → Type) where
  look : Lookup m
  /-- Adds text at the end of the file of a path, which is made where there is none; tells whether that can be done. -/
  append : String → String → m Bool
  /-- The text of the present time. -/
  now : m String

namespace Place

/-- The text of a file. -/
def text : Place → Except FileFault String
  | file contents =>
    match String.fromUTF8? contents with
    | some text => .ok text
    | none => .error .notText
  | folder _ => .error .isFolder

end Place
end RenameAudit
