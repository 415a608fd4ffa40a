import RenameAudit.Rename.Table
import RenameAudit.Text.Blank
/-!
# Rename.Format — the text formats of rename tables

Four formats are read, line by line, into entries.  A number sign begins a comment, and a line with nothing before it
is passed over; the first line that cannot be read is reported with its number.  In the indented formats a member line
belongs to the class line above it, so reading carries the current class from line to line.
-/
namespace RenameAudit

/-- The text formats: tagged records, compact records, members indented below their class, and the same with a header
that names the columns. -/
inductive RenameFormat where
  | srg | csrg | tsrg | tsrg2
  deriving DecidableEq, Repr

/-- What is wrong with a line. -/
inductive LineFault where
  | srgRecord (line : String)
  | csrgRecord (line : String)
  | classRecord (line : String)
  | memberRecord (line : String)
  | memberOutsideClass
  | ownerMissing (path : String)
  | tooFewNamespaces
  | constructorRecord
  | constructorId (word : String)
  | suffixRecord
  deriving DecidableEq, Repr

/-- The words of the report. -/
def LineFault.message : LineFault → String
  | srgRecord line => "malformed SRG record `" ++ line ++ "`"
  | csrgRecord line => "malformed CSRG record `" ++ line ++ "`"
  | classRecord line => "malformed class record `" ++ line ++ "`"
  | memberRecord line => "malformed member record `" ++ line ++ "`"
  | memberOutsideClass => "member record outside of a class"
  | ownerMissing path => "expected owner/name, found `" ++ path ++ "`"
  | tooFewNamespaces => "tsrg2 header needs two namespaces"
  | constructorRecord => "expected `<id> <class> <descriptor>`"
  | constructorId word => "invalid constructor id `" ++ word ++ "`"
  | suffixRecord => "expected `<type> <suffix>`"

/-- Why a text is refused: a line of it, or that its format is not known. -/
inductive TableFault where
  | atLine (number : Nat) (fault : LineFault)
  | unknownFormat
  deriving DecidableEq, Repr

/-- The words of the report. -/
def TableFault.message : TableFault → String
  | atLine number fault => "line " ++ toString number ++ ": " ++ fault.message
  | unknownFormat => "could not detect mapping format"

/-- A line with its number, counted from 1. -/
structure NumberedLine where
  number : Nat
  content : List Char
  deriving DecidableEq, Repr

namespace NumberedLine

/-- The words of a line. -/
def words (l : NumberedLine) : List String :=
  (Text.words l.content).map String.ofList

/-- The text of a line. -/
def text (l : NumberedLine) : String :=
  String.ofList l.content

/-- A line without its comment and without white space at its end; none where nothing else is there. -/
def meaningful? (number : Nat) (line : List Char) : Option NumberedLine :=
  let content := Text.trimEnd (line.takeWhile (· != '#'))
  if content.isEmpty then none else some ⟨number, content⟩

/-- The lines of a text that say something. -/
def ofText (text : String) : List NumberedLine :=
  ((Text.splitOn '\n' text.toList).zipIdx 1).filterMap fun (line, number) => meaningful? number line

/-- Reads lines with a state; the first fault is reported with the number of its line. -/
def readAll {σ α : Type} (step : σ → NumberedLine → Except LineFault (σ × List α)) :
    σ → List NumberedLine → Except TableFault (List α)
  | _, [] => .ok []
  | s, l :: rest =>
    match step s l with
    | .ok (s', as) => (readAll step s' rest).map (as ++ ·)
    | .error e => .error (.atLine l.number e)

end NumberedLine

namespace RenameFormat

/-- The owner and the name of a member that is written as one path. -/
def splitPath (path : String) : Except LineFault (String × String) :=
  match Text.splitLast? '/' path.toList with
  | some (owner, name) => .ok (String.ofList owner, String.ofList name)
  | none => .error (.ownerMissing path)

/-- The field of a tagged record; of the mapped path the name alone counts. -/
def srgField (old mapped : String) : Except LineFault RenameEntry := do
  let (owner, name) ← splitPath old
  let (_, mapped) ← splitPath mapped
  return .field owner name mapped

/-- The method of a tagged record; of the mapped path the name alone counts. -/
def srgMethod (old descriptor mapped : String) : Except LineFault RenameEntry := do
  let (owner, name) ← splitPath old
  let (_, mapped) ← splitPath mapped
  return .method owner name descriptor mapped

/-- The entry of a tagged record.  A field may have both its descriptors. -/
def srgEntry (l : NumberedLine) : Except LineFault RenameEntry :=
  match l.words with
  | ["PK:", old, mapped] => .ok (.package old mapped)
  | ["CL:", old, mapped] => .ok (.classEntry old mapped)
  | ["FD:", old, mapped] => srgField old mapped
  | ["FD:", old, _, mapped, _] => srgField old mapped
  | ["MD:", old, descriptor, mapped, _] => srgMethod old descriptor mapped
  | _ => .error (.srgRecord l.text)

/-- The package or class of a record of two names: a slash at the end marks a package. -/
def packageOrClass (old mapped : String) : RenameEntry :=
  if Text.endsWith '/' old then .package old mapped else .classEntry old mapped

/-- The entry of a compact record, by the number of its words. -/
def csrgEntry (l : NumberedLine) : Except LineFault RenameEntry :=
  match l.words with
  | [old, mapped] => .ok (packageOrClass old mapped)
  | [owner, name, mapped] => .ok (.field owner name mapped)
  | [owner, name, descriptor, mapped] => .ok (.method owner name descriptor mapped)
  | _ => .error (.csrgRecord l.text)

/-- How the lines of an indented format are divided: the number of names in a line, and whether a field may have its
descriptor. -/
structure Columns where
  count : Nat
  typedFields : Bool
  deriving DecidableEq, Repr

/-- The entry of a class line, and the class that the lines below belong to: none below a package. -/
def classLine (columns : Columns) (l : NumberedLine) : Except LineFault (Option String × List RenameEntry) :=
  match l.words with
  | old :: mapped :: more =>
    if more.length + 2 = columns.count then
      if Text.endsWith '/' old then .ok (none, [.package old mapped])
      else .ok (some old, [.classEntry old mapped])
    else .error (.classRecord l.text)
  | _ => .error (.classRecord l.text)

/-- The entry of a member line of a class.  A line with one more word than a field takes has a descriptor second, and is
a method where that begins with a parenthesis. -/
def memberLine (columns : Columns) (owner : String) (l : NumberedLine) : Except LineFault RenameEntry :=
  match l.words with
  | name :: second :: more =>
    match more with
    | mapped :: rest =>
      if Text.startsWith "(" second.toList ∧ rest.length + 2 = columns.count then
        .ok (.method owner name second mapped)
      else if rest.length + 3 = columns.count then .ok (.field owner name second)
      else if columns.typedFields ∧ rest.length + 2 = columns.count then .ok (.field owner name mapped)
      else .error (.memberRecord l.text)
    | [] => if columns.count = 2 then .ok (.field owner name second) else .error (.memberRecord l.text)
  | _ => .error (.memberRecord l.text)

/-- One line of an indented format, below a current class.  A line indented twice says nothing about names. -/
def indentedLine (columns : Columns) (current : Option String) (l : NumberedLine) :
    Except LineFault (Option String × List RenameEntry) :=
  if Text.startsWith "\t\t" l.content then .ok (current, [])
  else if Text.startsWith "\t" l.content then
    match current with
    | some owner => (memberLine columns owner l).map fun e => (current, [e])
    | none => .error .memberOutsideClass
  else classLine columns l

/-- A line of a format in which lines do not depend on each other. -/
def independent (entry : NumberedLine → Except LineFault RenameEntry) (_ : Unit) (l : NumberedLine) :
    Except LineFault (Unit × List RenameEntry) :=
  (entry l).map fun e => ((), [e])

/-- The entries of lines in an indented format with a header, which is the first line. -/
def headedEntries : List NumberedLine → Except TableFault (List RenameEntry)
  | [] => .error .unknownFormat
  | header :: rest =>
    let count := header.words.length - 1
    if count < 2 then .error (.atLine header.number .tooFewNamespaces)
    else NumberedLine.readAll (indentedLine ⟨count, true⟩) none rest

/-- The entries of a text in a format. -/
def entries (format : RenameFormat) (text : String) : Except TableFault (List RenameEntry) :=
  let lines := NumberedLine.ofText text
  match format with
  | srg => NumberedLine.readAll (independent srgEntry) () lines
  | csrg => NumberedLine.readAll (independent csrgEntry) () lines
  | tsrg => NumberedLine.readAll (indentedLine ⟨2, false⟩) none lines
  | tsrg2 => headedEntries lines

/-- Whether a line is a tagged record. -/
def isTagged (cs : List Char) : Bool :=
  ["PK:", "CL:", "FD:", "MD:"].any (Text.startsWith · cs)

/-- The format that the lines of a text suggest: a header or a tag in the first line decides, then an indented line
below it. -/
def ofLines? : List NumberedLine → Option RenameFormat
  | [] => none
  | first :: rest =>
    if Text.startsWith "tsrg2 " first.content then some tsrg2
    else if isTagged first.content then some srg
    else if rest.any (fun l => Text.startsWith "\t" l.content) then some tsrg
    else some csrg

/-- The format that a text suggests; none where no line says anything. -/
def detect? (text : String) : Option RenameFormat :=
  ofLines? (NumberedLine.ofText text)

/-- The name of a format. -/
def name : RenameFormat → String
  | srg => "srg"
  | csrg => "csrg"
  | tsrg => "tsrg"
  | tsrg2 => "tsrg2"

end RenameFormat

namespace RenameTable

/-- The table of a text in a known format. -/
def parseAs (format : RenameFormat) (text : String) : Except TableFault RenameTable :=
  (format.entries text).map ofEntries

/-- The table of a text in the format that it suggests. -/
def parse (text : String) : Except TableFault RenameTable :=
  match RenameFormat.detect? text with
  | some format => parseAs format text
  | none => .error .unknownFormat

end RenameTable
end RenameAudit
