import RenameAudit.Files.Basic
import RenameAudit.Text.Split
/-!
# Files.Memory — a folder in memory

Files are known by the steps that lead to them, and there are no empty folders.  A path is followed step by step: every
step but the last has to lead to a folder, an empty step and a dot stay there, and two dots go back.  Of what lies outside
the folder nothing is known but the empty file that takes everything and keeps nothing.
-/
namespace RenameAudit

/-- The files of a folder, by the steps that lead to them, and whether nothing lies outside the folder. -/
structure FileTree where
  files : List (List String × Bytes)
  isRoot : Bool
  deriving Repr

namespace FileTree

/-- The steps of a path. -/
def stepsOf (path : String) : List String :=
  (Text.splitOn '/' path.toList).map String.ofList

/-- The folder of files with their paths. -/
def ofPaths (files : List (String × Bytes)) : FileTree :=
  ⟨files.map fun (path, bytes) => (stepsOf path, bytes), false⟩

/-- The folder in which all folders lie. -/
def root : FileTree :=
  ⟨[(["dev", "null"], [])], true⟩

/-- The path of steps. -/
def pathOf (steps : List String) : String :=
  "/".intercalate steps

/-- The files below some steps, with their paths from there. -/
def below (t : FileTree) (steps : List String) : List (String × Bytes) :=
  t.files.filterMap fun (place, bytes) =>
    if steps.isPrefixOf place && steps.length < place.length then some (pathOf (place.drop steps.length), bytes)
    else none

/-! ## Following paths -/

/-- A spot on the way along a path: inside the folder, or in a folder outside of which nothing is known. -/
inductive Spot where
  | inside (steps : List String)
  | outside
  deriving DecidableEq, Repr

/-- What there is at a spot. -/
def placeAt (t : FileTree) : Spot → Except FileFault Place
  | .outside => .ok (.folder [])
  | .inside steps =>
    match t.files.lookup steps with
    | some bytes => .ok (.file ⟨bytes.toArray⟩)
    | none =>
      let files := t.below steps
      if steps.isEmpty || !files.isEmpty then .ok (.folder files) else .error .missing

/-- The spot above a folder. -/
def above (t : FileTree) : Spot → Spot
  | .outside => .outside
  | .inside [] => if t.isRoot then .inside [] else .outside
  | .inside steps => .inside steps.dropLast

/-- The greatest number of octets in a step. -/
def stepLimit : Nat := 255

/-- The number from which on a path has too many octets. -/
def pathLimit : Nat := 4096

/-- The spot after one more step. -/
def enter (t : FileTree) (spot : Spot) (step : String) : Except FileFault Spot := do
  match ← t.placeAt spot with
  | .file _ => .error .notFolder
  | .folder _ =>
    if step = "" ∨ step = "." then .ok spot
    else if step = ".." then .ok (t.above spot)
    else if stepLimit < step.utf8ByteSize then .error .nameTooLong
    else
      match spot with
      | .inside steps => .ok (.inside (steps ++ [step]))
      | .outside => .error .missing

/-- The spot after steps. -/
def follow (t : FileTree) (steps : List String) : Except FileFault Spot :=
  steps.foldlM t.enter (.inside [])

/-- Whether a path begins in the root. -/
def isAbsolute (path : String) : Bool :=
  Text.startsWith "/" path.toList

/-- The steps of a text that can be a path. -/
def readPath (path : String) : Except FileFault (List String) :=
  if path.toList.contains '\x00' then .error .nameHasNull
  else if path = "" then .error .missing
  else if pathLimit ≤ path.utf8ByteSize then .error .nameTooLong
  else .ok (stepsOf path)

/-- What a path leads to. -/
def look (t : FileTree) (path : String) : Except FileFault Place := do
  let steps ← readPath path
  let t := if isAbsolute path then root else t
  t.placeAt (← t.follow steps)

/-! ## Adding to files -/

/-- The steps to the file in the folder that a path leads to or would lead to if it were there. -/
def fileSteps? (t : FileTree) (path : String) : Option (List String) :=
  match (if isAbsolute path then .error .missing else readPath path), (stepsOf path).getLast? with
  | .ok steps, some name =>
    if name = "" ∨ name = "." ∨ name = ".." then none
    else
      match (t.follow steps.dropLast).bind fun spot => t.enter spot name with
      | .ok (.inside steps) => if (t.below steps).isEmpty then some steps else none
      | _ => none
  | _, _ => none

/-- The folder with text added to the file of some steps. -/
def add (t : FileTree) (steps : List String) (text : String) : FileTree :=
  let bytes := text.toUTF8.data.toList
  match t.files.lookup steps with
  | some _ => { t with files := t.files.map fun (s, old) => (s, if s = steps then old ++ bytes else old) }
  | none => { t with files := t.files ++ [(steps, bytes)] }

/-- A folder as a disk on which no time passes. -/
def disk : Disk (StateM FileTree) where
  look path := return (← get).look path
  append path text := modifyGet fun t =>
    match t.fileSteps? path with
    | some steps => (true, t.add steps text)
    | none => (false, t)
  now := return "0"

end FileTree
end RenameAudit
