import RenameAudit.Rename.Format
import RenameAudit.Text.Digits
/-!
# Rename.SideTable — constructor numbers and class suffixes

Two small tables stand beside a rename table.  The constructor table numbers the constructors of the renamed classes,
and the suffix table says how the names of a type's subclasses have to end.
-/
namespace RenameAudit

open Std

-- Powers of numbers are those of the core library, whatever else is imported.
attribute [local instance (high)] instPowNat

/-- The numbers given to each constructor, in the order in which they were given.  A constructor is the name of its
class followed by its descriptor, both in new names. -/
structure ConstructorTable where
  numbers : ExtTreeMap String (List UInt32)
  deriving DecidableEq

namespace ConstructorTable

/-- The table without entries. -/
def empty : ConstructorTable :=
  ⟨∅⟩

/-- Gives a constructor one more number. -/
def insert (t : ConstructorTable) (number : UInt32) (className descriptor : String) : ConstructorTable :=
  let key := className ++ descriptor
  ⟨t.numbers.insert key (t.numbers.getD key [] ++ [number])⟩

/-- Whether a constructor has a number. -/
def contains (t : ConstructorTable) (className descriptor : String) : Bool :=
  t.numbers.contains (className ++ descriptor)

/-- The constructors with more than one number. -/
def duplicates (t : ConstructorTable) : List (String × List UInt32) :=
  t.numbers.toList.filter fun (_, numbers) => 1 < numbers.length

/-- The number of constructors. -/
def size (t : ConstructorTable) : Nat :=
  t.numbers.size

/-- The number of a line: decimal digits, perhaps after a plus sign. -/
def readNumber (word : String) : Except LineFault UInt32 :=
  let digits := match word.toList with
    | '+' :: rest => rest
    | cs => cs
  match Text.number? (2 ^ (32 : Nat)) digits with
  | some n => .ok (UInt32.ofNat n)
  | none => .error (.constructorId word)

/-- The number, class and descriptor of a line. -/
def readLine (l : NumberedLine) : Except LineFault (UInt32 × String × String) :=
  match l.words with
  | [word, className, descriptor] => (readNumber word).map fun number => (number, className, descriptor)
  | _ => .error .constructorRecord

/-- The table of a text with one constructor a line. -/
def parse (text : String) : Except TableFault ConstructorTable := do
  let records ← NumberedLine.readAll (fun _ l => (readLine l).map fun r => ((), [r])) () (NumberedLine.ofText text)
  return records.foldl (fun t (number, className, descriptor) => t.insert number className descriptor) empty

end ConstructorTable

/-- The suffixes that class names must have, by the type that a class descends from; an earlier entry counts before a
later one. -/
structure SuffixTable where
  entries : List (String × String)
  deriving DecidableEq, Repr

namespace SuffixTable

/-- The table without entries. -/
def empty : SuffixTable :=
  ⟨[]⟩

/-- The table with one more entry, which counts after all others. -/
def push (t : SuffixTable) (ancestor suffix : String) : SuffixTable :=
  ⟨t.entries ++ [(ancestor, suffix)]⟩

/-- The type and suffix of a line. -/
def readLine (l : NumberedLine) : Except LineFault (String × String) :=
  match l.words with
  | [ancestor, suffix] => .ok (ancestor, suffix)
  | _ => .error .suffixRecord

/-- The table of a text with one entry a line. -/
def parse (text : String) : Except TableFault SuffixTable :=
  (NumberedLine.readAll (fun _ l => (readLine l).map fun r => ((), [r])) () (NumberedLine.ofText text)).map fun
    entries => ⟨entries⟩

end SuffixTable
end RenameAudit
