import RenameAudit.ListReader
/-!
# Archive.Huffman — codes of bits

A code gives each symbol a string of bits of which none begins another.  It is known from the lengths of the strings:
shorter ones come first, those of one length are in the order of their symbols, and each is the number after the one
before it.
-/
namespace RenameAudit
namespace Huffman

-- Powers and sums of numbers are those of the core library, whatever else is imported.
attribute [local instance (high)] instPowNat Zero.ofOfNat0

/-- Why bits are not read on: there are no more, or they mean nothing. -/
inductive Stop where
  | ended | corrupt
  deriving DecidableEq, Repr

/-- A reader of a value from the front of a string of bits. -/
abbrev BitReader := ListReader Bool Stop

/-- One bit. -/
def bit : BitReader Bool :=
  ListReader.next .ended

/-- The symbols that begin with the bits on the way to a place. -/
inductive Tree where
  | none
  | leaf (symbol : Nat)
  | node (zero one : Tree)

namespace Tree

/-- The two branches of a tree. -/
def branches : Tree → Tree × Tree
  | node zero one => (zero, one)
  | _ => (none, none)

/-- The tree with a symbol at a place. -/
def insert (symbol : Nat) : List Bool → Tree → Tree
  | [], _ => leaf symbol
  | b :: code, t =>
    let (zero, one) := t.branches
    if b then node zero (insert symbol code one) else node (insert symbol code zero) one

/-- The symbol that the next bits lead to. -/
def read : Tree → BitReader Nat
  | none => ListReader.fail .corrupt
  | leaf symbol => return symbol
  | node zero one => do
    if ← bit then one.read else zero.read

end Tree

/-- A code, by the symbols that begin with each bit. -/
structure Code where
  zero : Tree
  one : Tree

namespace Code

/-- The `length` bits of a number, most significant bit first. -/
def bitsOf (length n : Nat) : List Bool :=
  (List.range length).reverse.map n.testBit

/-- The bits of symbols in the order of their lengths; `next` is the number after the last, of `length` bits. -/
def assign (next length : Nat) : List (Nat × Nat) → List (Nat × List Bool)
  | [] => []
  | (symbol, l) :: rest =>
    let n := next * 2 ^ (l - length)
    (symbol, bitsOf l n) :: assign (n + 1) l rest

/-- The symbols with their lengths, the shortest first.  A symbol of length zero is not in use. -/
def used (lengths : List Nat) : List (Nat × Nat) :=
  (lengths.zipIdx.map fun (l, symbol) => (symbol, l)).filter (·.2 != 0) |>.mergeSort fun x y => decide (x.2 ≤ y.2)

/-- Whether the code leaves no bits without a meaning, and gives none two. -/
def isComplete (symbols : List (Nat × Nat)) : Bool :=
  (symbols.map fun (_, l) => 2 ^ (15 - l)).sum == 2 ^ (15 : Nat)

/-- Whether the code has one symbol of one bit, or none at all. -/
def isMinimal (symbols : List (Nat × Nat)) : Bool :=
  symbols.isEmpty || symbols.map (·.2) == [1]

/-- The code of symbols with their lengths. -/
def ofSymbols (symbols : List (Nat × Nat)) : Code :=
  let tree := (assign 0 0 symbols).foldl (fun t (symbol, code) => t.insert symbol code) Tree.none
  ⟨tree.branches.1, tree.branches.2⟩

/-- The code with lengths of at most fifteen bits, which is complete. -/
def ofLengths? (lengths : List Nat) : Option Code :=
  let symbols := used lengths
  if isComplete symbols then some (ofSymbols symbols) else none

/-- The code with lengths of at most fifteen bits, which is complete or has hardly a symbol. -/
def ofFewLengths? (lengths : List Nat) : Option Code :=
  let symbols := used lengths
  if isComplete symbols || isMinimal symbols then some (ofSymbols symbols) else none

/-- The symbol of the next bits. -/
def read (c : Code) : BitReader Nat := do
  let b ← bit
  (if b then c.one else c.zero).read

theorem consumes_read (c : Code) : c.read.Consumes :=
  (ListReader.consumes_next _).bind _

end Code
end Huffman
end RenameAudit
