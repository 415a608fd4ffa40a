import RenameAudit.Archive.Huffman
import RenameAudit.Bytes
/-!
# Archive.Inflate — compressed octets

A compressed stream is a sequence of blocks, which are read bit by bit, the least significant bit of an octet first.  A
block holds octets as they are, or symbols in a code: a symbol is an octet, the end of the block, or says how many octets
to repeat and from how far back.  The codes of a block are fixed or stand at its front as lengths, which are coded
themselves.
-/
namespace RenameAudit
namespace Inflate

open Huffman ListReader

-- Powers of numbers are those of the core library, whatever else is imported.
attribute [local instance (high)] instPowNat

/-- The bits of an octet string. -/
def bitsOf (bytes : Bytes) : List Bool :=
  bytes.flatMap fun b => (List.range 8).map b.toNat.testBit

/-- A number of `n` bits, least significant bit first. -/
def number (n : Nat) : BitReader Nat := do
  let bits ← takeOr .ended n
  return bits.foldr (fun b v => b.toNat + 2 * v) 0

/-- Leaves out the bits up to the next octet. -/
def align : BitReader Unit where
  run bits := .ok ((), bits.drop (bits.length % 8))
  suffix_of_run h := by cases h; exact List.drop_suffix ..

/-! ## Symbols -/

/-- What a symbol of a block means. -/
inductive Item where
  | octet (b : UInt8)
  | endOfBlock
  | copy (length distance : Nat)

/-- The smallest value and the number of further bits of a symbol for a length or a distance; from `start` on there are
`count` symbols with the same number of bits, then as many with one bit more, and so on. -/
def steps (count start : Nat) : Nat → Nat → List (Nat × Nat)
  | 0, _ => []
  | groups + 1, extra =>
    (List.range count).map (fun i => (start + i * 2 ^ extra, extra)) ++
      steps count (start + count * 2 ^ extra) groups (extra + 1)

/-- The lengths: eight without further bits, four for each number of bits from one to five, and the greatest one. -/
def lengths : List (Nat × Nat) :=
  steps 8 3 1 0 ++ steps 4 11 5 1 ++ [(258, 0)]

/-- The distances: four without further bits and two for each number of bits from one to thirteen. -/
def distances : List (Nat × Nat) :=
  steps 4 1 1 0 ++ steps 2 5 13 1

/-- The value of a symbol for a length or a distance. -/
def readValue (table : List (Nat × Nat)) (symbol : Nat) : BitReader Nat :=
  match table[symbol]? with
  | some (start, extra) => do return start + (← number extra)
  | none => fail .corrupt

/-- The next item of a block. -/
def readItem (literals distances : Code) : BitReader Item := do
  let symbol ← literals.read
  if symbol < 256 then return .octet (UInt8.ofNat symbol)
  else if symbol = 256 then return .endOfBlock
  else
    let length ← readValue lengths (symbol - 257)
    let distance ← distances.read
    return .copy length (← readValue Inflate.distances distance)

/-- The octet that stands `distance` before the end; before the first octet there are zeros. -/
def octetBefore (out : Array UInt8) (distance : Nat) : UInt8 :=
  if distance ≤ out.size then out[out.size - distance]?.getD 0 else 0

/-- The octets with the last ones repeated, those `distance` back first. -/
def copy (out : Array UInt8) (distance : Nat) : Nat → Array UInt8
  | 0 => out
  | n + 1 => copy (out.push (octetBefore out distance)) distance n

/-! ## Codes -/

/-- The code that there has to be. -/
def demand : Option Code → BitReader Code
  | some c => return c
  | none => fail .corrupt

/-- The fixed codes. -/
def fixedCodes : BitReader (Code × Code) := do
  let literals ← demand (Code.ofLengths? (List.replicate 144 8 ++ List.replicate 112 9 ++ List.replicate 24 7 ++ List.replicate 8 8))
  let distances ← demand (Code.ofLengths? (List.replicate 32 5))
  return (literals, distances)

/-- The symbols for lengths in the order in which their own lengths are given. -/
def lengthOrder : List Nat :=
  [16, 17, 18, 0, 8, 7, 9, 6, 10, 5, 11, 4, 12, 3, 13, 2, 14, 1, 15]

/-- One length and how many times it stands: sixteen repeats the last one, seventeen and eighteen stand for zeros. -/
def readRun (code : Code) (last : Option Nat) : BitReader (Nat × Nat) := do
  let symbol ← code.read
  if symbol < 16 then return (symbol, 1)
  else if symbol = 16 then
    match last with
    | some l => return (l, 3 + (← number 2))
    | none => fail .corrupt
  else if symbol = 17 then return (0, 3 + (← number 3))
  else return (0, 11 + (← number 7))

/-- The lengths that are missing; `found` are the last ones first. -/
def readLengths (code : Code) (found : List Nat) (missing : Nat) : BitReader (List Nat) :=
  if missing = 0 then return found.reverse
  else do
    let (l, count) ← readRun code found.head?
    if _h : 0 < count ∧ count ≤ missing then readLengths code (List.replicate count l ++ found) (missing - count)
    else fail .corrupt
termination_by missing
decreasing_by omega

/-- The codes at the front of a block, for at most 286 symbols and 30 distances. -/
def readCodes : BitReader (Code × Code) := do
  let literals := 257 + (← number 5)
  let distances := 1 + (← number 5)
  let count := 4 + (← number 4)
  if 286 < literals ∨ 30 < distances then fail .corrupt
  let given ← (number 3).times count
  let own := (List.range 19).map fun symbol => ((lengthOrder.zip given).lookup symbol).getD 0
  let code ← demand (Code.ofLengths? own)
  let found ← readLengths code [] (literals + distances)
  return (← demand (Code.ofFewLengths? (found.take literals)), ← demand (Code.ofFewLengths? (found.drop literals)))

/-! ## Blocks -/

/-- Where the reading of a stream has come to: before a block, among the octets of a block, or among its symbols. -/
inductive Stage where
  | header
  | plain (final : Bool) (left : Nat)
  | coded (final : Bool) (literals distances : Code)

/-- The stage after a block; none after the last. -/
def afterBlock (final : Bool) : Option Stage :=
  if final then none else some .header

/-- What one step adds to the octets. -/
inductive Addition where
  | nothing
  | octet (b : UInt8)
  | copy (length distance : Nat)

/-- One step: the header of a block, an octet or an item. -/
def step : Stage → BitReader (Addition × Option Stage)
  | .header => do
    let final ← bit
    match ← number 2 with
    | 0 =>
      align
      let length ← number 16
      let complement ← number 16
      if length + complement = 0xFFFF then
        return (.nothing, if length = 0 then afterBlock final else some (.plain final length))
      else fail .corrupt
    | 1 =>
      let (literals, distances) ← fixedCodes
      return (.nothing, some (.coded final literals distances))
    | 2 =>
      let (literals, distances) ← readCodes
      return (.nothing, some (.coded final literals distances))
    | _ => fail .corrupt
  | .plain final left => do
    let low ← bit
    let high ← number 7
    return (.octet (UInt8.ofNat (low.toNat + 2 * high)),
      if left ≤ 1 then afterBlock final else some (.plain final (left - 1)))
  | .coded final literals distances => do
    match ← readItem literals distances with
    | .octet b => return (.octet b, some (.coded final literals distances))
    | .copy length distance => return (.copy length distance, some (.coded final literals distances))
    | .endOfBlock => return (.nothing, afterBlock final)

theorem consumes_readItem (literals distances : Code) : (readItem literals distances).Consumes :=
  literals.consumes_read.bind _

theorem consumes_step (s : Stage) : (step s).Consumes := by
  cases s with
  | header => exact (consumes_next _).bind _
  | plain final left => exact (consumes_next _).bind _
  | coded final literals distances => exact (consumes_readItem literals distances).bind _

/-- The octets after a step. -/
def add (out : Array UInt8) : Addition → Array UInt8
  | .nothing => out
  | .octet b => out.push b
  | .copy length distance => copy out distance length

/-- One step of a stream, with the octets so far. -/
def advance (s : Array UInt8 × Stage) : BitReader ((Array UInt8 × Stage) ⊕ Array UInt8) := do
  let (addition, stage) ← step s.2
  let out := add s.1 addition
  match stage with
  | some stage => return .inl (out, stage)
  | none => return .inr out

theorem consumes_advance (s : Array UInt8 × Stage) : (advance s).Consumes :=
  (consumes_step s.2).bind _

/-- The octets of a compressed stream.  What follows the last block does not count. -/
def decompress (bytes : Bytes) : Except Stop Bytes :=
  match (loop advance consumes_advance (#[], .header)).run (bitsOf bytes) with
  | .ok (out, _) => .ok out.toList
  | .error stop => .error stop

end Inflate
end RenameAudit
