import RenameAudit.Bytes
import RenameAudit.ClassFile.Fault
import RenameAudit.ListReader
/-!
# ClassFile.Reader — the words of a class file

Numbers are words with the most significant octet first, and a table is a count and as many values.
-/
namespace RenameAudit
namespace ClassFile

/-- A reader of a value from the front of an octet string. -/
abbrev Reader := ListReader UInt8 Fault

namespace Reader

/-- One octet. -/
def u1 : Reader UInt8 :=
  ListReader.next .unexpectedEnd

/-- A word of two octets. -/
def u2 : Reader UInt16 where
  run
    | a :: b :: rest => .ok (Bytes.toU16 a b, rest)
    | _ => .error .unexpectedEnd
  suffix_of_run {b a rest} h := by
    split at h
    · rename_i x y r
      cases h
      exact ⟨[x, y], rfl⟩
    · cases h

/-- A word of four octets. -/
def u4 : Reader UInt32 where
  run
    | a :: b :: c :: d :: rest => .ok (Bytes.toU32 a b c d, rest)
    | _ => .error .unexpectedEnd
  suffix_of_run {b a rest} h := by
    split at h
    · rename_i x y z w r
      cases h
      exact ⟨[x, y, z, w], rfl⟩
    · cases h

/-- A double word of eight octets. -/
def u8 : Reader UInt64 := do
  let high ← u4
  let low ← u4
  return Bytes.toU64 high low

/-- The next `n` octets. -/
def take (n : Nat) : Reader Bytes :=
  ListReader.takeOr .unexpectedEnd n

/-- Leaves out the next `n` octets. -/
def skip (n : Nat) : Reader Unit := do
  let _ ← take n

/-- A count of two octets and as many values. -/
def table {α : Type} (item : Reader α) : Reader (List α) := do
  let count ← u2
  item.times count.toNat

/-- The value of a whole region: nothing may be left of it. -/
def all {α : Type} (p : Reader α) (region : Region) (b : Bytes) : Except Fault α :=
  match p.run b with
  | .ok (a, []) => .ok a
  | .ok (_, _ :: _) => .error (.trailing region)
  | .error e => .error e

end Reader
end ClassFile
end RenameAudit
