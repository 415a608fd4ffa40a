/-!
# Digits — numbers from digits

Numbers are runs of ASCII digits; leading zeros are allowed.
-/
namespace RenameAudit
namespace Text

/-- Whether a character is an ASCII digit. -/
def isDigit (c : Char) : Bool :=
  48 ≤ c.toNat && c.toNat ≤ 57

/-- The number that decimal digits write. -/
def digitsValue (cs : List Char) : Nat :=
  cs.foldl (fun n c => n * 10 + (c.toNat - 48)) 0

/-- The number below a bound that a nonempty run of decimal digits writes. -/
def number? (bound : Nat) (cs : List Char) : Option Nat :=
  if !cs.isEmpty && cs.all isDigit && decide (digitsValue cs < bound) then some (digitsValue cs) else none

/-- The value of a hexadecimal digit. -/
def hexValue? (c : Char) : Option Nat :=
  if '0' ≤ c ∧ c ≤ '9' then some (c.toNat - 48)
  else if 'a' ≤ c ∧ c ≤ 'f' then some (c.toNat - 87)
  else if 'A' ≤ c ∧ c ≤ 'F' then some (c.toNat - 55)
  else none

end Text
end RenameAudit
