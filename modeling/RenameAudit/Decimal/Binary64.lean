import RenameAudit.Decimal.Basic
/-!
# Decimal.Binary64 — numbers with a binary point in 64 bits

A number is a significand of at most 53 bits times a power of two that is bounded on both sides.  A decimal number stands
for the one that is nearest to it, and of two for the one with the even significand; numbers beyond the greatest one are
infinite.  The text of a number has the fewest digits that stand for it.
-/
namespace RenameAudit

-- Powers of numbers are those of the core library, whatever else is imported.
attribute [local instance (high)] instPowNat

/-- The number `significand · 2 ^ exponent` or its negative, or an infinite one. -/
inductive Binary64 where
  | finite (negative : Bool) (significand : Nat) (exponent : Int)
  | infinite (negative : Bool)
  deriving DecidableEq, Repr

namespace Binary64

/-- The exponent of the smallest numbers. -/
def leastExponent : Int := -1074

/-- The exponent of the greatest numbers. -/
def greatestExponent : Int := 971

/-- The bound of significands. -/
def bound : Nat := 2 ^ (53 : Nat)

/-- Numerator and denominator of a quotient that is multiplied by a power. -/
def scale (base : Nat) (exponent : Int) (num den : Nat) : Nat × Nat :=
  (num * base ^ exponent.toNat, den * base ^ exponent.neg.toNat)

/-- The whole number that is nearest to a quotient, and of two the even one. -/
def roundEven (num den : Nat) : Nat :=
  let q := num / den
  match compare (2 * (num % den)) den with
  | .lt => q
  | .eq => q + q % 2
  | .gt => q + 1

/-- The exponent for a quotient: the least one with which the significand keeps below its bound before it is rounded. -/
def exponentOf (num den : Nat) : Int :=
  let e : Int := num.log2 - den.log2 - 53
  let (n, d) := scale 2 (-e) num den
  max leastExponent (if n / d < bound then e else e + 1)

/-- Significand and exponent of the number that is nearest to a quotient. -/
def nearest (num den : Nat) : Nat × Int :=
  let e := exponentOf num den
  let (n, d) := scale 2 (-e) num den
  let m := roundEven n d
  if m = bound then (bound / 2, e + 1) else (m, e)

/-- The number that a decimal number stands for.  One with its first digit beyond the 310th place before the point is
infinite, and one without a digit in the first 340 places after it is zero. -/
def ofDecimal (d : Decimal) : Binary64 :=
  let places : Int := (Decimal.digitsOf d.digits).length + d.exponent
  if d.digits = 0 ∨ places < -340 then finite d.negative 0 leastExponent
  else if 310 < places then infinite d.negative
  else
    let (num, den) := scale 10 d.exponent d.digits 1
    let (m, e) := nearest num den
    if greatestExponent < e then infinite d.negative else finite d.negative m e

/-! ## Order -/

/-- A number as a multiple of a power of two whose exponent is not greater than its own. -/
def multiple (negative : Bool) (m : Nat) (e least : Int) : Int :=
  let n : Int := m * 2 ^ (e - least).toNat
  if negative then -n else n

/-- The order by value, where the two zeros are equal. -/
def order : Binary64 → Binary64 → Ordering
  | finite s m e, finite s' m' e' => compare (multiple s m e (min e e')) (multiple s' m' e' (min e e'))
  | infinite s, infinite s' => compare s' s
  | infinite s, finite .. => if s then .lt else .gt
  | finite .., infinite s => if s then .gt else .lt

/-! ## Text -/

/-- The multiple of a power of ten that stands for a number and is one of its two neighbours; of both the nearer one, and
the greater one where it lies between them. -/
def neighbour? (m : Nat) (e g : Int) : Option Nat :=
  let (num, den) := scale 2 e m 1
  let (n, d) := scale 10 (-g) num den
  let c := n / d
  let reads (c : Nat) : Bool := let (num, den) := scale 10 g c 1; nearest num den == (m, e)
  match reads c, reads (c + 1) with
  | true, true => some (if 2 * (n % d) < d then c else c + 1)
  | true, false => some c
  | false, true => some (c + 1)
  | false, false => none

/-- The decimal number with the fewest digits that stands for a number, and of those the nearest one: powers of ten are
tried from the greatest one on. -/
def shortest (negative : Bool) (m : Nat) (e : Int) : Decimal :=
  let found := (List.range 640).findSome? fun (i : Nat) =>
    let g : Int := 310 - (i : Int)
    (neighbour? m e g).map fun c => (⟨negative, c, g⟩ : Decimal)
  found.getD ⟨negative, 0, 0⟩

/-- The text of a number, without a power of ten. -/
def text : Binary64 → List Char
  | finite negative m e =>
    if m = 0 then (Decimal.mk negative 0 0).text else (shortest negative m e).text
  | infinite negative => (if negative then "-inf" else "inf").toList

end Binary64
end RenameAudit
