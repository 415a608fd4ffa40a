import RenameAudit.Text.Digits
/-!
# Decimal — numbers in decimal notation

A numeral has digits with at most one point among them, and perhaps a power of ten as a factor.  Its digits without the
point are a natural number, so that the whole numeral is that number times a power of ten.
-/
namespace RenameAudit

/-- The number `digits · 10 ^ exponent` or its negative.  Zero has a sign too. -/
structure Decimal where
  negative : Bool
  digits : Nat
  exponent : Int
  deriving DecidableEq, Repr

namespace Decimal

/-! ## Reading -/

/-- A text without the sign at its front, and whether that was a minus. -/
def splitSign : List Char → Bool × List Char
  | '-' :: cs => (true, cs)
  | '+' :: cs => (false, cs)
  | cs => (false, cs)

/-- The exponent of a text, which is empty or has the letter `e` in front. -/
def exponent? : List Char → Option Int
  | [] => some 0
  | e :: cs =>
    let (negative, digits) := splitSign cs
    if (e == 'e' || e == 'E') && !digits.isEmpty && digits.all Text.isDigit then
      some (if negative then -Text.digitsValue digits else Text.digitsValue digits)
    else none

/-- The digits before and after the point of a text, and what follows them. -/
def splitPoint (cs : List Char) : List Char × List Char × List Char :=
  match cs.dropWhile Text.isDigit with
  | '.' :: rest => (cs.takeWhile Text.isDigit, rest.takeWhile Text.isDigit, rest.dropWhile Text.isDigit)
  | rest => (cs.takeWhile Text.isDigit, [], rest)

/-- The number of a numeral.  There is a digit on at least one side of the point. -/
def parse (text : List Char) : Option Decimal :=
  let (negative, cs) := splitSign text
  let (whole, fraction, rest) := splitPoint cs
  if whole.isEmpty && fraction.isEmpty then none
  else (exponent? rest).map fun e => ⟨negative, Text.digitsValue (whole ++ fraction), e - fraction.length⟩

/-! ## Writing -/

/-- The digits of a natural number. -/
def digitsOf (n : Nat) : List Char :=
  Nat.toDigits 10 n

/-- The text of a number without a power of ten: zeros fill the places up to the point, and there is no point after whole
numbers. -/
def text (d : Decimal) : List Char :=
  let digits := digitsOf d.digits
  let places := d.exponent.neg.toNat
  let padded := List.replicate (places + 1 - digits.length) '0' ++ digits ++ List.replicate d.exponent.toNat '0'
  let whole := padded.take (padded.length - places)
  (if d.negative then ['-'] else []) ++ whole ++ (if places = 0 then [] else '.' :: padded.drop (padded.length - places))

end Decimal
end RenameAudit
