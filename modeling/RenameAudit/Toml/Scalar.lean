import RenameAudit.Decimal.Binary64
import RenameAudit.Toml.Basic
/-!
# Toml.Scalar — booleans, numbers, dates and times

These values are runs of letters, digits and a few signs.  Underscores may stand between digits.  Whole numbers have 64
bits with their sign, and numbers with a point must not be too great; dates are those of the calendar, and a minute may
have a leap second.
-/
namespace RenameAudit
namespace Toml

-- Powers of numbers are those of the core library, whatever else is imported.
attribute [local instance (high)] instPowNat

/-! ## Numbers -/

/-- The digits of a text, where underscores may stand between two of them. -/
def digits? (isDigit : Char → Bool) : List Char → Option (List Char)
  | [] => none
  | [c] => if isDigit c then some [c] else none
  | c :: '_' :: cs => if isDigit c then (digits? isDigit cs).map (c :: ·) else none
  | c :: cs => if isDigit c then (digits? isDigit cs).map (c :: ·) else none

/-- The decimal digits of a whole number, which has no leading zeros. -/
def wholeDigits? (cs : List Char) : Option (List Char) :=
  (digits? Text.isDigit cs).filter fun ds => ds.length = 1 || ds.head? != some '0'

/-- The whole number of a sign and digits. -/
def integer? (text : List Char) : Option Value :=
  let (negative, cs) := Decimal.splitSign text
  (wholeDigits? cs).bind fun ds =>
    let n := Text.digitsValue ds
    if n < 2 ^ (63 : Nat) ∨ (negative ∧ n = 2 ^ (63 : Nat)) then some (.integer (if negative then -n else n)) else none

/-- The digits for the letter after a zero, and their base. -/
def base? : Char → Option Nat
  | 'x' => some 16
  | 'o' => some 8
  | 'b' => some 2
  | _ => none

/-- The whole number of digits in another base than ten. -/
def based? : List Char → Option Value
  | '0' :: letter :: cs =>
    (base? letter).bind fun base =>
      (digits? (fun c => (Text.hexValue? c).any (· < base)) cs).bind fun ds =>
        let n := ds.foldl (fun n c => base * n + (Text.hexValue? c).getD 0) 0
        if n < 2 ^ (63 : Nat) then some (.integer n) else none
  | _ => none

/-- Whether a character begins the exponent of a number. -/
def isExponentSign (c : Char) : Bool :=
  c == 'e' || c == 'E'

/-- The exponent of a text, which is empty or has a letter in front. -/
def exponent? : List Char → Option Int
  | [] => some 0
  | _ :: cs =>
    let (negative, digits) := Decimal.splitSign cs
    (digits? Text.isDigit digits).map fun ds => if negative then -Text.digitsValue ds else Text.digitsValue ds

/-- The digits after the point of a text, which has one or begins with the exponent. -/
def fraction? : List Char → Option (List Char)
  | '.' :: cs => digits? Text.isDigit (cs.takeWhile (!isExponentSign ·))
  | c :: _ => if isExponentSign c then some [] else none
  | [] => none

/-- The number with a point or an exponent of a text. -/
def real? (text : List Char) : Option Value :=
  let (negative, cs) := Decimal.splitSign text
  let rest := cs.dropWhile fun c => c != '.' && !isExponentSign c
  do
    let whole ← wholeDigits? (cs.takeWhile fun c => c != '.' && !isExponentSign c)
    let fraction ← fraction? rest
    let e ← exponent? (rest.dropWhile (!isExponentSign ·))
    match Binary64.ofDecimal ⟨negative, Text.digitsValue (whole ++ fraction), e - fraction.length⟩ with
    | .infinite false => none
    | x => some (.real x)

/-- The value of a text that is the name of one, perhaps with a sign. -/
def named? (text : List Char) : Option Value :=
  let (negative, cs) := Decimal.splitSign text
  if text = "true".toList then some (.boolean true)
  else if text = "false".toList then some (.boolean false)
  else if cs = "inf".toList then some (.real (.infinite negative))
  else if cs = "nan".toList then some .notNumber
  else none

/-! ## Dates and times -/

/-- The number of days in a month. -/
def daysIn (year month : Nat) : Nat :=
  if month = 2 then if year % 4 = 0 ∧ (year % 100 ≠ 0 ∨ year % 400 = 0) then 29 else 28
  else if month = 4 ∨ month = 6 ∨ month = 9 ∨ month = 11 then 30
  else 31

/-- Whether a text is a day of the calendar. -/
def isDate : List Char → Bool
  | [y₁, y₂, y₃, y₄, '-', m₁, m₂, '-', d₁, d₂] =>
    let year := Text.digitsValue [y₁, y₂, y₃, y₄]
    let month := Text.digitsValue [m₁, m₂]
    let day := Text.digitsValue [d₁, d₂]
    [y₁, y₂, y₃, y₄, m₁, m₂, d₁, d₂].all Text.isDigit && 1 ≤ month && month ≤ 12 && 1 ≤ day && day ≤ daysIn year month
  | _ => false

/-- Whether two characters are a number of two digits below a bound. -/
def isPairBelow (bound : Nat) (a b : Char) : Bool :=
  (Text.number? bound [a, b]).isSome

/-- What follows hours, minutes and seconds, which may have a fraction. -/
def afterClock? : List Char → Option (List Char)
  | h₁ :: h₂ :: ':' :: m₁ :: m₂ :: ':' :: s₁ :: s₂ :: rest =>
    if isPairBelow 24 h₁ h₂ && isPairBelow 60 m₁ m₂ && isPairBelow 61 s₁ s₂ then
      match rest with
      | '.' :: cs => if (cs.takeWhile Text.isDigit).isEmpty then none else some (cs.dropWhile Text.isDigit)
      | _ => some rest
    else none
  | _ => none

/-- Whether a text says how far a time is from that of the zero meridian, or is empty. -/
def isOffset : List Char → Bool
  | [] => true
  | ['Z'] | ['z'] => true
  | [sign, h₁, h₂, ':', m₁, m₂] => (sign == '+' || sign == '-') && isPairBelow 24 h₁ h₂ && isPairBelow 60 m₁ m₂
  | _ => false

/-- Whether a text is a time on a day. -/
def isTimeOnDay (text : List Char) : Bool :=
  isDate (text.take 10) &&
    match text.drop 10 with
    | delimiter :: cs => [' ', 'T', 't'].contains delimiter && (afterClock? cs).any isOffset
    | [] => false

/-- The day, the time or the time on a day of a text. -/
def moment? (text : List Char) : Option Value :=
  if isDate text || afterClock? text == some [] || isTimeOnDay text then some (.moment (String.ofList text)) else none

/-! ## Values -/

/-- The value of a run. -/
def scalar? (text : List Char) : Option Value :=
  [named?, moment?, real?, integer?, based?].findSome? fun read => read text

/-- Whether a character may stand in a run. -/
def isScalarChar (c : Char) : Bool :=
  c.isAlphanum || c == '_' || c == '+' || c == '-' || c == ':' || c == '.'

end Toml
end RenameAudit
