import RenameAudit.Text.CharReader
import RenameAudit.Text.Digits
/-!
# Toml.Quoted — strings

A string stands between quotation marks on one line, or between three of them and may go over lines.  Between double marks
a backslash begins an escape; between single ones every character stands for itself.
-/
namespace RenameAudit
namespace Toml

open ListReader CharReader

/-- Whether a character is a blank within a line. -/
def isGap (c : Char) : Bool :=
  c == ' ' || c == '\t'

/-- Whether a character is a blank or ends a line. -/
def isFill (c : Char) : Bool :=
  isGap c || c == '\n'

/-- Whether a character may stand in a comment or in a string: every one but the control characters, of which the
tabulator is allowed. -/
def isPlain (c : Char) : Bool :=
  c == '\t' || (0x20 ≤ c.toNat && c.toNat != 0x7f)

/-! ## Escapes -/

/-- The character of a sign after a backslash. -/
def escaped? : Char → Option Char
  | 'b' => some '\x08'
  | 't' => some '\t'
  | 'n' => some '\n'
  | 'f' => some '\x0c'
  | 'r' => some '\x0d'
  | '"' => some '"'
  | '\\' => some '\\'
  | _ => none

/-- The character with a number in hexadecimal digits. -/
def hexChar (count : Nat) : CharReader Char := do
  let digits ← (do demand (Text.hexValue? (← char))).times count
  let n := digits.foldl (fun n d => 16 * n + d) 0
  require n.isValidChar
  return Char.ofNat n

/-- The character that a backslash and what follows it stand for. -/
def readEscape : CharReader Char := do
  match ← char with
  | 'u' => hexChar 4
  | 'U' => hexChar 8
  | c => demand (escaped? c)

/-! ## Strings -/

/-- One more character of a string on one line after the quotation mark; `found` are the characters before it, the last
one first. -/
def stepShort (quote : Char) (found : List Char) : CharReader (List Char ⊕ List Char) := do
  let c ← char
  if c = quote then return .inr found.reverse
  else if c = '\\' ∧ quote = '"' then return .inl ((← readEscape) :: found)
  else
    require (isPlain c)
    return .inl (c :: found)

theorem consumes_stepShort (quote : Char) (found : List Char) : (stepShort quote found).Consumes :=
  consumes_char.bind _

/-- A string on one line after its quotation mark. -/
def readShort (quote : Char) : CharReader (List Char) :=
  loop (stepShort quote) (consumes_stepShort quote) []

/-- Whether a line ends after blanks. -/
def endsLine (cs : List Char) : Bool :=
  (cs.dropWhile isGap).head? == some '\n'

/-- One more character of a string that may go over lines.  Up to two more quotation marks after three belong to the string
that the three end, and a backslash at the end of a line takes away the blanks and line ends after it. -/
def stepLong (quote : Char) (found : List Char) : CharReader (List Char ⊕ List Char) := do
  let c ← char
  if c = quote then
    if (← peek 2) == [quote, quote] then
      let _ ← takeOr () 2
      let more := (← peek 2).takeWhile (· == quote)
      let _ ← takeOr () more.length
      return .inr (found.reverse ++ more)
    else return .inl (c :: found)
  else if c = '\\' ∧ quote = '"' then
    if endsLine (← upcoming) then
      let _ ← takeWhile isFill
      return .inl found
    else return .inl ((← readEscape) :: found)
  else
    require (isPlain c || c == '\n')
    return .inl (c :: found)

theorem consumes_stepLong (quote : Char) (found : List Char) : (stepLong quote found).Consumes :=
  consumes_char.bind _

/-- A string that may go over lines, after its three quotation marks.  A line end right after them is no part of it. -/
def readLong (quote : Char) : CharReader (List Char) := do
  if ← sees '\n' then
    let _ ← char
  loop (stepLong quote) (consumes_stepLong quote) []

/-- A string after one quotation mark. -/
def readString (quote : Char) : CharReader (List Char) := do
  if (← peek 2) == [quote, quote] then
    let _ ← takeOr () 2
    readLong quote
  else readShort quote

end Toml
end RenameAudit
