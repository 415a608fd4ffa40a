import RenameAudit.Text.Alphanumeric
import RenameAudit.Text.Blank
import RenameAudit.Text.CharReader
import RenameAudit.Text.Digits
/-!
# Pattern — the parts of patterns

A pattern tells texts apart by characters, classes of characters, groups, choice and repetition.  The library does not
match texts with it but has to know which texts are patterns.  Flags change what a part means: whether the case of letters
counts, whether characters or octets are matched, and whether white space and comments stand for nothing.

No case but that of ASCII letters can be left out of account, and no class of characters is known by a name except those of
ASCII.  What is matched has to be well-formed text, so that no part may stand for a single octet beyond ASCII.
-/
namespace RenameAudit
namespace Pattern

/-- The flags that matter for what is a pattern. -/
structure Flags where
  ignoreCase : Bool
  unicode : Bool
  spaced : Bool
  deriving DecidableEq, Repr

namespace Flags

/-- The flags at the start of a pattern. -/
def default : Flags :=
  ⟨false, true, false⟩

/-- Whether letters would be matched without their case in all scripts. -/
def foldsAll (f : Flags) : Bool :=
  f.ignoreCase && f.unicode

/-- The flags with one set by its letter. -/
def set (f : Flags) : Char × Bool → Flags
  | ('i', on) => { f with ignoreCase := on }
  | ('u', on) => { f with unicode := on }
  | ('x', on) => { f with spaced := on }
  | _ => f

/-- The letters of all flags. -/
def letters : List Char :=
  "imsUuRx".toList

end Flags

open ListReader CharReader

/-- The characters of a comment, which ends with its line. -/
def isComment (c : Char) : Bool :=
  c != '\n'

/-- Leaves out white space and comments where they stand for nothing. -/
def skipBlank (f : Flags) : CharReader Unit :=
  if f.spaced then skipFill Text.isBlank isComment else return ()

/-! ## Escapes -/

/-- What a backslash and the characters after it stand for. -/
inductive Escape where
  /-- A character; in two hexadecimal digits it may be meant as an octet. -/
  | literal (c : Char) (isOctet : Bool)
  /-- Digits, white space or word characters, or all others. -/
  | shorthand (negated : Bool)
  /-- A place in the text; at the edge of a word it depends on what a word is. -/
  | place (ofWord : Bool)

/-- One hexadecimal digit. -/
def hexDigit (f : Flags) : CharReader Nat := do
  let n ← demand (Text.hexValue? (← char))
  skipBlank f
  return n

/-- The character with a number in hexadecimal digits. -/
def hexChar (f : Flags) (count : Nat) : CharReader Char := do
  skipBlank f
  let n := (← (hexDigit f).times count).foldl (fun n d => 16 * n + d) 0
  require n.isValidChar
  return Char.ofNat n

/-- Whether a character after a backslash stands for itself: every sign of ASCII but the angle brackets. -/
def isEscapable (c : Char) : Bool :=
  c.toNat < 0x80 && !c.isAlphanum && c != '<' && c != '>'

/-- What follows a backslash. -/
def readEscape (f : Flags) : CharReader Escape := do
  match ← char with
  | 'x' => return .literal (← hexChar f 2) true
  | 'u' => return .literal (← hexChar f 4) false
  | 'U' => return .literal (← hexChar f 8) false
  | 'd' | 's' | 'w' => return .shorthand false
  | 'D' | 'S' | 'W' => return .shorthand true
  | 'A' | 'z' => return .place false
  | 'b' | 'B' | '<' | '>' => return .place true
  | 'a' => return .literal '\x07' false
  | 'f' => return .literal '\x0c' false
  | 'n' => return .literal '\n' false
  | 'r' => return .literal '\x0d' false
  | 't' => return .literal '\t' false
  | 'v' => return .literal '\x0b' false
  | c =>
    require (isEscapable c)
    return .literal c false

/-! ## Where parts are allowed -/

/-- Whether a character may be matched. -/
def allowsLiteral (f : Flags) (c : Char) (isOctet : Bool) : Bool :=
  !f.foldsAll && (f.unicode || !isOctet || c.toNat < 0x80)

/-- Whether a shorthand class may be matched. -/
def allowsShorthand (f : Flags) (negated : Bool) : Bool :=
  !f.unicode && !negated

/-- Whether an escape may stand among other parts. -/
def allows (f : Flags) : Escape → Bool
  | .literal c isOctet => allowsLiteral f c isOctet
  | .shorthand negated => allowsShorthand f negated
  | .place ofWord => !(f.unicode && ofWord)

end Pattern
end RenameAudit
