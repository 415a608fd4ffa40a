import RenameAudit.Decimal.Binary64
import RenameAudit.Pattern.Parser
import RenameAudit.Text.Split
/-!
# Settings.FieldMatch — what a span must have

A directive of a log filter may ask for a field, and for its value: a boolean, a number, or a text that a pattern
describes.  What is written decides which of them is meant.
-/
namespace RenameAudit

-- Powers of numbers are those of the core library, whatever else is imported.
attribute [local instance (high)] instPowNat

/-- The value that a field must have. -/
inductive FieldValue where
  | boolean (b : Bool)
  | real (x : Binary64)
  /-- What is no number among those with a binary point. -/
  | notNumber
  | natural (n : Nat)
  | integer (i : Int)
  | pattern (text : List Char)
  deriving DecidableEq, Repr

namespace FieldValue

/-! ## Reading -/

/-- The boolean of a text. -/
def boolean? (text : List Char) : Option FieldValue :=
  if text = "true".toList then some (boolean true)
  else if text = "false".toList then some (boolean false)
  else none

/-- The natural number of 64 bits of a text, which may have a plus sign. -/
def natural? (text : List Char) : Option FieldValue :=
  let digits := match text with
    | '+' :: rest => rest
    | cs => cs
  (Text.number? (2 ^ (64 : Nat)) digits).map natural

/-- The negative number of 64 bits of a text, or zero with a minus sign. -/
def integer? : List Char → Option FieldValue
  | '-' :: digits => (Text.number? (2 ^ (63 : Nat) + 1) digits).map fun n => integer (-n)
  | _ => none

/-- The number with a binary point of a text.  Some have names, in any case. -/
def real? (text : List Char) : Option FieldValue :=
  let (negative, cs) := Decimal.splitSign text
  let name := String.ofList (cs.map Char.toLower)
  if name = "inf" ∨ name = "infinity" then some (real (.infinite negative))
  else if name = "nan" then some notNumber
  else (Decimal.parse text).map fun d => real (.ofDecimal d)

/-- The pattern of a text. -/
def pattern? (text : List Char) : Option FieldValue :=
  if Pattern.isPattern text then some (pattern text) else none

/-- The value of a text: of all that can be meant the first. -/
def parse (text : List Char) : Option FieldValue :=
  [boolean?, natural?, integer?, real?, pattern?].findSome? fun read => read text

/-! ## Order and text -/

/-- The place of a kind of values among all kinds. -/
def rank : FieldValue → Nat
  | boolean _ => 0
  | real _ => 1
  | notNumber => 2
  | natural _ => 3
  | integer _ => 4
  | pattern _ => 5

/-- The order of values: by kind, and by value where the kind is the same. -/
def order : FieldValue → FieldValue → Ordering
  | boolean a, boolean b => compare a b
  | real a, real b => Binary64.order a b
  | natural a, natural b => compare a b
  | integer a, integer b => compare a b
  | pattern a, pattern b => compare (String.ofList a) (String.ofList b)
  | a, b => compare a.rank b.rank

/-- The text of a value. -/
def text : FieldValue → String
  | boolean b => toString b
  | real x => String.ofList x.text
  | notNumber => "NaN"
  | natural n => toString n
  | integer i => toString i
  | pattern text => String.ofList text

end FieldValue

/-- A field that a span must have, and perhaps its value. -/
structure FieldMatch where
  name : String
  value : Option FieldValue
  deriving DecidableEq, Repr

namespace FieldMatch

/-- The field of a text: its name, and its value between an equals sign and the next one. -/
def parse (text : List Char) : Option FieldMatch :=
  match Text.splitOn '=' text with
  | name :: value :: _ => (FieldValue.parse value).map fun value => ⟨String.ofList name, some value⟩
  | _ => some ⟨String.ofList text, none⟩

/-- The order of fields: those with a value come later, and else the name decides before the value. -/
def order (f g : FieldMatch) : Ordering :=
  ((compare f.value.isSome g.value.isSome).then (compare f.name g.name)).then <|
    match f.value, g.value with
    | some v, some w => v.order w
    | _, _ => .eq

/-- The text of a field. -/
def text (f : FieldMatch) : String :=
  match f.value with
  | some value => f.name ++ "=" ++ value.text
  | none => f.name

end FieldMatch
end RenameAudit
