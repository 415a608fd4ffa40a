import RenameAudit.Pattern.Basic
/-!
# Pattern.Class — classes of characters in brackets

A class holds characters, ranges of them, other classes, and classes of ASCII by name, and two classes may be joined by a
set operation.  Where octets are matched, a class must not hold one beyond ASCII, so that a set of those is kept, as the
bits of a number.  How deep parts lie in each other is counted too.
-/
namespace RenameAudit
namespace Pattern

open ListReader CharReader

-- Powers of numbers are those of the core library, whatever else is imported.
attribute [local instance (high)] instPowNat

/-- What stands between two classes that are joined. -/
inductive Operation where
  | intersection | difference | symmetricDifference
  deriving DecidableEq, Repr

/-- What is kept of a class: the octets beyond ASCII in it, and how deep its parts lie. -/
structure Content where
  octets : Nat
  depth : Nat
  deriving DecidableEq, Repr

/-- All octets beyond ASCII. -/
def allOctets : Nat := 2 ^ (128 : Nat) - 1

/-- The octets of a set operation. -/
def Operation.apply (o : Operation) (a b : Nat) : Nat :=
  match o with
  | intersection => a &&& b
  | difference => a &&& (allOctets ^^^ b)
  | symmetricDifference => a ^^^ b

/-- The operation of a sign that stands twice. -/
def operation? : Char → Option Operation
  | '&' => some .intersection
  | '-' => some .difference
  | '~' => some .symmetricDifference
  | _ => none

/-- A class that is not at its end: what stands before its last operation, and the items since.  At the front of a class
nothing but hyphens has been read. -/
structure Bracket where
  negated : Bool
  atFront : Bool
  operand : Option (Operation × Content)
  items : Nat
  content : Content
  deriving Repr

namespace Bracket

/-- A class without items. -/
def empty (negated : Bool) : Bracket :=
  ⟨negated, true, none, 0, ⟨0, 0⟩⟩

/-- The class with one more item. -/
def add (item : Content) (b : Bracket) : Bracket :=
  { b with
    atFront := false
    items := b.items + 1
    content := ⟨b.content.octets ||| item.octets, max b.content.depth item.depth⟩ }

/-- All that has been read of a class. -/
def joined (b : Bracket) : Content :=
  let depth := if b.items ≤ 1 then b.content.depth else b.content.depth + 1
  match b.operand with
  | none => ⟨b.content.octets, depth⟩
  | some (o, left) => ⟨o.apply left.octets b.content.octets, max left.depth depth + 1⟩

/-- The class after an operation. -/
def operate (o : Operation) (b : Bracket) : Bracket :=
  { b with atFront := false, operand := some (o, b.joined), items := 0, content := ⟨0, 0⟩ }

/-- The class at its end. -/
def close (b : Bracket) : Content :=
  let inner := b.joined
  ⟨if b.negated then allOctets ^^^ inner.octets else inner.octets, inner.depth + 1⟩

end Bracket

/-! ## Items -/

/-- The octets beyond ASCII from one number to another. -/
def octetsBetween (first last : Nat) : Nat :=
  (2 ^ (min (last + 1) 256 - 128) - 1) ^^^ (2 ^ (min first 256 - 128) - 1)

/-- Whether a character may be an item or the end of a range. -/
def allowsMember (f : Flags) (c : Char) (isOctet : Bool) : Bool :=
  !f.foldsAll && (f.unicode || c.toNat < 0x80 || isOctet)

/-- A member of a class that begins with a character. -/
def memberOf (f : Flags) (c : Char) : CharReader Escape :=
  if c = '\\' then readEscape f else return .literal c false

/-- The range from one character to another. -/
def rangeOf (f : Flags) : Escape → Escape → CharReader Content
  | .literal c isOctet, .literal d isOctet' => do
    require (allowsMember f c isOctet && allowsMember f d isOctet' && c ≤ d)
    return ⟨if f.unicode then 0 else octetsBetween c.toNat d.toNat, 0⟩
  | _, _ => fail ()

/-- An item that is no range. -/
def itemOf (f : Flags) : Escape → CharReader Content
  | .shorthand negated => do
    require (allowsShorthand f negated)
    return ⟨0, 0⟩
  | e => rangeOf f e e

/-- Whether a hyphen before other characters is part of a range: it is not at the end of a class or before another one. -/
def beginsRange (f : Flags) (cs : List Char) : Bool :=
  match if f.spaced then dropFill Text.isBlank isComment false cs else cs with
  | ']' :: _ => false
  | '-' :: _ => false
  | _ => true

/-- The item that begins with a character. -/
def readItem (f : Flags) (c : Char) : CharReader Content := do
  let first ← memberOf f c
  skipBlank f
  match ← upcoming with
  | '-' :: cs =>
    if beginsRange f cs then
      let _ ← char
      skipBlank f
      rangeOf f first (← memberOf f (← char))
    else itemOf f first
  | _ => itemOf f first

/-- The names of the classes of ASCII. -/
def asciiNames : List String :=
  ["alnum", "alpha", "ascii", "blank", "cntrl", "digit", "graph", "lower", "print", "punct", "space", "upper", "word",
   "xdigit"]

/-- A class of ASCII at the front of a text after its bracket: whether it is negated, and its length. -/
def asciiClass? : List Char → Option (Bool × Nat)
  | ':' :: cs =>
    let negated := cs.head? == some '^'
    let cs := if negated then cs.drop 1 else cs
    let name := cs.takeWhile (· != ':')
    if (cs.drop name.length).take 2 == [':', ']'] && asciiNames.contains (String.ofList name) then
      some (negated, name.length + if negated then 4 else 3)
    else none
  | _ => none

/-! ## Brackets -/

/-- A class after its bracket, which may have a sign for all other characters. -/
def openBracket (f : Flags) : CharReader Bracket := do
  skipBlank f
  let negated := ← sees '^'
  if negated then
    let _ ← char
  return .empty negated

/-- What has been read of a class and of the classes around it, or how deep the parts of the outermost one lie. -/
abbrev Nested := (Bracket × List Bracket) ⊕ Nat

/-- A class inside a class, which may be one by name. -/
def openInner (f : Flags) (b : Bracket) (outer : List Bracket) : CharReader Nested := do
  match asciiClass? (← upcoming) with
  | some (negated, length) =>
    require (!f.foldsAll && (f.unicode || !negated))
    let _ ← takeOr () length
    return .inl (b.add ⟨0, 0⟩, outer)
  | none => return .inl (← openBracket f, b :: outer)

/-- A class at its end. -/
def closeBracket (f : Flags) (b : Bracket) (outer : List Bracket) : CharReader Nested := do
  let content := b.close
  require (f.unicode || content.octets = 0)
  match outer with
  | [] => return .inr content.depth
  | b' :: outer => return .inl (b'.add content, outer)

/-- One part of a class.  At its front hyphens stand for themselves, and so does a closing bracket as the first item. -/
def stepClass (f : Flags) (s : Bracket × List Bracket) : CharReader Nested := do
  skipBlank f
  let c ← char
  let (b, outer) := s
  if b.atFront && c = '-' then
    let item ← itemOf f (.literal c false)
    return .inl ({ b.add item with atFront := true }, outer)
  else if b.atFront && c = ']' && b.items = 0 then return .inl (b.add (← itemOf f (.literal c false)), outer)
  else if c = '[' then openInner f b outer
  else if c = ']' then closeBracket f b outer
  else
    match operation? c, ← sees c with
    | some o, true =>
      let _ ← char
      return .inl (b.operate o, outer)
    | _, _ => return .inl (b.add (← readItem f c), outer)

theorem consumes_stepClass (f : Flags) (s : Bracket × List Bracket) : (stepClass f s).Consumes :=
  Consumes.bind_right _ fun _ => (consumes_next _).bind _

/-- A class after its first bracket: how deep its parts lie. -/
def readClass (f : Flags) : CharReader Nat := do
  loop (stepClass f) (consumes_stepClass f) (← openBracket f, [])

end Pattern
end RenameAudit
