import RenameAudit.Pattern.Class
/-!
# Pattern.Parser — which texts are patterns

A pattern is a choice of sequences of items: characters, places, classes and groups, each perhaps repeated.  Flags hold
up to the end of the group in which they are set.  Parts lie at most 250 deep in each other: a group, a repetition, a
class, and a choice or a sequence of more than one item count one each.

Patterns stand in braces, so that none holds a closing brace: a count of repetitions, which needs one, is no part of a
pattern.
-/
namespace RenameAudit
namespace Pattern

open ListReader CharReader

/-! ## Groups -/

/-- What is set where flags are read: letters with their setting, the last one first, and whether a hyphen came before. -/
structure FlagList where
  settings : List (Char × Bool)
  negated : Bool
  dangling : Bool

/-- One more flag or hyphen, or the end of the flags and the sign there. -/
def stepFlags (s : FlagList) : CharReader (FlagList ⊕ (FlagList × Char)) := do
  let c ← char
  if c = ':' ∨ c = ')' then
    require (!s.dangling)
    return .inr (s, c)
  else if c = '-' then
    require (!s.negated)
    return .inl { s with negated := true, dangling := true }
  else
    require (Flags.letters.contains c && !s.settings.any (·.1 == c))
    return .inl ⟨(c, !s.negated) :: s.settings, s.negated, false⟩

theorem consumes_stepFlags (s : FlagList) : (stepFlags s).Consumes :=
  (consumes_next _).bind _

/-- Whether a character may stand in the name of a group. -/
def isNameChar (first : Bool) (c : Char) : Bool :=
  if first then c == '_' || Text.isAlphabetic c
  else c == '_' || c == '.' || c == '[' || c == ']' || Text.isAlphanumeric c

/-- The name of a group up to its angle bracket. -/
def readName : CharReader (List Char) := do
  let name ← takeWhile (· != '>')
  let _ ← char
  match name with
  | [] => fail ()
  | c :: cs =>
    require (isNameChar true c && cs.all (isNameChar false))
    return name

/-- What stands after the bracket of a group. -/
inductive Opening where
  /-- A group with the flags that hold in it and perhaps a name. -/
  | group (flags : Flags) (name : Option (List Char))
  /-- Flags for the rest of the group around. -/
  | flags (flags : Flags)

/-- What stands after a bracket.  Nothing may look ahead or back. -/
def readOpening (f : Flags) : CharReader Opening := do
  skipBlank f
  match ← peek 3 with
  | ['?', 'P', '<'] =>
    let _ ← takeOr () 3
    return .group f (some (← readName))
  | '?' :: '<' :: _ =>
    let _ ← takeOr () 2
    return .group f (some (← readName))
  | '?' :: _ =>
    let _ ← char
    let (s, c) ← loop stepFlags consumes_stepFlags ⟨[], false, false⟩
    let flags := s.settings.foldl Flags.set f
    if c = ':' then return .group flags none
    else
      require !s.settings.isEmpty
      return .flags flags
  | _ => return .group f none

/-! ## Sequences -/

/-- A group that is not at its end: the flags that hold after it, how deep the sequences before the current one lie and
whether there are any, and of the current one the number of items, how deep they lie, and the last one where it can be
repeated. -/
structure Group where
  after : Flags
  choices : Option Nat
  items : Nat
  depth : Nat
  last : Option Nat

namespace Group

/-- A group without items. -/
def empty (after : Flags) : Group :=
  ⟨after, none, 0, 0, none⟩

/-- The group with one more item. -/
def add (depth : Nat) (g : Group) : Group :=
  { g with items := g.items + 1, depth := max g.depth depth, last := some depth }

/-- The group with flags in the current sequence. -/
def addFlags (g : Group) : Group :=
  { g with items := g.items + 1, last := none }

/-- How deep the current sequence lies. -/
def sequence (g : Group) : Nat :=
  if g.items ≤ 1 then g.depth else g.depth + 1

/-- The group with a sequence after the current one. -/
def choose (g : Group) : Group :=
  { g with choices := some (max (g.choices.getD 0) g.sequence), items := 0, depth := 0, last := none }

/-- How deep the items of the group lie. -/
def inner (g : Group) : Nat :=
  match g.choices with
  | some depth => max depth g.sequence + 1
  | none => g.sequence

end Group

/-- What has been read of a pattern: the flags that hold, the names of groups, the current group and those around it. -/
structure State where
  flags : Flags
  names : List (List Char)
  group : Group
  outer : List Group

namespace State

/-- The state with one more item in the current group. -/
def add (depth : Nat) (s : State) : State :=
  { s with group := s.group.add depth }

end State

/-- A group that opens. -/
def openGroup (s : State) : CharReader State := do
  match ← readOpening s.flags with
  | .flags flags => return { s with flags, group := s.group.addFlags }
  | .group flags name =>
    require !(name.any s.names.contains)
    return ⟨flags, name.toList ++ s.names, .empty s.flags, s.group :: s.outer⟩

/-- A group that ends. -/
def closeGroup (s : State) : CharReader State := do
  match s.outer with
  | [] => fail ()
  | g :: outer => return { s with flags := s.group.after, group := g.add (s.group.inner + 1), outer }

/-- The last item repeated; a question mark makes the repetition short. -/
def repeatLast (s : State) : CharReader State := do
  match s.group.last with
  | none => fail ()
  | some depth =>
    if ← sees '?' then
      let _ ← char
    return { s with group := { s.group with depth := max s.group.depth (depth + 1), last := some (depth + 1) } }

/-- The state after a part that begins with a character. -/
def readPart (s : State) : Char → CharReader State
  | '(' => openGroup s
  | ')' => closeGroup s
  | '|' => return { s with group := s.group.choose }
  | '[' => return s.add (← readClass s.flags)
  | '?' | '*' | '+' => repeatLast s
  | '\x7b' => fail ()
  | '\\' => do
    require (allows s.flags (← readEscape s.flags))
    return s.add 0
  | '.' => do
    require s.flags.unicode
    return s.add 0
  | '^' | '$' => return s.add 0
  | c => do
    require (allowsLiteral s.flags c false)
    return s.add 0

/-- The greatest depth of a pattern. -/
def depthLimit : Nat := 250

/-- One part of a pattern, and whether it is the last. -/
def stepPattern (s : State) : CharReader (State ⊕ Unit) := do
  let c ← char
  let s ← readPart s c
  skipBlank s.flags
  if ← atEnd then
    require (s.outer.isEmpty && s.group.inner ≤ depthLimit)
    return .inr ()
  else return .inl s

theorem consumes_stepPattern (s : State) : (stepPattern s).Consumes :=
  (consumes_next _).bind _

/-- The parts of a pattern. -/
def readPattern : CharReader Unit :=
  loop stepPattern consumes_stepPattern ⟨.default, [], .empty .default, []⟩

/-- Whether a text is a pattern.  The empty one is. -/
def isPattern (text : List Char) : Bool :=
  text.isEmpty || (CharReader.parse readPattern text).isSome

end Pattern
end RenameAudit
