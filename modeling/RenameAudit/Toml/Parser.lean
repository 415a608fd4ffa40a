import RenameAudit.Toml.Quoted
import RenameAudit.Toml.Scalar
/-!
# Toml.Parser — documents from text

A list may go over lines and may end in a comma; a table in braces stays on its line and does not.  Lists and tables lie
at most 79 deep in each other, and a key has at most 79 parts.
-/
namespace RenameAudit
namespace Toml

open ListReader CharReader

/-- The number from which on keys are too long and values too deep. -/
def depthLimit : Nat := 80

/-- Leaves out blanks. -/
def skipGap : CharReader Unit := do
  let _ ← takeWhile isGap

/-- Leaves out blanks, line ends and comments. -/
def skipLines : CharReader Unit :=
  skipFill isFill isPlain

/-! ## Keys -/

/-- Whether a character may stand in a key without quotation marks. -/
def isKeyChar (c : Char) : Bool :=
  c.isAlphanum || c == '-' || c == '_'

/-- A part of a key that begins with a character. -/
def readKeyPart (c : Char) : CharReader String := do
  if c = '"' ∨ c = '\'' then return String.ofList (← readShort c)
  else
    require (isKeyChar c)
    return String.ofList (c :: (← takeWhile isKeyChar))

/-- One more part of a key and the dot after it; `found` are the parts before it, the last one first. -/
def stepKey (found : List String) : CharReader (List String ⊕ List String × String) := do
  skipGap
  let part ← readKeyPart (← char)
  skipGap
  if ← sees '.' then
    let _ ← char
    return .inl (part :: found)
  else return .inr (found.reverse, part)

theorem consumes_stepKey (found : List String) : (stepKey found).Consumes :=
  Consumes.bind_right _ fun _ => consumes_char.bind _

/-- A key: the parts that lead to the last one, and the last one. -/
def readKey : CharReader (List String × String) := do
  let (path, key) ← loop stepKey consumes_stepKey []
  require (path.length + 1 < depthLimit)
  return (path, key)

theorem consumes_readKey : readKey.Consumes :=
  (consumes_loop stepKey consumes_stepKey []).bind _

/-! ## Values -/

/-- Whether a run is a day and a time may follow it after a blank. -/
def continuesDay (run rest : List Char) : Bool :=
  isDate run &&
    match rest with
    | ' ' :: c :: _ => Text.isDigit c
    | _ => false

/-- A value that has no other values in it and is no string. -/
def readScalar : CharReader Value := do
  let run ← takeWhile isScalarChar
  if continuesDay run (← upcoming) then
    let blank ← char
    demand (scalar? (run ++ blank :: (← takeWhile isScalarChar)))
  else demand (scalar? run)

/-- One more item of a list, or its end; `found` are the items before it, the last one first. -/
def stepItems (item : CharReader Value) (found : List Value) : CharReader (List Value ⊕ List Value) := do
  skipLines
  if ← sees ']' then
    let _ ← char
    return .inr found.reverse
  else
    let value ← item
    skipLines
    match ← char with
    | ',' => return .inl (value :: found)
    | c =>
      require (c == ']')
      return .inr (value :: found).reverse

theorem consumes_stepItems (item : CharReader Value) (found : List Value) : (stepItems item found).Consumes := by
  refine Consumes.bind_right _ fun _ => Consumes.bind_right _ fun closed => ?_
  cases closed
  · exact Consumes.bind_right _ fun _ => Consumes.bind_right _ fun _ => consumes_char.bind _
  · exact consumes_char.bind _

/-- A key and its value, up to the value. -/
def readPair (item : CharReader Value) : CharReader (List String × String × Value) := do
  let (path, key) ← readKey
  expect '='
  skipGap
  return (path, key, ← item)

theorem consumes_readPair (item : CharReader Value) : (readPair item).Consumes :=
  consumes_readKey.bind _

/-- One more pair of a table in braces. -/
def stepPairs (item : CharReader Value) (found : List (List String × String × Value)) :
    CharReader (List (List String × String × Value) ⊕ List (List String × String × Value)) := do
  let pair ← readPair item
  skipGap
  match ← char with
  | ',' => return .inl (pair :: found)
  | c =>
    require (c == '\x7d')
    return .inr (pair :: found).reverse

theorem consumes_stepPairs (item : CharReader Value) (found : List (List String × String × Value)) :
    (stepPairs item found).Consumes :=
  (consumes_readPair item).bind _

/-- A table after its brace. -/
def readTable (item : CharReader Value) : CharReader Value := do
  skipGap
  if ← sees '\x7d' then
    let _ ← char
    return .table .inline []
  else demand (inlineTable (← loop (stepPairs item) (consumes_stepPairs item) []))

/-- A value in which others lie at most so deep. -/
def readValue : Nat → CharReader Value
  | 0 => readSimple
  | depth + 1 => do
    if ← sees '[' then
      let _ ← char
      return .array (← loop (stepItems (readValue depth)) (consumes_stepItems (readValue depth)) [])
    else if ← sees '\x7b' then
      let _ ← char
      readTable (readValue depth)
    else readSimple
where
  /-- A string or a value of letters, digits and signs. -/
  readSimple : CharReader Value := do
    match ← peek 1 with
    | ['"'] | ['\''] => return .string (String.ofList (← readString (← char)))
    | _ => readScalar

/-! ## Documents -/

/-- A line up to its end. -/
def readLine : CharReader Line := do
  if ← sees '[' then
    let _ ← char
    let (path, key) ← readKey
    expect ']'
    return .header path key
  else
    let (path, key, value) ← readPair (readValue (depthLimit - 1))
    return .pair path key value

theorem consumes_readLine : readLine.Consumes := by
  refine Consumes.bind_right _ fun header => ?_
  cases header
  · exact (consumes_readPair _).bind _
  · exact consumes_char.bind _

/-- The end of a line, which may have a comment. -/
def endLine : CharReader Unit := do
  skipGap
  if ← sees '#' then
    let _ ← takeWhile isPlain
  unless ← atEnd do
    expect '\n'

/-- One more line, and what comes before the next one. -/
def stepLines (found : List Line) : CharReader (List Line ⊕ List Line) := do
  let line ← readLine
  endLine
  skipLines
  if ← atEnd then return .inr (line :: found).reverse else return .inl (line :: found)

theorem consumes_stepLines (found : List Line) : (stepLines found).Consumes :=
  consumes_readLine.bind _

/-- The lines of a document. -/
def readLines : CharReader (List Line) := do
  skipLines
  if ← atEnd then return [] else loop stepLines consumes_stepLines []

/-- The text in which a line ends with a line feed also where it ended with a carriage return and a line feed. -/
def joinLineEnds : List Char → List Char
  | '\x0d' :: '\n' :: cs => '\n' :: joinLineEnds cs
  | c :: cs => c :: joinLineEnds cs
  | [] => []

/-- The text without a byte order mark. -/
def dropMark : List Char → List Char
  | '\ufeff' :: cs => cs
  | cs => cs

/-- The members of the table that a text writes. -/
def parse (text : String) : Option Members :=
  (CharReader.parse readLines (joinLineEnds (dropMark text.toList))).bind (build [] [])

end Toml
end RenameAudit
