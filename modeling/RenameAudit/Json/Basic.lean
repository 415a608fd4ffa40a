import RenameAudit.ClassFile.Fault
/-!
# Json — values and their text

Members of an object stand in the order in which they are given.  The text stands on one line without blanks, or is
indented by two blanks a level, where an empty list or object stays on its line.  A string escapes quotes, backslashes and
control characters.
-/
namespace RenameAudit

/-- A value. -/
inductive JsonValue where
  | bool (b : Bool)
  | number (n : Nat)
  | string (s : String)
  | array (items : List JsonValue)
  | object (members : List (String × JsonValue))

namespace JsonValue

/-- A list of strings. -/
def strings (items : List String) : JsonValue :=
  array (items.map string)

/-- The characters that stand for one character in a string. -/
def escape (c : Char) : List Char :=
  match c.toNat with
  | 0x22 => ['\\', '"']
  | 0x5c => ['\\', '\\']
  | 0x08 => ['\\', 'b']
  | 0x09 => ['\\', 't']
  | 0x0a => ['\\', 'n']
  | 0x0c => ['\\', 'f']
  | 0x0d => ['\\', 'r']
  | n => if n < 0x20 then '\\' :: 'u' :: ClassFile.hex 4 n else [c]

/-- A string in quotes. -/
def quoted (s : String) : String :=
  "\"" ++ String.ofList (s.toList.flatMap escape) ++ "\""

/-- A line break and the blanks of a level. -/
def lineBreak (level : Nat) : String :=
  "\n" ++ String.ofList (List.replicate (2 * level) ' ')

mutual

/-- The text of a value that stands at a level. -/
def pretty (level : Nat) : JsonValue → String
  | bool b => if b then "true" else "false"
  | number n => toString n
  | string s => quoted s
  | array [] => "[]"
  | array (a :: rest) =>
    "[" ++ lineBreak (level + 1) ++ a.pretty (level + 1) ++ prettyItems (level + 1) rest ++ lineBreak level ++ "]"
  | object [] => "\x7b\x7d"
  | object ((k, v) :: rest) =>
    "\x7b" ++ lineBreak (level + 1) ++ quoted k ++ ": " ++ v.pretty (level + 1) ++ prettyMembers (level + 1) rest ++
      lineBreak level ++ "\x7d"

/-- The texts of further items, each after a comma and on a line of its own. -/
def prettyItems (level : Nat) : List JsonValue → String
  | [] => ""
  | a :: rest => "," ++ lineBreak level ++ a.pretty level ++ prettyItems level rest

/-- The texts of further members, each after a comma and on a line of its own. -/
def prettyMembers (level : Nat) : List (String × JsonValue) → String
  | [] => ""
  | (k, v) :: rest => "," ++ lineBreak level ++ quoted k ++ ": " ++ v.pretty level ++ prettyMembers level rest

end

mutual

/-- The text of a value on one line. -/
def line : JsonValue → String
  | bool b => if b then "true" else "false"
  | number n => toString n
  | string s => quoted s
  | array items => "[" ++ lineItems "" items ++ "]"
  | object members => "\x7b" ++ lineMembers "" members ++ "\x7d"

/-- The texts of items, the first after a separator and the others after commas. -/
def lineItems (separator : String) : List JsonValue → String
  | [] => ""
  | a :: rest => separator ++ a.line ++ lineItems "," rest

/-- The texts of members, the first after a separator and the others after commas. -/
def lineMembers (separator : String) : List (String × JsonValue) → String
  | [] => ""
  | (k, v) :: rest => separator ++ quoted k ++ ":" ++ v.line ++ lineMembers "," rest

end

/-- The indented text of a value. -/
def text (v : JsonValue) : String :=
  v.pretty 0

end JsonValue
end RenameAudit
