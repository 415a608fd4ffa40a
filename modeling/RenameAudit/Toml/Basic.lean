import RenameAudit.Decimal.Binary64
/-!
# Toml — values and tables

A document is a table, written line by line: a line gives a value to a key of the table whose header stands above it, or
is the header of the next table.  A key with dots leads through tables inside that table.  No key gets a value twice, and
what one line has completed no other line extends:

- a table that has a header takes no second header, and no line of another table reaches into it;
- a table made by keys with dots takes no header, and other lines extend it by keys with dots only;
- a table made by a longer header may get its own header later;
- a table written in braces is complete.

No setting takes a list of headed tables, so that a document with one is refused.
-/
namespace RenameAudit
namespace Toml

/-- How a table came to be. -/
inductive TableKind where
  /-- It has a header. -/
  | headed
  /-- A longer header leads through it. -/
  | implied
  /-- A key with dots leads through it. -/
  | dotted
  /-- It is written in braces. -/
  | inline
  deriving DecidableEq, Repr

/-- A value. -/
inductive Value where
  | string (text : String)
  | boolean (b : Bool)
  | integer (i : Int)
  | real (x : Binary64)
  /-- What is no number among those with a point. -/
  | notNumber
  /-- A day, a time or a time on a day, as it is written. -/
  | moment (text : String)
  | array (items : List Value)
  | table (kind : TableKind) (members : List (String × Value))

/-- The members of a table. -/
abbrev Members := List (String × Value)

namespace Members

/-- The value of a key. -/
def get? (key : String) (members : Members) : Option Value :=
  members.lookup key

/-- The members with a value for a key, in the place of the one that was there. -/
def set (key : String) (value : Value) : Members → Members
  | [] => [(key, value)]
  | (k, v) :: rest => if k = key then (k, value) :: rest else (k, v) :: set key value rest

/-- The members with a value for a key without one; `path` leads to the table that gets it. -/
def assign : List String → String → Value → Members → Option Members
  | [], key, value, members =>
    match members.get? key with
    | none => some (members.set key value)
    | some _ => none
  | step :: path, key, value, members =>
    match members.get? step with
    | none => (assign path key value []).map fun inner => members.set step (.table .dotted inner)
    | some (.table .dotted inner) =>
      (assign path key value inner).map fun inner => members.set step (.table .dotted inner)
    | some (.table .implied inner) =>
      if path.isEmpty then none
      else (assign path key value inner).map fun inner => members.set step (.table .implied inner)
    | some _ => none

/-- The members with a table below headers changed. -/
def within (change : Members → Option Members) : List String → Members → Option Members
  | [], members => change members
  | step :: path, members =>
    match members.get? step with
    | none => (within change path []).map fun inner => members.set step (.table .implied inner)
    | some (.table .inline _) => none
    | some (.table kind inner) => (within change path inner).map fun inner => members.set step (.table kind inner)
    | some _ => none

/-- The members with a header for a table. -/
def openTable (key : String) (members : Members) : Option Members :=
  match members.get? key with
  | none => some (members.set key (.table .headed []))
  | some (.table .implied inner) => some (members.set key (.table .headed inner))
  | some _ => none

end Members

/-- A line of a document.  The last part of a key is set apart from those that lead to it. -/
inductive Line where
  | header (path : List String) (key : String)
  | pair (path : List String) (key : String) (value : Value)

/-- The members of the table of a document; `current` is the table of the last header. -/
def build (current : List String) (members : Members) : List Line → Option Members
  | [] => some members
  | .header path key :: rest =>
    (members.within (Members.openTable key) path).bind fun members => build (path ++ [key]) members rest
  | .pair path key value :: rest =>
    (members.within (Members.assign path key value) current).bind fun members => build current members rest

/-- The table in braces of pairs. -/
def inlineTable (pairs : List (List String × String × Value)) : Option Value :=
  (pairs.foldlM (fun members (path, key, value) => Members.assign path key value members) []).map (.table .inline)

end Toml
end RenameAudit
