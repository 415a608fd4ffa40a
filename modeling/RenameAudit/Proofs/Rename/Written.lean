import Mathlib
import RenameAudit.Proofs.Text.Split
import RenameAudit.Proofs.Text.Words
import RenameAudit.Rename.Format
/-!
# Proofs.Rename.Written — the entries of a rename table as texts

How entries are written in each of the four formats, and which entries can be written in all of them
(`RenameEntry.Writable`, `Grouped`).  A tagged record has paths where the other formats have names, and the indented
formats have columns and lines that say nothing about names; what may stand there is left open.
-/
namespace RenameAudit

open Text

namespace RenameEntry

/-- A package other than the default one, written without a slash at its end. -/
structure IsBarePackage (name : String) : Prop extends IsToken name where
  not_default : name ≠ "."
  bare : endsWith '/' name = false

/-- The name of a field or method: without a slash, so that it can end a path. -/
structure IsMemberName (name : String) : Prop extends IsToken name where
  noSlash : '/' ∉ name.toList

/-- Whether an entry can be written in every format: its words can stand in records, and each shows which word it is. -/
def Writable : RenameEntry → Prop
  | package old mapped => IsBarePackage old ∧ IsBarePackage mapped
  | classEntry old mapped => IsToken old ∧ endsWith '/' old = false ∧ IsToken mapped
  | field owner old mapped => IsToken owner ∧ IsMemberName old ∧ IsMemberName mapped
  | method owner old descriptor mapped =>
    IsToken owner ∧ IsMemberName old ∧ IsToken descriptor ∧ startsWith "(" descriptor.toList = true ∧
      IsMemberName mapped

/-- The class that member entries may belong to below an entry. -/
def classBelow (current : Option String) : RenameEntry → Option String
  | package _ _ => none
  | classEntry old _ => some old
  | field _ _ _ | method _ _ _ _ => current

/-- Whether an entry may stand below a class: a member entry has to belong to it. -/
def BelongsTo (current : Option String) : RenameEntry → Prop
  | package _ _ | classEntry _ _ => True
  | field owner _ _ | method owner _ _ _ => current = some owner

/-- Whether no format takes the first word of an entry for a tag or a header. -/
def Untagged : RenameEntry → Prop
  | package old _ | classEntry old _ => old ≠ "tsrg2" ∧ RenameFormat.isTagged old.toList = false
  | field _ _ _ | method _ _ _ _ => True

/-- The entry with its packages written with a slash at the end. -/
def slashed : RenameEntry → RenameEntry
  | package old mapped => package (old ++ "/") (mapped ++ "/")
  | classEntry old mapped => classEntry old mapped
  | field owner old mapped => field owner old mapped
  | method owner old descriptor mapped => method owner old descriptor mapped

end RenameEntry

/-- Entries for packages and classes, the entries for the members of a class right below that of the class. -/
def Grouped : Option String → List RenameEntry → Prop
  | _, [] => True
  | current, e :: entries => e.BelongsTo current ∧ Grouped (e.classBelow current) entries

/-! ## The formats -/

/-- The words of the tagged record of an entry.  The path of a new name may have any owner, for only the name is read,
and so may the descriptors of a field, which it need not have, and the new descriptor of a method. -/
inductive SrgRecord : RenameEntry → List String → Prop where
  | package (old mapped : String) : SrgRecord (.package old mapped) ["PK:", old, mapped]
  | classEntry (old mapped : String) : SrgRecord (.classEntry old mapped) ["CL:", old, mapped]
  | field (owner old mapped : String) {newOwner : String} (h : IsToken newOwner) :
      SrgRecord (.field owner old mapped) ["FD:", owner ++ "/" ++ old, newOwner ++ "/" ++ mapped]
  | typedField (owner old mapped : String) {newOwner descriptor newDescriptor : String} (h : IsToken newOwner)
      (hd : IsToken descriptor) (hd' : IsToken newDescriptor) :
      SrgRecord (.field owner old mapped)
        ["FD:", owner ++ "/" ++ old, descriptor, newOwner ++ "/" ++ mapped, newDescriptor]
  | method (owner old descriptor mapped : String) {newOwner newDescriptor : String} (h : IsToken newOwner)
      (hd' : IsToken newDescriptor) :
      SrgRecord (.method owner old descriptor mapped)
        ["MD:", owner ++ "/" ++ old, descriptor, newOwner ++ "/" ++ mapped, newDescriptor]

/-- A text of tagged records, one for each entry. -/
def IsSrg (entries : List RenameEntry) (text : String) : Prop :=
  ∃ records, List.Forall₂ SrgRecord entries records ∧ text = joinLines (records.map joinWords)

/-- The words of the compact record of an entry. -/
def csrgRecord : RenameEntry → List String
  | .package old mapped => [old ++ "/", mapped ++ "/"]
  | .classEntry old mapped => [old, mapped]
  | .field owner old mapped => [owner, old, mapped]
  | .method owner old descriptor mapped => [owner, old, descriptor, mapped]

/-- A text of compact records, one for each entry. -/
def IsCsrg (entries : List RenameEntry) (text : String) : Prop :=
  text = joinLines (entries.map fun e => joinWords (csrgRecord e))

/-- The words of an entry in an indented format with `extra` further names in every line.  A field may have its
descriptor there where `typedFields` says so. -/
inductive IndentedRecord (extra : Nat) (typedFields : Bool) : RenameEntry → List String → Prop where
  | package (old mapped : String) {more : List String} (hcount : more.length = extra) (hmore : ∀ w ∈ more, IsToken w) :
      IndentedRecord extra typedFields (.package old mapped) ((old ++ "/") :: (mapped ++ "/") :: more)
  | classEntry (old mapped : String) {more : List String} (hcount : more.length = extra)
      (hmore : ∀ w ∈ more, IsToken w) :
      IndentedRecord extra typedFields (.classEntry old mapped) (old :: mapped :: more)
  | field (owner old mapped : String) {more : List String} (hcount : more.length = extra)
      (hmore : ∀ w ∈ more, IsToken w) :
      IndentedRecord extra typedFields (.field owner old mapped) (old :: mapped :: more)
  | typedField (owner old mapped : String) {descriptor : String} {more : List String} (htyped : typedFields = true)
      (hd : IsToken descriptor) (hfield : startsWith "(" descriptor.toList = false) (hcount : more.length = extra)
      (hmore : ∀ w ∈ more, IsToken w) :
      IndentedRecord extra typedFields (.field owner old mapped) (old :: descriptor :: mapped :: more)
  | method (owner old descriptor mapped : String) {more : List String} (hcount : more.length = extra)
      (hmore : ∀ w ∈ more, IsToken w) :
      IndentedRecord extra typedFields (.method owner old descriptor mapped) (old :: descriptor :: mapped :: more)

/-- The line of an entry: a member's has a tab in front. -/
def RenameEntry.indented : RenameEntry → List Char → List Char
  | .package _ _, line | .classEntry _ _, line => line
  | .field _ _ _, line | .method _ _ _ _, line => '\t' :: line

/-- A line that is indented twice, whatever it says. -/
def IsNote (line : List Char) : Prop :=
  ∃ rest, line = '\t' :: '\t' :: rest ∧ '\n' ∉ rest

/-- The lines of entries in an indented format, with any number of lines below each that are indented twice. -/
inductive IndentedLines (extra : Nat) (typedFields : Bool) : List RenameEntry → List (List Char) → Prop where
  | nil : IndentedLines extra typedFields [] []
  | cons {e : RenameEntry} {entries : List RenameEntry} {record : List String} {notes lines : List (List Char)} :
      IndentedRecord extra typedFields e record → (∀ note ∈ notes, IsNote note) →
      IndentedLines extra typedFields entries lines →
      IndentedLines extra typedFields (e :: entries) (e.indented (joinWords record) :: (notes ++ lines))

/-- A text of lines indented below their classes. -/
def IsTsrg (entries : List RenameEntry) (text : String) : Prop :=
  ∃ lines, IndentedLines 0 false entries lines ∧ text = joinLines lines

/-- A text of lines indented below their classes, and above them a header that names the columns: two, and any number of
further ones. -/
def IsTsrg2 (entries : List RenameEntry) (text : String) : Prop :=
  ∃ source target more lines, (∀ w ∈ "tsrg2" :: source :: target :: more, IsToken w) ∧
    IndentedLines more.length true entries lines ∧
    text = joinLines (joinWords ("tsrg2" :: source :: target :: more) :: lines)

/-! ## The words of a writable entry -/

theorem Text.IsToken.append {a b : String} (ha : IsToken a) (hb : IsToken b) : IsToken (a ++ b) where
  ne_empty := by rw [String.toList_append]; exact List.append_ne_nil_of_left_ne_nil ha.ne_empty _
  plain c hc := by
    rw [String.toList_append] at hc
    exact (List.mem_append.1 hc).elim (ha.plain c) (hb.plain c)

theorem Text.IsToken.slashed {a : String} (ha : IsToken a) : IsToken (a ++ "/") :=
  ha.append (by decide)

theorem Text.IsToken.path {a b : String} (ha : IsToken a) (hb : IsToken b) : IsToken (a ++ "/" ++ b) :=
  ha.slashed.append hb

theorem SrgRecord.tokens {e : RenameEntry} {record : List String} (h : SrgRecord e record) (he : e.Writable) :
    ∀ w ∈ record, IsToken w := by
  have htag : ∀ tag ∈ ["PK:", "CL:", "FD:", "MD:"], IsToken tag := by decide
  cases h with
  | package old mapped =>
    obtain ⟨hold, hmapped⟩ := he
    simp [htag, hold.toIsToken, hmapped.toIsToken]
  | classEntry old mapped =>
    obtain ⟨hold, -, hmapped⟩ := he
    simp [htag, hold, hmapped]
  | field owner old mapped h =>
    obtain ⟨howner, hold, hmapped⟩ := he
    simp [htag, howner.path hold.toIsToken, h.path hmapped.toIsToken]
  | typedField owner old mapped h hd hd' =>
    obtain ⟨howner, hold, hmapped⟩ := he
    simp [htag, howner.path hold.toIsToken, h.path hmapped.toIsToken, hd, hd']
  | method owner old descriptor mapped h hd' =>
    obtain ⟨howner, hold, hd, -, hmapped⟩ := he
    simp [htag, howner.path hold.toIsToken, h.path hmapped.toIsToken, hd, hd']

theorem SrgRecord.ne_nil {e : RenameEntry} {record : List String} (h : SrgRecord e record) : record ≠ [] := by
  cases h <;> exact List.cons_ne_nil _ _

theorem SrgRecord.exists_tag {e : RenameEntry} {record : List String} (h : SrgRecord e record) :
    ∃ tag w ws, record = tag :: w :: ws ∧ RenameFormat.isTagged tag.toList = true := by
  cases h <;> exact ⟨_, _, _, rfl, by decide⟩

theorem csrgRecord_ne_nil (e : RenameEntry) : csrgRecord e ≠ [] := by
  cases e <;> exact List.cons_ne_nil _ _

theorem csrgRecord_tokens {e : RenameEntry} (he : e.Writable) : ∀ w ∈ csrgRecord e, IsToken w := by
  cases e with
  | package old mapped =>
    obtain ⟨hold, hmapped⟩ := he
    simp [csrgRecord, hold.toIsToken.slashed, hmapped.toIsToken.slashed]
  | classEntry old mapped =>
    obtain ⟨hold, -, hmapped⟩ := he
    simp [csrgRecord, hold, hmapped]
  | field owner old mapped =>
    obtain ⟨howner, hold, hmapped⟩ := he
    simp [csrgRecord, howner, hold.toIsToken, hmapped.toIsToken]
  | method owner old descriptor mapped =>
    obtain ⟨howner, hold, hd, -, hmapped⟩ := he
    simp [csrgRecord, howner, hold.toIsToken, hd, hmapped.toIsToken]

theorem IndentedRecord.ne_nil {extra : Nat} {typedFields : Bool} {e : RenameEntry} {record : List String}
    (h : IndentedRecord extra typedFields e record) : record ≠ [] := by
  cases h <;> exact List.cons_ne_nil _ _

theorem IndentedRecord.tokens {extra : Nat} {typedFields : Bool} {e : RenameEntry} {record : List String}
    (h : IndentedRecord extra typedFields e record) (he : e.Writable) : ∀ w ∈ record, IsToken w := by
  cases h with
  | package old mapped hcount hmore =>
    obtain ⟨hold, hmapped⟩ := he
    simpa [hold.toIsToken.slashed, hmapped.toIsToken.slashed] using hmore
  | classEntry old mapped hcount hmore =>
    obtain ⟨hold, -, hmapped⟩ := he
    simpa [hold, hmapped] using hmore
  | field owner old mapped hcount hmore =>
    obtain ⟨-, hold, hmapped⟩ := he
    simpa [hold.toIsToken, hmapped.toIsToken] using hmore
  | typedField owner old mapped htyped hd hfield hcount hmore =>
    obtain ⟨-, hold, hmapped⟩ := he
    simpa [hold.toIsToken, hd, hmapped.toIsToken] using hmore
  | method owner old descriptor mapped hcount hmore =>
    obtain ⟨-, hold, hd, -, hmapped⟩ := he
    simpa [hold.toIsToken, hd, hmapped.toIsToken] using hmore

end RenameAudit
