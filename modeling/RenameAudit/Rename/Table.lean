import RenameAudit.Descriptor.Parser
import RenameAudit.MemberRef
import RenameAudit.Text.Split
/-!
# Rename.Table — from names to names

A rename table maps packages, classes and members to new names, in one direction.  A look-up never fails: what has no
entry keeps its name, apart from classes, for which there are two fallbacks.  An inner class without an entry follows
its outer class, and an outermost class without an entry follows its package.
-/
namespace RenameAudit

open Std

/-- One entry of a rename table. -/
inductive RenameEntry where
  | package (old mapped : String)
  | classEntry (old mapped : String)
  | field (owner old mapped : String)
  | method (owner old descriptor mapped : String)
  deriving DecidableEq, Repr

/-- The new names of packages, classes, fields and methods.  A package is written with a slash at its end, and the
default package is the empty text. -/
structure RenameTable where
  packages : ExtTreeMap String String
  classes : ExtTreeMap String String
  fields : ExtTreeMap FieldRef String
  methods : ExtTreeMap MemberRef String
  deriving DecidableEq

namespace RenameTable

/-- The table without entries. -/
def empty : RenameTable :=
  ⟨∅, ∅, ∅, ∅⟩

/-- A package as the table writes it: a dot stands for the default package, and a missing slash is added. -/
def packageName (package : String) : String :=
  if package = "." ∨ package = "" then ""
  else if Text.endsWith '/' package then package
  else package ++ "/"

/-- The table with one more entry, which replaces an entry for the same package, class or member. -/
def add (t : RenameTable) : RenameEntry → RenameTable
  | .package old mapped => { t with packages := t.packages.insert (packageName old) (packageName mapped) }
  | .classEntry old mapped => { t with classes := t.classes.insert old mapped }
  | .field owner old mapped => { t with fields := t.fields.insert ⟨owner, old⟩ mapped }
  | .method owner old descriptor mapped =>
    { t with methods := t.methods.insert ⟨owner, old, descriptor⟩ mapped }

/-- The table with more entries, of which a later one replaces an earlier one. -/
def addAll (t : RenameTable) (entries : List RenameEntry) : RenameTable :=
  entries.foldl add t

/-- The table of a list of entries. -/
def ofEntries (entries : List RenameEntry) : RenameTable :=
  empty.addAll entries

/-- The new name of a package. -/
def mapPackage (t : RenameTable) (package : String) : String :=
  t.packages.getD package package

/-- The new name of a class that has no entry and no outer class: its package is renamed. -/
def mapOutermost (t : RenameTable) (cs : List Char) : String :=
  match Text.splitLast? '/' cs with
  | some (package, simple) => t.mapPackage (String.ofList (package ++ ['/'])) ++ String.ofList simple
  | none => t.mapPackage "" ++ String.ofList cs

/-- The new name of the class with the given characters: its entry, or else its outer class renamed and its own last
part kept, or else its package renamed. -/
def mapClassChars (t : RenameTable) (cs : List Char) : String :=
  match t.classes[String.ofList cs]? with
  | some mapped => mapped
  | none =>
    match _h : Text.splitLast? '$' cs with
    | some (outer, inner) => t.mapClassChars outer ++ String.ofList ('$' :: inner)
    | none => t.mapOutermost cs
termination_by cs.length
decreasing_by exact Text.length_lt_of_splitLast? _h

/-- The new name of a class. -/
def mapClass (t : RenameTable) (name : String) : String :=
  t.mapClassChars name.toList

/-- The new name of a field. -/
def mapField (t : RenameTable) (owner name : String) : String :=
  t.fields.getD ⟨owner, name⟩ name

/-- The new name of a method. -/
def mapMethod (t : RenameTable) (owner name descriptor : String) : String :=
  t.methods.getD ⟨owner, name, descriptor⟩ name

/-- A field or method descriptor with every class renamed; any other text is kept. -/
def mapDescriptor (t : RenameTable) (descriptor : String) : String :=
  if Text.startsWith "(" descriptor.toList then
    match MethodType.parse descriptor with
    | .ok m => (m.mapClasses t.mapClass).text
    | .error _ => descriptor
  else
    match FieldType.parse descriptor with
    | .ok f => (f.mapClasses t.mapClass).text
    | .error _ => descriptor

/-- The entries of the table from the new names to the old ones.  Owners and descriptors are in new names there. -/
def reverseEntries (t : RenameTable) : List RenameEntry :=
  t.packages.toList.map (fun (old, mapped) => .package mapped old) ++
  t.classes.toList.map (fun (old, mapped) => .classEntry mapped old) ++
  t.fields.toList.map (fun (f, mapped) => .field (t.mapClass f.owner) mapped f.name) ++
  t.methods.toList.map fun (m, mapped) =>
    .method (t.mapClass m.owner) mapped (t.mapDescriptor m.descriptor) m.name

/-- The table from the new names to the old ones. -/
def reverse (t : RenameTable) : RenameTable :=
  ofEntries t.reverseEntries

/-- The number of class entries. -/
def classCount (t : RenameTable) : Nat :=
  t.classes.size

/-- The class entries, by their old names. -/
def classEntries (t : RenameTable) : List (String × String) :=
  t.classes.toList

end RenameTable
end RenameAudit
