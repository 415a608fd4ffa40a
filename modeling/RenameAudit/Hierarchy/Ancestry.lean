import RenameAudit.Hierarchy.Basic
/-!
# Hierarchy.Ancestry — the ancestors of a class

The ancestors of a class are listed nearest first: its direct supertypes, the superclass before the interfaces, then
theirs.  A directory keeps the list of a class once it has been asked for, also when more classes are read, until all
lists are dropped.
-/
namespace RenameAudit

open Std

namespace Directory

/-- The ancestors of a class, nearest first; the class itself is not among them. -/
def ancestors (d : Directory) (name : String) : List String :=
  Graph.breadthFirst d.supertypesOf (d.classes.erase name) (d.supertypesOf name)

/-- The directory with the ancestors of a class kept. -/
def keepStack (d : Directory) (name : String) : Directory :=
  { d with classes := d.classes.modify name fun e =>
      match e.stack with
      | some _ => e
      | none => { e with stack := some (d.ancestors name) } }

/-- The ancestors of a class as they were when first asked for. -/
def stackOf (d : Directory) (name : String) : List String :=
  ((d.classes[name]?.bind (·.stack))).getD (d.ancestors name)

/-- The directory with no list of ancestors kept. -/
def dropStacks (d : Directory) : Directory :=
  { d with classes := d.classes.map fun _ e => { e with stack := none } }

/-- A class and its superclasses as far as they have been read, nearest first. -/
def readSuperclasses (d : Directory) (name : String) : List String :=
  (Graph.breadthFirst (fun n => (d.superclassOf? n).toList) d.classes [name]).takeWhile d.wasRead

end Directory
end RenameAudit
