import RenameAudit.Graph.Search
import RenameAudit.Hierarchy.Forwarding
import RenameAudit.Text.Split
/-!
# Hierarchy — classes and what they inherit

A directory holds every class that has been mentioned.  A class that has been read has a declaration; one that is only
mentioned as a supertype has none.  Classes are known by their names, fields and methods by their owner, name and
descriptor.

A class tells its methods apart by name and descriptor written as one text, and its fields by name.  Where a class file
has two members that it could not tell apart, the first is the member.
-/
namespace RenameAudit

open Std ClassFile

/-- The items that differ in their keys from all before them. -/
def firstByKey {α : Type} (key : α → String) (items : List α) : List α :=
  items.foldl (fun kept a => if kept.any (fun b => key b == key a) then kept else kept ++ [a]) []

/-- A field of a class that has been read. -/
structure Field where
  ref : MemberRef
  access : Access
  deriving DecidableEq, Repr

/-- A method of a class that has been read.  The body is kept only where the class is under audit. -/
structure Method where
  ref : MemberRef
  access : Access
  isLambda : Bool
  forwards : Option MemberRef
  code : Option (List Instruction)

namespace Method

/-- The name followed by the descriptor. -/
def key (m : Method) : String := m.ref.key

def isStatic (m : Method) : Bool := Access.isStatic m.access
def isPrivate (m : Method) : Bool := Access.isPrivate m.access
def isAbstract (m : Method) : Bool := Access.isAbstract m.access
def isFinal (m : Method) : Bool := Access.isFinal m.access

/-- Whether a method makes an object or sets up a class: its name begins with an angle bracket. -/
def isInitializer (m : Method) : Bool :=
  Text.startsWith "<" m.ref.name.toList

/-- Whether a call of the method can go to a method of a subclass, so that it can override another. -/
def canOverride (m : Method) : Bool :=
  !m.isInitializer && !m.isPrivate && !m.isStatic

/-- Whether a method of a subclass with the same key overrides this one. -/
def canBeOverridden (m : Method) : Bool :=
  m.canOverride && !m.isFinal

end Method

/-- What a class file says about its class. -/
structure Declaration where
  access : Access
  owned : Bool
  superclass : Option String
  interfaces : List String
  fields : List Field
  methods : List Method

namespace Declaration

/-- The direct supertypes: the superclass, then the interfaces in their order. -/
def supertypes (d : Declaration) : List String :=
  d.superclass.toList ++ d.interfaces

/-- The field with a name. -/
def field? (d : Declaration) (name : String) : Option Field :=
  d.fields.find? (·.ref.name == name)

/-- The method with a key. -/
def method? (d : Declaration) (key : String) : Option Method :=
  d.methods.find? (·.key == key)

/-- The fields in the order of their names. -/
def sortedFields (d : Declaration) : List Field :=
  d.fields.mergeSort (fun x y => decide (x.ref.name ≤ y.ref.name))

/-- The methods in the order of their keys. -/
def sortedMethods (d : Declaration) : List Method :=
  d.methods.mergeSort (fun x y => decide (x.key ≤ y.key))

end Declaration

/-- How far a class has come: only mentioned, read, or with its overrides resolved. -/
inductive ClassState where
  | stub | read | resolved
  deriving DecidableEq, Repr

/-- The name of a state. -/
def ClassState.text : ClassState → String
  | stub => "stub"
  | read => "read"
  | resolved => "resolved"

/-- A class of a directory.  The list of its ancestors is kept once it has been asked for. -/
structure ClassEntry where
  declaration : Option Declaration
  resolved : Bool
  stack : Option (List String)

namespace ClassEntry

/-- A class that is only mentioned. -/
def stub : ClassEntry :=
  ⟨none, false, none⟩

/-- The state of a class.  A class without declaration can be resolved too. -/
def state (e : ClassEntry) : ClassState :=
  if e.resolved then .resolved
  else
    match e.declaration with
    | some _ => .read
    | none => .stub

end ClassEntry

/-- A set of methods. -/
abbrev MethodSet := ExtTreeSet MemberRef

/-- All classes that have been mentioned.

`names` has them in the order of their first mention and `ingested` those that have been read, in that order.
`overrides` has the methods that are known to override others, and never an empty set.  `bridges` pairs methods that
only forward with the methods that they forward to.  `keptRoots` has the roots of a method once they have been asked
for. -/
structure Directory where
  names : List String
  ingested : List String
  classes : ExtTreeMap String ClassEntry
  overrides : ExtTreeMap MemberRef MethodSet
  bridges : List (MemberRef × MemberRef)
  keptRoots : ExtTreeMap MemberRef (List MemberRef)

namespace Directory

/-- The directory without classes. -/
def empty : Directory :=
  ⟨[], [], ∅, ∅, [], ∅⟩

/-- Whether a class has been mentioned. -/
def knows (d : Directory) (name : String) : Bool :=
  d.classes.contains name

/-- The number of classes. -/
def size (d : Directory) : Nat :=
  d.names.length

/-- The declaration of a class, if it has been read. -/
def declaration? (d : Directory) (name : String) : Option Declaration :=
  d.classes[name]?.bind (·.declaration)

/-- Whether a class has been read. -/
def wasRead (d : Directory) (name : String) : Bool :=
  (d.declaration? name).isSome

/-- Whether a class has been resolved. -/
def isResolved (d : Directory) (name : String) : Bool :=
  (d.classes[name]?.map (·.resolved)).getD false

/-- Whether a class is under audit. -/
def isOwned (d : Directory) (name : String) : Bool :=
  ((d.declaration? name).map (·.owned)).getD false

/-- The access flags of a class; none are set where it has not been read. -/
def accessOf (d : Directory) (name : String) : Access :=
  ((d.declaration? name).map (·.access)).getD 0

/-- The superclass of a class. -/
def superclassOf? (d : Directory) (name : String) : Option String :=
  (d.declaration? name).bind (·.superclass)

/-- The direct supertypes of a class. -/
def supertypesOf (d : Directory) (name : String) : List String :=
  ((d.declaration? name).map (·.supertypes)).getD []

/-- The fields of a class in the order of their names. -/
def fieldsOf (d : Directory) (name : String) : List Field :=
  ((d.declaration? name).map (·.sortedFields)).getD []

/-- The methods of a class in the order of their keys. -/
def methodsOf (d : Directory) (name : String) : List Method :=
  ((d.declaration? name).map (·.sortedMethods)).getD []

/-- The field of a class with a name. -/
def field? (d : Directory) (owner name : String) : Option Field :=
  (d.declaration? owner).bind (·.field? name)

/-- The method of a class with a key. -/
def methodByKey? (d : Directory) (owner key : String) : Option Method :=
  (d.declaration? owner).bind (·.method? key)

/-- The method of a class with a name and a descriptor. -/
def method? (d : Directory) (ref : MemberRef) : Option Method :=
  d.methodByKey? ref.owner ref.key

/-- The classes under audit, in the order of their names. -/
def owned (d : Directory) : List String :=
  d.classes.keys.filter d.isOwned

/-- All methods in the order in which they were read. -/
def methods (d : Directory) : List Method :=
  d.ingested.flatMap fun name => ((d.declaration? name).map (·.methods)).getD []

end Directory
end RenameAudit
