import RenameAudit.Hierarchy.Ingest
/-!
# Hierarchy.Arena — classes by number

An arena holds the classes, fields and methods of a directory in three lists that only grow, and knows each of them by its
place there.  What refers to a class or a member refers to it by that number: the supertypes of a class, its tables of
members, the owner of a member, and the maps from names to classes and from bridges to what they forward to.

A class that is only mentioned has a record with nothing but its name.  When it is read, its record is filled in, and its
members are entered one after the other.
-/
namespace RenameAudit

open Std ClassFile

/-- The place of a class in the list of classes. -/
abbrev ClassId := Nat

/-- The place of a field in the list of fields. -/
abbrev FieldId := Nat

/-- The place of a method in the list of methods. -/
abbrev MethodId := Nat

/-- What an arena holds of a class.  `fields` has its fields by name and `methods` its methods by key. -/
structure ClassRecord where
  name : String
  access : Access
  owned : Bool
  read : Bool
  state : ClassState
  parent : Option ClassId
  interfaces : List ClassId
  fields : ExtTreeMap String FieldId
  methods : ExtTreeMap String MethodId
  stack : Option (List ClassId)

namespace ClassRecord

/-- The record of a class that is only mentioned. -/
def stub (name : String) : ClassRecord :=
  ⟨name, 0, false, false, .stub, none, [], ∅, ∅, none⟩

/-- The direct supertypes: the superclass, then the interfaces in their order. -/
def supertypes (r : ClassRecord) : List ClassId :=
  r.parent.toList ++ r.interfaces

end ClassRecord

/-- What an arena holds of a field. -/
structure FieldRecord where
  owner : ClassId
  name : String
  descriptor : String
  access : Access
  deriving Inhabited

/-- The field of a class with a given name. -/
def FieldRecord.toField (r : FieldRecord) (className : String) : Field :=
  ⟨⟨className, r.name, r.descriptor⟩, r.access⟩

/-- What an arena holds of a method: what its class file says of it, the methods that it is known to override, and its
roots once they have been asked for. -/
structure MethodRecord where
  owner : ClassId
  name : String
  descriptor : String
  access : Access
  isLambda : Bool
  forwards : Option MemberRef
  code : Option (List Instruction)
  overrides : ExtTreeSet MethodId
  roots : Option (List MethodId)
  deriving Inhabited

namespace MethodRecord

/-- The name followed by the descriptor. -/
def key (r : MethodRecord) : String :=
  r.name ++ r.descriptor

/-- The method of a class with a given name. -/
def toMethod (r : MethodRecord) (className : String) : Method :=
  ⟨⟨className, r.name, r.descriptor⟩, r.access, r.isLambda, r.forwards, r.code⟩

/-- The record of a method that has just been read. -/
def ofMethod (owner : ClassId) (m : Method) : MethodRecord :=
  ⟨owner, m.ref.name, m.ref.descriptor, m.access, m.isLambda, m.forwards, m.code, ∅, none⟩

end MethodRecord

/-- All classes that have been mentioned, with their members.

`byName` has the classes by name and `owned` those under audit.  `targets` has the method that a bridge forwards to, and
`sources` the bridges to a method in the order in which they were found. -/
structure Arena where
  classes : List ClassRecord
  fields : List FieldRecord
  methods : List MethodRecord
  byName : ExtTreeMap String ClassId
  owned : ExtTreeMap String ClassId
  targets : ExtTreeMap MethodId MethodId
  sources : ExtTreeMap MethodId (List MethodId)

namespace Arena

/-- The arena without classes. -/
def empty : Arena :=
  ⟨[], [], [], ∅, ∅, ∅, ∅⟩

/-! ## Records -/

/-- The record of a class. -/
def record (a : Arena) (id : ClassId) : ClassRecord :=
  (a.classes[id]?).getD (.stub "")

/-- The record of a method. -/
def methodRecord (a : Arena) (m : MethodId) : MethodRecord :=
  (a.methods[m]?).getD default

/-- The name of a class. -/
def nameOf (a : Arena) (id : ClassId) : String :=
  (a.record id).name

/-- A method with the name of its class. -/
def method (a : Arena) (m : MethodId) : Method :=
  (a.methodRecord m).toMethod (a.nameOf (a.methodRecord m).owner)

/-- The owner, name and descriptor of a method. -/
def refOf (a : Arena) (m : MethodId) : MemberRef :=
  (a.method m).ref

/-- The class with a name. -/
def lookup (a : Arena) (name : String) : Option ClassId :=
  a.byName[name]?

/-- The method of a class with a key. -/
def methodByKey? (a : Arena) (id : ClassId) (key : String) : Option MethodId :=
  (a.record id).methods[key]?

/-- The methods of a class in the order of their keys. -/
def methodsOf (a : Arena) (id : ClassId) : List MethodId :=
  (a.record id).methods.toList.map Prod.snd

/-- The classes under audit in the order of their names. -/
def ownedIds (a : Arena) : List ClassId :=
  a.owned.toList.map Prod.snd

/-! ## Mentioning a class -/

/-- The number of a class, which gets a record where it has none. -/
def getOrCreate (a : Arena) (name : String) : ClassId × Arena :=
  match a.lookup name with
  | some id => (id, a)
  | none =>
    let id := a.classes.length
    (id, { a with classes := a.classes ++ [.stub name], byName := a.byName.insert name id })

/-- The numbers of classes, one after the other. -/
def getOrCreateAll (a : Arena) : List String → List ClassId × Arena
  | [] => ([], a)
  | name :: rest =>
    let (id, a) := a.getOrCreate name
    let (ids, a) := a.getOrCreateAll rest
    (id :: ids, a)

/-! ## Reading a class -/

/-- Members while they are entered: the table of their class, and the records of the members of all classes. -/
structure Entering (ρ : Type) where
  table : ExtTreeMap String Nat
  records : List ρ

/-- A member is entered under its key, unless its class has a member with that key. -/
def Entering.enter {ρ : Type} (key : ρ → String) (s : Entering ρ) (r : ρ) : Entering ρ :=
  if s.table.contains (key r) then s else ⟨s.table.insert (key r) s.records.length, s.records ++ [r]⟩

/-- The members of a class are entered after those that are there. -/
def enterAll {ρ : Type} (key : ρ → String) (records members : List ρ) : Entering ρ :=
  members.foldl (Entering.enter key) ⟨∅, records⟩

/-- The reason to refuse a class, if there is one. -/
def refusal? (a : Arena) (c : ClassFile) : Option StructureFault :=
  if (a.lookup c.name).any fun id => (a.record id).read then some (.alreadyRead c.name) else c.structureFault?

/-- The fields of a class file, with duplicates. -/
def fieldRecords (c : ClassFile) (id : ClassId) : List FieldRecord :=
  c.fields.map fun f => ⟨id, f.name, f.descriptor, f.access⟩

/-- The methods of a class file, with duplicates. -/
def methodRecords (c : ClassFile) (owned : Bool) (id : ClassId) : List MethodRecord :=
  c.methods.map fun m => .ofMethod id (c.methodOf owned c.lambdaKeys m)

/-- The arena with a class filled in whose number and whose supertypes' numbers are known. -/
def fill (a : Arena) (c : ClassFile) (owned : Bool) (id : ClassId) (parent : Option ClassId)
    (interfaces : List ClassId) : Arena :=
  let fields := enterAll FieldRecord.name a.fields (fieldRecords c id)
  let methods := enterAll MethodRecord.key a.methods (methodRecords c owned id)
  { a with
    classes := a.classes.modify id fun r =>
      { r with
        access := c.access
        owned
        read := true
        state := .read
        parent
        interfaces
        fields := fields.table
        methods := methods.table }
    fields := fields.records
    methods := methods.records
    owned := if owned then a.owned.insert c.name id else a.owned }

/-- The number of a class that is read, and the arena with it: the class gets its number, then its superclass and its
interfaces get theirs, then its record is filled in. -/
def ingest (a : Arena) (c : ClassFile) (owned : Bool) : Except StructureFault (ClassId × Arena) :=
  match a.refusal? c with
  | some fault => .error fault
  | none =>
    let (id, a) := a.getOrCreate c.name
    let (parent, a) := a.getOrCreateAll c.superclass.toList
    let (interfaces, a) := a.getOrCreateAll c.interfaces
    .ok (id, a.fill c owned id parent.head? interfaces)

end Arena
end RenameAudit
