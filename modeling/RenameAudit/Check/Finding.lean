import RenameAudit.Json.Basic
import RenameAudit.MemberRef
/-!
# Check.Finding — what the checks report

Each kind of problem is a constructor.  Classes and members stand with their old names unless a part is called
mapped; the reports on access and on class names speak of new names.  Findings are ordered by kind, then part by part
in the order in which the parts are declared.
-/
namespace RenameAudit

open Std

/-- The visibility that forbids a reference. -/
inductive AccessLevel where
  | prot | priv | package
  deriving DecidableEq, Repr

namespace AccessLevel

/-- The name of a level in reports. -/
def text : AccessLevel → String
  | prot => "PROTECTED"
  | priv => "PRIVATE"
  | package => "DEFAULT"

/-- The place of a level in the order of levels. -/
def rank : AccessLevel → Nat
  | prot => 0
  | priv => 1
  | package => 2

end AccessLevel

/-- Why a number does not identify one entity. -/
inductive DuplicateReason where
  /-- The number is part of more than one new name. -/
  | distinctNames
  | fieldAndMethod
  | multipleFields
  /-- The methods have no roots in common. -/
  | unrelatedMethods
  deriving DecidableEq, Repr

namespace DuplicateReason

/-- The words of a reason. -/
def text : DuplicateReason → String
  | distinctNames => "distinct names"
  | fieldAndMethod => "field and method"
  | multipleFields => "multiple fields"
  | unrelatedMethods => "unrelated methods"

/-- The reason as data. -/
def tag : DuplicateReason → String
  | distinctNames => "distinct_names"
  | fieldAndMethod => "field_and_method"
  | multipleFields => "multiple_fields"
  | unrelatedMethods => "unrelated_methods"

/-- The place of a reason in the order of reasons. -/
def rank : DuplicateReason → Nat
  | distinctNames => 0
  | fieldAndMethod => 1
  | multipleFields => 2
  | unrelatedMethods => 3

end DuplicateReason

/-- Methods of one override group that have one new name. -/
structure MappedGroup where
  mapped : String
  methods : List String
  deriving DecidableEq, Repr

/-- A method of a class that meets another of the same new name in an ancestor. -/
structure MethodClash where
  owner : String
  method : String
  descriptor : String
  parent : String
  parentMethod : String
  mapped : String
  deriving DecidableEq, Repr

/-- A problem that a check has found. -/
inductive Finding where
  /-- A reference that the renamed code could not make. -/
  | invalidAccess (accessor target : String) (level : AccessLevel)
  /-- A field with the new name of a field of an ancestor. -/
  | fieldShade (owner field parent parentField mapped : String)
  /-- A method with the new name of another method of an ancestor. -/
  | methodShade (clash : MethodClash)
  /-- A method with the placeholder name of a private method of an ancestor. -/
  | badOverride (clash : MethodClash)
  /-- An override group with more than one new name. -/
  | overrideMismatch (groups : List MappedGroup)
  /-- A placeholder number that does not identify one entity. -/
  | duplicateId (id : Nat) (reason : DuplicateReason) (names members : List String)
  /-- A constructor without a number. -/
  | missingConstructor (owner descriptor : String)
  /-- A constructor with more than one number. -/
  | duplicateConstructor (key : String) (numbers : List UInt32)
  /-- A class whose new name breaks naming rules. -/
  | misnamedClass (name : String) (problems : List String)
  /-- A class that has no real name yet. -/
  | unnamedClass (name : String)
  deriving DecidableEq, Repr

namespace MethodClash

/-- The parts of a clash in their order. -/
def texts (c : MethodClash) : List String :=
  [c.owner, c.method, c.descriptor, c.parent, c.parentMethod, c.mapped]

end MethodClash

namespace Finding

/-- The place of a kind in the order of kinds. -/
def rank : Finding → Nat
  | invalidAccess .. => 0
  | fieldShade .. => 1
  | methodShade _ => 2
  | badOverride _ => 3
  | overrideMismatch _ => 4
  | duplicateId .. => 5
  | missingConstructor .. => 6
  | duplicateConstructor .. => 7
  | misnamedClass .. => 8
  | unnamedClass _ => 9

/-- The numbers that are compared before all texts. -/
def headNumbers : Finding → List Nat
  | duplicateId id reason _ _ => [id, reason.rank]
  | _ => []

/-- The texts in the order in which they are compared. -/
def texts : Finding → List (List String)
  | invalidAccess accessor target _ => [[accessor], [target]]
  | fieldShade owner field parent parentField mapped => [[owner, field, parent, parentField, mapped]]
  | methodShade c => [c.texts]
  | badOverride c => [c.texts]
  | overrideMismatch groups => groups.map fun g => g.mapped :: g.methods
  | duplicateId _ _ names members => [names, members]
  | missingConstructor owner descriptor => [[owner], [descriptor]]
  | duplicateConstructor key _ => [[key]]
  | misnamedClass name problems => [[name], problems]
  | unnamedClass name => [[name]]

/-- The numbers that are compared after all texts. -/
def tailNumbers : Finding → List Nat
  | invalidAccess _ _ level => [level.rank]
  | duplicateConstructor _ numbers => numbers.map (·.toNat)
  | _ => []

/-- The order of findings. -/
def order : Finding → Finding → Ordering :=
  compareLex (compareOn rank) (compareLex (compareOn headNumbers) (compareLex (compareOn texts) (compareOn tailNumbers)))

instance : Ord Finding := ⟨order⟩

instance : TransOrd Finding :=
  inferInstanceAs (TransCmp (compareLex (compareOn rank)
    (compareLex (compareOn headNumbers) (compareLex (compareOn texts) (compareOn tailNumbers)))))

/-- Findings in their order. -/
def sorted (findings : List Finding) : List Finding :=
  findings.mergeSort fun a b => (order a b).isLE

/-- Texts with a separator between each two. -/
def joined (separator : String) (texts : List String) : String :=
  separator.intercalate texts

/-- The text of a group in a report. -/
def groupText (g : MappedGroup) : String :=
  g.mapped ++ ": " ++ joined ", " g.methods

/-- The line of a report. -/
def line : Finding → String
  | invalidAccess accessor target level => "Invalid Access: " ++ accessor ++ " -> " ++ target ++ " " ++ level.text
  | fieldShade owner field parent parentField mapped =>
    "Shade: " ++ owner ++ "/" ++ field ++ " " ++ parent ++ "/" ++ parentField ++ " " ++ mapped
  | methodShade c =>
    "Shade: " ++ c.owner ++ "/" ++ c.method ++ " " ++ c.parent ++ "/" ++ c.parentMethod ++ " " ++ c.descriptor ++
      " " ++ c.mapped
  | badOverride c =>
    "BadOverride: " ++ c.owner ++ "/" ++ c.method ++ " " ++ c.descriptor ++ " -> " ++ c.parent ++ "/" ++
      c.parentMethod ++ " " ++ c.descriptor ++ " -- " ++ c.mapped
  | overrideMismatch [] => "Invalid Override:"
  | overrideMismatch groups => "Invalid Override: " ++ joined "; " (groups.map groupText)
  | duplicateId id reason names members =>
    "Duplicate ID: " ++ toString id ++ " (" ++ joined ", " names ++ ") " ++ reason.text ++ ": " ++ joined ", " members
  | missingConstructor name descriptor => "Missing Ctr: " ++ name ++ " " ++ descriptor
  | duplicateConstructor key numbers =>
    "Duplicate Ctr: " ++ key ++ " " ++ joined ", " (numbers.map fun n => toString n.toNat)
  | misnamedClass name problems => name ++ " " ++ joined " " problems
  | unnamedClass name => "Unnamed Class: " ++ name

/-- A finding as data: its kind, then its parts. -/
def ofKind (kind : String) (parts : List (String × JsonValue)) : JsonValue :=
  .object (("kind", .string kind) :: parts)

/-- The parts of a clash of methods as data. -/
def clashParts (c : MethodClash) : List (String × JsonValue) :=
  [("class", .string c.owner), ("method", .string c.method), ("descriptor", .string c.descriptor),
   ("parent", .string c.parent), ("parent_method", .string c.parentMethod), ("mapped", .string c.mapped)]

/-- A finding as data. -/
def toJson : Finding → JsonValue
  | invalidAccess accessor target level =>
    ofKind "invalid_access" [("accessor", .string accessor), ("target", .string target), ("level", .string level.text)]
  | fieldShade owner field parent parentField mapped =>
    ofKind "field_shade" [("class", .string owner), ("field", .string field), ("parent", .string parent),
      ("parent_field", .string parentField), ("mapped", .string mapped)]
  | methodShade c => ofKind "method_shade" (clashParts c)
  | badOverride c => ofKind "bad_override" (clashParts c)
  | overrideMismatch groups =>
    ofKind "override_mismatch" [("groups", .array (groups.map fun g =>
      .object [("mapped", .string g.mapped), ("methods", .strings g.methods)]))]
  | duplicateId id reason names members =>
    ofKind "duplicate_id" [("id", .number id), ("reason", .string reason.tag), ("names", .strings names),
      ("members", .strings members)]
  | missingConstructor name descriptor =>
    ofKind "missing_constructor" [("class", .string name), ("descriptor", .string descriptor)]
  | duplicateConstructor key numbers =>
    ofKind "duplicate_constructor" [("key", .string key), ("ids", .array (numbers.map fun n => .number n.toNat))]
  | misnamedClass name problems => ofKind "class_name" [("class", .string name), ("problems", .strings problems)]
  | unnamedClass name => ofKind "unnamed_class" [("class", .string name)]

end Finding
end RenameAudit
