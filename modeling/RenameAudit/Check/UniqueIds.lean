import RenameAudit.Check.Context
import RenameAudit.Sets.DisjointSets
/-!
# Check.UniqueIds — one number for one entity

The number of a placeholder name has to identify one field, or methods that override each other.  Methods belong
together when their roots do, and the roots of one method belong together.
-/
namespace RenameAudit
namespace UniqueIds

open Std

/-- The members whose new names have one number. -/
structure Claim where
  names : ExtTreeSet String
  fields : List Field
  methods : List Method

namespace Claim

/-- No members. -/
def empty : Claim :=
  ⟨∅, [], []⟩

/-- One more field. -/
def addField (c : Claim) (name : String) (f : Field) : Claim :=
  { c with names := c.names.insert name, fields := c.fields ++ [f] }

/-- One more method. -/
def addMethod (c : Claim) (name : String) (m : Method) : Claim :=
  { c with names := c.names.insert name, methods := c.methods ++ [m] }

/-- The members in the order of their texts. -/
def memberTexts (c : Claim) : List String :=
  (c.fields.map (fun f => f.ref.owner ++ "." ++ f.ref.name) ++ c.methods.map (·.ref.text)).mergeSort
    fun a b => decide (a ≤ b)

end Claim

/-- The claims to each number. -/
abbrev Claims := ExtTreeMap Nat Claim

/-- The claims with that of a field. -/
def claimField (ctx : CheckContext) (claims : Claims) (f : Field) : Claims :=
  let name := ctx.mappedField f
  match ctx.naming.fieldId? name with
  | some id => claims.insert id ((claims.getD id .empty).addField name f)
  | none => claims

/-- The claims with that of a method. -/
def claimMethod (ctx : CheckContext) (claims : Claims) (m : Method) : Claims :=
  let name := ctx.mappedMethod m.ref
  match ctx.naming.methodId? name with
  | some id => claims.insert id ((claims.getD id .empty).addMethod name m)
  | none => claims

/-- The claims with those of a class. -/
def claimClass (ctx : CheckContext) (claims : Claims) (name : String) : Claims :=
  (ctx.dir.methodsOf name).foldl (claimMethod ctx) ((ctx.dir.fieldsOf name).foldl (claimField ctx) claims)

/-- The claims of the classes under audit. -/
def claims (ctx : CheckContext) : Claims :=
  ctx.dir.owned.foldl (claimClass ctx) ∅

/-- The roots that belong together because one method of a class under audit has them. -/
def rootGroups (d : Directory) : DisjointSets MemberRef :=
  (d.owned.flatMap d.methodsOf).foldl (fun groups m =>
    match d.roots m.ref with
    | first :: second :: rest => groups.joinAll (first :: second :: rest)
    | _ => groups) DisjointSets.empty

/-- Whether the methods of a claim have roots that do not belong together. -/
def areUnrelated (d : Directory) (groups : DisjointSets MemberRef) (methods : List Method) : Bool :=
  let roots : MethodSet := ExtTreeSet.ofList ((methods.flatMap fun m => d.roots m.ref).map groups.root)
  1 < roots.size

/-- Why a number does not identify one entity: the first reason that applies. -/
def reason? (d : Directory) (groups : DisjointSets MemberRef) (c : Claim) : Option DuplicateReason :=
  if 1 < c.names.size then some .distinctNames
  else if !c.fields.isEmpty && !c.methods.isEmpty then some .fieldAndMethod
  else if 1 < c.fields.length then some .multipleFields
  else if areUnrelated d groups c.methods then some .unrelatedMethods
  else none

/-- The findings in the order of the numbers. -/
def findings (ctx : CheckContext) : List Finding :=
  let groups := rootGroups ctx.dir
  (claims ctx).toList.filterMap fun (id, c) =>
    (reason? ctx.dir groups c).map fun reason => .duplicateId id reason c.names.toList c.memberTexts

end UniqueIds
end RenameAudit
