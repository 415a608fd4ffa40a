import RenameAudit.Check.Context
import RenameAudit.Sets.DisjointSets
/-!
# Check.OverrideNames — new names of members that meet in a class

Three kinds of problems are looked for.  A member *shades* one of an ancestor when it gets the same new name without
overriding it; a method takes over the placeholder name of a private method of an ancestor; and methods that override
each other get different new names.  The last is decided in one of two ways:

- by *closure*: all that a class under audit exposes under one key forms a group, forwarding methods join the groups of
  their two keys, and groups of different classes with a common method are one;
- *quickly*: a method is compared with the methods of its ancestors, and the methods of an interface with those of the
  classes that list it and their ancestors.  This misses what only a longer chain connects.
-/
namespace RenameAudit
namespace OverrideNames

open Std

/-- A set of findings. -/
abbrev FindingSet := ExtTreeSet Finding

/-- Whether a method takes part in the choice of a method by the class of an object. -/
def isExposed (m : Method) : Bool :=
  !m.isInitializer && !m.isStatic && !m.isPrivate

/-! ## Groups with more than one name -/

/-- Methods by their new names. -/
def byMappedName (ctx : CheckContext) (methods : List MemberRef) : ExtTreeMap String MethodSet :=
  methods.foldl (fun groups m =>
    let name := ctx.mappedMethod m
    groups.insert name ((groups.getD name ∅).insert m)) ∅

/-- The finding for methods that should have one new name and have several. -/
def mismatch? (ctx : CheckContext) (methods : List MemberRef) : Option Finding :=
  let groups := (byMappedName ctx methods).toList
  if groups.length < 2 then none
  else some (.overrideMismatch (groups.map fun (mapped, methods) => ⟨mapped, methods.toList.map (·.text)⟩))

/-! ## A class and its ancestors -/

/-- The finding for a field and an ancestor that has a field of the same new name. -/
def fieldShade? (ctx : CheckContext) (f : Field) (parent : String) : Option Finding :=
  let mapped := ctx.mappedField f
  let old := ctx.reverse.mapField (ctx.table.mapClass parent) mapped
  match ctx.dir.field? parent old with
  | some shaded =>
    if Access.isPrivate shaded.access then none
    else some (.fieldShade f.ref.owner f.ref.name parent old mapped)
  | none => none

/-- The findings for the fields of a class. -/
def fieldFindings (ctx : CheckContext) (name : String) : List Finding :=
  ((ctx.dir.fieldsOf name).filter fun f => !Access.isStatic f.access).flatMap fun f =>
    (ctx.dir.ancestors name).filterMap (fieldShade? ctx f)

/-- The finding for a method and an ancestor that has a method of the same new name and descriptor. -/
def methodClash? (ctx : CheckContext) (m : Method) (parent : String) : Option Finding :=
  let mapped := ctx.mappedMethod m.ref
  let old :=
    ctx.reverse.mapMethod (ctx.table.mapClass parent) mapped (ctx.table.mapDescriptor m.ref.descriptor)
  let clash : MethodClash := ⟨m.ref.owner, m.ref.name, m.ref.descriptor, parent, old, mapped⟩
  match ctx.dir.method? ⟨parent, old, m.ref.descriptor⟩ with
  | some other =>
    if other.isPrivate then
      if ctx.naming.isMethodPlaceholder mapped then some (.badOverride clash) else none
    else if m.ref.name = old then none
    else some (.methodShade clash)
  | none => none

/-- The finding for a method and a method of an ancestor with its name and descriptor. -/
def ancestorMismatch? (ctx : CheckContext) (m : Method) (parent : String) : Option Finding :=
  if m.isPrivate then none
  else
    match ctx.dir.methodByKey? parent m.key with
    | some overridden => if isExposed overridden then mismatch? ctx [m.ref, overridden.ref] else none
    | none => none

/-- The finding for a method and an ancestor.  Mismatches are looked for where there is no clash and the strategy asks
for it. -/
def methodFinding? (ctx : CheckContext) (m : Method) (parent : String) : Option Finding :=
  match methodClash? ctx m parent with
  | some finding => some finding
  | none => if ctx.strategy = .quick then ancestorMismatch? ctx m parent else none

/-- The findings for the methods of a class. -/
def methodFindings (ctx : CheckContext) (name : String) : List Finding :=
  ((ctx.dir.methodsOf name).filter fun m => !m.isStatic && !m.isInitializer).flatMap fun m =>
    (ctx.dir.ancestors name).filterMap (methodFinding? ctx m)

/-- The findings for the classes under audit and their ancestors. -/
def ancestorFindings (ctx : CheckContext) : List Finding :=
  ctx.dir.owned.flatMap fun name => fieldFindings ctx name ++ methodFindings ctx name

/-! ## Interfaces and the classes that list them -/

/-- The classes under audit that list an interface. -/
def implementers (d : Directory) (interface : String) : List String :=
  d.owned.filter fun c => (((d.declaration? c).map (·.interfaces)).getD []).contains interface

/-- The classes that list an interface, with their ancestors. -/
def implementingScope (d : Directory) (interface : String) : ExtTreeSet String :=
  ExtTreeSet.ofList ((implementers d interface).flatMap fun c => c :: d.ancestors c)

/-- The finding for a method of an interface and a class. -/
def interfaceMismatch? (ctx : CheckContext) (m : Method) (name : String) : Option Finding :=
  match ctx.dir.methodByKey? name m.key with
  | some other => if other.ref ≠ m.ref ∧ isExposed other then mismatch? ctx [m.ref, other.ref] else none
  | none => none

/-- The findings for an interface. -/
def interfaceFindingsOf (ctx : CheckContext) (interface : String) : List Finding :=
  ((ctx.dir.methodsOf interface).filter isExposed).flatMap fun m =>
    (implementingScope ctx.dir interface).toList.filterMap (interfaceMismatch? ctx m)

/-- The findings for the interfaces under audit. -/
def interfaceFindings (ctx : CheckContext) : List Finding :=
  (ctx.dir.owned.filter fun c => Access.isInterface (ctx.dir.accessOf c)).flatMap (interfaceFindingsOf ctx)

/-! ## What classes expose -/

/-- Sets by keys. -/
abbrev SetMap (α : Type) [Ord α] := ExtTreeMap String (ExtTreeSet α)

namespace SetMap

variable {α : Type} [Ord α] [TransOrd α]

/-- The set of a key. -/
def ofKey (sets : SetMap α) (key : String) : ExtTreeSet α :=
  sets.getD key ∅

/-- More elements for the set of a key. -/
def extend (sets : SetMap α) (key : String) (more : ExtTreeSet α) : SetMap α :=
  sets.insert key (sets.ofKey key ∪ more)

/-- All sets of both, joined key by key. -/
def union (sets more : SetMap α) : SetMap α :=
  more.toList.foldl (fun sets (key, elements) => sets.extend key elements) sets

end SetMap

/-- What a class exposes: methods by their keys, and for the key of a forwarding method the keys that it forwards to. -/
structure Exposure where
  methods : SetMap MemberRef
  bounces : SetMap String

namespace Exposure

/-- Nothing. -/
def empty : Exposure :=
  ⟨∅, ∅⟩

/-- All that either exposes. -/
def union (x y : Exposure) : Exposure :=
  ⟨x.methods.union y.methods, x.bounces.union y.bounces⟩

/-- One more method. -/
def addMethod (x : Exposure) (m : Method) : Exposure :=
  { x with methods := x.methods.extend m.key (ExtTreeSet.ofList [m.ref]) }

/-- One more key that a key forwards to. -/
def addBounce (x : Exposure) (key target : String) : Exposure :=
  { x with bounces := x.bounces.extend key (ExtTreeSet.ofList [target]) }

end Exposure

/-- The method that a forwarding method forwards to: the one that the directory knows, or else the one that the named
class has. -/
def bounceTarget? (d : Directory) (m : Method) : Option MemberRef :=
  m.forwards.bind fun named =>
    match d.bridgedBy? m.ref with
    | some target => some target
    | none => (d.method? named).map (·.ref)

/-- What is exposed with one more method of a class. -/
def expose (d : Directory) (x : Exposure) (m : Method) : Exposure :=
  if isExposed m then
    let x := x.addMethod m
    match bounceTarget? d m with
    | some target => x.addBounce m.key target.key
    | none => x
  else x

/-- What a class exposes, from what its supertypes expose. -/
def exposureOf (d : Directory) (known : ExtTreeMap String Exposure) (name : String) : Exposure :=
  let inherited := (d.supertypesOf name).foldl (fun x s => x.union (known.getD s .empty)) Exposure.empty
  (d.methodsOf name).foldl (expose d) inherited

/-- What the classes under audit and their ancestors expose.  Ancestors come first; where classes inherit from each
other in a circle, one that is reached again while it is under way counts as exposing nothing. -/
def exposures (d : Directory) : ExtTreeMap String Exposure :=
  (Graph.depthFirst d.supertypesOf d.classes (d.owned.map .enter)).foldl
    (fun known name => known.insert name (exposureOf d known name)) ∅

/-! ## Groups -/

/-- The places of the methods in the order in which they were read. -/
abbrev Places := ExtTreeMap MemberRef Nat

/-- The place of each method. -/
def placesOf (d : Directory) : Places :=
  ExtTreeMap.ofList (d.methods.map (·.ref)).zipIdx

/-- Methods in the order in which they were read. -/
def inReadingOrder (places : Places) (methods : MethodSet) : List MemberRef :=
  methods.toList.mergeSort fun a b => decide (places.getD a 0 ≤ places.getD b 0)

/-- The method of a key that was read first. -/
def firstOf? (places : Places) (x : Exposure) (key : String) : Option MemberRef :=
  (inReadingOrder places (x.methods.ofKey key)).head?

/-- Joins the groups of two keys of a class, where both have a method. -/
def joinKeys (places : Places) (x : Exposure) (key : String) (groups : DisjointSets MemberRef) (target : String) :
    DisjointSets MemberRef :=
  match firstOf? places x key, firstOf? places x target with
  | some m, some t => (groups.union m t).2
  | _, _ => groups

/-- Joins what a class exposes. -/
def joinExposure (places : Places) (groups : DisjointSets MemberRef) (x : Exposure) : DisjointSets MemberRef :=
  let groups := x.methods.toList.foldl (fun groups (_, methods) => groups.joinAll (inReadingOrder places methods)) groups
  x.bounces.toList.foldl (fun groups (key, targets) => targets.toList.foldl (joinKeys places x key) groups) groups

/-- The groups of methods that override each other. -/
def overrideGroups (d : Directory) : DisjointSets MemberRef :=
  let known := exposures d
  let places := placesOf d
  d.owned.foldl (fun groups name => joinExposure places groups (known.getD name .empty)) DisjointSets.empty

/-- The findings for groups with more than one name. -/
def closureFindings (ctx : CheckContext) : List Finding :=
  (overrideGroups ctx.dir).components.filterMap (mismatch? ctx)

/-! ## The check -/

/-- All findings, each once. -/
def findings (ctx : CheckContext) : List Finding :=
  let groups := match ctx.strategy with
    | .closure => closureFindings ctx
    | .quick => interfaceFindings ctx
  (ExtTreeSet.ofList (ancestorFindings ctx ++ groups) : FindingSet).toList

end OverrideNames
end RenameAudit
