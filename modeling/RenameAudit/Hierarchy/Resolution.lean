import RenameAudit.Hierarchy.Ancestry
/-!
# Hierarchy.Resolution — which methods a method overrides

`Directory.resolve` records for each method of the classes under audit, and of their ancestors, the declarations that
it overrides.  Ancestors come before their descendants, and each class takes three steps:

- a method overrides the roots of the nearest method above it with its key that can be overridden;
- a method that overrides nothing has the roots of the methods that forward to it; where such a method belongs to a
  class that is yet to come, this waits for that class;
- unless the class is abstract, the nearest method with a body stands for every abstract declaration with its key that
  overrides nothing.

The roots of a method are the methods that override nothing to which its overrides lead.
-/
namespace RenameAudit

open Std

namespace Directory

/-! ## Bridges -/

/-- The method that a forwarding method names, where it belongs to the same class or to the direct superclass; then it is
looked for in that class and, for a superclass, above it as far as classes have been read. -/
def bridgeTarget? (d : Directory) (bridge : Method) (named : MemberRef) : Option Method :=
  let owner := bridge.ref.owner
  if owner = named.owner then d.methodByKey? owner named.key
  else if d.superclassOf? owner = some named.owner then
    (d.readSuperclasses named.owner).findSome? fun c => d.methodByKey? c named.key
  else none

/-- The forwarding methods with what they forward to, in the order in which they were read. -/
def findBridges (d : Directory) : List (MemberRef × MemberRef) :=
  d.methods.filterMap fun m => do
    let target ← d.bridgeTarget? m (← m.forwards)
    if target.ref = m.ref then none else some (m.ref, target.ref)

/-- The method that a method forwards to. -/
def bridgedBy? (d : Directory) (bridge : MemberRef) : Option MemberRef :=
  (d.bridges.find? (·.1 == bridge)).map (·.2)

/-- The methods that forward to a method. -/
def bridgesTo (d : Directory) (target : MemberRef) : List MemberRef :=
  (d.bridges.filter (·.2 == target)).map (·.1)

/-! ## Overrides and roots -/

/-- The methods that a method is known to override. -/
def overridesOf (d : Directory) (m : MemberRef) : MethodSet :=
  d.overrides.getD m ∅

/-- Whether a method is known to override another. -/
def hasOverrides (d : Directory) (m : MemberRef) : Bool :=
  d.overrides.contains m

/-- The methods that a method is known to override, in the order in which they were read. -/
def overridesInOrder (d : Directory) (m : MemberRef) : List MemberRef :=
  (d.methods.map (·.ref)).filter (d.overridesOf m).contains

/-- The directory in which a method overrides more methods. -/
def addOverrides (d : Directory) (m : MemberRef) (more : MethodSet) : Directory :=
  if more.isEmpty then d else { d with overrides := d.overrides.insert m (d.overridesOf m ∪ more) }

/-- The methods that override nothing to which the overrides of a method lead: the method itself where it overrides
nothing, and also where its overrides lead round in circles only. -/
def rootSet (d : Directory) (m : MemberRef) : MethodSet :=
  let found := ExtTreeSet.ofList (Graph.leaves d.overrides d.overrides [m])
  if found.isEmpty then ExtTreeSet.ofList [m] else found

/-- The roots of a method, by owner, name and descriptor. -/
def roots (d : Directory) (m : MemberRef) : List MemberRef :=
  (d.rootSet m).toList

/-- The directory with the roots of a method kept. -/
def keepRoots (d : Directory) (m : MemberRef) : Directory :=
  if d.keptRoots.contains m then d else { d with keptRoots := d.keptRoots.insert m (d.roots m) }

/-- The roots of a method as they were when first asked for. -/
def rootsOf (d : Directory) (m : MemberRef) : List MemberRef :=
  d.keptRoots.getD m (d.roots m)

/-! ## One class -/

/-- A merge that waits for the class of a bridge: that class, the bridge, and the method that it forwards to. -/
structure Merge where
  owner : String
  bridge : MemberRef
  target : MemberRef
  deriving DecidableEq, Repr

/-- A resolution under way. -/
structure Progress where
  dir : Directory
  waiting : List Merge

/-- The nearest method with a key among classes that can be overridden. -/
def nearestOverridable? (d : Directory) (stack : List String) (key : String) : Option Method :=
  stack.findSome? fun c => (d.methodByKey? c key).filter (·.canBeOverridden)

/-- A method overrides the roots of the nearest method above it. -/
def linkDirect (stack : List String) (d : Directory) (m : Method) : Directory :=
  if m.canOverride then
    match d.nearestOverridable? stack m.key with
    | some p => d.addOverrides m.ref ((d.rootSet p.ref).erase m.ref)
    | none => d
  else d

/-- A method that overrides nothing has the roots of one bridge to it.  A bridge with its key in a subclass overrides it
and is passed over. -/
def linkBridge (name : String) (m : Method) (s : Progress) (bridge : MemberRef) : Progress :=
  let sameKey := bridge.key == m.key
  let d := if sameKey then s.dir.keepStack bridge.owner else s.dir
  if sameKey && (d.stackOf bridge.owner).contains name then { s with dir := d }
  else if d.hasOverrides bridge then
    { s with dir := d.addOverrides m.ref ((d.rootSet bridge).erase m.ref) }
  else if bridge.owner ≠ name ∧ !d.isResolved bridge.owner then
    { dir := d, waiting := s.waiting ++ [⟨bridge.owner, bridge, m.ref⟩] }
  else { s with dir := d }

/-- A method that overrides nothing has the roots of the bridges to it. -/
def linkBridges (name : String) (s : Progress) (m : Method) : Progress :=
  if s.dir.hasOverrides m.ref || !m.canOverride then s
  else (s.dir.bridgesTo m.ref).foldl (linkBridge name m) s

/-- The abstract methods of classes that override nothing. -/
def openDeclarations (d : Directory) (scope : List String) : List Method :=
  (scope.flatMap d.methodsOf).filter fun m => m.isAbstract && !d.hasOverrides m.ref

/-- The nearest method with a key among classes that has a body and can be called on an object. -/
def nearestConcrete? (d : Directory) (scope : List String) (key : String) : Option Method :=
  scope.findSome? fun c => (d.methodByKey? c key).filter fun m => !m.isAbstract && m.canOverride

/-- An abstract declaration is overridden by the nearest method with its key. -/
def satisfy (scope : List String) (d : Directory) (declared : Method) : Directory :=
  match d.nearestConcrete? scope declared.key with
  | some m => d.addOverrides m.ref (ExtTreeSet.ofList [declared.ref])
  | none => d

/-- The abstract declarations of a class and its ancestors are overridden, unless the class is abstract. -/
def satisfyAll (name : String) (stack : List String) (d : Directory) : Directory :=
  if Access.isAbstract (d.accessOf name) then d
  else
    let scope := name :: stack
    (d.openDeclarations scope).foldl (satisfy scope) d

/-- A method has the roots of a bridge to it, now that the bridge's class is there. -/
def merge (d : Directory) (w : Merge) : Directory :=
  if d.hasOverrides w.bridge then d.addOverrides w.target ((d.rootSet w.bridge).erase w.target) else d

/-- The directory with a class marked as resolved. -/
def markResolved (d : Directory) (name : String) : Directory :=
  { d with classes := d.classes.modify name fun e => { e with resolved := true } }

/-- One class is resolved.  Of a class that has not been read there is nothing to record. -/
def resolveClass (s : Progress) (name : String) : Progress :=
  if s.dir.wasRead name then
    let d := s.dir.keepStack name
    let stack := d.stackOf name
    let methods := d.methodsOf name
    let d := methods.foldl (linkDirect stack) d
    let s := methods.foldl (linkBridges name) { s with dir := d }
    let d := satisfyAll name stack s.dir
    let d := (s.waiting.filter (·.owner == name)).foldl merge d
    { dir := d.markResolved name, waiting := s.waiting.filter (·.owner != name) }
  else { s with dir := s.dir.markResolved name }

/-! ## All classes -/

/-- The classes to resolve: those under audit and their ancestors that are not resolved yet, ancestors first. -/
def resolutionOrder (d : Directory) : List String :=
  Graph.depthFirst d.supertypesOf (d.classes.filter fun _ e => !e.resolved) (d.owned.map .enter)

/-- The directory ready to be resolved: nothing is kept, and the bridges are those of the classes that are there. -/
def prepare (d : Directory) : Directory :=
  { d.dropStacks with bridges := d.findBridges, keptRoots := ∅ }

/-- The directory with the classes under audit and their ancestors resolved. -/
def resolve (d : Directory) : Directory :=
  let d := d.prepare
  (d.resolutionOrder.foldl resolveClass ⟨d, []⟩).dir

end Directory
end RenameAudit
