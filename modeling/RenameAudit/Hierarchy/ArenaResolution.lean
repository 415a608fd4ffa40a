import RenameAudit.Hierarchy.Arena
import RenameAudit.Hierarchy.Resolution
/-!
# Hierarchy.ArenaResolution — resolving an arena

The passes of a resolution go over the numbers of classes and methods.  They write to four places of an arena: the state
and the kept ancestors of a class, and the overrides and the kept roots of a method.  Both maps of bridges are emptied
first and filled again with what the classes that are there forward to.  Merges that wait for a class stand under its
number until it is resolved.
-/
namespace RenameAudit
namespace Arena

open Std

/-- Records by their numbers. -/
def byNumber {ρ : Type} (records : List ρ) : ExtTreeMap Nat ρ :=
  ExtTreeMap.ofList (records.zipIdx.map Prod.swap)

/-- The arena with the record of a class changed. -/
def modifyClass (a : Arena) (id : ClassId) (f : ClassRecord → ClassRecord) : Arena :=
  { a with classes := a.classes.modify id f }

/-- The arena with the record of a method changed. -/
def modifyMethod (a : Arena) (m : MethodId) (f : MethodRecord → MethodRecord) : Arena :=
  { a with methods := a.methods.modify m f }

/-! ## Ancestors -/

/-- The direct supertypes of a class. -/
def supertypesOf (a : Arena) (id : ClassId) : List ClassId :=
  (a.record id).supertypes

/-- The ancestors of a class, nearest first; the class itself is not among them. -/
def ancestors (a : Arena) (id : ClassId) : List ClassId :=
  Graph.breadthFirst a.supertypesOf ((byNumber a.classes).erase id) (a.supertypesOf id)

/-- The arena with the ancestors of a class kept. -/
def keepStack (a : Arena) (id : ClassId) : Arena :=
  a.modifyClass id fun r =>
    match r.stack with
    | some _ => r
    | none => { r with stack := some (a.ancestors id) }

/-- The ancestors of a class as they were when first asked for. -/
def stackOf (a : Arena) (id : ClassId) : List ClassId :=
  (a.record id).stack.getD (a.ancestors id)

/-- A class and its superclasses as far as they have been read, nearest first. -/
def readSuperclasses (a : Arena) (id : ClassId) : List ClassId :=
  (Graph.breadthFirst (fun c => (a.record c).parent.toList) (byNumber a.classes) [id]).takeWhile fun c => (a.record c).read

/-! ## Bridges -/

/-- The method that a method of a class names, where it belongs to the same class or to the direct superclass; then it is
looked for in that class and, for a superclass, above it as far as classes have been read. -/
def bridgeTarget? (a : Arena) (owner : ClassId) (named : MemberRef) : Option MethodId :=
  if a.nameOf owner = named.owner then a.methodByKey? owner named.key
  else
    match (a.record owner).parent with
    | some parent =>
      if a.nameOf parent = named.owner then (a.readSuperclasses parent).findSome? fun c => a.methodByKey? c named.key
      else none
    | none => none

/-- A method with the one that it forwards to. -/
def bridgeOf? (a : Arena) (m : MethodId) : Option (MethodId × MethodId) := do
  let target ← a.bridgeTarget? (a.methodRecord m).owner (← (a.methodRecord m).forwards)
  if target = m then none else some (m, target)

/-- The forwarding methods with what they forward to, in the order of their numbers. -/
def findBridges (a : Arena) : List (MethodId × MethodId) :=
  (List.range a.methods.length).filterMap a.bridgeOf?

/-- The arena with a bridge in both maps. -/
def addBridge (a : Arena) (bridge : MethodId × MethodId) : Arena :=
  { a with
    targets := a.targets.insert bridge.1 bridge.2
    sources := a.sources.insert bridge.2 (a.sources.getD bridge.2 [] ++ [bridge.1]) }

/-- The arena with the bridges of the classes that are there, and no others. -/
def recordBridges (a : Arena) : Arena :=
  a.findBridges.foldl addBridge { a with targets := ∅, sources := ∅ }

/-- The method that a method forwards to. -/
def bridgedBy? (a : Arena) (bridge : MethodId) : Option MethodId :=
  a.targets[bridge]?

/-- The methods that forward to a method. -/
def bridgesTo (a : Arena) (target : MethodId) : List MethodId :=
  a.sources.getD target []

/-! ## Overrides and roots -/

/-- The methods that a method is known to override. -/
def overridesOf (a : Arena) (m : MethodId) : ExtTreeSet MethodId :=
  (a.methodRecord m).overrides

/-- Whether a method is known to override another. -/
def hasOverrides (a : Arena) (m : MethodId) : Bool :=
  !(a.overridesOf m).isEmpty

/-- The arena in which a method overrides more methods. -/
def addOverrides (a : Arena) (m : MethodId) (more : ExtTreeSet MethodId) : Arena :=
  a.modifyMethod m fun r => { r with overrides := r.overrides ∪ more }

/-- The methods that override others, with these. -/
def overriding (a : Arena) : ExtTreeMap MethodId (ExtTreeSet MethodId) :=
  ((byNumber a.methods).map fun _ r => r.overrides).filter fun _ s => !s.isEmpty

/-- The methods that override nothing to which the overrides of a method lead: the method itself where it overrides
nothing, and also where its overrides lead round in circles only. -/
def rootSet (a : Arena) (m : MethodId) : ExtTreeSet MethodId :=
  let found := ExtTreeSet.ofList (Graph.leaves a.overriding a.overriding [m])
  if found.isEmpty then ExtTreeSet.ofList [m] else found

/-- The roots of a method, by owner, name and descriptor. -/
def roots (a : Arena) (m : MethodId) : List MethodId :=
  (a.rootSet m).toList.mergeSort fun x y => (compare (a.refOf x) (a.refOf y)).isLE

/-- The arena with the roots of a method kept. -/
def keepRoots (a : Arena) (m : MethodId) : Arena :=
  a.modifyMethod m fun r =>
    match r.roots with
    | some _ => r
    | none => { r with roots := some (a.roots m) }

/-- The roots of a method as they were when first asked for. -/
def rootsOf (a : Arena) (m : MethodId) : List MethodId :=
  (a.methodRecord m).roots.getD (a.roots m)

/-! ## One class -/

/-- A resolution under way.  `pending` has the bridges of a class that is yet to come, with the methods to which their roots
go when it has come. -/
structure Progress where
  arena : Arena
  pending : ExtTreeMap ClassId (List (MethodId × MethodId))

/-- The nearest method with a key among classes that can be overridden. -/
def nearestOverridable? (a : Arena) (stack : List ClassId) (key : String) : Option MethodId :=
  stack.findSome? fun c => (a.methodByKey? c key).filter fun m => (a.method m).canBeOverridden

/-- A method overrides the roots of the nearest method above it. -/
def linkDirect (stack : List ClassId) (a : Arena) (m : MethodId) : Arena :=
  if (a.method m).canOverride then
    match a.nearestOverridable? stack (a.method m).key with
    | some p => a.addOverrides m ((a.rootSet p).erase m)
    | none => a
  else a

/-- Whether a bridge has the key of the method that it forwards to. -/
def sameKey (a : Arena) (m bridge : MethodId) : Bool :=
  (a.method bridge).key == (a.method m).key

/-- The arena with the ancestors of a bridge's class kept, where they are asked for. -/
def keepFor (m : MethodId) (a : Arena) (bridge : MethodId) : Arena :=
  if a.sameKey m bridge then a.keepStack (a.methodRecord bridge).owner else a

/-- A method that overrides nothing has the roots of one bridge to it.  A bridge with its key in a subclass overrides it
and is passed over. -/
def linkBridge (id : ClassId) (m : MethodId) (s : Progress) (bridge : MethodId) : Progress :=
  let owner := (s.arena.methodRecord bridge).owner
  let a := keepFor m s.arena bridge
  if s.arena.sameKey m bridge && (a.stackOf owner).contains id then { s with arena := a }
  else if a.hasOverrides bridge then
    { s with arena := a.addOverrides m ((a.rootSet bridge).erase m) }
  else if owner ≠ id ∧ (a.record owner).state ≠ .resolved then
    { arena := a, pending := s.pending.insert owner (s.pending.getD owner [] ++ [(bridge, m)]) }
  else { s with arena := a }

/-- A method that overrides nothing has the roots of the bridges to it. -/
def linkBridges (id : ClassId) (s : Progress) (m : MethodId) : Progress :=
  if s.arena.hasOverrides m || !(s.arena.method m).canOverride then s
  else (s.arena.bridgesTo m).foldl (linkBridge id m) s

/-- The abstract methods of classes that override nothing. -/
def openDeclarations (a : Arena) (scope : List ClassId) : List MethodId :=
  (scope.flatMap a.methodsOf).filter fun m => (a.method m).isAbstract && !a.hasOverrides m

/-- The nearest method with a key among classes that has a body and can be called on an object. -/
def nearestConcrete? (a : Arena) (scope : List ClassId) (key : String) : Option MethodId :=
  scope.findSome? fun c => (a.methodByKey? c key).filter fun m => !(a.method m).isAbstract && (a.method m).canOverride

/-- An abstract declaration is overridden by the nearest method with its key. -/
def satisfy (scope : List ClassId) (a : Arena) (declared : MethodId) : Arena :=
  match a.nearestConcrete? scope (a.method declared).key with
  | some m => a.addOverrides m (ExtTreeSet.ofList [declared])
  | none => a

/-- The abstract declarations of a class and its ancestors are overridden, unless the class is abstract. -/
def satisfyAll (id : ClassId) (stack : List ClassId) (a : Arena) : Arena :=
  if Access.isAbstract (a.record id).access then a
  else
    let scope := id :: stack
    (a.openDeclarations scope).foldl (satisfy scope) a

/-- A method has the roots of a bridge to it, now that the bridge's class is there. -/
def merge (a : Arena) (waiting : MethodId × MethodId) : Arena :=
  if a.hasOverrides waiting.1 then a.addOverrides waiting.2 ((a.rootSet waiting.1).erase waiting.2) else a

/-- The arena with a class marked as resolved. -/
def markResolved (a : Arena) (id : ClassId) : Arena :=
  a.modifyClass id fun r => { r with state := .resolved }

/-- One class is resolved.  Of a class that has not been read there is nothing to record. -/
def resolveClass (s : Progress) (id : ClassId) : Progress :=
  if (s.arena.record id).read then
    let a := s.arena.keepStack id
    let stack := a.stackOf id
    let methods := a.methodsOf id
    let a := methods.foldl (linkDirect stack) a
    let s := methods.foldl (linkBridges id) { s with arena := a }
    let a := satisfyAll id stack s.arena
    let a := (s.pending.getD id []).foldl merge a
    { arena := a.markResolved id, pending := s.pending.erase id }
  else { s with arena := s.arena.markResolved id }

/-! ## All classes -/

/-- The classes to resolve: those under audit and their ancestors that are not resolved yet, ancestors first. -/
def resolutionOrder (a : Arena) : List ClassId :=
  Graph.depthFirst a.supertypesOf ((byNumber a.classes).filter fun _ r => r.state != .resolved) (a.ownedIds.map .enter)

/-- The arena with no roots and no ancestors kept. -/
def dropKept (a : Arena) : Arena :=
  { a with
    classes := a.classes.map fun r => { r with stack := none }
    methods := a.methods.map fun r => { r with roots := none } }

/-- The arena ready to be resolved: nothing is kept, and the bridges are those of the classes that are there. -/
def prepare (a : Arena) : Arena :=
  a.dropKept.recordBridges

/-- The arena with the classes under audit and their ancestors resolved. -/
def resolve (a : Arena) : Arena :=
  let a := a.prepare
  (a.resolutionOrder.foldl resolveClass ⟨a, ∅⟩).arena

end Arena
end RenameAudit
