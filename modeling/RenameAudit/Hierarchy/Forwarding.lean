import RenameAudit.ClassFile.Access
import RenameAudit.ClassFile.Instruction
import RenameAudit.Descriptor.Parser
/-!
# Hierarchy.Forwarding — methods that only call another method

Compilers add methods that pass their arguments on to another method and return what it returns, and they make methods
of the bodies of lambda expressions.  Both are recognised by the shape of the code alone.
-/
namespace RenameAudit

open ClassFile

/-- The class whose methods make the objects of lambda expressions. -/
def lambdaFactory : String := "java/lang/invoke/LambdaMetafactory"

/-- The descriptor of the factory method that takes three constants. -/
def lambdaFactoryDescriptor : String :=
  "(Ljava/lang/invoke/MethodHandles$Lookup;Ljava/lang/String;Ljava/lang/invoke/MethodType;" ++
  "Ljava/lang/invoke/MethodType;Ljava/lang/invoke/MethodHandle;Ljava/lang/invoke/MethodType;)" ++
  "Ljava/lang/invoke/CallSite;"

/-- The descriptor of the factory method that takes four constants or more. -/
def lambdaAltFactoryDescriptor : String :=
  "(Ljava/lang/invoke/MethodHandles$Lookup;Ljava/lang/String;Ljava/lang/invoke/MethodType;[Ljava/lang/Object;)" ++
  "Ljava/lang/invoke/CallSite;"

/-- Whether a bootstrap method makes the object of a lambda expression. -/
def isLambdaFactory (b : BootstrapMethod) : Bool :=
  let target := b.handle.target
  b.handle.kind.toNat == 6 && target.owner == lambdaFactory && !b.handle.viaInterface &&
    ((target.name == "metafactory" && target.descriptor == lambdaFactoryDescriptor && b.arguments.length == 3) ||
     (target.name == "altMetafactory" && target.descriptor == lambdaAltFactoryDescriptor &&
        decide (4 ≤ b.arguments.length)))

/-- The method with the body of the lambda expression that a dynamic call evaluates: the second constant of a lambda
factory. -/
def lambdaBody? (site : CallSite) : Option MethodHandle :=
  if isLambdaFactory site.bootstrap then
    match site.bootstrap.arguments with
    | _ :: .handle h :: _ => some h
    | _ => none
  else none

/-- Whether instructions load parameters in their order from the first on, the next one from a given slot; casts may
stand anywhere, and the last parameters may be left out. -/
def loadsInOrder : Nat → List FieldType → List Instruction → Bool
  | _, _, [] => true
  | slot, p :: params, .slot op index :: rest =>
    Opcode.isLoad op && index.toNat == slot && loadsInOrder (slot + p.slots) params rest
  | slot, params, .type op _ :: rest =>
    (op == Opcode.checkcast || op == Opcode.instanceof) && loadsInOrder slot params rest
  | _, _, _ => false

/-- The loads and the called method of code that loads its receiver, loads arguments, calls and returns. -/
def callShape? (code : List Instruction) : Option (List Instruction × MemberRef) :=
  match code with
  | .slot op index :: rest =>
    if op = Opcode.aload ∧ index = 0 then
      match rest.reverse with
      | .ret _ :: .call _ target _ :: loads => some (loads.reverse, target)
      | _ => none
    else none
  | _ => none

/-- The method that a compiler-made instance method passes its arguments on to.  Both must take the same space for
their arguments and for their results. -/
def forwardTarget? (access : Access) (descriptor : String) (code : List Instruction) (isLambda : Bool) :
    Option MemberRef :=
  if isLambda || !(Access.isSynthetic access || Access.isBridge access) || Access.isStatic access then none
  else
    match MethodType.parse? descriptor, callShape? code with
    | some own, some (loads, target) =>
      match MethodType.parse? target.descriptor with
      | some called =>
        if loadsInOrder 1 own.params loads && called.footprint == own.footprint then some target else none
      | none => none
    | _, _ => none

end RenameAudit
