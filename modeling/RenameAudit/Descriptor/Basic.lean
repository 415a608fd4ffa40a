/-!
# Descriptor — the types of fields and methods

A field has a type; a method has the types of its parameters and a return type.  The text of each is its *descriptor*:
a letter for a base type, `L` name `;` for a class, `[` before the component of an array, and parentheses around the
parameters.  `Descriptor.Parser` reads the texts that are written here.
-/
namespace RenameAudit

-- Sums of numbers are those of the core library, whatever else is imported.
attribute [local instance (high)] Zero.ofOfNat0

/-- The types that are no reference. -/
inductive BaseType where
  | byte | char | double | float | int | long | short | boolean
  deriving DecidableEq, Repr

namespace BaseType

/-- The letter of a base type. -/
def letter : BaseType → Char
  | byte => 'B'
  | char => 'C'
  | double => 'D'
  | float => 'F'
  | int => 'I'
  | long => 'J'
  | short => 'S'
  | boolean => 'Z'

/-- The base type of a letter. -/
def ofLetter? : Char → Option BaseType
  | 'B' => some byte
  | 'C' => some char
  | 'D' => some double
  | 'F' => some float
  | 'I' => some int
  | 'J' => some long
  | 'S' => some short
  | 'Z' => some boolean
  | _ => none

@[simp] theorem ofLetter?_letter (b : BaseType) : ofLetter? b.letter = some b := by
  cases b <;> rfl

/-- **A letter names one base type only.** -/
theorem letter_eq_of_ofLetter? {c : Char} {b : BaseType} (h : ofLetter? c = some b) : b.letter = c := by
  unfold ofLetter? at h
  split at h <;> cases h <;> rfl

end BaseType

/-- The type of a field or parameter. -/
inductive FieldType where
  | base (b : BaseType)
  | object (name : String)
  | array (component : FieldType)
  deriving DecidableEq, Repr

namespace FieldType

/-- The number of local variable slots that a value takes: two for a long or a double, else one. -/
def slots : FieldType → Nat
  | base .long => 2
  | base .double => 2
  | _ => 1

/-- The type with every class name `c` in it replaced by `f c`. -/
def mapClasses (f : String → String) : FieldType → FieldType
  | base b => base b
  | object name => object (f name)
  | array component => array (component.mapClasses f)

/-- The characters of the descriptor. -/
def chars : FieldType → List Char
  | base b => [b.letter]
  | object name => 'L' :: (name.toList ++ [';'])
  | array component => '[' :: component.chars

/-- The descriptor. -/
def text (t : FieldType) : String :=
  String.ofList t.chars

/-- How many times an array has to be indexed to reach an element that is no array. -/
def depth : FieldType → Nat
  | array component => component.depth + 1
  | _ => 0

/-- The type of the elements of an array of any depth; a type that is no array is its own element. -/
def element : FieldType → FieldType
  | array component => component.element
  | t => t

end FieldType

/-- What a method returns. -/
inductive ReturnType where
  | void
  | value (t : FieldType)
  deriving DecidableEq, Repr

namespace ReturnType

/-- The number of slots of the returned value: none for `void`. -/
def slots : ReturnType → Nat
  | void => 0
  | value t => t.slots

/-- The return type with every class name `c` in it replaced by `f c`. -/
def mapClasses (f : String → String) : ReturnType → ReturnType
  | void => void
  | value t => value (t.mapClasses f)

/-- The characters of the descriptor's last part. -/
def chars : ReturnType → List Char
  | void => ['V']
  | value t => t.chars

end ReturnType

/-- The types of a method's parameters and of its result. -/
structure MethodType where
  params : List FieldType
  result : ReturnType
  deriving DecidableEq, Repr

namespace MethodType

/-- The slots of all declared parameters; the receiver is not among them. -/
def paramSlots (m : MethodType) : Nat :=
  (m.params.map FieldType.slots).sum

/-- The parameter slots with one for a receiver, times four, plus the slots of the result.  A result takes at most two
slots, so the number tells both apart. -/
def footprint (m : MethodType) : Nat :=
  4 * (m.paramSlots + 1) + m.result.slots

/-- The method type with every class name `c` in it replaced by `f c`. -/
def mapClasses (f : String → String) (m : MethodType) : MethodType :=
  ⟨m.params.map (FieldType.mapClasses f), m.result.mapClasses f⟩

/-- The characters of the descriptor. -/
def chars (m : MethodType) : List Char :=
  '(' :: (m.params.flatMap FieldType.chars ++ ')' :: m.result.chars)

/-- The descriptor. -/
def text (m : MethodType) : String :=
  String.ofList m.chars

end MethodType

namespace FieldType

theorem slots_le_two : ∀ t : FieldType, t.slots ≤ 2
  | base b => by cases b <;> decide
  | object _ => by simp [slots]
  | array _ => by simp [slots]

@[simp] theorem slots_mapClasses (f : String → String) (t : FieldType) : (t.mapClasses f).slots = t.slots := by
  cases t <;> rfl

theorem chars_ne_nil (t : FieldType) : t.chars ≠ [] := by
  cases t <;> simp [chars]

end FieldType

namespace ReturnType

theorem slots_le_two : ∀ t : ReturnType, t.slots ≤ 2
  | void => by decide
  | value t => t.slots_le_two

@[simp] theorem slots_mapClasses (f : String → String) (t : ReturnType) : (t.mapClasses f).slots = t.slots := by
  cases t <;> simp [mapClasses, slots]

end ReturnType
end RenameAudit
