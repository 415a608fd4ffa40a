import Std.Data.ExtTreeMap
/-!
# MemberRef — naming a field or method

A field is named by its owner and its name, a method by its owner, its name and its descriptor.  Both are ordered part
by part, so they can be keys of sorted maps, and the order is the one in which reports list members.
-/
namespace RenameAudit

open Std

/-- A field by its owner and name. -/
structure FieldRef where
  owner : String
  name : String
  deriving DecidableEq, Repr

/-- A field or method by its owner, name and descriptor. -/
structure MemberRef where
  owner : String
  name : String
  descriptor : String
  deriving DecidableEq, Repr

/-- **Comparing by one key and then by another is lawful** when equal keys make equal values. -/
theorem lawfulEqCmp_compareLex {α β γ : Type} [Ord β] [LawfulEqOrd β] [Ord γ] [LawfulEqOrd γ]
    (f : α → β) (g : α → γ) (inj : ∀ x y, f x = f y → g x = g y → x = y) :
    LawfulEqCmp (compareLex (compareOn f) (compareOn g)) where
  eq_of_compare {a b} h := by
    simp only [compareLex, Ordering.then_eq_eq, compareOn] at h
    exact inj a b (LawfulEqCmp.eq_of_compare h.1) (LawfulEqCmp.eq_of_compare h.2)
  compare_self {a} := by
    simp [compareLex, compareOn, ReflCmp.compare_self]

namespace FieldRef

instance : Ord FieldRef where
  compare := compareLex (compareOn FieldRef.owner) (compareOn FieldRef.name)

instance : TransOrd FieldRef :=
  inferInstanceAs (TransCmp (compareLex (compareOn FieldRef.owner) (compareOn FieldRef.name)))

instance : LawfulEqOrd FieldRef :=
  lawfulEqCmp_compareLex FieldRef.owner FieldRef.name fun x y h₁ h₂ => by
    cases x; cases y; simp_all

end FieldRef

namespace MemberRef

/-- The field or method without its descriptor. -/
def toFieldRef (m : MemberRef) : FieldRef :=
  ⟨m.owner, m.name⟩

instance : Ord MemberRef where
  compare := compareLex (compareOn MemberRef.toFieldRef) (compareOn MemberRef.descriptor)

instance : TransOrd MemberRef :=
  inferInstanceAs (TransCmp (compareLex (compareOn MemberRef.toFieldRef) (compareOn MemberRef.descriptor)))

instance : LawfulEqOrd MemberRef :=
  lawfulEqCmp_compareLex MemberRef.toFieldRef MemberRef.descriptor fun x y h₁ h₂ => by
    cases x; cases y; simp_all [toFieldRef]

/-- The name followed by the descriptor: what a method shares with those that it overrides. -/
def key (m : MemberRef) : String :=
  m.name ++ m.descriptor

/-- The text of a reference in reports. -/
def text (m : MemberRef) : String :=
  m.owner ++ "." ++ m.name ++ m.descriptor

end MemberRef
end RenameAudit
