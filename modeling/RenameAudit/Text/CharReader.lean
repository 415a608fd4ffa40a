import RenameAudit.ListReader
/-!
# CharReader — reading characters

Readers of text with no more to say about what they refuse than that they refuse it.
-/
namespace RenameAudit

/-- A reader of a value from the front of a text. -/
abbrev CharReader := ListReader Char Unit

namespace CharReader

open ListReader

/-- The next character. -/
def char : CharReader Char :=
  next ()

/-- Refuses unless a condition holds. -/
def require (condition : Bool) : CharReader Unit :=
  if condition then return () else fail ()

/-- The value that there has to be. -/
def demand {α : Type} : Option α → CharReader α
  | some a => return a
  | none => fail ()

/-- Takes a character that has to come next. -/
def expect (c : Char) : CharReader Unit := do
  require ((← char) == c)

/-- Whether a character comes next. -/
def sees (c : Char) : CharReader Bool := do
  return (← peek 1) == [c]

/-- The characters that are left, which stay there. -/
def upcoming : CharReader (List Char) where
  run b := .ok (b, b)
  suffix_of_run h := by cases h; exact List.suffix_refl _

/-- A text without the blanks and comments at its front.  A comment goes from a number sign up to the first character that
may not stand in it. -/
def dropFill (isBlank isComment : Char → Bool) (inside : Bool) : List Char → List Char
  | [] => []
  | c :: cs =>
    if inside && isComment c then dropFill isBlank isComment true cs
    else if isBlank c then dropFill isBlank isComment false cs
    else if c = '#' then dropFill isBlank isComment true cs
    else c :: cs

theorem dropFill_suffix (isBlank isComment : Char → Bool) (inside : Bool) (cs : List Char) :
    dropFill isBlank isComment inside cs <:+ cs := by
  induction cs generalizing inside with
  | nil => exact List.suffix_refl _
  | cons c cs ih =>
    unfold dropFill
    split
    · exact (ih _).trans (List.suffix_cons ..)
    · split
      · exact (ih _).trans (List.suffix_cons ..)
      · split
        · exact (ih _).trans (List.suffix_cons ..)
        · exact List.suffix_refl _

/-- Leaves out blanks and comments. -/
def skipFill (isBlank isComment : Char → Bool) : CharReader Unit where
  run b := .ok ((), dropFill isBlank isComment false b)
  suffix_of_run {b a rest} h := by cases h; exact dropFill_suffix ..

theorem consumes_char : Consumes char :=
  consumes_next _

/-- The value of a whole text. -/
def parse {α : Type} (p : CharReader α) (text : List Char) : Option α :=
  match p.run text with
  | .ok (a, []) => some a
  | _ => none

end CharReader
end RenameAudit
