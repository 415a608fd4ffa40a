/-!
# Split — cutting a text at a character

Cuts at every occurrence of a character or at the last one, and tests on the two ends of a text.
-/
namespace RenameAudit
namespace Text

/-- Puts a character before the parts that follow it. -/
def consPart (sep c : Char) (parts : List (List Char)) : List (List Char) :=
  if c = sep then [] :: parts
  else
    match parts with
    | part :: rest => (c :: part) :: rest
    | [] => [[c]]

/-- The parts of a text between the occurrences of a character; one more than there are occurrences. -/
def splitOn (sep : Char) (cs : List Char) : List (List Char) :=
  cs.foldr (consPart sep) [[]]

/-- The parts of a text before and after the last occurrence of a character. -/
def splitLast? (sep : Char) : List Char → Option (List Char × List Char)
  | [] => none
  | c :: cs =>
    match splitLast? sep cs with
    | some (before, after) => some (c :: before, after)
    | none => if c = sep then some ([], cs) else none

/-- **A split loses the separator only.** -/
theorem eq_of_splitLast? {sep : Char} {cs before after : List Char}
    (h : splitLast? sep cs = some (before, after)) : cs = before ++ sep :: after := by
  induction cs generalizing before with
  | nil => simp [splitLast?] at h
  | cons c cs ih =>
    unfold splitLast? at h
    split at h
    · rename_i hs
      cases h
      simp [ih hs]
    · split at h
      · rename_i hc
        cases h
        simp [hc]
      · cases h

theorem length_lt_of_splitLast? {sep : Char} {cs before after : List Char}
    (h : splitLast? sep cs = some (before, after)) : before.length < cs.length := by
  simp [eq_of_splitLast? h]

/-- Whether a text ends in a character. -/
def endsWith (c : Char) (s : String) : Bool :=
  s.toList.getLast? == some c

/-- Whether a text begins with another. -/
def startsWith (start : String) (cs : List Char) : Bool :=
  start.toList.isPrefixOf cs

/-- What follows another text at the start of a text. -/
def after? (start : List Char) (cs : List Char) : Option (List Char) :=
  if start.isPrefixOf cs then some (cs.drop start.length) else none

/-- Whether a text occurs in another. -/
def containsText (part : List Char) : List Char → Bool
  | [] => part.isEmpty
  | c :: cs => part.isPrefixOf (c :: cs) || containsText part cs

end Text
end RenameAudit
