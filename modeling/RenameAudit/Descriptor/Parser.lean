import RenameAudit.Descriptor.Basic
/-!
# Descriptor.Parser — reading descriptors

`FieldType.read` takes one type off the front of a text and `readParams` takes types up to the closing parenthesis.
A text that is no field descriptor is reported by the part that could not be read, or whole where a type was read and
something follows it; a text that is no method descriptor is always reported whole.
-/
namespace RenameAudit

/-- A text that is no descriptor. -/
structure InvalidDescriptor where
  text : String
  deriving DecidableEq, Repr

/-- The words of the report. -/
def InvalidDescriptor.message (e : InvalidDescriptor) : String :=
  "invalid descriptor: " ++ e.text

namespace FieldType

/-- Takes one type off the front of a text.  A refusal carries the rest of the text from where it could not be read. -/
def read : List Char → Except (List Char) (FieldType × List Char)
  | [] => .error []
  | '[' :: rest =>
    match read rest with
    | .ok (component, rest') => .ok (.array component, rest')
    | .error at' => .error at'
  | 'L' :: rest =>
    match rest.takeWhile (· != ';'), rest.dropWhile (· != ';') with
    | c :: name, _ :: rest' => .ok (.object (String.ofList (c :: name)), rest')
    | _, _ => .error ('L' :: rest)
  | c :: rest =>
    match BaseType.ofLetter? c with
    | some b => .ok (.base b, rest)
    | none => .error (c :: rest)

/-- **A type takes at least one character.** -/
theorem length_lt_of_read : ∀ {s : List Char} {t : FieldType} {rest : List Char},
    read s = .ok (t, rest) → rest.length < s.length
  | [], _, _, h => by simp [read] at h
  | c :: cs, t, rest, h => by
    unfold read at h
    split at h
    · simp at h
    · rename_i heq
      cases heq
      split at h
      · rename_i component rest' hr
        cases h
        have := length_lt_of_read hr
        simp only [List.length_cons]
        omega
      · cases h
    · rename_i heq
      cases heq
      split at h
      · rename_i hd
        cases h
        have := (List.dropWhile_suffix (fun x => x != ';') (l := cs)).length_le
        simp only [hd, List.length_cons] at this
        simp only [List.length_cons]
        omega
      · cases h
    · rename_i heq
      cases heq
      split at h
      · cases h
        simp
      · cases h

/-- The type that a field descriptor denotes. -/
def parse (s : String) : Except InvalidDescriptor FieldType :=
  match read s.toList with
  | .ok (t, []) => .ok t
  | .ok (_, _ :: _) => .error ⟨s⟩
  | .error at' => .error ⟨String.ofList at'⟩

end FieldType

namespace MethodType

/-- Takes types off the front of a text up to a closing parenthesis, and that parenthesis. -/
def readParams (s : List Char) : Option (List FieldType × List Char) :=
  match s with
  | ')' :: rest => some ([], rest)
  | s =>
    match _h : FieldType.read s with
    | .ok (t, rest) => (readParams rest).map fun (ts, rest') => (t :: ts, rest')
    | .error _ => none
termination_by s.length
decreasing_by exact FieldType.length_lt_of_read _h

/-- The result type that makes up a whole text. -/
def readResult : List Char → Option ReturnType
  | ['V'] => some .void
  | 'V' :: _ => none
  | s =>
    match FieldType.read s with
    | .ok (t, []) => some (.value t)
    | _ => none

/-- The method type that a text denotes, none where it is no method descriptor. -/
def parse? (s : String) : Option MethodType :=
  match s.toList with
  | '(' :: rest =>
    match readParams rest with
    | some (params, rest') => (readResult rest').map fun result => ⟨params, result⟩
    | none => none
  | _ => none

/-- The method type that a method descriptor denotes. -/
def parse (s : String) : Except InvalidDescriptor MethodType :=
  match parse? s with
  | some m => .ok m
  | none => .error ⟨s⟩

end MethodType
end RenameAudit
