import RenameAudit.Proofs.Descriptor.Texts
import RenameAudit.Text.Split
/-!
# Proofs.Descriptor.ClassNames — the classes that a descriptor names

Renaming a type looks at nothing but the classes that it names: a renaming that is undone on those is undone on the type
(`mapClasses_back`).  A text is the descriptor of a method type, that of a field type, or no descriptor at all
(`descriptor_cases`), and it names the classes of its type.
-/
namespace RenameAudit

/-! ## Types -/

namespace FieldType

/-- The names of the classes in the type. -/
def classNames : FieldType → List String
  | base _ => []
  | object name => [name]
  | array component => component.classNames

variable {f g : String → String}

theorem writable_iff {t : FieldType} : t.Writable ↔ ∀ c ∈ t.classNames, IsClassName c := by
  induction t with
  | base b => exact iff_of_true trivial nofun
  | object name =>
    rw [classNames, List.forall_mem_singleton]
    rfl
  | array component ih => exact ih

@[simp] theorem classNames_mapClasses (t : FieldType) : (t.mapClasses f).classNames = t.classNames.map f := by
  induction t with
  | base b => rfl
  | object name => rfl
  | array component ih => exact ih

theorem writable_mapClasses {t : FieldType} (h : ∀ c ∈ t.classNames, IsClassName (f c)) : (t.mapClasses f).Writable := by
  rw [writable_iff, classNames_mapClasses, List.forall_mem_map]
  exact h

/-- **A renaming that is undone on the classes of a type is undone on the type.** -/
theorem mapClasses_back {t : FieldType} (h : ∀ c ∈ t.classNames, g (f c) = c) : (t.mapClasses f).mapClasses g = t := by
  induction t with
  | base b => rfl
  | object name => exact congrArg object (h name (List.mem_singleton_self name))
  | array component ih => exact congrArg array (ih h)

end FieldType

namespace ReturnType

/-- The names of the classes in the type. -/
def classNames : ReturnType → List String
  | void => []
  | value t => t.classNames

variable {f g : String → String}

theorem writable_iff {t : ReturnType} : t.Writable ↔ ∀ c ∈ t.classNames, IsClassName c := by
  cases t with
  | void => exact iff_of_true trivial nofun
  | value t => exact FieldType.writable_iff

@[simp] theorem classNames_mapClasses (t : ReturnType) : (t.mapClasses f).classNames = t.classNames.map f := by
  cases t with
  | void => rfl
  | value t => exact t.classNames_mapClasses

theorem mapClasses_back {t : ReturnType} (h : ∀ c ∈ t.classNames, g (f c) = c) : (t.mapClasses f).mapClasses g = t := by
  cases t with
  | void => rfl
  | value t => exact congrArg value (FieldType.mapClasses_back h)

end ReturnType

namespace MethodType

/-- The names of the classes in the type. -/
def classNames (m : MethodType) : List String :=
  m.params.flatMap FieldType.classNames ++ m.result.classNames

variable {f g : String → String}

theorem writable_iff {m : MethodType} : m.Writable ↔ ∀ c ∈ m.classNames, IsClassName c := by
  simp only [classNames, List.forall_mem_append, List.mem_flatMap, ← ReturnType.writable_iff]
  constructor
  · rintro ⟨hparams, hresult⟩
    exact ⟨fun c ⟨t, ht, hc⟩ => FieldType.writable_iff.1 (hparams t ht) c hc, hresult⟩
  · rintro ⟨hparams, hresult⟩
    exact ⟨fun t ht => FieldType.writable_iff.2 fun c hc => hparams c ⟨t, ht, hc⟩, hresult⟩

@[simp] theorem classNames_mapClasses (m : MethodType) : (m.mapClasses f).classNames = m.classNames.map f := by
  simp only [classNames, mapClasses, List.map_append, List.map_flatMap, List.flatMap_map,
    FieldType.classNames_mapClasses, ReturnType.classNames_mapClasses]

theorem writable_mapClasses {m : MethodType} (h : ∀ c ∈ m.classNames, IsClassName (f c)) :
    (m.mapClasses f).Writable := by
  rw [writable_iff, classNames_mapClasses, List.forall_mem_map]
  exact h

theorem mapClasses_back {m : MethodType} (h : ∀ c ∈ m.classNames, g (f c) = c) : (m.mapClasses f).mapClasses g = m := by
  obtain ⟨hparams, hresult⟩ := List.forall_mem_append.1 h
  have hback : (m.params.map (FieldType.mapClasses f)).map (FieldType.mapClasses g) = m.params := by
    rw [List.map_map]
    refine (List.map_congr_left fun t ht => ?_).trans (List.map_id m.params)
    exact FieldType.mapClasses_back fun c hc => hparams c (List.mem_flatMap.2 ⟨t, ht, hc⟩)
  cases m
  exact congr (congrArg mk hback) (ReturnType.mapClasses_back hresult)

end MethodType

/-! ## Texts -/

/-- The names of the classes in a descriptor; a text that is no descriptor names none. -/
def descriptorClasses (descriptor : String) : List String :=
  if Text.startsWith "(" descriptor.toList then
    match MethodType.parse? descriptor with
    | some m => m.classNames
    | none => []
  else
    match FieldType.parse descriptor with
    | .ok f => f.classNames
    | .error _ => []

/-- A text that is no descriptor: it does not read as a method type where it begins with a parenthesis, and not as a field
type where it does not. -/
def IsMalformed (descriptor : String) : Prop :=
  if Text.startsWith "(" descriptor.toList then MethodType.parse? descriptor = none
  else ∀ f, FieldType.parse descriptor ≠ .ok f

theorem MethodType.startsWith_text (m : MethodType) : Text.startsWith "(" m.text.toList = true := by
  rw [text, String.toList_ofList, chars]
  rfl

theorem FieldType.startsWith_text (t : FieldType) : Text.startsWith "(" t.text.toList = false := by
  obtain ⟨c, cs, hcs⟩ := List.exists_cons_of_ne_nil t.chars_ne_nil
  have hne : '(' ≠ c := fun h => (t.head_chars_ne hcs).1 h.symm
  rw [text, String.toList_ofList, hcs, Text.startsWith]
  simpa [List.isPrefixOf] using hne

/-- **A text is the descriptor of a method type, or that of a field type, or none.** -/
theorem descriptor_cases (descriptor : String) :
    (∃ m : MethodType, m.Writable ∧ descriptor = m.text) ∨ (∃ f : FieldType, f.Writable ∧ descriptor = f.text) ∨
      IsMalformed descriptor := by
  unfold IsMalformed
  split
  · cases hparse : MethodType.parse? descriptor with
    | none => exact .inr (.inr rfl)
    | some m =>
      obtain ⟨htext, hwritable⟩ := MethodType.text_of_parse? hparse
      exact .inl ⟨m, hwritable, htext.symm⟩
  · cases hparse : FieldType.parse descriptor with
    | error e => exact .inr (.inr fun f => nofun)
    | ok f =>
      obtain ⟨htext, hwritable⟩ := FieldType.text_of_parse hparse
      exact .inr (.inl ⟨f, hwritable, htext.symm⟩)

theorem MethodType.descriptorClasses_text {m : MethodType} (h : m.Writable) :
    descriptorClasses m.text = m.classNames := by
  rw [descriptorClasses, if_pos m.startsWith_text, m.parse?_text h]

theorem FieldType.descriptorClasses_text {f : FieldType} (h : f.Writable) :
    descriptorClasses f.text = f.classNames := by
  rw [descriptorClasses, if_neg (Bool.eq_false_iff.1 f.startsWith_text), f.parse_text h]

theorem descriptorClasses_malformed {descriptor : String} (h : IsMalformed descriptor) :
    descriptorClasses descriptor = [] := by
  unfold IsMalformed at h
  unfold descriptorClasses
  split at h
  · rename_i hopen
    rw [if_pos hopen, h]
  · rename_i hopen
    rw [if_neg hopen]
    cases hparse : FieldType.parse descriptor with
    | ok f => exact absurd hparse (h f)
    | error e => rfl

end RenameAudit
