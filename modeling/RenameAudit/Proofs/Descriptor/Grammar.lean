import Mathlib.Data.String.Basic
import RenameAudit.Proofs.Descriptor.ClassNames
/-!
# Proofs.Descriptor.Grammar — which texts are descriptors

The grammar of descriptors says what a field descriptor and a method descriptor look like, without types.  A text follows
it exactly when it is the text of a type whose class names can stand in a descriptor (`fieldDescriptor_iff`,
`methodDescriptor_iff`), and reading finds that type (`FieldType.parse_eq_ok`, `MethodType.parse_eq_ok`).  So reading
accepts the grammar and nothing else, and undoes writing (`descriptors_read_exactly`).
-/
namespace RenameAudit

/-! ## The grammar -/

/-- **A field descriptor**: the letter of a base type, a class name between `L` and a semicolon, or an opening bracket
before a field descriptor.  A class name has a character, and may have any but the semicolon. -/
inductive FieldDescriptor : List Char → Prop
  | base {c : Char} (h : c ∈ ['B', 'C', 'D', 'F', 'I', 'J', 'S', 'Z']) : FieldDescriptor [c]
  | object {name : List Char} (hne : name ≠ []) (hplain : ';' ∉ name) : FieldDescriptor ('L' :: (name ++ [';']))
  | array {component : List Char} (h : FieldDescriptor component) : FieldDescriptor ('[' :: component)

/-- **A method descriptor**: field descriptors in parentheses, then `V` or a field descriptor. -/
inductive MethodDescriptor : List Char → Prop
  | mk {params : List (List Char)} {result : List Char} (hparams : ∀ p ∈ params, FieldDescriptor p)
      (hresult : result = ['V'] ∨ FieldDescriptor result) : MethodDescriptor ('(' :: (params.flatten ++ ')' :: result))

/-! ## The grammar and the types -/

theorem BaseType.exists_letter {c : Char} (h : c ∈ ['B', 'C', 'D', 'F', 'I', 'J', 'S', 'Z']) :
    ∃ b : BaseType, b.letter = c := by
  simp only [List.mem_cons, List.not_mem_nil, or_false] at h
  rcases h with rfl | rfl | rfl | rfl | rfl | rfl | rfl | rfl
  exacts [⟨.byte, rfl⟩, ⟨.char, rfl⟩, ⟨.double, rfl⟩, ⟨.float, rfl⟩, ⟨.int, rfl⟩, ⟨.long, rfl⟩, ⟨.short, rfl⟩,
    ⟨.boolean, rfl⟩]

theorem FieldType.fieldDescriptor_chars {t : FieldType} (h : t.Writable) : FieldDescriptor t.chars := by
  induction t with
  | base b => exact .base (by cases b <;> decide)
  | object name => exact .object (fun hnil => h.1 (String.toList_eq_nil_iff.1 hnil)) h.2
  | array component ih => exact .array (ih h)

/-- **The field descriptors are the texts of the types** whose class names can stand in one. -/
theorem fieldDescriptor_iff {s : List Char} : FieldDescriptor s ↔ ∃ t : FieldType, t.Writable ∧ t.chars = s := by
  constructor
  · intro h
    induction h with
    | base h =>
      obtain ⟨b, hb⟩ := BaseType.exists_letter h
      exact ⟨.base b, trivial, congrArg ([·]) hb⟩
    | @object name hne hplain =>
      refine ⟨.object (String.ofList name), ⟨fun hempty => hne ?_, ?_⟩, ?_⟩
      · rw [← String.toList_ofList (l := name), hempty]
        rfl
      · rwa [String.toList_ofList]
      · rw [FieldType.chars, String.toList_ofList]
    | array _ ih =>
      obtain ⟨t, ht, hchars⟩ := ih
      exact ⟨.array t, ht, congrArg ('[' :: ·) hchars⟩
  · rintro ⟨t, ht, rfl⟩
    exact t.fieldDescriptor_chars ht

theorem resultDescriptor_iff {s : List Char} :
    s = ['V'] ∨ FieldDescriptor s ↔ ∃ r : ReturnType, r.Writable ∧ r.chars = s := by
  constructor
  · rintro (rfl | h)
    · exact ⟨.void, trivial, rfl⟩
    · obtain ⟨t, ht, rfl⟩ := fieldDescriptor_iff.1 h
      exact ⟨.value t, ht, rfl⟩
  · rintro ⟨r, hr, rfl⟩
    cases r with
    | void => exact .inl rfl
    | value t => exact .inr (t.fieldDescriptor_chars hr)

theorem exists_params {texts : List (List Char)} (h : ∀ p ∈ texts, FieldDescriptor p) :
    ∃ params : List FieldType, (∀ t ∈ params, t.Writable) ∧ params.map FieldType.chars = texts := by
  induction texts with
  | nil => exact ⟨[], fun t ht => absurd ht List.not_mem_nil, rfl⟩
  | cons p rest ih =>
    obtain ⟨hp, hrest⟩ := List.forall_mem_cons.1 h
    obtain ⟨t, ht, rfl⟩ := fieldDescriptor_iff.1 hp
    obtain ⟨params, hparams, rfl⟩ := ih hrest
    exact ⟨t :: params, List.forall_mem_cons.2 ⟨ht, hparams⟩, rfl⟩

/-- **The method descriptors are the texts of the method types** whose class names can stand in one. -/
theorem methodDescriptor_iff {s : List Char} : MethodDescriptor s ↔ ∃ m : MethodType, m.Writable ∧ m.chars = s := by
  constructor
  · rintro ⟨hparams, hresult⟩
    obtain ⟨params, hwritable, rfl⟩ := exists_params hparams
    obtain ⟨result, hr, rfl⟩ := resultDescriptor_iff.1 hresult
    exact ⟨⟨params, result⟩, ⟨hwritable, hr⟩, by rw [MethodType.chars, List.flatMap_def]⟩
  · rintro ⟨m, hm, rfl⟩
    rw [MethodType.chars, List.flatMap_def]
    refine .mk (fun p hp => ?_) (resultDescriptor_iff.2 ⟨m.result, hm.result, rfl⟩)
    obtain ⟨t, ht, rfl⟩ := List.mem_map.1 hp
    exact t.fieldDescriptor_chars (hm.params t ht)

/-! ## Reading -/

/-- **Reading a field descriptor finds the one type with that text.** -/
theorem FieldType.parse_eq_ok {s : String} {t : FieldType} : parse s = .ok t ↔ t.Writable ∧ t.text = s := by
  constructor
  · exact fun h => (text_of_parse h).symm
  · rintro ⟨ht, rfl⟩
    exact t.parse_text ht

theorem MethodType.parse_eq_ok_iff {s : String} {m : MethodType} : parse s = .ok m ↔ parse? s = some m := by
  rw [parse]
  cases parse? s <;> simp

/-- **Reading a method descriptor finds the one method type with that text.** -/
theorem MethodType.parse_eq_ok {s : String} {m : MethodType} : parse s = .ok m ↔ m.Writable ∧ m.text = s := by
  rw [parse_eq_ok_iff]
  constructor
  · exact fun h => (text_of_parse? h).symm
  · rintro ⟨hm, rfl⟩
    exact m.parse?_text hm

/-- **Reading accepts exactly the descriptors, and is inverse to writing**: a text is read as a field type or a method type
when it follows the grammar of field or method descriptors, and refused when it does not; what is read is written as that
text again, and a type whose class names have a character and no semicolon is read back from its text. -/
theorem descriptors_read_exactly :
    (∀ s, (∃ t, FieldType.parse s = .ok t) ↔ FieldDescriptor s.toList) ∧
      (∀ s, (∃ m, MethodType.parse s = .ok m) ↔ MethodDescriptor s.toList) ∧
      (∀ s t, FieldType.parse s = .ok t → t.text = s) ∧ (∀ s m, MethodType.parse s = .ok m → m.text = s) ∧
      (∀ t : FieldType, (∀ c ∈ t.classNames, c ≠ "" ∧ ';' ∉ c.toList) → FieldType.parse t.text = .ok t) ∧
      ∀ m : MethodType, (∀ c ∈ m.classNames, c ≠ "" ∧ ';' ∉ c.toList) → MethodType.parse m.text = .ok m := by
  refine ⟨fun s => ?_, fun s => ?_, fun s t h => (FieldType.parse_eq_ok.1 h).2, fun s m h => (MethodType.parse_eq_ok.1 h).2,
    fun t h => FieldType.parse_eq_ok.2 ⟨FieldType.writable_iff.2 h, rfl⟩,
    fun m h => MethodType.parse_eq_ok.2 ⟨MethodType.writable_iff.2 h, rfl⟩⟩
  · rw [fieldDescriptor_iff]
    exact exists_congr fun t => FieldType.parse_eq_ok.trans (and_congr_right fun _ => String.ofList_eq)
  · rw [methodDescriptor_iff]
    exact exists_congr fun m => MethodType.parse_eq_ok.trans (and_congr_right fun _ => String.ofList_eq)

/-- Parentheses and the letters of other types may stand in a class name. -/
example : MethodType.parse "(L(I)V;[[J)V" = .ok ⟨[.object "(I)V", .array (.array (.base .long))], .void⟩ := by
  cbv

end RenameAudit
