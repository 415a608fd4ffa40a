import Mathlib.Data.List.Basic
import RenameAudit.Descriptor.Parser
/-!
# Proofs.Descriptor.Texts — a descriptor and its type

Reading takes exactly the texts of types whose class names can stand in a descriptor: what is written is read back
(`parse?_text`), and a text that is read is that of its type (`text_of_parse?`).  So renaming the classes of a descriptor
renames those of its type.
-/
namespace RenameAudit

/-- A name that can stand in a descriptor: it has a character, and none that would end it. -/
def IsClassName (name : String) : Prop :=
  name ≠ "" ∧ ';' ∉ name.toList

namespace FieldType

/-- All class names of the type can stand in a descriptor. -/
def Writable : FieldType → Prop
  | base _ => True
  | object name => IsClassName name
  | array component => component.Writable

theorem takeWhile_name {name : List Char} (h : ';' ∉ name) (rest : List Char) :
    (name ++ ';' :: rest).takeWhile (· != ';') = name ∧ (name ++ ';' :: rest).dropWhile (· != ';') = ';' :: rest := by
  have hname : ∀ c ∈ name, (c != ';') = true := fun c hc => bne_iff_ne.2 fun he => h (he ▸ hc)
  rw [List.takeWhile_append_of_pos hname, List.dropWhile_append_of_pos hname]
  simp

/-- **What is written is read back**, whatever follows. -/
theorem read_chars (t : FieldType) (h : t.Writable) (rest : List Char) : read (t.chars ++ rest) = .ok (t, rest) := by
  induction t with
  | base b => cases b <;> rfl
  | object name =>
    obtain ⟨hne, hplain⟩ := h
    have hchars : name.toList ≠ [] := fun hnil => hne (String.toList_eq_nil_iff.1 hnil)
    obtain ⟨c, cs, hcs⟩ := List.exists_cons_of_ne_nil hchars
    have hsplit := takeWhile_name hplain rest
    have htext : (object name).chars ++ rest = 'L' :: (name.toList ++ ';' :: rest) := by
      rw [chars, List.cons_append, List.append_assoc]
      rfl
    rw [htext, read, hsplit.1, hsplit.2, hcs]
    dsimp only
    rw [← hcs, String.ofList_toList]
  | array component ih =>
    have htext : (array component).chars ++ rest = '[' :: (component.chars ++ rest) := rfl
    rw [htext, read, ih h]

/-- **A text that is read is that of its type**, and what is left. -/
theorem chars_of_read : ∀ {s : List Char} {t : FieldType} {rest : List Char}, read s = .ok (t, rest) →
    s = t.chars ++ rest ∧ t.Writable
  | [], _, _, h => by simp [read] at h
  | c :: cs, t, rest, h => by
    unfold read at h
    split at h
    · simp at h
    · rename_i heq
      cases heq
      split at h
      · rename_i component rest' hr
        cases h
        obtain ⟨hs, ht⟩ := chars_of_read hr
        exact ⟨congrArg ('[' :: ·) hs, ht⟩
      · cases h
    · rename_i heq
      cases heq
      split at h
      · rename_i c' name d rest' htake hdrop
        cases h
        have hsplit := List.takeWhile_append_dropWhile (p := (· != ';')) (l := cs)
        have hd : d = ';' := by
          have := List.head?_dropWhile_not (· != ';') cs
          rw [hdrop] at this
          simpa using this
        have hplain : ';' ∉ c' :: name := fun hin => by
          have hall : (c' :: name).all (· != ';') = true := htake ▸ List.all_takeWhile
          exact absurd rfl (bne_iff_ne.1 (List.all_eq_true.1 hall _ hin))
        refine ⟨?_, fun hempty => ?_, by rwa [String.toList_ofList]⟩
        · rw [chars, String.toList_ofList, List.cons_append, List.append_assoc, ← hsplit, htake, hdrop, hd]
          rfl
        · have hnil := congrArg String.toList hempty
          rw [String.toList_ofList] at hnil
          cases hnil
      · cases h
    · rename_i heq
      cases heq
      split at h
      · rename_i b hb
        cases h
        exact ⟨by rw [chars, BaseType.letter_eq_of_ofLetter? hb]; rfl, trivial⟩
      · cases h

theorem parse_text (t : FieldType) (h : t.Writable) : parse t.text = .ok t := by
  have hread := read_chars t h []
  rw [List.append_nil] at hread
  rw [parse, text, String.toList_ofList, hread]

theorem text_of_parse {s : String} {t : FieldType} (h : parse s = .ok t) : t.text = s ∧ t.Writable := by
  unfold parse at h
  split at h
  · rename_i t' hread
    cases h
    obtain ⟨hchars, hwritable⟩ := chars_of_read hread
    rw [List.append_nil] at hchars
    exact ⟨by rw [text, ← hchars, String.ofList_toList], hwritable⟩
  · cases h
  · cases h

/-- A type does not begin with a parenthesis. -/
theorem head_chars_ne (t : FieldType) {c : Char} {rest : List Char} (h : t.chars = c :: rest) :
    c ≠ '(' ∧ c ≠ ')' ∧ c ≠ 'V' := by
  cases t with
  | base b => cases b <;> cases h <;> decide
  | object name => cases h; decide
  | array component => cases h; decide

theorem Writable.mapClasses {t : FieldType} (h : t.Writable) {f : String → String}
    (hf : ∀ name, IsClassName name → IsClassName (f name)) : (t.mapClasses f).Writable := by
  induction t with
  | base b => trivial
  | object name => exact hf name h
  | array component ih => exact ih h

theorem mapClasses_injective {f : String → String} (hf : ∀ a b, f a = f b → a = b) {t t' : FieldType}
    (h : t.mapClasses f = t'.mapClasses f) : t = t' := by
  induction t generalizing t' with
  | base b =>
    cases t' with
    | base b' => exact h
    | object name' => cases h
    | array component' => cases h
  | object name =>
    cases t' with
    | base b' => cases h
    | object name' => exact congrArg object (hf _ _ (FieldType.object.inj h))
    | array component' => cases h
  | array component ih =>
    cases t' with
    | base b' => cases h
    | object name' => cases h
    | array component' => exact congrArg array (ih (FieldType.array.inj h))

end FieldType

namespace ReturnType

/-- All class names of the type can stand in a descriptor. -/
def Writable : ReturnType → Prop
  | void => True
  | value t => t.Writable

theorem Writable.mapClasses {t : ReturnType} (h : t.Writable) {f : String → String}
    (hf : ∀ name, IsClassName name → IsClassName (f name)) : (t.mapClasses f).Writable := by
  cases t with
  | void => trivial
  | value t => exact FieldType.Writable.mapClasses h hf

theorem mapClasses_injective {f : String → String} (hf : ∀ a b, f a = f b → a = b) {t t' : ReturnType}
    (h : t.mapClasses f = t'.mapClasses f) : t = t' := by
  cases t with
  | void =>
    cases t' with
    | void => rfl
    | value t' => cases h
  | value t =>
    cases t' with
    | void => cases h
    | value t' => exact congrArg value (FieldType.mapClasses_injective hf (ReturnType.value.inj h))

end ReturnType

namespace MethodType

/-- All class names of the type can stand in a descriptor. -/
structure Writable (m : MethodType) : Prop where
  params : ∀ t ∈ m.params, t.Writable
  result : m.result.Writable

theorem readParams_of_read {s rest : List Char} {t : FieldType} (hs : ∀ cs, s ≠ ')' :: cs)
    (h : FieldType.read s = .ok (t, rest)) :
    readParams s = (readParams rest).map fun (ts, rest') => (t :: ts, rest') := by
  rw [readParams.eq_2 s fun cs hcs => hs cs hcs]
  split
  · rename_i heq
    rw [h] at heq
    cases heq
    rfl
  · rename_i heq
    rw [h] at heq
    cases heq

theorem readParams_chars (params : List FieldType) (h : ∀ t ∈ params, t.Writable) (rest : List Char) :
    readParams (params.flatMap FieldType.chars ++ ')' :: rest) = some (params, rest) := by
  induction params with
  | nil => rw [List.flatMap_nil, List.nil_append, readParams]
  | cons t params ih =>
    have hrest := ih fun u hu => h u (List.mem_cons_of_mem _ hu)
    have hread := t.read_chars (h t List.mem_cons_self) (params.flatMap FieldType.chars ++ ')' :: rest)
    obtain ⟨c, cs, hcs⟩ := List.exists_cons_of_ne_nil t.chars_ne_nil
    rw [List.flatMap_cons, List.append_assoc, readParams_of_read (fun cs' hcs' => ?_) hread, hrest]
    · rfl
    · rw [hcs, List.cons_append] at hcs'
      exact (t.head_chars_ne hcs).2.1 (List.cons.inj hcs').1

theorem chars_of_readParams {s : List Char} {params : List FieldType} {rest : List Char}
    (h : readParams s = some (params, rest)) :
    s = params.flatMap FieldType.chars ++ ')' :: rest ∧ ∀ t ∈ params, t.Writable := by
  fun_induction readParams s generalizing params rest with
  | case1 cs =>
    cases h
    exact ⟨rfl, fun t ht => absurd ht List.not_mem_nil⟩
  | case2 s _ t rest' hread ih =>
    obtain ⟨⟨params', rest''⟩, hrest, heq⟩ := Option.map_eq_some_iff.1 h
    cases heq
    obtain ⟨hs, ht⟩ := FieldType.chars_of_read hread
    obtain ⟨hrest', hparams⟩ := ih hrest
    refine ⟨?_, fun u hu => ?_⟩
    · rw [List.flatMap_cons, List.append_assoc, ← hrest', ← hs]
    · rcases List.mem_cons.1 hu with rfl | hu
      · exact ht
      · exact hparams u hu
  | case3 => cases h

theorem readResult_chars (result : ReturnType) (h : result.Writable) : readResult result.chars = some result := by
  cases result with
  | void => rfl
  | value t =>
    have hread := t.read_chars h []
    rw [List.append_nil] at hread
    obtain ⟨c, cs, hcs⟩ := List.exists_cons_of_ne_nil t.chars_ne_nil
    have hne := (t.head_chars_ne hcs).2.2
    have hchars : (ReturnType.value t).chars = t.chars := rfl
    rw [hchars, readResult.eq_3 _ (fun hv => ?_) fun cs' hv => ?_, hread]
    · rw [hcs] at hv
      exact hne (List.cons.inj hv).1
    · rw [hcs] at hv
      exact hne (List.cons.inj hv).1

theorem chars_of_readResult {s : List Char} {result : ReturnType} (h : readResult s = some result) :
    s = result.chars ∧ result.Writable := by
  unfold readResult at h
  split at h
  · cases h
    exact ⟨rfl, trivial⟩
  · cases h
  · split at h
    · rename_i t hread
      cases h
      obtain ⟨hs, ht⟩ := FieldType.chars_of_read hread
      exact ⟨hs.trans (List.append_nil _), ht⟩
    · cases h

/-- **What is written is read back.** -/
theorem parse?_text (m : MethodType) (h : m.Writable) : parse? m.text = some m := by
  rw [parse?, text, String.toList_ofList, chars]
  have hparams := readParams_chars m.params h.params m.result.chars
  simp only [hparams, readResult_chars m.result h.result, Option.map_some]

/-- **A text that is read is that of its type.** -/
theorem text_of_parse? {s : String} {m : MethodType} (h : parse? s = some m) : m.text = s ∧ m.Writable := by
  unfold parse? at h
  split at h
  · rename_i rest heq
    split at h
    · rename_i params rest' hparams
      obtain ⟨result, hresult, rfl⟩ := Option.map_eq_some_iff.1 h
      obtain ⟨hrest, hwritable⟩ := chars_of_readParams hparams
      obtain ⟨hrest', hwritable'⟩ := chars_of_readResult hresult
      refine ⟨?_, hwritable, hwritable'⟩
      rw [text, chars, ← hrest', ← hrest, ← heq, String.ofList_toList]
    · cases h
  · cases h

theorem Writable.mapClasses {m : MethodType} (h : m.Writable) {f : String → String}
    (hf : ∀ name, IsClassName name → IsClassName (f name)) : (m.mapClasses f).Writable where
  params t ht := by
    obtain ⟨u, hu, rfl⟩ := List.mem_map.1 ht
    exact (h.params u hu).mapClasses hf
  result := h.result.mapClasses hf

theorem mapClasses_injective {f : String → String} (hf : ∀ a b, f a = f b → a = b) {m m' : MethodType}
    (h : m.mapClasses f = m'.mapClasses f) : m = m' := by
  obtain ⟨hparams, hresult⟩ := MethodType.mk.inj h
  cases m
  cases m'
  rw [MethodType.mk.injEq]
  exact ⟨List.map_injective_iff.2 (fun _ _ => FieldType.mapClasses_injective hf) hparams,
    ReturnType.mapClasses_injective hf hresult⟩

end MethodType
end RenameAudit
