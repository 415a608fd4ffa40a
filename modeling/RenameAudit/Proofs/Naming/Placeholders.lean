import Mathlib.Data.List.TakeWhile
import RenameAudit.Naming.Rules
import RenameAudit.Proofs.Text.Split
/-!
# Proofs.Naming.Placeholders — which names have a number

A placeholder is a prefix, the digits of a number of 64 bits, and then nothing more or an underscore and anything
(`IsPlaceholder`).  Of the prefixes in the rules the first with which a name begins decides
(`placeholderId?_eq_some_iff`).  Where no prefix begins another one there is no other to ask, and all placeholders are
found (`placeholderId?_eq_some_of_prefixFree`).  Where one does, it depends on their order which names have a number
(`prefixFree_iff_any_order`).
-/
namespace RenameAudit
namespace Text

/-! ## Digits -/

theorem number?_eq_some_iff {bound n : Nat} {cs : List Char} :
    number? bound cs = some n ↔
      cs ≠ [] ∧ (∀ c ∈ cs, c.isDigit = true) ∧ Nat.ofDigitChars 10 cs 0 = n ∧ n < bound := by
  have hdigit : ∀ c : Char, isDigit c = c.isDigit := fun c => rfl
  have hvalue : digitsValue cs = Nat.ofDigitChars 10 cs 0 := by
    simp only [digitsValue, Nat.ofDigitChars, Nat.mul_comm 10]
    rfl
  rw [number?, hvalue]
  simp only [Bool.and_eq_true, Bool.not_eq_true', List.isEmpty_eq_false_iff, List.all_eq_true, hdigit,
    decide_eq_true_eq, Option.ite_none_right_eq_some, Option.some.injEq]
  constructor
  · rintro ⟨⟨⟨hne, hdigits⟩, hlt⟩, rfl⟩
    exact ⟨hne, hdigits, rfl, hlt⟩
  · rintro ⟨hne, hdigits, rfl, hlt⟩
    exact ⟨⟨⟨hne, hdigits⟩, hlt⟩, rfl⟩

theorem le_ofDigitChars (cs : List Char) (n : Nat) : n ≤ Nat.ofDigitChars 10 cs n := by
  induction cs generalizing n with
  | nil => exact Nat.le_refl n
  | cons c cs ih =>
    rw [Nat.ofDigitChars_cons]
    exact Nat.le_trans (by omega) (ih (10 * n + (c.toNat - '0'.toNat)))

end Text

namespace NamingRules

open Text

/-! ## Placeholders -/

/-- A name is a placeholder with a prefix and a number: after the prefix stand decimal digits that write the number, which
has 64 bits, and after these nothing more or an underscore and anything. -/
def IsPlaceholder (start : String) (n : Nat) (name : String) : Prop :=
  ∃ digits rest : List Char, name.toList = start.toList ++ digits ++ rest ∧
    digits ≠ [] ∧ (∀ c ∈ digits, c.isDigit = true) ∧ (rest = [] ∨ rest.head? = some '_') ∧
    Nat.ofDigitChars 10 digits 0 = n ∧ n < UInt64.size

/-- The first of the prefixes with which a name begins. -/
def IsFirstFit (starts : List String) (start name : String) : Prop :=
  ∃ before after, starts = before ++ start :: after ∧ start.toList <+: name.toList ∧
    ∀ other ∈ before, ¬ other.toList <+: name.toList

/-- No prefix begins another one. -/
def PrefixFree (starts : List String) : Prop :=
  ∀ p ∈ starts, ∀ q ∈ starts, p.toList <+: q.toList → p = q

instance : DecidablePred PrefixFree :=
  fun starts => inferInstanceAs (Decidable (∀ p ∈ starts, ∀ q ∈ starts, p.toList <+: q.toList → p = q))

variable {starts : List String} {start longer name : String} {n : Nat}

theorem IsPlaceholder.fits (h : IsPlaceholder start n name) : start.toList <+: name.toList := by
  obtain ⟨digits, rest, hname, -⟩ := h
  exact ⟨digits ++ rest, by rw [hname, List.append_assoc]⟩

theorem isPlaceholder_iff {rest : List Char} (hname : name.toList = start.toList ++ rest) :
    IsPlaceholder start n name ↔ number? UInt64.size (rest.takeWhile (· != '_')) = some n := by
  rw [number?_eq_some_iff]
  constructor
  · rintro ⟨digits, rest', hname', hne, hdigits, hrest', hvalue, hlt⟩
    have hsep : '_' ∉ digits := fun hin => absurd (hdigits '_' hin) (by decide)
    have hrest : rest = digits ++ rest' := by
      rw [hname', List.append_assoc] at hname
      exact (List.append_cancel_left hname).symm
    rw [(takeWhile_bne_eq_iff hsep).2 ⟨rest', hrest, hrest'⟩]
    exact ⟨hne, hdigits, hvalue, hlt⟩
  · rintro ⟨hne, hdigits, hvalue, hlt⟩
    have hsep : '_' ∉ rest.takeWhile (· != '_') := fun hin => absurd (hdigits '_' hin) (by decide)
    obtain ⟨rest', hrest, hend⟩ := (takeWhile_bne_eq_iff hsep).1 rfl
    exact ⟨_, rest', by rw [hname, List.append_assoc, ← hrest], hne, hdigits, hend, hvalue, hlt⟩

/-! ## The prefix that decides -/

/-- **The first prefix with which a name begins decides** whether it has a number, and which. -/
theorem placeholderId?_eq_some_iff :
    placeholderId? starts name = some n ↔ ∃ start, IsFirstFit starts start name ∧ IsPlaceholder start n name := by
  constructor
  · intro h
    obtain ⟨rest, hfirst, hnumber⟩ := Option.bind_eq_some_iff.1 h
    obtain ⟨before, start, after, hsplit, hrest, hbefore⟩ := List.findSome?_eq_some_iff.1 hfirst
    have hname := after?_eq_some_iff.1 hrest
    exact ⟨start, ⟨before, after, hsplit, ⟨rest, hname.symm⟩, fun other hin => after?_eq_none_iff.1 (hbefore other hin)⟩,
      (isPlaceholder_iff hname).2 hnumber⟩
  · rintro ⟨start, ⟨before, after, hsplit, ⟨rest, hname⟩, hbefore⟩, hplaceholder⟩
    refine Option.bind_eq_some_iff.2 ⟨rest, List.findSome?_eq_some_iff.2 ⟨before, start, after, hsplit, ?_, ?_⟩, ?_⟩
    · exact after?_eq_some_iff.2 hname.symm
    · exact fun other hin => after?_eq_none_iff.2 (hbefore other hin)
    · exact (isPlaceholder_iff hname.symm).1 hplaceholder

theorem IsFirstFit.mem (h : IsFirstFit starts start name) : start ∈ starts := by
  obtain ⟨before, after, rfl, -⟩ := h
  exact List.mem_append_right before List.mem_cons_self

theorem IsFirstFit.fits (h : IsFirstFit starts start name) : start.toList <+: name.toList := by
  obtain ⟨before, after, -, hfit, -⟩ := h
  exact hfit

theorem exists_isFirstFit (hin : start ∈ starts) (hfit : start.toList <+: name.toList) :
    ∃ first, IsFirstFit starts first name := by
  have hfound : (starts.find? fun p => p.toList.isPrefixOf name.toList).isSome = true :=
    List.find?_isSome.2 ⟨start, hin, List.isPrefixOf_iff_prefix.2 hfit⟩
  obtain ⟨first, hfirst⟩ := Option.isSome_iff_exists.1 hfound
  obtain ⟨hfits, before, after, hsplit, hbefore⟩ := List.find?_eq_some_iff_append.1 hfirst
  refine ⟨first, before, after, hsplit, List.isPrefixOf_iff_prefix.1 hfits, fun other hother hother' => ?_⟩
  simpa [List.isPrefixOf_iff_prefix.2 hother'] using hbefore other hother

/-- Of two prefixes with which one name begins, one begins the other. -/
theorem PrefixFree.eq_of_fits (h : PrefixFree starts) {p q : String} (hp : p ∈ starts) (hq : q ∈ starts)
    (hpfit : p.toList <+: name.toList) (hqfit : q.toList <+: name.toList) : p = q := by
  rcases List.prefix_or_prefix_of_prefix hpfit hqfit with hle | hle
  · exact h p hp q hq hle
  · exact (h q hq p hp hle).symm

/-- **Where no prefix begins another one, all placeholders are found.** -/
theorem placeholderId?_eq_some_of_prefixFree (h : PrefixFree starts) :
    placeholderId? starts name = some n ↔ ∃ start ∈ starts, IsPlaceholder start n name := by
  rw [placeholderId?_eq_some_iff]
  constructor
  · rintro ⟨start, hfirst, hplaceholder⟩
    exact ⟨start, hfirst.mem, hplaceholder⟩
  · rintro ⟨start, hin, hplaceholder⟩
    obtain ⟨first, hfirst⟩ := exists_isFirstFit hin hplaceholder.fits
    obtain rfl := h.eq_of_fits hfirst.mem hin hfirst.fits hplaceholder.fits
    exact ⟨first, hfirst, hplaceholder⟩

/-! ## The order of the prefixes -/

theorem placeholderId?_cons_of_fits (hfit : start.toList <+: name.toList) :
    placeholderId? (start :: starts) name = some n ↔ IsPlaceholder start n name := by
  obtain ⟨rest, hname⟩ := hfit
  rw [isPlaceholder_iff hname.symm, placeholderId?, List.findSome?_cons, after?_eq_some_iff.2 hname.symm]
  rfl

theorem not_isPlaceholder_self : ¬ IsPlaceholder start n start := by
  rintro ⟨digits, rest, hname, hne, -⟩
  rw [List.append_assoc, List.self_eq_append_right] at hname
  exact hne (List.append_eq_nil_iff.1 hname).1

theorem isPlaceholder_append_one (start : String) : IsPlaceholder start 1 (start ++ "1") :=
  ⟨['1'], [], by simp, by simp, by simp, .inl rfl, rfl, by decide⟩

/-- **A beginning of a placeholder is a placeholder**, unless it is the prefix alone: digits that are cut off do not make
the number larger. -/
theorem IsPlaceholder.of_longer (h : IsPlaceholder start n name) (hlonger : longer.toList <+: name.toList)
    (hle : start.toList <+: longer.toList) (hne : start ≠ longer) : ∃ m, IsPlaceholder start m longer := by
  obtain ⟨digits, rest, hname, hdigits_ne, hdigits, hend, rfl, hlt⟩ := h
  obtain ⟨more, hmore⟩ := hle
  obtain ⟨cut, hcut⟩ := hlonger
  have hmore_ne : more ≠ [] := by
    rintro rfl
    exact hne (String.toList_inj.1 (by rw [← hmore, List.append_nil]))
  have hsplit : more ++ cut = digits ++ rest := by
    rw [← hcut, ← hmore, List.append_assoc, List.append_assoc] at hname
    exact List.append_cancel_left hname
  rcases List.append_eq_append_iff.1 hsplit with ⟨digits', rfl, -⟩ | ⟨rest', rfl, rfl⟩
  · -- What is left after the prefix are digits only.
    rw [Nat.ofDigitChars_append] at hlt
    exact ⟨_, more, [], by rw [hmore, List.append_nil], hmore_ne, fun c hc => hdigits c (List.mem_append_left _ hc),
      .inl rfl, rfl, Nat.lt_of_le_of_lt (le_ofDigitChars digits' _) hlt⟩
  · -- All digits are left.
    refine ⟨_, digits, rest', by rw [← hmore, List.append_assoc], hdigits_ne, hdigits, ?_, rfl, hlt⟩
    cases rest' with
    | nil => exact .inl rfl
    | cons c rest' => exact .inr (hend.resolve_left (List.cons_ne_nil c _))

/-- **A prefix that begins another one disagrees with it** about some name with which both begin. -/
theorem exists_told_apart (hle : start.toList <+: longer.toList) (hne : start ≠ longer) :
    ∃ name : String, longer.toList <+: name.toList ∧
      ¬ ((∃ n, IsPlaceholder start n name) ↔ ∃ n, IsPlaceholder longer n name) := by
  by_cases h : ∃ n, IsPlaceholder start n longer
  · exact ⟨longer, List.prefix_rfl, fun hiff => (hiff.1 h).elim fun _ => not_isPlaceholder_self⟩
  · refine ⟨longer ++ "1", by simp, fun hiff => ?_⟩
    obtain ⟨n, hn⟩ := hiff.2 ⟨1, isPlaceholder_append_one longer⟩
    exact h (hn.of_longer (by simp) hle hne)

theorem PrefixFree.perm {other : List String} (h : PrefixFree starts) (hperm : other.Perm starts) : PrefixFree other :=
  fun p hp q hq => h p (hperm.mem_iff.1 hp) q (hperm.mem_iff.1 hq)

/-- **The order of the prefixes is free exactly where no prefix begins another one.** -/
theorem prefixFree_iff_any_order :
    PrefixFree starts ↔ ∀ other : List String, other.Perm starts → ∀ name,
      ((∃ n, placeholderId? other name = some n) ↔ ∃ n, placeholderId? starts name = some n) := by
  constructor
  · intro h other hperm name
    simp only [placeholderId?_eq_some_of_prefixFree h, placeholderId?_eq_some_of_prefixFree (h.perm hperm), hperm.mem_iff]
  · intro h p hp q hq hle
    by_contra hne
    obtain ⟨name, hfit, hapart⟩ := exists_told_apart hle hne
    have hfirst : ∀ start ∈ starts, start.toList <+: name.toList →
        ((∃ n, IsPlaceholder start n name) ↔ ∃ n, placeholderId? starts name = some n) := by
      intro start hin hstart
      rw [← h (start :: starts.erase start) (List.perm_cons_erase hin).symm name]
      simp only [placeholderId?_cons_of_fits hstart]
    exact hapart ((hfirst p hp (hle.trans hfit)).trans (hfirst q hq hfit).symm)

/-! ## Methods and fields -/

/-- Methods and fields have prefixes of their own. -/
inductive Kind where
  | method
  | field
  deriving DecidableEq, Repr

/-- The prefixes of placeholders. -/
def Kind.prefixes (r : NamingRules) : Kind → List String
  | method => r.methodPrefixes
  | field => r.fieldPrefixes

/-- The number of a placeholder name. -/
def Kind.id? (r : NamingRules) (name : String) : Kind → Option Nat
  | method => r.methodId? name
  | field => r.fieldId? name

/-- The rules with other prefixes. -/
def Kind.withPrefixes (r : NamingRules) (starts : List String) : Kind → NamingRules
  | method => { r with methodPrefixes := starts }
  | field => { r with fieldPrefixes := starts }

theorem Kind.id?_eq (r : NamingRules) (name : String) (kind : Kind) :
    kind.id? r name = placeholderId? (kind.prefixes r) name := by
  cases kind <;> rfl

theorem Kind.prefixes_withPrefixes (r : NamingRules) (starts : List String) (kind : Kind) :
    kind.prefixes (kind.withPrefixes r starts) = starts := by
  cases kind <;> rfl

/-- **Which names have a number**, for methods and for fields.  The first prefix that fits decides.  All placeholders are
found where no prefix begins another one, and exactly then the order of the prefixes does not matter. -/
theorem numbers_recognised (r : NamingRules) (kind : Kind) :
    (∀ name n, kind.id? r name = some n ↔
      ∃ start, IsFirstFit (kind.prefixes r) start name ∧ IsPlaceholder start n name) ∧
    (PrefixFree (kind.prefixes r) →
      ∀ name n, kind.id? r name = some n ↔ ∃ start ∈ kind.prefixes r, IsPlaceholder start n name) ∧
    (PrefixFree (kind.prefixes r) ↔ ∀ s : NamingRules, (kind.prefixes s).Perm (kind.prefixes r) → ∀ name,
      ((∃ n, kind.id? s name = some n) ↔ ∃ n, kind.id? r name = some n)) := by
  simp only [Kind.id?_eq]
  refine ⟨fun name n => placeholderId?_eq_some_iff, fun h name n => placeholderId?_eq_some_of_prefixFree h, ?_⟩
  rw [prefixFree_iff_any_order]
  constructor
  · exact fun h s hperm => h (kind.prefixes s) hperm
  · intro h other hperm
    have hother := kind.prefixes_withPrefixes r other
    have hany := h (kind.withPrefixes r other)
    rw [hother] at hany
    exact hany hperm

/-- The prefixes that hold where nothing else is said find the number of a placeholder in any order. -/
theorem default_numbers_recognised :
    PrefixFree default.methodPrefixes ∧ default.methodId? "func_1234_a" = some 1234 ∧
    ["m_", "func_"].Perm default.methodPrefixes ∧
    (methodId? { default with methodPrefixes := ["m_", "func_"] } "func_1234_a").isSome = true := by
  have hfree : PrefixFree default.methodPrefixes := by decide
  have hperm : ["m_", "func_"].Perm default.methodPrefixes := by decide
  obtain ⟨-, hfound, horder⟩ := numbers_recognised default .method
  have hid : default.methodId? "func_1234_a" = some 1234 :=
    (hfound hfree "func_1234_a" 1234).2 ⟨"func_", by decide, ['1', '2', '3', '4'], ['_', 'a'], by decide, by decide,
      by simp, .inr rfl, by decide, by decide⟩
  refine ⟨hfree, hid, hperm, Option.isSome_iff_exists.2 ?_⟩
  exact (horder.1 hfree { default with methodPrefixes := ["m_", "func_"] } hperm "func_1234_a").2 ⟨1234, hid⟩

/-- A prefix and the same prefix with an underscore. -/
def shorterFirst : NamingRules :=
  { default with methodPrefixes := ["func", "func_"] }

/-- **A number is missed** that a later prefix would find: the name begins with an earlier one, but has no digits after it.
In the other order of the prefixes the number is found. -/
theorem number_missed_behind_shorter :
    "func_" ∈ shorterFirst.methodPrefixes ∧ IsPlaceholder "func_" 2 "func_2" ∧
    shorterFirst.methodId? "func_2" = none ∧
    ["func_", "func"].Perm shorterFirst.methodPrefixes ∧
    methodId? { shorterFirst with methodPrefixes := ["func_", "func"] } "func_2" = some 2 :=
  ⟨by decide, ⟨['2'], [], by decide, by decide, by simp, .inl rfl, by decide, by decide⟩, by decide, by decide, by decide⟩

end NamingRules
end RenameAudit
