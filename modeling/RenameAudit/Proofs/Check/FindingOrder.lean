import RenameAudit.Check.Finding
import RenameAudit.Proofs.Sets.Members
/-!
# Proofs.Check.FindingOrder — the order tells findings apart

Findings that compare as equal are equal, so a sorted set of findings loses none.  A sorted list of findings ascends
(`Finding.pairwise_sorted`).
-/
namespace RenameAudit

open Std

theorem AccessLevel.eq_of_rank {a b : AccessLevel} (h : a.rank = b.rank) : a = b := by
  cases a <;> cases b <;> first | rfl | cases h

theorem DuplicateReason.eq_of_rank {a b : DuplicateReason} (h : a.rank = b.rank) : a = b := by
  cases a <;> cases b <;> first | rfl | cases h

theorem MethodClash.eq_of_texts {a b : MethodClash} (h : a.texts = b.texts) : a = b := by
  cases a
  cases b
  simpa [texts] using h

namespace Finding

/-- **A finding is determined by what it is compared by.** -/
theorem eq_of_parts {a b : Finding} (hrank : a.rank = b.rank) (hhead : a.headNumbers = b.headNumbers)
    (htexts : a.texts = b.texts) (htail : a.tailNumbers = b.tailNumbers) : a = b := by
  cases a <;> cases b <;> try cases hrank
  case invalidAccess =>
    simp only [texts, List.cons.injEq, tailNumbers] at htexts htail
    obtain ⟨⟨ha, -⟩, ⟨ht, -⟩, -⟩ := htexts
    rw [ha, ht, AccessLevel.eq_of_rank htail.1]
  case fieldShade => simpa [texts] using htexts
  case methodShade => exact congrArg _ (MethodClash.eq_of_texts (List.cons.inj htexts).1)
  case badOverride => exact congrArg _ (MethodClash.eq_of_texts (List.cons.inj htexts).1)
  case overrideMismatch groups groups' =>
    refine congrArg _ ((List.map_inj_right fun g g' hg => ?_).1 htexts)
    cases g
    cases g'
    simpa using hg
  case duplicateId =>
    simp only [texts, headNumbers, List.cons.injEq] at htexts hhead
    obtain ⟨hn, hm, -⟩ := htexts
    rw [hhead.1, hn, hm, DuplicateReason.eq_of_rank hhead.2.1]
  case missingConstructor => simpa [texts] using htexts
  case duplicateConstructor =>
    simp only [texts, List.cons.injEq] at htexts
    rw [htexts.1.1, (List.map_inj_right fun _ _ => UInt32.toNat_inj.1).1 htail]
  case misnamedClass => simpa [texts] using htexts
  case unnamedClass => simpa [texts] using htexts

instance : LawfulEqOrd Finding where
  eq_of_compare {a b} h := by
    have hcompare : compare a b = (compare a.rank b.rank).then ((compare a.headNumbers b.headNumbers).then
        ((compare a.texts b.texts).then (compare a.tailNumbers b.tailNumbers))) := rfl
    rw [hcompare, Ordering.then_eq_eq, Ordering.then_eq_eq, Ordering.then_eq_eq] at h
    exact eq_of_parts (Std.compare_eq_iff_eq.1 h.1) (Std.compare_eq_iff_eq.1 h.2.1) (Std.compare_eq_iff_eq.1 h.2.2.1)
      (Std.compare_eq_iff_eq.1 h.2.2.2)
  compare_self := ReflCmp.compare_self

/-- **Sorted findings are in their order.** -/
theorem pairwise_sorted (findings : List Finding) : (sorted findings).Pairwise fun a b => (compare a b).isLE = true := by
  have htrans : ∀ a b c : Finding, (compare a b).isLE = true → (compare b c).isLE = true → (compare a c).isLE = true :=
    fun a b c => TransCmp.isLE_trans
  have htotal : ∀ a b : Finding, ((compare a b).isLE || (compare b a).isLE) = true := fun a b => by
    rw [OrientedOrd.eq_swap]
    cases compare b a <;> rfl
  exact List.pairwise_mergeSort htrans htotal findings

end Finding
end RenameAudit
