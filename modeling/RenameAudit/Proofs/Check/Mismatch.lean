import RenameAudit.Check.OverrideNames
import RenameAudit.Proofs.Check.FindingOrder
/-!
# Proofs.Check.Mismatch — methods with more than one new name

Methods that should have one new name are told apart by the names they get.  Where there is no finding they have one
name (`mapped_eq_of_no_mismatch`); where two get different names, there is one finding with both, in two groups
(`mismatch_of_mapped_ne`); and a finding has nothing else (`groups_of_mismatch`).
-/
namespace RenameAudit
namespace OverrideNames

open Std

variable {ctx : CheckContext}

theorem mem_byMappedName {methods : List MemberRef} {name : String} {r : MemberRef} :
    r ∈ (byMappedName ctx methods).getD name ∅ ↔ r ∈ methods ∧ ctx.mappedMethod r = name := by
  have hgo : ∀ (methods : List MemberRef) (groups : ExtTreeMap String MethodSet),
      r ∈ (methods.foldl (fun groups m => groups.insert (ctx.mappedMethod m)
          ((groups.getD (ctx.mappedMethod m) ∅).insert m)) groups).getD name ∅ ↔
        r ∈ groups.getD name ∅ ∨ (r ∈ methods ∧ ctx.mappedMethod r = name) := by
    intro methods
    induction methods with
    | nil => simp
    | cons m rest ih =>
      intro groups
      rw [List.foldl_cons, ih, getD_insert_eq, List.mem_cons]
      by_cases hname : name = ctx.mappedMethod m
      · subst hname
        rw [if_pos rfl, mem_set_insert_iff]
        constructor
        · rintro ((rfl | h) | h)
          · exact .inr ⟨.inl rfl, rfl⟩
          · exact .inl h
          · exact .inr ⟨.inr h.1, h.2⟩
        · rintro (h | ⟨rfl | h, hr⟩)
          · exact .inl (.inr h)
          · exact .inl (.inl rfl)
          · exact .inr ⟨h, hr⟩
      · rw [if_neg hname]
        refine or_congr Iff.rfl ⟨fun h => ⟨.inr h.1, h.2⟩, ?_⟩
        rintro ⟨rfl | h, hr⟩
        · exact absurd hr.symm hname
        · exact ⟨h, hr⟩
  rw [byMappedName, hgo]
  exact ⟨fun h => h.elim (fun h => absurd h ExtTreeSet.not_mem_empty) id, .inr⟩

/-- No new name stands without a method. -/
theorem exists_mem_byMappedName {methods : List MemberRef} {name : String} {set : MethodSet}
    (h : (byMappedName ctx methods)[name]? = some set) : ∃ r, r ∈ set := by
  have hall : ∀ (name : String) (set : MethodSet), (byMappedName ctx methods)[name]? = some set → ∃ r, r ∈ set := by
    refine List.foldlRecOn (motive := fun groups : ExtTreeMap String MethodSet =>
      ∀ (name : String) (set : MethodSet), groups[name]? = some set → ∃ r, r ∈ set) methods _ ?_ ?_
    · exact fun name set h => absurd (mem_of_getElem? h) ExtTreeMap.not_mem_empty
    · intro groups ih m _ name set h
      rw [getElem?_insert_eq] at h
      split at h
      · cases h
        exact ⟨m, mem_set_insert_iff.2 (.inl rfl)⟩
      · exact ih name set h
  exact hall name set h

/-- The groups by their new names. -/
def groupsOf (ctx : CheckContext) (methods : List MemberRef) : List MappedGroup :=
  (byMappedName ctx methods).toList.map fun (mapped, methods) => ⟨mapped, methods.toList.map (·.text)⟩

theorem mem_groupsOf {methods : List MemberRef} {g : MappedGroup} :
    g ∈ groupsOf ctx methods ↔
      ∃ set, (byMappedName ctx methods)[g.mapped]? = some set ∧ g.methods = set.toList.map (·.text) := by
  simp only [groupsOf, List.mem_map, Prod.exists, ExtTreeMap.mem_toList_iff_getElem?_eq_some]
  constructor
  · rintro ⟨mapped, set, h, rfl⟩
    exact ⟨set, h, rfl⟩
  · rintro ⟨set, h, hg⟩
    exact ⟨g.mapped, set, h, by rw [← hg]⟩

theorem mem_group {methods : List MemberRef} {g : MappedGroup} (hg : g ∈ groupsOf ctx methods) {t : String}
    (ht : t ∈ g.methods) : ∃ a ∈ methods, ctx.mappedMethod a = g.mapped ∧ a.text = t := by
  obtain ⟨set, hset, hmethods⟩ := mem_groupsOf.1 hg
  rw [hmethods, List.mem_map] at ht
  obtain ⟨a, ha, rfl⟩ := ht
  have hmem : a ∈ (byMappedName ctx methods).getD g.mapped ∅ := by
    rw [ExtTreeMap.getD_eq_getD_getElem?, hset]
    exact ExtTreeSet.mem_toList.1 ha
  exact ⟨a, (mem_byMappedName.1 hmem).1, (mem_byMappedName.1 hmem).2, rfl⟩

theorem exists_group (ctx : CheckContext) {methods : List MemberRef} {a : MemberRef} (ha : a ∈ methods) :
    ∃ g ∈ groupsOf ctx methods, g.mapped = ctx.mappedMethod a ∧ a.text ∈ g.methods := by
  have hmem : a ∈ (byMappedName ctx methods).getD (ctx.mappedMethod a) ∅ := mem_byMappedName.2 ⟨ha, rfl⟩
  rw [ExtTreeMap.getD_eq_getD_getElem?] at hmem
  cases hset : (byMappedName ctx methods)[ctx.mappedMethod a]? with
  | none =>
    rw [hset] at hmem
    exact absurd hmem ExtTreeSet.not_mem_empty
  | some set =>
    rw [hset] at hmem
    exact ⟨⟨ctx.mappedMethod a, set.toList.map (·.text)⟩, mem_groupsOf.2 ⟨set, hset, rfl⟩, rfl,
      List.mem_map.2 ⟨a, ExtTreeSet.mem_toList.2 hmem, rfl⟩⟩

theorem group_eq_of_mapped {methods : List MemberRef} {g h : MappedGroup} (hg : g ∈ groupsOf ctx methods)
    (hh : h ∈ groupsOf ctx methods) (hmapped : g.mapped = h.mapped) : g = h := by
  obtain ⟨set, hset, hmethods⟩ := mem_groupsOf.1 hg
  obtain ⟨set', hset', hmethods'⟩ := mem_groupsOf.1 hh
  rw [hmapped, hset'] at hset
  cases hset
  cases g
  cases h
  simp_all

theorem mismatch?_eq (methods : List MemberRef) :
    mismatch? ctx methods =
      if (groupsOf ctx methods).length < 2 then none else some (.overrideMismatch (groupsOf ctx methods)) := by
  rw [mismatch?, groupsOf, List.length_map]

/-- **Where nothing is found, all methods have one new name.** -/
theorem mapped_eq_of_no_mismatch {methods : List MemberRef} (h : mismatch? ctx methods = none) {a b : MemberRef}
    (ha : a ∈ methods) (hb : b ∈ methods) : ctx.mappedMethod a = ctx.mappedMethod b := by
  rw [mismatch?_eq] at h
  split at h
  · rename_i hlen
    obtain ⟨g, hg, hga, -⟩ := exists_group ctx ha
    obtain ⟨g', hg', hgb, -⟩ := exists_group ctx hb
    have heq : g = g' := by
      cases hgroups : groupsOf ctx methods with
      | nil =>
        rw [hgroups] at hg
        cases hg
      | cons x rest =>
        rw [hgroups] at hg hg' hlen
        have hnil : rest = [] := List.eq_nil_of_length_eq_zero (by
          rw [List.length_cons] at hlen
          omega)
        subst hnil
        rw [List.mem_singleton.1 hg, List.mem_singleton.1 hg']
    rw [← hga, ← hgb, heq]
  · cases h

/-- **Two methods with different new names make a finding** that has them in two groups. -/
theorem mismatch_of_mapped_ne {methods : List MemberRef} {a b : MemberRef} (ha : a ∈ methods) (hb : b ∈ methods)
    (hne : ctx.mappedMethod a ≠ ctx.mappedMethod b) :
    ∃ groups, mismatch? ctx methods = some (.overrideMismatch groups) ∧ ∃ g ∈ groups, ∃ h ∈ groups,
      g.mapped ≠ h.mapped ∧ a.text ∈ g.methods ∧ b.text ∈ h.methods := by
  refine ⟨groupsOf ctx methods, ?_, ?_⟩
  · cases h : mismatch? ctx methods with
    | none => exact absurd (mapped_eq_of_no_mismatch h ha hb) hne
    | some finding =>
      rw [mismatch?_eq] at h
      split at h
      · cases h
      · exact h.symm
  · obtain ⟨g, hg, hga, hat⟩ := exists_group ctx ha
    obtain ⟨g', hg', hgb, hbt⟩ := exists_group ctx hb
    exact ⟨g, hg, g', hg', by rwa [hga, hgb], hat, hbt⟩

/-- **What a finding says**: methods in two of its groups have different new names. -/
theorem groups_of_mismatch {methods : List MemberRef} {groups : List MappedGroup}
    (hf : mismatch? ctx methods = some (.overrideMismatch groups)) {g h : MappedGroup} (hg : g ∈ groups)
    (hh : h ∈ groups) (hne : g ≠ h) {t t' : String} (ht : t ∈ g.methods) (ht' : t' ∈ h.methods) :
    ∃ a ∈ methods, ∃ b ∈ methods, a.text = t ∧ b.text = t' ∧ ctx.mappedMethod a ≠ ctx.mappedMethod b := by
  rw [mismatch?_eq] at hf
  split at hf
  · cases hf
  · cases hf
    obtain ⟨a, ha, hga, rfl⟩ := mem_group hg ht
    obtain ⟨b, hb, hgb, rfl⟩ := mem_group hh ht'
    refine ⟨a, ha, b, hb, rfl, rfl, fun he => hne (group_eq_of_mapped hg hh ?_)⟩
    rw [← hga, ← hgb, he]

/-! ## All findings -/

theorem mem_findings {f : Finding} :
    f ∈ findings ctx ↔ f ∈ ancestorFindings ctx ∨
      f ∈ match ctx.strategy with
        | .closure => closureFindings ctx
        | .quick => interfaceFindings ctx :=
  (ExtTreeSet.mem_toList.trans mem_ofList_iff).trans List.mem_append

end OverrideNames
end RenameAudit
