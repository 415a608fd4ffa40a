import Mathlib.Data.Finset.Card
import Mathlib.Data.List.Forall2
import RenameAudit.Check.UniqueIds
import RenameAudit.Proofs.Check.FindingOrder
import RenameAudit.Proofs.Hierarchy.Bookkeeping
import RenameAudit.Proofs.Sets.Partition
/-!
# Proofs.Check.DuplicateNumbers — the numbers that do not identify one entity

The members of the classes under audit are gone through one by one, and each joins the claim to the number of its new
name (`Collected.insert`), so in the end the claim to a number has the members with that number (`collected_claims`).
Whether the methods among them belong together is asked of disjoint sets, in which two roots are together exactly when
methods under audit tie them together (`root_rootGroups`).  So there is one finding for each number whose members are not
one entity, with the first reason that applies (`duplicates_exact`).
-/
namespace RenameAudit
namespace UniqueIds

open Std Relation Directory

/-! ## Members and their numbers -/

/-- A field or a method. -/
inductive Member where
  | field (f : Field)
  | method (m : Method)

namespace Member

/-- The field or method that is meant. -/
def ref : Member → MemberRef
  | field f => f.ref
  | method m => m.ref

/-- The new name. -/
def mapped (ctx : CheckContext) : Member → String
  | field f => ctx.mappedField f
  | method m => ctx.mappedMethod m.ref

/-- The number of the new name: fields and methods have prefixes of their own. -/
def number? (ctx : CheckContext) : Member → Option Nat
  | field f => ctx.naming.fieldId? (ctx.mappedField f)
  | method m => ctx.naming.methodId? (ctx.mappedMethod m.ref)

/-- The text in reports: that of a field has no descriptor. -/
def text : Member → String
  | field f => f.ref.owner ++ "." ++ f.ref.name
  | method m => m.ref.text

def field? : Member → Option Field
  | field f => some f
  | method _ => none

def method? : Member → Option Method
  | field _ => none
  | method m => some m

theorem mem_filterMap_field? {xs : List Member} {f : Field} : f ∈ xs.filterMap field? ↔ .field f ∈ xs := by
  rw [List.mem_filterMap]
  constructor
  · rintro ⟨f' | m, hx, ⟨⟩⟩
    exact hx
  · exact fun hf => ⟨.field f, hf, rfl⟩

theorem mem_filterMap_method? {xs : List Member} {m : Method} : m ∈ xs.filterMap method? ↔ .method m ∈ xs := by
  rw [List.mem_filterMap]
  constructor
  · rintro ⟨f | m', hx, ⟨⟩⟩
    exact hx
  · exact fun hm => ⟨.method m, hm, rfl⟩

end Member

/-- The members of a class, fields first. -/
def membersOf (d : Directory) (c : String) : List Member :=
  (d.fieldsOf c).map .field ++ (d.methodsOf c).map .method

/-- The members of the classes under audit. -/
def ownedMembers (d : Directory) : List Member :=
  d.owned.flatMap (membersOf d)

/-- A member of a class under audit has a number. -/
def IsClaimant (ctx : CheckContext) (n : Nat) (x : Member) : Prop :=
  x ∈ ownedMembers ctx.dir ∧ x.number? ctx = some n

/-- Two methods are tied together: a method of a class under audit has both as roots. -/
def Tied (d : Directory) (u v : MemberRef) : Prop :=
  ∃ c ∈ d.owned, ∃ m ∈ d.methodsOf c, u ∈ d.rootsOf m.ref ∧ v ∈ d.rootsOf m.ref

/-- **A number does not identify one entity**, for a reason: two of its members have different new names, or are a field
and a method, or are two fields, or are methods with roots that are not connected by ties. -/
def Applies (ctx : CheckContext) (n : Nat) : DuplicateReason → Prop
  | .distinctNames => ∃ x y, IsClaimant ctx n x ∧ IsClaimant ctx n y ∧ x.mapped ctx ≠ y.mapped ctx
  | .fieldAndMethod => ∃ f m, IsClaimant ctx n (.field f) ∧ IsClaimant ctx n (.method m)
  | .multipleFields => ∃ f g, IsClaimant ctx n (.field f) ∧ IsClaimant ctx n (.field g) ∧ f ≠ g
  | .unrelatedMethods => ∃ m m', IsClaimant ctx n (.method m) ∧ IsClaimant ctx n (.method m') ∧
      ∃ u ∈ ctx.dir.rootsOf m.ref, ∃ v ∈ ctx.dir.rootsOf m'.ref, ¬ EqvGen (Tied ctx.dir) u v

/-- **What a finding says of a number**: the first reason that applies, the new names of its members in ascending order,
and the texts of its members in their order, one for each. -/
structure Reports (ctx : CheckContext) (n : Nat) (reason : DuplicateReason) (names members : List String) : Prop where
  applies : Applies ctx n reason
  first : ∀ other, Applies ctx n other → reason.rank ≤ other.rank
  names_ascending : names.Pairwise (· < ·)
  mem_names : ∀ name, name ∈ names ↔ ∃ x, IsClaimant ctx n x ∧ x.mapped ctx = name
  members_sorted : members.Pairwise (· ≤ ·)
  members_perm : ∃ xs : List Member, xs.Nodup ∧ (∀ x, x ∈ xs ↔ IsClaimant ctx n x) ∧ members.Perm (xs.map Member.text)

/-! ## Collecting -/

/-- A claim has members, in the order in which they came. -/
structure Collects (ctx : CheckContext) (c : Claim) (xs : List Member) : Prop where
  names : ∀ name, name ∈ c.names ↔ ∃ x ∈ xs, x.mapped ctx = name
  fields : c.fields = xs.filterMap Member.field?
  methods : c.methods = xs.filterMap Member.method?

/-- **The claims to all numbers have members**, each the claim to its own. -/
structure Collected (ctx : CheckContext) (claims : Claims) (xs : List Member) : Prop where
  collects : ∀ n, Collects ctx (claims.getD n .empty) (xs.filter fun x => x.number? ctx = some n)
  mem : ∀ n, n ∈ claims ↔ ∃ x ∈ xs, x.number? ctx = some n

section Collecting

variable {ctx : CheckContext} {c : Claim} {claims : Claims} {xs : List Member}

theorem collects_empty : Collects ctx .empty [] :=
  ⟨fun _ => ⟨fun h => absurd h ExtTreeSet.not_mem_empty, fun ⟨_, hx, _⟩ => absurd hx List.not_mem_nil⟩, rfl, rfl⟩

theorem mem_names_insert (h : Collects ctx c xs) (x : Member) (name : String) :
    name ∈ c.names.insert (x.mapped ctx) ↔ ∃ y ∈ xs ++ [x], y.mapped ctx = name := by
  rw [mem_set_insert_iff, h.names]
  simp only [List.mem_append, List.mem_singleton, or_and_right, exists_or, exists_eq_left]
  exact or_comm.trans (or_congr Iff.rfl eq_comm)

theorem Collects.addField (h : Collects ctx c xs) (f : Field) :
    Collects ctx (c.addField (ctx.mappedField f) f) (xs ++ [.field f]) :=
  ⟨mem_names_insert h (.field f), by rw [List.filterMap_append, ← h.fields]; rfl,
    by rw [List.filterMap_append, ← h.methods]; exact (List.append_nil _).symm⟩

theorem Collects.addMethod (h : Collects ctx c xs) (m : Method) :
    Collects ctx (c.addMethod (ctx.mappedMethod m.ref) m) (xs ++ [.method m]) :=
  ⟨mem_names_insert h (.method m), by rw [List.filterMap_append, ← h.fields]; exact (List.append_nil _).symm,
    by rw [List.filterMap_append, ← h.methods]; rfl⟩

theorem collected_empty : Collected ctx ∅ [] :=
  ⟨fun n => by rw [ExtTreeMap.getD_empty]; exact collects_empty,
    fun n => iff_of_false ExtTreeMap.not_mem_empty fun ⟨_, hx, _⟩ => List.not_mem_nil hx⟩

/-- A member without a number joins no claim. -/
theorem Collected.skip (h : Collected ctx claims xs) {x : Member} (hx : x.number? ctx = none) :
    Collected ctx claims (xs ++ [x]) := by
  refine ⟨fun n => ?_, fun n => ?_⟩
  · rw [List.filter_append, List.filter_singleton, hx]
    simpa using h.collects n
  · rw [h.mem]
    simp [hx]

/-- **A member joins the claim to its number**, and the other claims stay as they are. -/
theorem Collected.insert (h : Collected ctx claims xs) {x : Member} {n : Nat} (hx : x.number? ctx = some n)
    (hc : Collects ctx c ((xs.filter fun x => x.number? ctx = some n) ++ [x])) :
    Collected ctx (claims.insert n c) (xs ++ [x]) := by
  refine ⟨fun k => ?_, fun k => ?_⟩
  · rw [getD_insert_eq, List.filter_append, List.filter_singleton, hx]
    by_cases hk : k = n
    · subst hk
      simpa using hc
    · -- the member is none of those with another number
      simpa [hk, Ne.symm hk] using h.collects k
  · rw [mem_insert_iff, h.mem]
    simp only [List.mem_append, List.mem_singleton, or_and_right, exists_or, exists_eq_left, hx, Option.some.injEq]
    exact or_comm.trans (or_congr Iff.rfl eq_comm)

theorem Collected.claimField (h : Collected ctx claims xs) (f : Field) :
    Collected ctx (claimField ctx claims f) (xs ++ [.field f]) := by
  unfold UniqueIds.claimField
  dsimp only
  have hnumber : Member.number? ctx (.field f) = ctx.naming.fieldId? (ctx.mappedField f) := rfl
  cases hn : ctx.naming.fieldId? (ctx.mappedField f) with
  | none => exact h.skip (hnumber.trans hn)
  | some n => exact h.insert (hnumber.trans hn) ((h.collects n).addField f)

theorem Collected.claimMethod (h : Collected ctx claims xs) (m : Method) :
    Collected ctx (claimMethod ctx claims m) (xs ++ [.method m]) := by
  unfold UniqueIds.claimMethod
  dsimp only
  have hnumber : Member.number? ctx (.method m) = ctx.naming.methodId? (ctx.mappedMethod m.ref) := rfl
  cases hn : ctx.naming.methodId? (ctx.mappedMethod m.ref) with
  | none => exact h.skip (hnumber.trans hn)
  | some n => exact h.insert (hnumber.trans hn) ((h.collects n).addMethod m)

/-- Steps that each go through members of their own. -/
theorem Collected.foldl {β : Type} {step : Claims → β → Claims} {part : β → List Member}
    (hstep : ∀ {claims xs} (b : β), Collected ctx claims xs → Collected ctx (step claims b) (xs ++ part b))
    (items : List β) (h : Collected ctx claims xs) : Collected ctx (items.foldl step claims) (xs ++ items.flatMap part) := by
  induction items generalizing claims xs with
  | nil => simpa using h
  | cons b rest ih =>
    rw [List.foldl_cons, List.flatMap_cons, ← List.append_assoc]
    exact ih (hstep b h)

theorem Collected.claimClass (h : Collected ctx claims xs) (name : String) :
    Collected ctx (claimClass ctx claims name) (xs ++ membersOf ctx.dir name) := by
  rw [membersOf, List.map_eq_flatMap, List.map_eq_flatMap, ← List.append_assoc]
  exact .foldl (fun m h => h.claimMethod m) _ (.foldl (fun f h => h.claimField f) _ h)

/-- **In the end the claim to a number has the members with that number.** -/
theorem collected_claims (ctx : CheckContext) : Collected ctx (UniqueIds.claims ctx) (ownedMembers ctx.dir) :=
  Collected.foldl (fun name h => h.claimClass name) ctx.dir.owned collected_empty

end Collecting

/-! ## No member comes twice -/

/-- A sorted list has nothing twice when the keys of its items differ. -/
theorem nodup_mergeSort {α : Type} {key : α → String} {l : List α} (h : l.Pairwise fun a b => key a ≠ key b)
    (le : α → α → Bool) : (l.mergeSort le).Nodup :=
  (List.mergeSort_perm l le).nodup_iff.2 (h.imp fun hne heq => hne (congrArg key heq))

section Orderly

variable {d : Directory} (h : d.Orderly)

include h

theorem owner_of_mem_membersOf {c : String} {x : Member} (hx : x ∈ membersOf d c) : x.ref.owner = c := by
  rcases List.mem_append.1 hx with hx | hx
  · obtain ⟨f, hf, rfl⟩ := List.mem_map.1 hx
    obtain ⟨decl, hdecl, hf⟩ := mem_fieldsOf.1 hf
    exact (h.tidy c decl hdecl).owner f hf
  · obtain ⟨m, hm, rfl⟩ := List.mem_map.1 hx
    exact h.sound.owner hm

theorem nodup_fieldsOf (c : String) : (d.fieldsOf c).Nodup := by
  unfold fieldsOf
  cases hdecl : d.declaration? c with
  | none => exact List.nodup_nil
  | some decl =>
    have hnames := (h.tidy c decl hdecl).names
    exact nodup_mergeSort hnames _

theorem nodup_methodsOf (c : String) : (d.methodsOf c).Nodup := by
  unfold methodsOf
  cases hdecl : d.declaration? c with
  | none => exact List.nodup_nil
  | some decl =>
    have hkeys := (h.sound.fits c decl hdecl).keys
    exact nodup_mergeSort hkeys _

theorem nodup_membersOf (c : String) : (membersOf d c).Nodup := by
  refine List.nodup_append.2 ⟨(nodup_fieldsOf h c).map fun _ _ he => Member.field.inj he,
    (nodup_methodsOf h c).map fun _ _ he => Member.method.inj he, fun x hx y hy heq => ?_⟩
  obtain ⟨f, -, rfl⟩ := List.mem_map.1 hx
  obtain ⟨m, -, rfl⟩ := List.mem_map.1 hy
  cases heq

theorem nodup_ownedMembers : (ownedMembers d).Nodup := by
  refine List.nodup_flatMap.2 ⟨fun c _ => nodup_membersOf h c, (ascending_owned d).imp fun hlt x hx hx' => ?_⟩
  rw [← owner_of_mem_membersOf h hx, ← owner_of_mem_membersOf h hx'] at hlt
  exact String.lt_irrefl _ hlt

end Orderly

/-! ## Roots that belong together -/

/-- The roots of a method are joined where there is more than one. -/
theorem represents_joinRoots {s : DisjointSets MemberRef} {member : MemberRef → Prop} {r : MemberRef → MemberRef → Prop}
    (roots : List MemberRef) (h : s.Represents member r) :
    (match roots with
      | first :: second :: rest => s.joinAll (first :: second :: rest)
      | _ => s).Represents (fun z => member z ∨ (1 < roots.length ∧ z ∈ roots))
        (fun u v => r u v ∨ (u ∈ roots ∧ v ∈ roots)) := by
  match roots with
  | [] => exact h.congr (fun z => by simp) (DisjointSets.connected_congr (fun _ _ hr => .rel _ _ (.inl hr))
      fun _ _ hr => .rel _ _ (by simpa using hr))
  | [root] =>
    refine h.congr (fun z => by simp) (DisjointSets.connected_congr (fun _ _ hr => .rel _ _ (.inl hr)) fun u v hr => ?_)
    rcases hr with hr | ⟨hu, hv⟩
    · exact .rel _ _ hr
    · rw [List.mem_singleton.1 hu, List.mem_singleton.1 hv]
      exact .refl root
  | first :: second :: rest => exact (h.joinAll (first :: second :: rest)).congr (fun z => by simp) fun _ _ => Iff.rfl

/-- **Two methods are in one group exactly when ties connect them.** -/
theorem root_rootGroups {d : Directory} (h : d.Good) (u v : MemberRef) :
    (rootGroups d).root u = (rootGroups d).root v ↔ EqvGen (Tied d) u v := by
  have hfold := DisjointSets.Represents.foldl (fun m hs => represents_joinRoots (d.roots m.ref) hs)
    (d.owned.flatMap d.methodsOf) DisjointSets.represents_empty
  have hroots : d.rootsOf = d.roots := funext h.rootsOf_eq
  refine (hfold.same u v).trans (DisjointSets.connected_congr (fun u v huv => .rel _ _ ?_) (fun u v huv => .rel _ _ ?_) u v)
  · obtain ⟨m, hm, huv⟩ := huv.resolve_left id
    obtain ⟨c, hc, hm⟩ := List.mem_flatMap.1 hm
    exact ⟨c, hc, m, hm, hroots ▸ huv⟩
  · obtain ⟨c, hc, m, hm, huv⟩ := huv
    exact .inr ⟨m, List.mem_flatMap.2 ⟨c, hc, hm⟩, hroots ▸ huv⟩

/-! ## Reasons -/

theorem one_lt_length_iff {α : Type} {l : List α} (h : l.Nodup) : 1 < l.length ↔ ∃ a ∈ l, ∃ b ∈ l, a ≠ b := by
  classical
  rw [← List.toFinset_card_of_nodup h, Finset.one_lt_card]
  simp only [List.mem_toFinset]

theorem one_lt_size_iff {α : Type} [Ord α] [TransOrd α] [LawfulEqOrd α] {s : ExtTreeSet α} :
    1 < s.size ↔ ∃ a ∈ s, ∃ b ∈ s, a ≠ b := by
  have hnodup : s.toList.Nodup := ExtTreeSet.distinct_toList.imp fun hne heq => hne (Std.compare_eq_iff_eq.2 heq)
  rw [← ExtTreeSet.length_toList, one_lt_length_iff hnodup]
  simp only [ExtTreeSet.mem_toList]

section Reasons

variable {ctx : CheckContext} {n : Nat} {c : Claim} {xs : List Member} (hc : Collects ctx c xs)
  (hxs : ∀ x, x ∈ xs ↔ IsClaimant ctx n x)

include hc hxs

theorem mem_fields {f : Field} : f ∈ c.fields ↔ IsClaimant ctx n (.field f) := by
  rw [hc.fields, Member.mem_filterMap_field?, hxs]

theorem mem_methods {m : Method} : m ∈ c.methods ↔ IsClaimant ctx n (.method m) := by
  rw [hc.methods, Member.mem_filterMap_method?, hxs]

theorem one_lt_names : 1 < c.names.size ↔ Applies ctx n .distinctNames := by
  rw [one_lt_size_iff]
  simp only [hc.names, hxs]
  constructor
  · rintro ⟨_, ⟨x, hx, rfl⟩, _, ⟨y, hy, rfl⟩, hne⟩
    exact ⟨x, y, hx, hy, hne⟩
  · rintro ⟨x, y, hx, hy, hne⟩
    exact ⟨_, ⟨x, hx, rfl⟩, _, ⟨y, hy, rfl⟩, hne⟩

theorem fields_and_methods : (!c.fields.isEmpty && !c.methods.isEmpty) = true ↔ Applies ctx n .fieldAndMethod := by
  rw [Bool.and_eq_true, Bool.not_eq_true', Bool.not_eq_true', List.isEmpty_eq_false_iff_exists_mem,
    List.isEmpty_eq_false_iff_exists_mem]
  simp only [mem_fields hc hxs, mem_methods hc hxs]
  exact ⟨fun ⟨⟨f, hf⟩, m, hm⟩ => ⟨f, m, hf, hm⟩, fun ⟨f, m, hf, hm⟩ => ⟨⟨f, hf⟩, m, hm⟩⟩

theorem one_lt_fields (hnodup : xs.Nodup) : 1 < c.fields.length ↔ Applies ctx n .multipleFields := by
  have hfields : c.fields.Nodup := by
    rw [hc.fields]
    refine hnodup.filterMap fun x y f hx hy => ?_
    cases x <;> cases hx
    cases y <;> cases hy
    rfl
  rw [one_lt_length_iff hfields]
  simp only [mem_fields hc hxs]
  exact ⟨fun ⟨f, hf, g, hg, hne⟩ => ⟨f, g, hf, hg, hne⟩, fun ⟨f, g, hf, hg, hne⟩ => ⟨f, hf, g, hg, hne⟩⟩

theorem areUnrelated_iff (h : ctx.dir.Good) :
    areUnrelated ctx.dir (rootGroups ctx.dir) c.methods = true ↔ Applies ctx n .unrelatedMethods := by
  have hmem : ∀ r, r ∈ (c.methods.flatMap fun m => ctx.dir.roots m.ref) ↔
      ∃ m, IsClaimant ctx n (.method m) ∧ r ∈ ctx.dir.rootsOf m.ref := fun r => by
    simp only [List.mem_flatMap, mem_methods hc hxs, h.rootsOf_eq]
  rw [areUnrelated, decide_eq_true_iff, one_lt_size_iff]
  simp only [mem_ofList_iff, List.mem_map, hmem]
  constructor
  · rintro ⟨_, ⟨u, ⟨m, hm, hu⟩, rfl⟩, _, ⟨v, ⟨m', hm', hv⟩, rfl⟩, hne⟩
    exact ⟨m, m', hm, hm', u, hu, v, hv, fun huv => hne ((root_rootGroups h u v).2 huv)⟩
  · rintro ⟨m, m', hm, hm', u, hu, v, hv, hnot⟩
    exact ⟨_, ⟨u, ⟨m, hm, hu⟩, rfl⟩, _, ⟨v, ⟨m', hm', hv⟩, rfl⟩, fun he => hnot ((root_rootGroups h u v).1 he)⟩

omit hc hxs in
/-- Of the reasons that apply one comes first. -/
theorem eq_some_iff_first {first reason : DuplicateReason} (happlies : Applies ctx n first)
    (hfirst : ∀ other, Applies ctx n other → first.rank ≤ other.rank) :
    some first = some reason ↔ Applies ctx n reason ∧ ∀ other, Applies ctx n other → reason.rank ≤ other.rank := by
  constructor
  · rintro ⟨⟩
    exact ⟨happlies, hfirst⟩
  · rintro ⟨happlies', hfirst'⟩
    exact congrArg some (DuplicateReason.eq_of_rank (Nat.le_antisymm (hfirst _ happlies') (hfirst' _ happlies)))

open Classical in
/-- The conditions that are checked are the reasons. -/
theorem reason?_eq (h : ctx.dir.Good) (hnodup : xs.Nodup) :
    reason? ctx.dir (rootGroups ctx.dir) c =
      if Applies ctx n .distinctNames then some .distinctNames
      else if Applies ctx n .fieldAndMethod then some .fieldAndMethod
      else if Applies ctx n .multipleFields then some .multipleFields
      else if Applies ctx n .unrelatedMethods then some .unrelatedMethods
      else none := by
  unfold reason?
  simp only [one_lt_names hc hxs, fields_and_methods hc hxs, one_lt_fields hc hxs hnodup, areUnrelated_iff hc hxs h]

/-- **The reason that is given is the first that applies.** -/
theorem reason?_eq_some (h : ctx.dir.Good) (hnodup : xs.Nodup) {reason : DuplicateReason} :
    reason? ctx.dir (rootGroups ctx.dir) c = some reason ↔
      Applies ctx n reason ∧ ∀ other, Applies ctx n other → reason.rank ≤ other.rank := by
  rw [reason?_eq hc hxs h hnodup]
  -- a reason that applies comes first when those before it do not apply
  split_ifs with hnames hmixed hfields hmethods
  · exact eq_some_iff_first hnames fun other _ => Nat.zero_le _
  · exact eq_some_iff_first hmixed fun other ho => by cases other <;> first | contradiction | decide
  · exact eq_some_iff_first hfields fun other ho => by cases other <;> first | contradiction | decide
  · exact eq_some_iff_first hmethods fun other ho => by cases other <;> first | contradiction | decide
  · refine iff_of_false (fun he => nomatch he) fun ⟨happlies, _⟩ => ?_
    cases reason <;> contradiction

/-- A reason is given exactly when there is one. -/
theorem isSome_reason? (h : ctx.dir.Good) (hnodup : xs.Nodup) :
    (reason? ctx.dir (rootGroups ctx.dir) c).isSome = true ↔ ∃ reason, Applies ctx n reason := by
  rw [reason?_eq hc hxs h hnodup]
  split_ifs with hnames hmixed hfields hmethods
  · exact iff_of_true rfl ⟨_, hnames⟩
  · exact iff_of_true rfl ⟨_, hmixed⟩
  · exact iff_of_true rfl ⟨_, hfields⟩
  · exact iff_of_true rfl ⟨_, hmethods⟩
  · refine iff_of_false Bool.false_ne_true fun ⟨reason, happlies⟩ => ?_
    cases reason <;> contradiction

end Reasons

/-! ## Findings -/

section Findings

variable {ctx : CheckContext} {n : Nat} {c : Claim}

/-- The members with a number. -/
def claimants (ctx : CheckContext) (n : Nat) : List Member :=
  (ownedMembers ctx.dir).filter fun x => x.number? ctx = some n

theorem mem_claimants (x : Member) : x ∈ claimants ctx n ↔ IsClaimant ctx n x := by
  rw [claimants, List.mem_filter, decide_eq_true_iff]
  rfl

theorem collects_claimants (hc : (claims ctx)[n]? = some c) : Collects ctx c (claimants ctx n) := by
  have h := (collected_claims ctx).collects n
  rwa [ExtTreeMap.getD_eq_getD_getElem?, hc] at h

/-- There is somebody with the number for each reason. -/
theorem exists_claimant {reason : DuplicateReason} (h : Applies ctx n reason) : ∃ x, IsClaimant ctx n x := by
  cases reason with
  | distinctNames => exact h.imp fun _ ⟨_, hx, _⟩ => hx
  | fieldAndMethod => exact h.elim fun _ ⟨_, hf, _⟩ => ⟨_, hf⟩
  | multipleFields => exact h.elim fun _ ⟨_, hf, _⟩ => ⟨_, hf⟩
  | unrelatedMethods => exact h.elim fun _ ⟨_, hm, _⟩ => ⟨_, hm⟩

/-- Fields and methods together are all members. -/
theorem texts_perm (xs : List Member) :
    ((xs.filterMap Member.field?).map (fun f => f.ref.owner ++ "." ++ f.ref.name) ++
      (xs.filterMap Member.method?).map (·.ref.text)).Perm (xs.map Member.text) := by
  induction xs with
  | nil => exact List.Perm.nil
  | cons x rest ih =>
    cases x with
    | field f => exact ih.cons (Member.text (.field f))
    | method m => exact List.perm_middle.trans (ih.cons (Member.text (.method m)))

/-- **What is found for a number reports it.** -/
theorem reports_claim (hgood : ctx.dir.Good) (hnodup : (claimants ctx n).Nodup) (hc : (claims ctx)[n]? = some c)
    {reason : DuplicateReason} (hreason : reason? ctx.dir (rootGroups ctx.dir) c = some reason) :
    Reports ctx n reason c.names.toList c.memberTexts := by
  have hcollects := collects_claimants hc
  obtain ⟨happlies, hfirst⟩ := (reason?_eq_some hcollects mem_claimants hgood hnodup).1 hreason
  refine ⟨happlies, hfirst, ExtTreeSet.ordered_toList.imp compare_string_eq_lt.1, fun name => ?_, ?_,
    ⟨claimants ctx n, hnodup, mem_claimants, ?_⟩⟩
  · rw [ExtTreeSet.mem_toList, hcollects.names]
    simp only [mem_claimants]
  · refine (List.pairwise_mergeSort (fun a b c hab hbc => ?_) (fun a b => ?_) _).imp of_decide_eq_true
    · exact decide_eq_true (String.le_trans (of_decide_eq_true hab) (of_decide_eq_true hbc))
    · rw [Bool.or_eq_true, decide_eq_true_iff, decide_eq_true_iff]
      exact String.le_total a b
  · rw [Claim.memberTexts, hcollects.fields, hcollects.methods]
    exact (List.mergeSort_perm _ _).trans (texts_perm _)

end Findings

/-- What a list is filtered to stands beside the items that it comes from. -/
theorem forall₂_filterMap {α β γ : Type} {key : α → β} {g : α → Option γ} {p : β → γ → Prop} {l : List α}
    (h : ∀ a ∈ l, ∀ c, g a = some c → p (key a) c) :
    List.Forall₂ p ((l.filter fun a => (g a).isSome).map key) (l.filterMap g) := by
  induction l with
  | nil => exact .nil
  | cons a rest ih =>
    have hrest := ih fun b hb => h b (List.mem_cons_of_mem a hb)
    cases hg : g a with
    | none =>
      rw [List.filter_cons_of_neg (by rw [hg]; exact Bool.false_ne_true), List.filterMap_cons_none hg]
      exact hrest
    | some c =>
      rw [List.filter_cons_of_pos (by rw [hg]; rfl), List.filterMap_cons_some hg]
      exact .cons (h a List.mem_cons_self c hg) hrest

/-- **The findings are one for each number that does not identify one entity**, in ascending order: after any calls,
resolutions among them, and whatever the rename table and the conventions of names, there is one finding for each number
to which a reason applies, and it reports that number. -/
theorem duplicates_exact (steps : List Step) (base : CheckContext) :
    let ctx := { base with dir := after steps }
    ∃ numbers : List Nat, numbers.Pairwise (· < ·) ∧ (∀ n, n ∈ numbers ↔ ∃ reason, Applies ctx n reason) ∧
      List.Forall₂ (fun n f => ∃ reason names members, f = .duplicateId n reason names members ∧
        Reports ctx n reason names members) numbers (findings ctx) := by
  intro ctx
  have hgood : ctx.dir.Good := good_after steps
  have hnodup : ∀ n, (claimants ctx n).Nodup := fun n => (nodup_ownedMembers (orderly_after steps)).filter _
  refine ⟨((claims ctx).toList.filter fun p => (reason? ctx.dir (rootGroups ctx.dir) p.2).isSome).map Prod.fst,
    ?_, fun n => ?_, ?_⟩
  · exact List.pairwise_map.2 ((ExtTreeMap.ordered_keys_toList.imp Nat.compare_eq_lt.1).filter _)
  · simp only [List.mem_map, List.mem_filter, Prod.exists, exists_eq_right, exists_and_right,
      ExtTreeMap.mem_toList_iff_getElem?_eq_some]
    constructor
    · rintro ⟨c, hc, hsome⟩
      exact (isSome_reason? (collects_claimants hc) mem_claimants hgood (hnodup n)).1 hsome
    · rintro hreason
      obtain ⟨x, hx, hnumber⟩ := exists_claimant hreason.choose_spec
      have hmem : n ∈ claims ctx := ((collected_claims ctx).mem n).2 ⟨x, hx, hnumber⟩
      obtain ⟨c, hc⟩ := Option.isSome_iff_exists.1 (ExtTreeMap.mem_iff_isSome_getElem?.1 hmem)
      exact ⟨c, hc, (isSome_reason? (collects_claimants hc) mem_claimants hgood (hnodup n)).2 hreason⟩
  · have hall := @forall₂_filterMap _ _ _ Prod.fst (fun p : Nat × Claim => (reason? ctx.dir (rootGroups ctx.dir) p.2).map
      fun reason => Finding.duplicateId p.1 reason p.2.names.toList p.2.memberTexts)
      (fun n f => ∃ reason names members, f = .duplicateId n reason names members ∧ Reports ctx n reason names members)
      (claims ctx).toList fun p hp f hf => ?_
    · simp only [Option.isSome_map] at hall
      exact hall
    · obtain ⟨reason, hreason, rfl⟩ := Option.map_eq_some_iff.1 hf
      exact ⟨reason, _, _, rfl,
        reports_claim hgood (hnodup p.1) (ExtTreeMap.mem_toList_iff_getElem?_eq_some.1 hp) hreason⟩

end UniqueIds
end RenameAudit
