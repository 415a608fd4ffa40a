import Mathlib.Data.List.Induction
import RenameAudit.Check.OverrideNames
import RenameAudit.Proofs.Hierarchy.Ancestors
/-!
# Proofs.Check.Exposures — what a class exposes

What a class exposes is put together from what its supertypes expose, ancestors first.  Where no class inherits from
itself, this is all that the class and its ancestors have (`exposures_shows`): the methods by their keys, and the keys
that forwarding methods lead to.

`x.Shows methods bounces` says what an exposure holds and leaves out its maps.
-/
namespace RenameAudit
namespace OverrideNames

open Std Relation

/-! ## Sets by keys -/

namespace SetMap

variable {α : Type} [Ord α] [TransOrd α]

theorem mem_ofKey_iff {sets : SetMap α} {key : String} {a : α} :
    a ∈ sets.ofKey key ↔ ∃ elements, sets[key]? = some elements ∧ a ∈ elements := by
  rw [ofKey, ExtTreeMap.getD_eq_getD_getElem?]
  cases sets[key]? with
  | none => exact iff_of_false ExtTreeSet.not_mem_empty fun ⟨_, h, _⟩ => by cases h
  | some elements => exact ⟨fun h => ⟨elements, rfl, h⟩, fun ⟨_, h, ha⟩ => Option.some.inj h ▸ ha⟩

theorem mem_extend {sets : SetMap α} {key k : String} {more : ExtTreeSet α} {a : α} :
    a ∈ (sets.extend key more).ofKey k ↔ a ∈ sets.ofKey k ∨ (k = key ∧ a ∈ more) := by
  rw [ofKey, extend, getD_insert_eq]
  split
  · rename_i hk
    subst hk
    rw [ExtTreeSet.mem_union_iff]
    exact or_congr Iff.rfl ⟨fun h => ⟨rfl, h⟩, fun h => h.2⟩
  · rename_i hk
    exact ⟨.inl, fun h => h.elim id fun h => absurd h.1 hk⟩

theorem mem_union {sets more : SetMap α} {k : String} {a : α} :
    a ∈ (sets.union more).ofKey k ↔ a ∈ sets.ofKey k ∨ a ∈ more.ofKey k := by
  have hunion : sets.union more = more.toList.foldl (fun sets item => sets.extend item.1 item.2) sets := rfl
  have hgo : ∀ (items : List (String × ExtTreeSet α)) (sets : SetMap α),
      a ∈ SetMap.ofKey (items.foldl (fun sets item => sets.extend item.1 item.2) sets) k ↔
        a ∈ sets.ofKey k ∨ ∃ elements, (k, elements) ∈ items ∧ a ∈ elements := by
    intro items
    induction items with
    | nil => simp
    | cons item rest ih =>
      intro sets
      rw [List.foldl_cons, ih, mem_extend, or_assoc]
      refine or_congr Iff.rfl ⟨?_, ?_⟩
      · rintro (⟨rfl, ha⟩ | ⟨elements, he, ha⟩)
        · exact ⟨item.2, List.mem_cons_self, ha⟩
        · exact ⟨elements, List.mem_cons_of_mem _ he, ha⟩
      · rintro ⟨elements, he, ha⟩
        rcases List.mem_cons.1 he with rfl | he
        · exact .inl ⟨rfl, ha⟩
        · exact .inr ⟨elements, he, ha⟩
  rw [hunion, hgo]
  refine or_congr Iff.rfl (Iff.trans ?_ mem_ofKey_iff.symm)
  simp only [ExtTreeMap.mem_toList_iff_getElem?_eq_some]

theorem not_mem_ofKey_empty {k : String} {a : α} : a ∉ SetMap.ofKey (∅ : SetMap α) k := by
  rw [mem_ofKey_iff]
  rintro ⟨elements, h, -⟩
  exact ExtTreeMap.not_mem_empty (mem_of_getElem? h)

end SetMap

/-! ## One exposure -/

/-- **What an exposure holds**: methods by keys, and keys by the keys that lead to them. -/
structure Exposure.Shows (x : Exposure) (methods : String → MemberRef → Prop) (bounces : String → String → Prop) :
    Prop where
  methods : ∀ k r, r ∈ x.methods.ofKey k ↔ methods k r
  bounces : ∀ k k', k' ∈ x.bounces.ofKey k ↔ bounces k k'

namespace Exposure.Shows

variable {x y : Exposure} {p p' : String → MemberRef → Prop} {q q' : String → String → Prop}

theorem congr (h : x.Shows p q) (hp : ∀ k r, p k r ↔ p' k r) (hq : ∀ k k', q k k' ↔ q' k k') : x.Shows p' q' :=
  ⟨fun k r => (h.methods k r).trans (hp k r), fun k k' => (h.bounces k k').trans (hq k k')⟩

theorem empty : Exposure.empty.Shows (fun _ _ => False) (fun _ _ => False) :=
  ⟨fun _ _ => iff_of_false SetMap.not_mem_ofKey_empty id, fun _ _ => iff_of_false SetMap.not_mem_ofKey_empty id⟩

theorem union (h : x.Shows p q) (h' : y.Shows p' q') :
    (x.union y).Shows (fun k r => p k r ∨ p' k r) (fun k k' => q k k' ∨ q' k k') :=
  ⟨fun k r => by rw [Exposure.union, SetMap.mem_union, h.methods, h'.methods],
    fun k k' => by rw [Exposure.union, SetMap.mem_union, h.bounces, h'.bounces]⟩

end Exposure.Shows

/-- A method of a list is exposed with a key. -/
def ShowsMethod (methods : List Method) (k : String) (r : MemberRef) : Prop :=
  ∃ m ∈ methods, isExposed m = true ∧ m.key = k ∧ m.ref = r

/-- A method of a list is exposed with a key and forwards to another key. -/
def ShowsBounce (d : Directory) (methods : List Method) (k k' : String) : Prop :=
  ∃ m ∈ methods, isExposed m = true ∧ m.key = k ∧ ∃ target, bounceTarget? d m = some target ∧ target.key = k'

theorem mem_addMethod {x : Exposure} {m : Method} {k : String} {r : MemberRef} :
    r ∈ (x.addMethod m).methods.ofKey k ↔ r ∈ x.methods.ofKey k ∨ (m.key = k ∧ m.ref = r) := by
  rw [Exposure.addMethod, SetMap.mem_extend, mem_ofList_iff, List.mem_singleton, eq_comm (a := k), eq_comm (a := r)]

theorem mem_addBounce {x : Exposure} {key target k k' : String} :
    k' ∈ (x.addBounce key target).bounces.ofKey k ↔ k' ∈ x.bounces.ofKey k ∨ (key = k ∧ target = k') := by
  rw [Exposure.addBounce, SetMap.mem_extend, mem_ofList_iff, List.mem_singleton, eq_comm (a := k), eq_comm (a := k')]

theorem Exposure.Shows.expose {d : Directory} {x : Exposure} {p : String → MemberRef → Prop} {q : String → String → Prop}
    (h : x.Shows p q) (m : Method) :
    (expose d x m).Shows (fun k r => p k r ∨ ShowsMethod [m] k r) (fun k k' => q k k' ∨ ShowsBounce d [m] k k') := by
  have hm : ∀ k r, ShowsMethod [m] k r ↔ isExposed m = true ∧ m.key = k ∧ m.ref = r := fun k r => by
    simp [ShowsMethod]
  have hb : ∀ k k', ShowsBounce d [m] k k' ↔
      isExposed m = true ∧ m.key = k ∧ ∃ target, bounceTarget? d m = some target ∧ target.key = k' := fun k k' => by
    simp [ShowsBounce]
  unfold OverrideNames.expose
  split
  · rename_i hexp
    dsimp only
    split
    · rename_i target ht
      refine ⟨fun k r => ?_, fun k k' => ?_⟩
      · rw [hm]
        refine mem_addMethod.trans (or_congr (h.methods k r) ?_)
        exact ⟨fun h => ⟨hexp, h⟩, fun h => h.2⟩
      · rw [hb]
        refine mem_addBounce.trans (or_congr (h.bounces k k') ?_)
        exact ⟨fun h => ⟨hexp, h.1, target, ht, h.2⟩, fun ⟨_, hk, t, h, hk'⟩ => ⟨hk, by
          rw [ht] at h
          cases h
          exact hk'⟩⟩
    · rename_i hnone
      refine ⟨fun k r => ?_, fun k k' => ?_⟩
      · rw [hm]
        refine mem_addMethod.trans (or_congr (h.methods k r) ?_)
        exact ⟨fun h => ⟨hexp, h⟩, fun h => h.2⟩
      · rw [hb]
        refine (h.bounces k k').trans ⟨.inl, fun h => h.elim id fun ⟨_, _, t, h, _⟩ => ?_⟩
        rw [hnone] at h
        cases h
  · rename_i hexp
    exact h.congr (fun k r => by rw [hm]; exact ⟨.inl, fun h => h.elim id fun h => absurd h.1 hexp⟩)
      (fun k k' => by rw [hb]; exact ⟨.inl, fun h => h.elim id fun h => absurd h.1 hexp⟩)

theorem Exposure.Shows.exposeAll {d : Directory} {x : Exposure} {p : String → MemberRef → Prop}
    {q : String → String → Prop} (h : x.Shows p q) (methods : List Method) :
    (methods.foldl (OverrideNames.expose d) x).Shows (fun k r => p k r ∨ ShowsMethod methods k r)
      (fun k k' => q k k' ∨ ShowsBounce d methods k k') := by
  induction methods generalizing x p q with
  | nil => exact h.congr (fun k r => by simp [ShowsMethod]) (fun k k' => by simp [ShowsBounce])
  | cons m rest ih =>
    refine (ih (h.expose m)).congr (fun k r => ?_) fun k k' => ?_
    · rw [or_assoc]
      refine or_congr Iff.rfl ?_
      simp [ShowsMethod]
    · rw [or_assoc]
      refine or_congr Iff.rfl ?_
      simp [ShowsBounce]

/-! ## All classes -/

/-- A class or one of its ancestors exposes a method with a key. -/
def Exposes (d : Directory) (name k : String) (r : MemberRef) : Prop :=
  ∃ c, ReflTransGen d.Extends name c ∧ ShowsMethod (d.methodsOf c) k r

/-- A class or one of its ancestors exposes a method with a key that forwards to another. -/
def Bounces (d : Directory) (name k k' : String) : Prop :=
  ∃ c, ReflTransGen d.Extends name c ∧ ShowsBounce d (d.methodsOf c) k k'

theorem exposureOf_shows {d : Directory} {known : ExtTreeMap String Exposure} {name : String}
    (h : ∀ s ∈ d.supertypesOf name, (known.getD s .empty).Shows (Exposes d s) (Bounces d s)) :
    (exposureOf d known name).Shows (Exposes d name) (Bounces d name) := by
  have hfold : ∀ (supers : List String) (x : Exposure) p q, x.Shows p q →
      (∀ s ∈ supers, (known.getD s .empty).Shows (Exposes d s) (Bounces d s)) →
      (supers.foldl (fun x s => x.union (known.getD s .empty)) x).Shows
        (fun k r => p k r ∨ ∃ s ∈ supers, Exposes d s k r) (fun k k' => q k k' ∨ ∃ s ∈ supers, Bounces d s k k') := by
    intro supers
    induction supers with
    | nil => exact fun x p q hx _ => hx.congr (fun k r => by simp) (fun k k' => by simp)
    | cons s rest ih =>
      intro x p q hx hs
      refine (ih _ _ _ (hx.union (hs s List.mem_cons_self)) fun t ht => hs t (List.mem_cons_of_mem _ ht)).congr
        (fun k r => ?_) fun k k' => ?_
      · simp [or_assoc]
      · simp [or_assoc]
  -- a class or an ancestor: the class itself, or one of a supertype's
  have hreach : ∀ (P : String → Prop), (∃ c, ReflTransGen d.Extends name c ∧ P c) ↔
      (∃ s ∈ d.supertypesOf name, ∃ c, ReflTransGen d.Extends s c ∧ P c) ∨ P name := by
    intro P
    constructor
    · rintro ⟨c, hp, hc⟩
      rcases hp.cases_head with rfl | ⟨s, hs, hp⟩
      · exact .inr hc
      · exact .inl ⟨s, hs, c, hp, hc⟩
    · rintro (⟨s, hs, c, hp, hc⟩ | h)
      · exact ⟨c, .head hs hp, hc⟩
      · exact ⟨name, .refl, h⟩
  refine ((hfold _ _ _ _ .empty h).exposeAll (d.methodsOf name)).congr (fun k r => ?_) fun k k' => ?_
  · rw [false_or, Exposes, hreach]
    rfl
  · rw [false_or, Bounces, hreach]
    rfl

/-- **What a class under audit exposes is all that it and its ancestors have.** -/
theorem exposures_shows {d : Directory} (h : d.Sound) (hacyclic : d.SupertypesAcyclic) {name : String}
    (hname : name ∈ d.owned) : ((exposures d).getD name .empty).Shows (Exposes d name) (Bounces d name) := by
  have hgo : ∀ l₁ l₂, Graph.depthFirst d.supertypesOf d.classes (d.owned.map .enter) = l₁ ++ l₂ → ∀ n ∈ l₁,
      ((l₁.foldl (fun known n => known.insert n (exposureOf d known n)) ∅ : ExtTreeMap String Exposure).getD n
        .empty).Shows (Exposes d n) (Bounces d n) := by
    intro l₁
    -- class by class, in the order of the search: supertypes have come before
    induction l₁ using List.reverseRecOn with
    | nil => exact fun _ _ n hn => absurd hn List.not_mem_nil
    | append_singleton l₁ a ih =>
      intro l₂ horder n hn
      rw [List.append_assoc, List.singleton_append] at horder
      have hknown := ih (a :: l₂) horder
      have ha : (exposureOf d (l₁.foldl (fun known n => known.insert n (exposureOf d known n)) ∅) a).Shows
          (Exposes d a) (Bounces d a) := by
        refine exposureOf_shows fun s hs => hknown s ?_
        rcases Graph.depthFirst_before _ _ _ l₁ a l₂ horder s hs (h.supertypes_known a s hs) with hin | hback
        · exact hin
        · exact absurd (TransGen.head' hs hback) (hacyclic a)
      rw [List.foldl_append, List.foldl_cons, List.foldl_nil, getD_insert_eq]
      split
      · rename_i hna
        exact hna ▸ ha
      · rename_i hna
        exact hknown n ((List.mem_append.1 hn).resolve_right fun h => hna (List.mem_singleton.1 h))
  refine hgo _ [] (List.append_nil _).symm name ?_
  refine (Graph.mem_depthFirst _ _ _ _).2 (.first hname ?_)
  exact ExtTreeMap.mem_keys.1 (List.mem_filter.1 hname).1

end OverrideNames
end RenameAudit
