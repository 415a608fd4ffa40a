import Mathlib.Logic.Relation
import RenameAudit.Graph.Search
import RenameAudit.Proofs.Sets.Members
/-!
# Proofs.Graph.Reach — what a search visits

A search takes each node that it visits out of the map of those that remain, so what it visits is said by paths through
remaining nodes: `Reached next inside start x` has such a path from a listed node to `x`.  The one law on which every
search rests is `reached_cons`: to go on from a node is to take it out and to list what it leads to.

- `mem_breadthFirst`: a breadth-first search visits exactly the nodes that are reached;
- `mem_leaves_iff`: the leaves of a node are exactly the nodes without edges to which its edges lead.
-/
namespace RenameAudit
namespace Graph

open Std Relation

variable {α β : Type}

/-- A node is reached from listed ones along edges, on a way that stays inside. -/
inductive Reached (next : α → List α) (inside : α → Prop) (start : List α) : α → Prop where
  | first {a : α} : a ∈ start → inside a → Reached next inside start a
  | onward {a b : α} : Reached next inside start a → b ∈ next a → inside b → Reached next inside start b

namespace Reached

variable {next : α → List α} {inside inside' : α → Prop} {start start' : List α} {x : α}

theorem is_inside (h : Reached next inside start x) : inside x := by
  cases h with
  | first _ hin => exact hin
  | onward _ _ hin => exact hin

theorem mono (hin : ∀ a, inside a → inside' a) (hst : ∀ a ∈ start, a ∈ start') (h : Reached next inside start x) :
    Reached next inside' start' x := by
  induction h with
  | first ha hi => exact .first (hst _ ha) (hin _ hi)
  | onward _ hb hi ih => exact .onward ih hb (hin _ hi)

theorem nil (h : Reached next inside [] x) : False := by
  induction h with
  | first ha _ => cases ha
  | onward _ _ _ ih => exact ih

theorem path (h : Reached next inside start x) : ∃ a ∈ start, ReflTransGen (fun a b => b ∈ next a) a x := by
  induction h with
  | first ha _ => exact ⟨_, ha, .refl⟩
  | onward _ hb _ ih =>
    obtain ⟨a, ha, hp⟩ := ih
    exact ⟨a, ha, hp.tail hb⟩

theorem of_path (hcl : ∀ a, inside a → ∀ b ∈ next a, inside b) {a : α} (ha : a ∈ start) (hi : inside a)
    (hp : ReflTransGen (fun a b => b ∈ next a) a x) : Reached next inside start x := by
  induction hp with
  | refl => exact .first ha hi
  | tail _ hb ih => exact .onward ih hb (hcl _ ih.is_inside _ hb)

end Reached

variable {next : α → List α} {inside : α → Prop}

/-- **To go on from a node is to take it out and to list what it leads to.** -/
theorem reached_cons {a : α} {rest : List α} (ha : inside a) (x : α) :
    Reached next inside (a :: rest) x ↔ x = a ∨ Reached next (fun b => inside b ∧ b ≠ a) (rest ++ next a) x := by
  constructor
  · intro h
    induction h with
    | @first y hy hi =>
      by_cases he : y = a
      · exact .inl he
      · have hy' : y ∈ rest := (List.mem_cons.1 hy).resolve_left he
        exact .inr (.first (List.mem_append_left _ hy') ⟨hi, he⟩)
    | @onward y z _ hz hi ih =>
      by_cases he : z = a
      · exact .inl he
      · rcases ih with rfl | ih
        · exact .inr (.first (List.mem_append_right _ hz) ⟨hi, he⟩)
        · exact .inr (.onward ih hz ⟨hi, he⟩)
  · rintro (rfl | h)
    · exact .first List.mem_cons_self ha
    · induction h with
      | @first y hy hi =>
        rcases List.mem_append.1 hy with hy | hy
        · exact .first (List.mem_cons_of_mem _ hy) hi.1
        · exact .onward (.first List.mem_cons_self ha) hy hi.1
      | onward _ hz hi ih => exact .onward ih hz hi.1

theorem reached_cons_outside {a : α} {rest : List α} (ha : ¬ inside a) (x : α) :
    Reached next inside (a :: rest) x ↔ Reached next inside rest x := by
  constructor
  · intro h
    induction h with
    | first hy hi =>
      rcases List.mem_cons.1 hy with rfl | hy
      · exact absurd hi ha
      · exact .first hy hi
    | onward _ hz hi ih => exact .onward ih hz hi
  · exact fun h => h.mono (fun _ hi => hi) (fun _ hy => List.mem_cons_of_mem _ hy)

theorem reached_cons_leaf {a : α} {rest : List α} (ha : next a = []) {x : α}
    (h : Reached next inside (a :: rest) x) : x = a ∨ Reached next inside rest x := by
  induction h with
  | first hy hi =>
    rcases List.mem_cons.1 hy with rfl | hy
    · exact .inl rfl
    · exact .inr (.first hy hi)
  | onward _ hz hi ih =>
    rcases ih with rfl | ih
    · rw [ha] at hz; cases hz
    · exact .inr (.onward ih hz hi)

/-- **Two lists reach what the first reaches, and what the second reaches around that.** -/
theorem reached_append (first second : List α) (x : α) :
    Reached next inside (first ++ second) x ↔
      Reached next inside first x ∨
        Reached next (fun b => inside b ∧ ¬ Reached next inside first b) second x := by
  constructor
  · intro h
    induction h with
    | @first y hy hi =>
      by_cases hf : Reached next inside first y
      · exact .inl hf
      · rcases List.mem_append.1 hy with hy | hy
        · exact absurd (.first hy hi) hf
        · exact .inr (.first hy ⟨hi, hf⟩)
    | @onward y z _ hz hi ih =>
      by_cases hf : Reached next inside first z
      · exact .inl hf
      · rcases ih with ih | ih
        · exact absurd (.onward ih hz hi) hf
        · exact .inr (.onward ih hz ⟨hi, hf⟩)
  · rintro (h | h)
    · exact h.mono (fun _ hi => hi) (fun _ hy => List.mem_append_left _ hy)
    · exact h.mono (fun _ hi => hi.1) (fun _ hy => List.mem_append_right _ hy)

theorem reached_congr {inside' : α → Prop} {start start' : List α} (hin : ∀ a, inside a ↔ inside' a)
    (hst : ∀ a, a ∈ start ↔ a ∈ start') (x : α) :
    Reached next inside start x ↔ Reached next inside' start' x :=
  ⟨fun h => h.mono (fun a => (hin a).1) (fun a => (hst a).1),
    fun h => h.mono (fun a => (hin a).2) (fun a => (hst a).2)⟩

/-! ## Searches on maps -/

variable [Ord α] [TransOrd α]

/-- The nodes to which a node has edges. -/
def targetsOf (edges : ExtTreeMap α (ExtTreeSet α)) (a : α) : List α :=
  ((edges[a]?).map (·.toList)).getD []

theorem targetsOf_none {edges : ExtTreeMap α (ExtTreeSet α)} {a : α} (h : edges[a]? = none) :
    targetsOf edges a = [] := by
  simp [targetsOf, h]

theorem targetsOf_some {edges : ExtTreeMap α (ExtTreeSet α)} {a : α} {targets : ExtTreeSet α}
    (h : edges[a]? = some targets) : targetsOf edges a = targets.toList := by
  simp [targetsOf, h]

variable [LawfulEqOrd α]

/-- **A breadth-first search visits exactly what is reached** through the remaining nodes. -/
theorem mem_breadthFirst (next : α → List α) (remaining : ExtTreeMap α β) (queue : List α) (x : α) :
    x ∈ breadthFirst next remaining queue ↔ Reached next (· ∈ remaining) queue x := by
  fun_induction breadthFirst next remaining queue with
  | case1 => exact ⟨fun h => (List.not_mem_nil h).elim, fun h => h.nil.elim⟩
  | case2 remaining a rest hin ih =>
    rw [reached_cons (ExtTreeMap.contains_iff_mem.1 hin), List.mem_cons, ih]
    exact or_congr Iff.rfl (reached_congr (fun b => mem_erase_iff) (fun _ => Iff.rfl) x)
  | case3 remaining a rest hin ih =>
    rw [reached_cons_outside (fun hm => hin (ExtTreeMap.contains_iff_mem.2 hm)), ih]

/-- What remains after a visit, in the graph and in its image. -/
theorem mem_erase_image {γ δ : Type} [Ord δ] [TransOrd δ] [LawfulEqOrd δ] {inside : α → Prop} {f : α → δ}
    (hf : ∀ a b, inside a → inside b → f a = f b → a = b) {remaining : ExtTreeMap α β} {remaining' : ExtTreeMap δ γ}
    (hr : ∀ a, inside a → (f a ∈ remaining' ↔ a ∈ remaining)) {a : α} (ha : inside a) (b : α) (hb : inside b) :
    f b ∈ remaining'.erase (f a) ↔ b ∈ remaining.erase a := by
  rw [mem_erase_iff, mem_erase_iff, hr b hb]
  exact and_congr_right fun _ => not_congr ⟨hf b a hb ha, congrArg f⟩

/-- **A breadth-first search visits the image of a graph in the order of its nodes**, from a closed set of nodes that the
map keeps apart. -/
theorem breadthFirst_map {γ δ : Type} [Ord δ] [TransOrd δ] [LawfulEqOrd δ] (inside : α → Prop) {f : α → δ}
    (hf : ∀ a b, inside a → inside b → f a = f b → a = b) {next : α → List α} {next' : δ → List δ}
    (hnext : ∀ a, inside a → next' (f a) = (next a).map f) (hclosed : ∀ a, inside a → ∀ b ∈ next a, inside b)
    (remaining : ExtTreeMap α β) (queue : List α) :
    ∀ remaining' : ExtTreeMap δ γ, (∀ a, inside a → (f a ∈ remaining' ↔ a ∈ remaining)) → (∀ a ∈ queue, inside a) →
      breadthFirst next' remaining' (queue.map f) = (breadthFirst next remaining queue).map f := by
  fun_induction breadthFirst next remaining queue with
  | case1 => intro remaining' _ _; rw [List.map_nil, breadthFirst]
  | case2 remaining a rest hin ih =>
    intro remaining' hr hq
    have ha := hq a List.mem_cons_self
    have hin' : remaining'.contains (f a) = true :=
      ExtTreeMap.contains_iff_mem.2 ((hr a ha).2 (ExtTreeMap.contains_iff_mem.1 hin))
    rw [List.map_cons, breadthFirst, dif_pos hin', hnext a ha, ← List.map_append, ih, List.map_cons]
    · exact mem_erase_image hf hr ha
    · intro b hb
      rcases List.mem_append.1 hb with hb | hb
      · exact hq b (List.mem_cons_of_mem _ hb)
      · exact hclosed a ha b hb
  | case3 remaining a rest hin ih =>
    intro remaining' hr hq
    have hin' : ¬ remaining'.contains (f a) = true := fun h =>
      hin (ExtTreeMap.contains_iff_mem.2 ((hr a (hq a List.mem_cons_self)).1 (ExtTreeMap.contains_iff_mem.1 h)))
    rw [List.map_cons, breadthFirst, dif_neg hin', ih remaining' hr fun b hb => hq b (List.mem_cons_of_mem _ hb)]

/-- **A breadth-first search looks at nothing outside a closed set of nodes** from which it starts. -/
theorem breadthFirst_within (inside : α → Prop) {next next' : α → List α} (hnext : ∀ a, inside a → next' a = next a)
    (hclosed : ∀ a, inside a → ∀ b ∈ next a, inside b) {γ : Type} (remaining : ExtTreeMap α β) (queue : List α)
    (remaining' : ExtTreeMap α γ) (hr : ∀ a, inside a → (a ∈ remaining ↔ a ∈ remaining')) (hq : ∀ a ∈ queue, inside a) :
    breadthFirst next remaining queue = breadthFirst next' remaining' queue := by
  have hmap := breadthFirst_map (f := id) inside (fun _ _ _ _ h => h)
    (fun a ha => (hnext a ha).trans (List.map_id _).symm) hclosed remaining queue remaining' (fun a ha => (hr a ha).symm) hq
  rw [List.map_id, List.map_id] at hmap
  exact hmap.symm

/-- A breadth-first search looks at the names of the remaining nodes only. -/
theorem breadthFirst_congr (next : α → List α) {γ : Type} (remaining : ExtTreeMap α β) (queue : List α)
    (remaining' : ExtTreeMap α γ) (hr : ∀ a, a ∈ remaining ↔ a ∈ remaining') :
    breadthFirst next remaining queue = breadthFirst next remaining' queue :=
  breadthFirst_within (fun _ => True) (fun _ _ => rfl) (fun _ _ _ _ => trivial) remaining queue remaining'
    (fun a _ => hr a) fun _ _ => trivial

/-! ## Leaves -/

/-- A node is listed, or has an edge from one that is reached from the listed ones. -/
def ledTo (edges : ExtTreeMap α (ExtTreeSet α)) (inside : α → Prop) (work : List α) (x : α) : Prop :=
  x ∈ work ∨ ∃ y, Reached (targetsOf edges) inside work y ∧ x ∈ targetsOf edges y

theorem mem_leaves (edges remaining : ExtTreeMap α (ExtTreeSet α)) (work : List α) (x : α) :
    x ∈ leaves edges remaining work ↔ edges[x]? = none ∧ ledTo edges (· ∈ remaining) work x := by
  fun_induction leaves edges remaining work with
  | case1 remaining =>
    constructor
    · intro h
      cases h
    · rintro ⟨-, hw | ⟨y, hy, -⟩⟩
      · cases hw
      · exact hy.nil.elim
  | case2 remaining a rest hnone ih =>
    rw [List.mem_cons, ih]
    constructor
    · rintro (rfl | ⟨hx, hw | ⟨y, hy, hxy⟩⟩)
      · exact ⟨hnone, .inl List.mem_cons_self⟩
      · exact ⟨hx, .inl (List.mem_cons_of_mem _ hw)⟩
      · exact ⟨hx, .inr ⟨y, hy.mono (fun _ hi => hi) (fun _ => List.mem_cons_of_mem _), hxy⟩⟩
    · rintro ⟨hx, hw | ⟨y, hy, hxy⟩⟩
      · exact (List.mem_cons.1 hw).imp id fun hw => ⟨hx, .inl hw⟩
      · rcases reached_cons_leaf (targetsOf_none hnone) hy with rfl | hy
        · rw [targetsOf_none hnone] at hxy; cases hxy
        · exact .inr ⟨hx, .inr ⟨y, hy, hxy⟩⟩
  | case3 remaining a rest targets hsome hin ih =>
    have hgo : ∀ y, Reached (targetsOf edges) (· ∈ remaining) (a :: rest) y ↔
        y = a ∨ Reached (targetsOf edges) (· ∈ remaining.erase a) (targets.toList ++ rest) y := fun y => by
      rw [reached_cons (ExtTreeMap.contains_iff_mem.1 hin), targetsOf_some hsome]
      exact or_congr Iff.rfl (reached_congr (fun b => mem_erase_iff.symm)
        (fun b => by rw [List.mem_append, List.mem_append, or_comm]) y)
    rw [ih]
    refine and_congr_right fun hx => ⟨?_, ?_⟩
    · rintro (hw | ⟨y, hy, hxy⟩)
      · rcases List.mem_append.1 hw with hw | hw
        · exact .inr ⟨a, (hgo a).2 (.inl rfl), by rwa [targetsOf_some hsome]⟩
        · exact .inl (List.mem_cons_of_mem _ hw)
      · exact .inr ⟨y, (hgo y).2 (.inr hy), hxy⟩
    · rintro (hw | ⟨y, hy, hxy⟩)
      · rcases List.mem_cons.1 hw with rfl | hw
        · rw [hx] at hsome; cases hsome
        · exact .inl (List.mem_append_right _ hw)
      · rcases (hgo y).1 hy with rfl | hy
        · exact .inl (List.mem_append_left _ (by rwa [targetsOf_some hsome] at hxy))
        · exact .inr ⟨y, hy, hxy⟩
  | case4 remaining a rest targets hsome hin ih =>
    have hgo : ∀ y, Reached (targetsOf edges) (· ∈ remaining) (a :: rest) y ↔
        Reached (targetsOf edges) (· ∈ remaining) rest y :=
      reached_cons_outside fun hm => hin (ExtTreeMap.contains_iff_mem.2 hm)
    rw [ih]
    refine and_congr_right fun hx => or_congr ?_ (exists_congr fun y => and_congr_left fun _ => (hgo y).symm)
    exact ⟨List.mem_cons_of_mem _, fun hw => (List.mem_cons.1 hw).resolve_left fun he => by
      subst he; rw [hx] at hsome; cases hsome⟩

/-- **The leaves of a node are the nodes without edges to which its edges lead.** -/
theorem mem_leaves_iff (edges : ExtTreeMap α (ExtTreeSet α)) (a x : α) :
    x ∈ leaves edges edges [a] ↔ edges[x]? = none ∧ ReflTransGen (fun a b => b ∈ targetsOf edges a) a x := by
  rw [mem_leaves]
  refine and_congr Iff.rfl ⟨?_, ?_⟩
  · rintro (hw | ⟨y, hy, hxy⟩)
    · rw [List.mem_singleton.1 hw]
    · obtain ⟨b, hb, hp⟩ := hy.path
      rw [List.mem_singleton.1 hb] at hp
      exact hp.tail hxy
  · intro hp
    -- every node before the last has an edge, so the way stays in the map
    have hin : ∀ y z, z ∈ targetsOf edges y → y ∈ edges := fun y z hz => by
      by_cases hy : y ∈ edges
      · exact hy
      · rw [targetsOf_none (ExtTreeMap.getElem?_eq_none hy)] at hz
        cases hz
    induction hp with
    | refl => exact .inl (List.mem_singleton.2 rfl)
    | @tail y z hp hz ih =>
      refine .inr ⟨y, ?_, hz⟩
      rcases ih with hw | ⟨w, hw, hyw⟩
      · exact .first hw (hin _ _ hz)
      · exact .onward hw hyw (hin _ _ hz)

end Graph
end RenameAudit
