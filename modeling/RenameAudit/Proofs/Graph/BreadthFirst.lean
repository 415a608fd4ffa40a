import Mathlib.Data.List.Basic
import Mathlib.Data.Nat.Find
import RenameAudit.Proofs.Graph.DepthFirst
/-!
# Proofs.Graph.BreadthFirst — the order of a breadth-first search

What a breadth-first search from a node lists are the first occurrences in what the node and the listed ones lead to, one
after the other (`breadthFirst_eq_firsts`).  So a listed node has its place by the first of them that leads to it
(`Earlier`), and from that, by induction on distances, nearer nodes come before farther ones (`pairwise_comesBefore`).

`Sweep` is the search as a loop that keeps the nodes that it has seen and a queue of those whose edges it has yet to
follow.  It comes to an end, with what the search lists (`exists_end`).
-/
namespace RenameAudit
namespace Graph

open Std Relation

variable {α β : Type}

/-! ## Distances -/

/-- A node leads to others in some number of steps. -/
inductive Way (next : α → List α) (a : α) : Nat → α → Prop where
  | start : Way next a 0 a
  | step {n : Nat} {b c : α} : Way next a n b → c ∈ next b → Way next a (n + 1) c

/-- The least number of steps in which a node leads to another. -/
def IsDistance (next : α → List α) (n : Nat) (a b : α) : Prop :=
  Way next a n b ∧ ∀ m, Way next a m b → n ≤ m

section Distance

variable {next : α → List α} {a b c : α} {n m : Nat}

theorem exists_way (h : ReflTransGen (fun a b => b ∈ next a) a b) : ∃ n, Way next a n b := by
  induction h with
  | refl => exact ⟨0, .start⟩
  | tail _ hb ih =>
    obtain ⟨n, hn⟩ := ih
    exact ⟨n + 1, hn.step hb⟩

theorem exists_distance (h : Way next a n b) : ∃ m, IsDistance next m a b := by
  classical
  have hsome : ∃ n, Way next a n b := ⟨n, h⟩
  exact ⟨Nat.find hsome, Nat.find_spec hsome, fun m hm => Nat.find_min' hsome hm⟩

theorem IsDistance.unique (h : IsDistance next n a b) (h' : IsDistance next m a b) : n = m :=
  Nat.le_antisymm (h.2 m h'.1) (h'.2 n h.1)

/-- The last node before the end of a shortest way is one step nearer. -/
theorem IsDistance.exists_previous (h : IsDistance next (n + 1) a c) : ∃ b, IsDistance next n a b ∧ c ∈ next b := by
  obtain ⟨hway, hmin⟩ := h
  cases hway with
  | @step _ b _ hb hc =>
    exact ⟨b, ⟨hb, fun m hm => Nat.le_of_succ_le_succ (hmin (m + 1) (hm.step hc))⟩, hc⟩

end Distance

/-! ## First occurrences -/

section Firsts

variable [Ord α] [TransOrd α]

/-- The first occurrences of the remaining nodes in a list. -/
def firsts (remaining : ExtTreeMap α β) : List α → List α
  | [] => []
  | a :: rest => if remaining.contains a then a :: firsts (remaining.erase a) rest else firsts remaining rest

variable [LawfulEqOrd α]

theorem mem_firsts {remaining : ExtTreeMap α β} {l : List α} {x : α} :
    x ∈ firsts remaining l ↔ x ∈ l ∧ x ∈ remaining := by
  induction l generalizing remaining with
  | nil => simp [firsts]
  | cons a rest ih =>
    rw [firsts]
    split
    · rename_i hin
      rw [List.mem_cons, ih, mem_erase_iff, List.mem_cons]
      by_cases hx : x = a
      · exact iff_of_true (.inl hx) ⟨.inl hx, hx ▸ ExtTreeMap.contains_iff_mem.1 hin⟩
      · simp [hx]
    · rename_i hin
      rw [ih, List.mem_cons]
      refine ⟨fun h => ⟨.inr h.1, h.2⟩, fun h => ⟨h.1.resolve_left ?_, h.2⟩⟩
      rintro rfl
      exact hin (ExtTreeMap.contains_iff_mem.2 h.2)

/-- **First occurrences come in the order in which the nodes occur first.** -/
theorem pairwise_firsts [DecidableEq α] (remaining : ExtTreeMap α β) (l : List α) :
    (firsts remaining l).Pairwise fun x y => l.idxOf x < l.idxOf y := by
  induction l generalizing remaining with
  | nil => exact .nil
  | cons a rest ih =>
    have hlater : ∀ {x y : α}, x ≠ a → y ≠ a → rest.idxOf x < rest.idxOf y →
        (a :: rest).idxOf x < (a :: rest).idxOf y := fun hx hy h => by
      rw [List.idxOf_cons_ne _ hx.symm, List.idxOf_cons_ne _ hy.symm]
      exact Nat.succ_lt_succ h
    rw [firsts]
    split
    · have hne : ∀ x ∈ firsts (remaining.erase a) rest, x ≠ a := fun x hx => (mem_erase_iff.1 (mem_firsts.1 hx).2).2
      refine List.pairwise_cons.2 ⟨fun y hy => ?_, (ih _).imp_of_mem fun hx hy => hlater (hne _ hx) (hne _ hy)⟩
      rw [List.idxOf_cons_self, List.idxOf_cons_ne _ (hne y hy).symm]
      exact Nat.succ_pos _
    · rename_i hin
      have hne : ∀ x ∈ firsts remaining rest, x ≠ a := fun x hx he =>
        hin (ExtTreeMap.contains_iff_mem.2 (he ▸ (mem_firsts.1 hx).2))
      exact (ih _).imp_of_mem fun hx hy => hlater (hne _ hx) (hne _ hy)

omit [LawfulEqOrd α] in
/-- **A breadth-first search lists the first occurrences** in its queue and in what the listed nodes lead to. -/
theorem breadthFirst_eq_firsts (next : α → List α) (remaining : ExtTreeMap α β) (queue : List α) :
    breadthFirst next remaining queue =
      firsts remaining (queue ++ (breadthFirst next remaining queue).flatMap next) := by
  fun_induction breadthFirst next remaining queue with
  | case1 => rfl
  | case2 remaining a rest hin ih =>
    rw [List.cons_append, firsts, if_pos hin, List.flatMap_cons, ← List.append_assoc, ← ih]
  | case3 remaining a rest hin ih =>
    rw [List.cons_append, firsts, if_neg hin, ← ih]

end Firsts

/-! ## Places -/

section Places

variable [DecidableEq α]

/-- The place in a list of the first node that leads to a node. -/
def placeOfFirst (next : α → List α) (listed : List α) (x : α) : Nat :=
  listed.findIdx fun a => decide (x ∈ next a)

/-- **A node comes before another by what leads to it first**, and where the same node leads to both first, by their places
among what that leads to. -/
def Earlier (next : α → List α) (listed : List α) (x y : α) : Prop :=
  placeOfFirst next listed x < placeOfFirst next listed y ∨
    (placeOfFirst next listed x = placeOfFirst next listed y ∧
      ∀ a, listed[placeOfFirst next listed x]? = some a → (next a).idxOf x < (next a).idxOf y)

variable {next : α → List α} {listed : List α} {x y : α}

theorem placeOfFirst_cons (a : α) (rest : List α) :
    placeOfFirst next (a :: rest) x = if x ∈ next a then 0 else placeOfFirst next rest x + 1 := by
  rw [placeOfFirst, List.findIdx_cons, Bool.cond_decide]
  rfl

theorem earlier_of_idxOf (hx : x ∈ listed.flatMap next) (hlt : (listed.flatMap next).idxOf x < (listed.flatMap next).idxOf y) :
    Earlier next listed x y := by
  induction listed with
  | nil => exact absurd hx List.not_mem_nil
  | cons a rest ih =>
    rw [List.flatMap_cons, List.idxOf_append, List.idxOf_append] at hlt
    rw [Earlier, placeOfFirst_cons, placeOfFirst_cons]
    by_cases hxa : x ∈ next a
    · rw [if_pos hxa] at hlt
      by_cases hya : y ∈ next a
      · rw [if_pos hya] at hlt
        rw [if_pos hxa, if_pos hya]
        refine .inr ⟨rfl, fun b hb => ?_⟩
        cases hb
        exact hlt
      · rw [if_pos hxa, if_neg hya]
        exact .inl (Nat.succ_pos _)
    · rw [if_neg hxa] at hlt
      by_cases hya : y ∈ next a
      · rw [if_pos hya] at hlt
        have := List.idxOf_lt_length_iff.2 hya
        omega
      · rw [if_neg hya] at hlt
        rw [if_neg hxa, if_neg hya]
        have hrest : x ∈ rest.flatMap next := by
          rw [List.flatMap_cons, List.mem_append] at hx
          exact hx.resolve_left hxa
        refine (ih hrest (Nat.lt_of_add_lt_add_right hlt)).imp Nat.succ_lt_succ fun h => ⟨congrArg (· + 1) h.1, fun b hb => ?_⟩
        exact h.2 b (by rwa [List.getElem?_cons_succ] at hb)

theorem Earlier.place_le (h : Earlier next listed x y) : placeOfFirst next listed x ≤ placeOfFirst next listed y :=
  h.elim Nat.le_of_lt fun h => Nat.le_of_eq h.1

theorem placeOfFirst_le {i : Nat} {a : α} (ha : listed[i]? = some a) (hx : x ∈ next a) :
    placeOfFirst next listed x ≤ i := by
  obtain ⟨hi, rfl⟩ := List.getElem?_eq_some_iff.1 ha
  refine Nat.le_of_not_lt fun hlt => ?_
  exact absurd hx (of_decide_eq_false (List.not_of_lt_findIdx hlt))

theorem exists_placeOfFirst (hx : x ∈ listed.flatMap next) :
    ∃ a, listed[placeOfFirst next listed x]? = some a ∧ x ∈ next a := by
  obtain ⟨a, ha, hx⟩ := List.mem_flatMap.1 hx
  have hlt : placeOfFirst next listed x < listed.length := List.findIdx_lt_length.2 ⟨a, ha, decide_eq_true hx⟩
  exact ⟨_, List.getElem?_eq_getElem hlt, of_decide_eq_true (List.findIdx_getElem (w := hlt))⟩

/-! ## Nearer nodes first -/

/-- **A node comes before another from the start of a search**: it is nearer, or it is as near and comes earlier. -/
def ComesBefore (next : α → List α) (start : α) (listed : List α) (x y : α) : Prop :=
  ∃ m n, IsDistance next m start x ∧ IsDistance next n start y ∧
    (m < n ∨ (m = n ∧ Earlier next (start :: listed) x y))

section Nearer

variable {start : α} {found : List α} (hfound : ∀ x, x ∈ start :: found ↔ ∃ n, Way next start n x)
  (hstart : start ∉ found) (hled : ∀ x ∈ found, x ∈ (start :: found).flatMap next)
  (horder : found.Pairwise (Earlier next (start :: found)))

include hfound hstart hled horder

/-- **Distances do not decrease** along a list of nodes each of which comes earlier than the next. -/
theorem distance_le {n : Nat} : ∀ {i j m : Nat} {x y : α}, (start :: found)[i]? = some x → (start :: found)[j]? = some y →
    i < j → IsDistance next n start y → IsDistance next m start x → m ≤ n := by
  -- on the distance of the later node: what leads to it on a shortest way is one step nearer, and does not come before
  -- what leads first to the earlier node
  induction n with
  | zero =>
    intro i j m x y _ hy hij hn _
    obtain ⟨j, rfl⟩ : ∃ k, j = k + 1 := ⟨j - 1, by omega⟩
    rw [List.getElem?_cons_succ] at hy
    cases hn.1
    exact absurd (List.mem_of_getElem? hy) hstart
  | succ n ih =>
    intro i j m x y hx hy hij hn hm
    obtain ⟨j, rfl⟩ : ∃ k, j = k + 1 := ⟨j - 1, by omega⟩
    cases i with
    | zero =>
      cases hx
      exact Nat.le_trans (hm.2 0 .start) (Nat.zero_le _)
    | succ i =>
      rw [List.getElem?_cons_succ] at hx hy
      have hearlier : Earlier next (start :: found) x y := by
        obtain ⟨hi, rfl⟩ := List.getElem?_eq_some_iff.1 hx
        obtain ⟨hj, rfl⟩ := List.getElem?_eq_some_iff.1 hy
        exact List.pairwise_iff_getElem.1 horder i j hi hj (by omega)
      obtain ⟨z, hz, hyz⟩ := hn.exists_previous
      obtain ⟨k, hk⟩ := List.getElem?_of_mem ((hfound z).2 ⟨n, hz.1⟩)
      obtain ⟨w, hw, hxw⟩ := exists_placeOfFirst (hled x (List.mem_of_getElem? hx))
      obtain ⟨_, hway⟩ := (hfound w).1 (List.mem_of_getElem? hw)
      obtain ⟨q, hq⟩ := exists_distance hway
      have hplace : placeOfFirst next (start :: found) x ≤ k := Nat.le_trans hearlier.place_le (placeOfFirst_le hk hyz)
      have hqn : q ≤ n := by
        rcases Nat.lt_or_eq_of_le hplace with hlt | heq
        · exact ih hw hk hlt hz hq
        · rw [heq, hk] at hw
          cases hw
          exact Nat.le_of_eq (hq.unique hz)
      exact Nat.le_trans (hm.2 (q + 1) (hq.1.step hxw)) (Nat.succ_le_succ hqn)

/-- **Nearer nodes come first.** -/
theorem pairwise_comesBefore : found.Pairwise (ComesBefore next start found) := by
  refine List.pairwise_iff_getElem.2 fun i j hi hj hij => ?_
  have hat : ∀ {k : Nat} (hk : k < found.length), (start :: found)[k + 1]? = some found[k] := fun hk => by
    rw [List.getElem?_cons_succ, List.getElem?_eq_getElem hk]
  have hdistance : ∀ {k : Nat} (hk : k < found.length), ∃ n, IsDistance next n start found[k] := fun hk => by
    obtain ⟨n, hn⟩ := (hfound _).1 (List.mem_of_getElem? (hat hk))
    exact exists_distance hn
  obtain ⟨m, hm⟩ := hdistance hi
  obtain ⟨n, hn⟩ := hdistance hj
  refine ⟨m, n, hm, hn, ?_⟩
  have hle := distance_le hfound hstart hled horder (hat hi) (hat hj) (Nat.succ_lt_succ hij) hn hm
  rcases Nat.lt_or_eq_of_le hle with hlt | heq
  · exact .inl hlt
  · exact .inr ⟨heq, List.pairwise_iff_getElem.1 horder i j hi hj hij⟩

end Nearer

end Places

/-! ## The search from a node -/

section Search

variable [Ord α] [TransOrd α] [LawfulEqOrd α] {next : α → List α} {remaining : ExtTreeMap α β} {start : α}

omit [LawfulEqOrd α] in
theorem breadthFirst_from (next : α → List α) (remaining : ExtTreeMap α β) (start : α) :
    breadthFirst next remaining (next start) =
      firsts remaining ((start :: breadthFirst next remaining (next start)).flatMap next) := by
  rw [List.flatMap_cons, ← breadthFirst_eq_firsts]

theorem nodup_breadthFirst [DecidableEq α] (next : α → List α) (remaining : ExtTreeMap α β) (queue : List α) :
    (breadthFirst next remaining queue).Nodup := by
  rw [breadthFirst_eq_firsts]
  refine (pairwise_firsts remaining _).imp fun {x y} hlt he => ?_
  rw [he] at hlt
  exact Nat.lt_irrefl _ hlt

/-- **What is found from a node** are the nodes to which it leads, where these are the node itself or remain. -/
theorem mem_breadthFirst_from (hclosed : ∀ a, a = start ∨ a ∈ remaining → ∀ b ∈ next a, b = start ∨ b ∈ remaining) (x : α) :
    x ∈ start :: breadthFirst next remaining (next start) ↔ ∃ n, Way next start n x := by
  constructor
  · intro hx
    rcases List.mem_cons.1 hx with rfl | hx
    · exact ⟨0, .start⟩
    · obtain ⟨a, ha, hp⟩ := ((mem_breadthFirst next _ _ x).1 hx).path
      exact exists_way (.head ha hp)
  · rintro ⟨n, hn⟩
    induction hn with
    | start => exact List.mem_cons_self
    | @step n b c _ hc ih =>
      have hb : b = start ∨ b ∈ remaining :=
        (List.mem_cons.1 ih).imp id fun hb => ((mem_breadthFirst next _ _ b).1 hb).is_inside
      rcases hclosed b hb c hc with rfl | hin
      · exact List.mem_cons_self
      · refine List.mem_cons_of_mem _ ?_
        rw [breadthFirst_from, mem_firsts]
        exact ⟨List.mem_flatMap.2 ⟨b, ih, hc⟩, hin⟩

/-- **A breadth-first search from a node lists nearer nodes first**, and nodes that are as near by what leads to them. -/
theorem pairwise_breadthFirst [DecidableEq α] (hout : start ∉ remaining)
    (hclosed : ∀ a, a = start ∨ a ∈ remaining → ∀ b ∈ next a, b = start ∨ b ∈ remaining) :
    (breadthFirst next remaining (next start)).Pairwise
      (ComesBefore next start (breadthFirst next remaining (next start))) := by
  have hmem : ∀ x ∈ breadthFirst next remaining (next start),
      x ∈ (start :: breadthFirst next remaining (next start)).flatMap next ∧ x ∈ remaining := fun x hx =>
    mem_firsts.1 (breadthFirst_from next remaining start ▸ hx)
  have hfirsts := pairwise_firsts remaining ((start :: breadthFirst next remaining (next start)).flatMap next)
  rw [← breadthFirst_from] at hfirsts
  exact pairwise_comesBefore (mem_breadthFirst_from hclosed) (fun h => hout (hmem start h).2) (fun x hx => (hmem x hx).1)
    (hfirsts.imp_of_mem fun hx _ hlt => earlier_of_idxOf (hmem _ hx).1 hlt)

end Search

/-! ## The search as a loop -/

section Loop

variable [Ord α] [TransOrd α]

/-- A search under way: the nodes that it has seen, those that it has listed, and those whose edges it has yet to
follow. -/
structure Sweep (α : Type) [Ord α] [TransOrd α] where
  seen : ExtTreeSet α
  found : List α
  queue : List α

namespace Sweep

/-- A node is queued, unless it has been seen. -/
def push (s : Sweep α) (a : α) : Sweep α :=
  if s.seen.contains a then s else { s with seen := s.seen.insert a, queue := s.queue ++ [a] }

/-- The search from a node: it has been seen, and what it leads to is queued. -/
def start (next : α → List α) (a : α) : Sweep α :=
  (next a).foldl push ⟨(∅ : ExtTreeSet α).insert a, [], []⟩

/-- The first node of the queue is listed, and what it leads to is queued. -/
def step (next : α → List α) (s : Sweep α) : Option (Sweep α) :=
  match s.queue with
  | [] => none
  | a :: rest => some ((next a).foldl push { s with found := s.found ++ [a], queue := rest })

/-- Steps lead from a search to a later one. -/
def Leads (next : α → List α) : Sweep α → Sweep α → Prop :=
  ReflTransGen fun s s' => s.step next = some s'

end Sweep

variable [LawfulEqOrd α]

/-- **A node that does not remain, or stands in the queue already, may be left out of it.** -/
theorem breadthFirst_drop (next : α → List α) (remaining : ExtTreeMap α β) (front : List α) (b : α) (back : List α)
    (hb : b ∉ remaining ∨ b ∈ front) :
    breadthFirst next remaining (front ++ b :: back) = breadthFirst next remaining (front ++ back) := by
  induction hn : remaining.size using Nat.strongRecOn generalizing remaining front back with
  | _ n ihn =>
    induction front with
    | nil =>
      have hout : ¬ remaining.contains b = true := fun h =>
        (hb.resolve_right List.not_mem_nil) (ExtTreeMap.contains_iff_mem.1 h)
      rw [List.nil_append, List.nil_append, breadthFirst, dif_neg hout]
    | cons a front ih =>
      rw [List.cons_append, List.cons_append, breadthFirst, breadthFirst]
      split
      · rename_i hin
        have hdrop : b ∉ remaining.erase a ∨ b ∈ front := by
          rw [mem_erase_iff, List.mem_cons] at *
          by_cases hba : b = a
          · exact .inl fun h => h.2 hba
          · exact hb.imp (fun h h' => h h'.1) fun h => h.resolve_left hba
        rw [List.append_assoc, List.append_assoc, List.cons_append,
          ihn _ (hn ▸ size_erase_lt hin) _ front (back ++ next a) hdrop rfl]
      · rename_i hin
        refine ih ?_
        rcases hb with hb | hb
        · exact .inl hb
        · rcases List.mem_cons.1 hb with rfl | hb
          · exact .inl fun h => hin (ExtTreeMap.contains_iff_mem.2 h)
          · exact .inr hb

omit [LawfulEqOrd α] in
theorem without_append (remaining : ExtTreeMap α β) (listed more : List α) :
    without remaining (listed ++ more) = without (without remaining listed) more :=
  List.foldl_append

/-- **What every step of the loop preserves**, with the nodes that it is about to queue: the search lists what is listed
already and goes on with the queue; what has been seen is listed or queued, once, or is the start. -/
structure Sweeps (next : α → List α) (remaining : ExtTreeMap α β) (start : α) (due : List α) (s : Sweep α) : Prop where
  order : breadthFirst next remaining (next start) =
    s.found ++ breadthFirst next (without remaining s.found) (s.queue ++ due)
  seen : ∀ a, a ∈ s.seen ↔ a = start ∨ a ∈ s.found ++ s.queue
  apart : (s.found ++ s.queue).Nodup
  queued : ∀ a ∈ s.queue, a ∈ remaining

namespace Sweeps

variable {next : α → List α} {remaining : ExtTreeMap α β} {start : α} {s s' : Sweep α}

theorem push (hout : start ∉ remaining) {b : α} {due : List α} (h : Sweeps next remaining start (b :: due) s)
    (hb : b = start ∨ b ∈ remaining) : Sweeps next remaining start due (s.push b) := by
  unfold Sweep.push
  split
  · rename_i hseen
    refine ⟨?_, h.seen, h.apart, h.queued⟩
    rw [h.order]
    congr 1
    refine breadthFirst_drop next _ s.queue b due ?_
    rcases (h.seen b).1 (ExtTreeSet.contains_iff_mem.1 hseen) with rfl | hlisted
    · exact .inl fun hin => hout (mem_without.1 hin).1
    · exact (List.mem_append.1 hlisted).imp (fun hfound hin => (mem_without.1 hin).2 hfound) id
  · rename_i hseen
    have hfresh : ¬ (b = start ∨ b ∈ s.found ++ s.queue) := fun hin =>
      hseen (ExtTreeSet.contains_iff_mem.2 ((h.seen b).2 hin))
    rw [not_or] at hfresh
    refine ⟨?_, fun a => ?_, ?_, fun a ha => ?_⟩
    · rw [h.order, List.append_assoc, List.singleton_append]
    · rw [ExtTreeSet.mem_insert, Std.compare_eq_iff_eq, h.seen, ← List.append_assoc, List.mem_append (s := s.found ++ s.queue),
        List.mem_singleton]
      constructor
      · rintro (rfl | rfl | ha)
        · exact .inr (.inr rfl)
        · exact .inl rfl
        · exact .inr (.inl ha)
      · rintro (rfl | ha | rfl)
        · exact .inr (.inl rfl)
        · exact .inr (.inr ha)
        · exact .inl rfl
    · rw [← List.append_assoc]
      exact List.nodup_append.2 ⟨h.apart, List.pairwise_singleton _ _, fun x hx y hy he =>
        hfresh.2 (List.mem_singleton.1 hy ▸ he ▸ hx)⟩
    · rcases List.mem_append.1 ha with ha | ha
      · exact h.queued a ha
      · exact List.mem_singleton.1 ha ▸ hb.resolve_left hfresh.1

theorem pushAll (hout : start ∉ remaining) {due : List α} (h : Sweeps next remaining start due s)
    (hdue : ∀ b ∈ due, b = start ∨ b ∈ remaining) : Sweeps next remaining start [] (due.foldl Sweep.push s) := by
  induction due generalizing s with
  | nil => exact h
  | cons b due ih =>
    exact ih (h.push hout (hdue b List.mem_cons_self)) fun c hc => hdue c (List.mem_cons_of_mem _ hc)

variable (hout : start ∉ remaining)
  (hclosed : ∀ a, a = start ∨ a ∈ remaining → ∀ b ∈ next a, b = start ∨ b ∈ remaining)

include hout hclosed

theorem begin : Sweeps next remaining start [] (Sweep.start next start) := by
  have hbegin : Sweeps next remaining start (next start) ⟨(∅ : ExtTreeSet α).insert start, [], []⟩ := by
    refine ⟨rfl, fun a => ?_, List.nodup_nil, fun a ha => absurd ha List.not_mem_nil⟩
    rw [ExtTreeSet.mem_insert, Std.compare_eq_iff_eq]
    exact ⟨fun h => .inl (h.resolve_right ExtTreeSet.not_mem_empty).symm,
      fun h => .inl (h.resolve_right List.not_mem_nil).symm⟩
  exact hbegin.pushAll hout (hclosed start (.inl rfl))

/-- **Every step keeps the invariant and leaves fewer nodes to list.** -/
theorem step (h : Sweeps next remaining start [] s) (hstep : s.step next = some s') :
    Sweeps next remaining start [] s' ∧ (without remaining s'.found).size < (without remaining s.found).size := by
  obtain ⟨seen, found, queue⟩ := s
  cases queue with
  | nil => cases hstep
  | cons a rest =>
    cases hstep
    have ha : a ∈ remaining := h.queued a List.mem_cons_self
    have hnew : a ∉ found := fun hin => (List.nodup_append.1 h.apart).2.2 a hin a List.mem_cons_self rfl
    have hin : (without remaining found).contains a = true := ExtTreeMap.contains_iff_mem.2 (mem_without.2 ⟨ha, hnew⟩)
    have hlisted : Sweeps next remaining start (next a) ⟨seen, found ++ [a], rest⟩ := by
      refine ⟨?_, fun b => ?_, ?_, fun b hb => h.queued b (List.mem_cons_of_mem _ hb)⟩
      · rw [h.order, List.append_nil, breadthFirst, dif_pos hin, without_append, List.append_assoc, List.singleton_append]
        rfl
      · rw [h.seen, List.append_assoc, List.singleton_append]
      · rw [List.append_assoc, List.singleton_append]
        exact h.apart
    have hnext := hlisted.pushAll hout (hclosed a (.inr ha))
    have hfound : ((next a).foldl Sweep.push ⟨seen, found ++ [a], rest⟩).found = found ++ [a] :=
      List.foldlRecOn (motive := fun t : Sweep α => t.found = found ++ [a]) _ _ rfl fun t ht b _ => by
        unfold Sweep.push
        split <;> exact ht
    refine ⟨hnext, ?_⟩
    rw [hfound, without_append]
    exact size_erase_lt hin

/-- **The loop comes to an end.** -/
theorem exists_end {s : Sweep α} (h : Sweeps next remaining start [] s) :
    ∃ final, s.Leads next final ∧ Sweeps next remaining start [] final ∧ final.step next = none := by
  cases hstep : s.step next with
  | none => exact ⟨s, .refl, h, hstep⟩
  | some s' =>
    obtain ⟨hnext, hless⟩ := h.step hout hclosed hstep
    obtain ⟨final, hleads, hend⟩ := hnext.exists_end
    exact ⟨final, .head hstep hleads, hend⟩
termination_by (without remaining s.found).size
decreasing_by exact hless

omit hout hclosed [LawfulEqOrd α] in
/-- **At its end the loop has listed what the search lists.** -/
theorem found_eq (h : Sweeps next remaining start [] s) (hend : s.step next = none) :
    s.found = breadthFirst next remaining (next start) := by
  obtain ⟨seen, found, queue⟩ := s
  cases queue with
  | nil => rw [h.order, List.append_nil, breadthFirst, List.append_nil]
  | cons a rest => cases hend

end Sweeps

/-- **The search as a loop comes to an end, and has listed what the search lists.** -/
theorem sweep_ends {next : α → List α} {remaining : ExtTreeMap α β} {start : α} (hout : start ∉ remaining)
    (hclosed : ∀ a, a = start ∨ a ∈ remaining → ∀ b ∈ next a, b = start ∨ b ∈ remaining) :
    ∃ final, (Sweep.start next start).Leads next final ∧ final.step next = none ∧
      final.found = breadthFirst next remaining (next start) := by
  obtain ⟨final, hleads, hfinal, hend⟩ := (Sweeps.begin hout hclosed).exists_end hout hclosed
  exact ⟨final, hleads, hend, hfinal.found_eq hend⟩

end Loop

end Graph
end RenameAudit
