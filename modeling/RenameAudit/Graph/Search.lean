import Std.Data.ExtTreeMap
import Std.Data.ExtTreeSet
/-!
# Graph.Search — visiting a finite graph

Three searches along the edges of a graph whose nodes are the keys of a map: breadth first, depth first with each node
after those that it leads to, and the nodes without edges that a node leads to.  Each visited node is taken out of the
map of those that remain, so a search ends on every graph, cycles included, and visits no node twice.
-/
namespace RenameAudit
namespace Graph

open Std

variable {α β : Type} [Ord α] [TransOrd α]

theorem size_erase_lt {remaining : ExtTreeMap α β} {a : α} (h : remaining.contains a = true) :
    (remaining.erase a).size < remaining.size := by
  have hpos : 0 < remaining.size := by
    rcases Nat.eq_zero_or_pos remaining.size with h0 | h0
    · have hm : a ∈ remaining := ExtTreeMap.mem_iff_contains.2 h
      rw [← ExtTreeMap.eq_empty_iff_size_eq_zero] at h0
      subst h0
      exact absurd hm ExtTreeMap.not_mem_empty
    · exact h0
  rw [ExtTreeMap.size_erase, if_pos h]
  omega

/-- The remaining nodes that the queued ones lead to, nearest first; the queued ones come before all others. -/
def breadthFirst (next : α → List α) (remaining : ExtTreeMap α β) (queue : List α) : List α :=
  match queue with
  | [] => []
  | a :: rest =>
    if _h : remaining.contains a = true then a :: breadthFirst next (remaining.erase a) (rest ++ next a)
    else breadthFirst next remaining rest
termination_by (remaining.size, queue.length)
decreasing_by
  · exact Prod.Lex.left _ _ (size_erase_lt _h)
  · exact Prod.Lex.right _ (by simp)

/-- A step of a depth-first search: to go to a node, or to leave it with all that it leads to visited. -/
inductive Visit (α : Type) where
  | enter (a : α)
  | leave (a : α)

/-- The remaining nodes that the planned visits go to, each after those that it leads to. -/
def depthFirst (next : α → List α) (remaining : ExtTreeMap α β) (plan : List (Visit α)) : List α :=
  match plan with
  | [] => []
  | .leave a :: rest => a :: depthFirst next remaining rest
  | .enter a :: rest =>
    if _h : remaining.contains a = true then
      depthFirst next (remaining.erase a) ((next a).map .enter ++ .leave a :: rest)
    else depthFirst next remaining rest
termination_by (remaining.size, plan.length)
decreasing_by
  · exact Prod.Lex.right _ (by simp)
  · exact Prod.Lex.left _ _ (size_erase_lt _h)
  · exact Prod.Lex.right _ (by simp)

/-- The nodes without edges that the listed ones lead to; one that is listed itself is among them. -/
def leaves (edges remaining : ExtTreeMap α (ExtTreeSet α)) (work : List α) : List α :=
  match work with
  | [] => []
  | a :: rest =>
    match edges[a]? with
    | none => a :: leaves edges remaining rest
    | some targets =>
      if _h : remaining.contains a = true then leaves edges (remaining.erase a) (targets.toList ++ rest)
      else leaves edges remaining rest
termination_by (remaining.size, work.length)
decreasing_by
  · exact Prod.Lex.right _ (by simp)
  · exact Prod.Lex.left _ _ (size_erase_lt _h)
  · exact Prod.Lex.right _ (by simp)

end Graph
end RenameAudit
