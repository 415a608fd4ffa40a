import RenameAudit.Graph.Search
/-!
# Sets.DisjointSets — joining elements into sets

Elements are kept as trees: each has a parent, and the root of a tree, its own parent, stands for the set.  Looking an
element up enters it if it is new and makes all elements that were passed children of the root; joining two sets hangs
the tree of lower rank under the other, so that trees stay flat.
-/
namespace RenameAudit

open Std

/-- Disjoint sets of elements. -/
structure DisjointSets (α : Type) [Ord α] where
  parent : ExtTreeMap α α
  rank : ExtTreeMap α Nat

namespace DisjointSets

variable {α : Type} [Ord α] [TransOrd α] [DecidableEq α]

/-- No sets. -/
def empty : DisjointSets α :=
  ⟨∅, ∅⟩

/-- The elements that are passed from an element to the root of its tree, and the root.  Each passed element is taken out
of those that remain, so that the way ends. -/
def climb (parent remaining : ExtTreeMap α α) (x : α) : List α × α :=
  match parent[x]? with
  | none => ([], x)
  | some p =>
    if p = x then ([], x)
    else if _h : remaining.contains x = true then
      let way := climb parent (remaining.erase x) p
      (x :: way.1, way.2)
    else ([], x)
termination_by remaining.size
decreasing_by exact Graph.size_erase_lt _h

/-- The root of the tree of an element; a new element is its own. -/
def root (s : DisjointSets α) (x : α) : α :=
  (climb s.parent s.parent x).2

/-- The root of the tree of an element, and the sets with the element entered and the way to the root cut short. -/
def find (s : DisjointSets α) (x : α) : α × DisjointSets α :=
  if s.parent.contains x then
    let way := climb s.parent s.parent x
    (way.2, { s with parent := way.1.foldl (fun parent y => parent.insert y way.2) s.parent })
  else (x, ⟨s.parent.insert x x, s.rank.insert x 0⟩)

/-- Joins the trees with two given roots. -/
def link (s : DisjointSets α) (a b : α) : DisjointSets α :=
  let rankA := s.rank.getD a 0
  let rankB := s.rank.getD b 0
  if rankA < rankB then { s with parent := s.parent.insert a b }
  else if rankB < rankA then { s with parent := s.parent.insert b a }
  else ⟨s.parent.insert b a, s.rank.insert a (rankA + 1)⟩

/-- Joins the sets of two elements; says whether they were apart. -/
def union (s : DisjointSets α) (x y : α) : Bool × DisjointSets α :=
  let (a, s) := s.find x
  let (b, s) := s.find y
  if a = b then (false, s) else (true, s.link a b)

/-- Joins the sets of all listed elements. -/
def joinAll (s : DisjointSets α) : List α → DisjointSets α
  | [] => s
  | x :: rest => rest.foldl (fun s y => (s.union x y).2) (s.find x).2

/-- The elements that have been entered. -/
def elements (s : DisjointSets α) : List α :=
  s.parent.keys

/-- The sets by their roots. -/
def byRoot (s : DisjointSets α) : ExtTreeMap α (List α) :=
  s.elements.foldl (fun sets x => sets.insert (s.root x) (sets.getD (s.root x) [] ++ [x])) ∅

/-- The sets, each with its elements in order. -/
def components (s : DisjointSets α) : List (List α) :=
  s.byRoot.toList.map (·.2)

end DisjointSets
end RenameAudit
