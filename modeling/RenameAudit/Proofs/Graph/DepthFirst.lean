import RenameAudit.Proofs.Graph.Reach
/-!
# Proofs.Graph.DepthFirst — the order of a depth-first search

The plan of a search holds what is still to enter and what is entered and still to leave.  `depthFirst_enter` takes one
entered node apart: all that it leads to comes first, then the node, then the rest of the plan over what is left.  From
it, by induction on the number of remaining nodes:

- `mem_depthFirst`: the search visits exactly what is reached, and lists no node twice (`nodup_visited`);
- `depthFirst_before`: where a node is listed, every remaining node that it leads to has been listed before, unless the
  two lie on a circle.
-/
namespace RenameAudit
namespace Graph

open Std Relation

variable {α β : Type} [Ord α] [TransOrd α] [LawfulEqOrd α]

/-- The remaining nodes without listed ones. -/
def without (remaining : ExtTreeMap α β) (listed : List α) : ExtTreeMap α β :=
  listed.foldl (fun left a => left.erase a) remaining

theorem mem_without {remaining : ExtTreeMap α β} {listed : List α} {a : α} :
    a ∈ without remaining listed ↔ a ∈ remaining ∧ a ∉ listed := by
  induction listed generalizing remaining with
  | nil => simp [without]
  | cons b rest ih =>
    have hgo : without remaining (b :: rest) = without (remaining.erase b) rest := rfl
    rw [hgo, ih, mem_erase_iff, List.mem_cons, and_assoc, not_or]

omit [LawfulEqOrd α] in
theorem size_without_le (remaining : ExtTreeMap α β) (listed : List α) :
    (without remaining listed).size ≤ remaining.size := by
  induction listed generalizing remaining with
  | nil => exact Nat.le_refl _
  | cons b rest ih => exact Nat.le_trans (ih (remaining.erase b)) ExtTreeMap.size_erase_le

/-- A step of a search at the image of a node. -/
def Visit.map {δ : Type} (f : α → δ) : Visit α → Visit δ
  | enter a => enter (f a)
  | leave a => leave (f a)

/-- **A depth-first search visits the image of a graph in the order of its nodes**, from a closed set of nodes that the map
keeps apart. -/
theorem depthFirst_map {γ δ : Type} [Ord δ] [TransOrd δ] [LawfulEqOrd δ] (inside : α → Prop) {f : α → δ}
    (hf : ∀ a b, inside a → inside b → f a = f b → a = b) {next : α → List α} {next' : δ → List δ}
    (hnext : ∀ a, inside a → next' (f a) = (next a).map f) (hclosed : ∀ a, inside a → ∀ b ∈ next a, inside b)
    (remaining : ExtTreeMap α β) (plan : List (Visit α)) :
    ∀ remaining' : ExtTreeMap δ γ, (∀ a, inside a → (f a ∈ remaining' ↔ a ∈ remaining)) →
      (∀ a, .enter a ∈ plan → inside a) →
        depthFirst next' remaining' (plan.map (Visit.map f)) = (depthFirst next remaining plan).map f := by
  fun_induction depthFirst next remaining plan with
  | case1 => intro remaining' _ _; rw [List.map_nil, depthFirst]; rfl
  | case2 remaining a rest ih =>
    intro remaining' hr hp
    rw [List.map_cons, Visit.map, depthFirst, ih remaining' hr fun b hb => hp b (List.mem_cons_of_mem _ hb), List.map_cons]
  | case3 remaining a rest hin ih =>
    intro remaining' hr hp
    have ha := hp a List.mem_cons_self
    have hin' : remaining'.contains (f a) = true :=
      ExtTreeMap.contains_iff_mem.2 ((hr a ha).2 (ExtTreeMap.contains_iff_mem.1 hin))
    have hplan : (next' (f a)).map Visit.enter ++ Visit.leave (f a) :: rest.map (Visit.map f) =
        ((next a).map Visit.enter ++ Visit.leave a :: rest).map (Visit.map f) := by
      rw [hnext a ha, List.map_append, List.map_cons, List.map_map, List.map_map]
      rfl
    rw [List.map_cons, Visit.map, depthFirst, dif_pos hin', hplan, ih]
    · exact mem_erase_image hf hr ha
    · intro b hb
      rcases List.mem_append.1 hb with hb | hb
      · obtain ⟨c, hc, hcb⟩ := List.mem_map.1 hb
        cases hcb
        exact hclosed a ha b hc
      · rcases List.mem_cons.1 hb with hb | hb
        · cases hb
        · exact hp b (List.mem_cons_of_mem _ hb)
  | case4 remaining a rest hin ih =>
    intro remaining' hr hp
    have hin' : ¬ remaining'.contains (f a) = true := fun h =>
      hin (ExtTreeMap.contains_iff_mem.2 ((hr a (hp a List.mem_cons_self)).1 (ExtTreeMap.contains_iff_mem.1 h)))
    rw [List.map_cons, Visit.map, depthFirst, dif_neg hin', ih remaining' hr fun b hb => hp b (List.mem_cons_of_mem _ hb)]

/-- **A depth-first search looks at nothing outside a closed set of nodes** that has all nodes to enter. -/
theorem depthFirst_within (inside : α → Prop) {next next' : α → List α} (hnext : ∀ a, inside a → next' a = next a)
    (hclosed : ∀ a, inside a → ∀ b ∈ next a, inside b) {γ : Type} (remaining : ExtTreeMap α β) (plan : List (Visit α))
    (remaining' : ExtTreeMap α γ) (hr : ∀ a, inside a → (a ∈ remaining ↔ a ∈ remaining'))
    (hp : ∀ a, .enter a ∈ plan → inside a) : depthFirst next remaining plan = depthFirst next' remaining' plan := by
  have hid : Visit.map (id : α → α) = id := funext fun v => by cases v <;> rfl
  have hmap := depthFirst_map (f := id) inside (fun _ _ _ _ h => h)
    (fun a ha => (hnext a ha).trans (List.map_id _).symm) hclosed remaining plan remaining' (fun a ha => (hr a ha).symm) hp
  rw [hid, List.map_id, List.map_id] at hmap
  exact hmap.symm

/-- A depth-first search looks at the names of the remaining nodes only. -/
theorem depthFirst_congr (next : α → List α) {γ : Type} (remaining : ExtTreeMap α β) (plan : List (Visit α))
    (remaining' : ExtTreeMap α γ) (hr : ∀ a, a ∈ remaining ↔ a ∈ remaining') :
    depthFirst next remaining plan = depthFirst next remaining' plan :=
  depthFirst_within (fun _ => True) (fun _ _ => rfl) (fun _ _ _ _ => trivial) remaining plan remaining'
    (fun a _ => hr a) fun _ _ => trivial

/-- What a search visits that has only nodes to enter. -/
def visited (next : α → List α) (remaining : ExtTreeMap α β) (start : List α) : List α :=
  depthFirst next remaining (start.map .enter)

omit [LawfulEqOrd α] in
theorem visited_nil (next : α → List α) (remaining : ExtTreeMap α β) : visited next remaining [] = [] := by
  rw [visited, List.map_nil, depthFirst]

/-- **A plan is carried out in its order**: what it enters first is visited first, and taken out. -/
theorem depthFirst_append (next : α → List α) (remaining : ExtTreeMap α β) (start : List α) (plan : List (Visit α)) :
    depthFirst next remaining (start.map .enter ++ plan) =
      visited next remaining start ++ depthFirst next (without remaining (visited next remaining start)) plan := by
  -- on the number of remaining nodes, and for equal numbers on the number of nodes to enter
  induction hn : remaining.size using Nat.strongRecOn generalizing remaining start plan with
  | _ n ihn =>
    induction start with
    | nil => rw [visited_nil, List.map_nil, List.nil_append, List.nil_append]; rfl
    | cons a rest ihr =>
      by_cases hin : remaining.contains a = true
      · have hlt : (remaining.erase a).size < n := hn ▸ size_erase_lt hin
        have hle : (without (remaining.erase a) (visited next (remaining.erase a) (next a))).size < n :=
          Nat.lt_of_le_of_lt (size_without_le _ _) hlt
        -- entering a node: what it leads to, the node, and the rest over what is left
        have henter : ∀ tail : List (Visit α), depthFirst next remaining (.enter a :: (rest.map .enter ++ tail)) =
            visited next (remaining.erase a) (next a) ++
              a :: (visited next (without (remaining.erase a) (visited next (remaining.erase a) (next a))) rest ++
                depthFirst next (without (without (remaining.erase a) (visited next (remaining.erase a) (next a)))
                  (visited next (without (remaining.erase a) (visited next (remaining.erase a) (next a))) rest)) tail) := by
          intro tail
          rw [depthFirst, dif_pos hin, ihn _ hlt _ _ _ rfl, depthFirst, ihn _ hle _ _ _ rfl]
        have hself : visited next remaining (a :: rest) = visited next (remaining.erase a) (next a) ++
            a :: visited next (without (remaining.erase a) (visited next (remaining.erase a) (next a))) rest := by
          have h := henter []
          rw [depthFirst, List.append_nil, List.append_nil] at h
          exact h
        rw [List.map_cons, List.cons_append, henter, hself, List.append_assoc, List.cons_append]
        congr 3
        refine depthFirst_congr next _ plan _ fun b => ?_
        rw [mem_without, mem_without, mem_without, mem_erase_iff, List.mem_append, List.mem_cons]
        constructor
        · rintro ⟨⟨⟨hb, hba⟩, h1⟩, h2⟩
          exact ⟨hb, fun h => h.elim h1 fun h => h.elim hba h2⟩
        · rintro ⟨hb, h⟩
          exact ⟨⟨⟨hb, fun he => h (.inr (.inl he))⟩, fun h1 => h (.inl h1)⟩, fun h2 => h (.inr (.inr h2))⟩
      · have hskip : ∀ tail : List (Visit α),
            depthFirst next remaining (.enter a :: tail) = depthFirst next remaining tail := fun tail => by
          rw [depthFirst, dif_neg hin]
        have hself : visited next remaining (a :: rest) = visited next remaining rest := hskip _
        rw [hself, ← ihr]
        exact hskip _

/-- **An entered node comes after all that it leads to.** -/
theorem visited_cons (next : α → List α) {remaining : ExtTreeMap α β} {a : α} (ha : a ∈ remaining) (rest : List α) :
    visited next remaining (a :: rest) = visited next (remaining.erase a) (next a) ++
      a :: visited next (without (remaining.erase a) (visited next (remaining.erase a) (next a))) rest := by
  have hin : remaining.contains a = true := ExtTreeMap.contains_iff_mem.2 ha
  rw [visited, List.map_cons, depthFirst, dif_pos hin, depthFirst_append, depthFirst]
  rfl

omit [LawfulEqOrd α] in
theorem visited_cons_outside (next : α → List α) {remaining : ExtTreeMap α β} {a : α} (ha : a ∉ remaining)
    (rest : List α) : visited next remaining (a :: rest) = visited next remaining rest := by
  have hin : ¬ remaining.contains a = true := fun h => ha (ExtTreeMap.contains_iff_mem.1 h)
  rw [visited, List.map_cons, depthFirst, dif_neg hin]
  rfl

omit [LawfulEqOrd α] in
theorem visited_of_outside (next : α → List α) {remaining : ExtTreeMap α β} {start : List α}
    (h : ∀ a ∈ start, a ∉ remaining) : visited next remaining start = [] := by
  induction start with
  | nil => exact visited_nil next remaining
  | cons a rest ih =>
    rw [visited_cons_outside next (h a List.mem_cons_self)]
    exact ih fun b hb => h b (List.mem_cons_of_mem _ hb)

omit [LawfulEqOrd α] in
/-- **An induction along a search**: on no node to enter, on one that is not there, and on one that is entered before
those that it leads to and those that come after it. -/
theorem visited_induction (next : α → List α) {motive : ExtTreeMap α β → List α → Prop}
    (nil : ∀ remaining, motive remaining [])
    (outside : ∀ remaining a rest, a ∉ remaining → motive remaining rest → motive remaining (a :: rest))
    (enter : ∀ remaining a rest, a ∈ remaining → motive (remaining.erase a) (next a) →
      motive (without (remaining.erase a) (visited next (remaining.erase a) (next a))) rest →
        motive remaining (a :: rest))
    (remaining : ExtTreeMap α β) (start : List α) : motive remaining start := by
  induction hn : remaining.size using Nat.strongRecOn generalizing remaining start with
  | _ n ihn =>
    induction start with
    | nil => exact nil remaining
    | cons a rest ihr =>
      by_cases ha : a ∈ remaining
      · have hlt : (remaining.erase a).size < n := hn ▸ size_erase_lt (ExtTreeMap.contains_iff_mem.2 ha)
        exact enter remaining a rest ha (ihn _ hlt _ _ rfl)
          (ihn _ (Nat.lt_of_le_of_lt (size_without_le _ _) hlt) _ _ rfl)
      · exact outside remaining a rest ha ihr

/-- **A depth-first search visits exactly what is reached** through the remaining nodes. -/
theorem mem_visited (next : α → List α) (remaining : ExtTreeMap α β) (start : List α) :
    ∀ x, x ∈ visited next remaining start ↔ Reached next (· ∈ remaining) start x := by
  refine visited_induction next (motive := fun remaining start => ∀ x, x ∈ visited next remaining start ↔
    Reached next (· ∈ remaining) start x) ?_ ?_ ?_ remaining start
  · intro remaining x
    rw [visited_nil]
    exact ⟨fun h => (List.not_mem_nil h).elim, fun h => h.nil.elim⟩
  · intro remaining a rest ha ih x
    rw [visited_cons_outside next ha, ih, reached_cons_outside ha]
  · intro remaining a rest ha ih₁ ih₂ x
    have h₁ : Reached next (· ∈ remaining.erase a) (next a) x ↔
        Reached next (fun b => b ∈ remaining ∧ b ≠ a) (next a) x :=
      reached_congr (fun b => mem_erase_iff) (fun _ => Iff.rfl) x
    have h₂ : Reached next (· ∈ without (remaining.erase a) (visited next (remaining.erase a) (next a))) rest x ↔
        Reached next (fun b => (b ∈ remaining ∧ b ≠ a) ∧
          ¬ Reached next (fun b => b ∈ remaining ∧ b ≠ a) (next a) b) rest x :=
      reached_congr (fun b => by
        rw [mem_without, mem_erase_iff, ih₁, reached_congr (fun b => mem_erase_iff) (fun _ => Iff.rfl)])
        (fun _ => Iff.rfl) x
    -- the search takes what the node leads to before the rest; for what is reached the order does not matter
    have h₃ : Reached next (fun b => b ∈ remaining ∧ b ≠ a) (rest ++ next a) x ↔
        Reached next (fun b => b ∈ remaining ∧ b ≠ a) (next a ++ rest) x :=
      reached_congr (fun _ => Iff.rfl) (fun b => by rw [List.mem_append, List.mem_append, or_comm]) x
    rw [visited_cons next ha, List.mem_append, List.mem_cons, ih₁, ih₂, reached_cons ha, h₁, h₂, h₃, reached_append,
      or_left_comm]

theorem mem_depthFirst (next : α → List α) (remaining : ExtTreeMap α β) (start : List α) (x : α) :
    x ∈ depthFirst next remaining (start.map .enter) ↔ Reached next (· ∈ remaining) start x :=
  mem_visited next remaining start x

/-- **A depth-first search lists no node twice.** -/
theorem nodup_visited (next : α → List α) (remaining : ExtTreeMap α β) (start : List α) :
    (visited next remaining start).Nodup := by
  refine visited_induction next (motive := fun remaining start => (visited next remaining start).Nodup) ?_ ?_ ?_
    remaining start
  · intro remaining
    rw [visited_nil]
    exact List.nodup_nil
  · intro remaining a rest ha ih
    rwa [visited_cons_outside next ha]
  · intro remaining a rest ha ih₁ ih₂
    have hfirst : ∀ x ∈ visited next (remaining.erase a) (next a), x ≠ a := fun x hx =>
      (mem_erase_iff.1 ((mem_visited next _ _ x).1 hx).is_inside).2
    have hrest : ∀ x ∈ visited next (without (remaining.erase a) (visited next (remaining.erase a) (next a))) rest,
        x ≠ a ∧ x ∉ visited next (remaining.erase a) (next a) := fun x hx => by
      obtain ⟨hin, hnot⟩ := mem_without.1 ((mem_visited next _ _ x).1 hx).is_inside
      exact ⟨(mem_erase_iff.1 hin).2, hnot⟩
    rw [visited_cons next ha, List.nodup_append, List.nodup_cons]
    refine ⟨ih₁, ⟨fun h => (hrest a h).1 rfl, ih₂⟩, fun x hx y hy he => ?_⟩
    rcases List.mem_cons.1 hy with rfl | hy
    · exact hfirst x hx he
    · exact (hrest y hy).2 (he ▸ hx)

/-- **Where a node is listed, what it leads to has been listed before**, unless it leads back to the node. -/
theorem depthFirst_before (next : α → List α) (remaining : ExtTreeMap α β) (start : List α) :
    ∀ l₁ a l₂, depthFirst next remaining (start.map .enter) = l₁ ++ a :: l₂ → ∀ b ∈ next a, b ∈ remaining →
      b ∈ l₁ ∨ ReflTransGen (fun a b => b ∈ next a) b a := by
  refine visited_induction next (motive := fun remaining start => ∀ l₁ a l₂,
    visited next remaining start = l₁ ++ a :: l₂ → ∀ b ∈ next a, b ∈ remaining →
      b ∈ l₁ ∨ ReflTransGen (fun a b => b ∈ next a) b a) ?_ ?_ ?_ remaining start
  · intro remaining l₁ a l₂ h
    rw [visited_nil] at h
    cases l₁ <;> cases h
  · intro remaining c rest hc ih l₁ a l₂ h
    rw [visited_cons_outside next hc] at h
    exact ih l₁ a l₂ h
  · intro remaining c rest hc ih₁ ih₂ l₁ a l₂ h b hb hbr
    rw [visited_cons next hc] at h
    rcases List.append_eq_append_iff.1 h with ⟨m, rfl, hm⟩ | ⟨m, hm, htail⟩
    · -- the node is the entered one, or comes after it
      cases m with
      | nil =>
        obtain ⟨rfl, -⟩ := List.cons.inj hm
        by_cases hbc : b = c
        · exact .inr (hbc ▸ .refl)
        · rw [List.append_nil]
          exact .inl ((mem_visited next _ _ b).2 (.first hb (mem_erase_iff.2 ⟨hbr, hbc⟩)))
      | cons m₀ m =>
        obtain ⟨rfl, htail⟩ := List.cons.inj hm
        by_cases hbl : b ∈ without (remaining.erase c) (visited next (remaining.erase c) (next c))
        · exact (ih₂ m a l₂ htail b hb hbl).imp
            (fun h => List.mem_append_right _ (List.mem_cons_of_mem _ h)) id
        · left
          by_cases hbc : b = c
          · exact hbc ▸ List.mem_append_right _ List.mem_cons_self
          · refine List.mem_append_left _ (Classical.byContradiction fun hn => hbl ?_)
            exact mem_without.2 ⟨mem_erase_iff.2 ⟨hbr, hbc⟩, hn⟩
    · -- the node is among those that the entered one leads to
      cases m with
      | nil =>
        obtain ⟨rfl, -⟩ := List.cons.inj htail
        rw [List.append_nil] at hm
        by_cases hbc : b = a
        · exact .inr (hbc ▸ .refl)
        · exact .inl (hm ▸ (mem_visited next _ _ b).2 (.first hb (mem_erase_iff.2 ⟨hbr, hbc⟩)))
      | cons m₀ m =>
        obtain ⟨rfl, -⟩ := List.cons.inj htail
        by_cases hbc : b = c
        · subst hbc
          have ha : a ∈ visited next (remaining.erase b) (next b) := by rw [hm]; simp
          obtain ⟨y, hy, hp⟩ := ((mem_visited next _ _ a).1 ha).path
          exact .inr (.head hy hp)
        · exact ih₁ l₁ a m hm b hb (mem_erase_iff.2 ⟨hbr, hbc⟩)

end Graph
end RenameAudit
