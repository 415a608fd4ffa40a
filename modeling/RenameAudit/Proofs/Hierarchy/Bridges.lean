import RenameAudit.Proofs.Hierarchy.Ancestors
/-!
# Proofs.Hierarchy.Bridges — forwarding methods and what they forward to

A forwarding method forwards to one method at most, to another than itself, and to one that its own class or one of its
ancestors has (`mem_findBridges`).  So a directory whose bridges are those that were found knows for each of them the one
that it forwards to, in whatever order they are listed (`bridgedBy?_eq_some`).
-/
namespace RenameAudit
namespace Directory

open Std Relation

variable {d : Directory}

theorem extends_superclass {c s : String} (h : d.superclassOf? c = some s) : d.Extends c s := by
  obtain ⟨decl, hd, hs⟩ := Option.bind_eq_some_iff.1 h
  rw [Extends, supertypesOf_eq hd, Declaration.supertypes, hs]
  exact List.mem_cons_self

/-- The superclasses that have been read are among what supertypes lead to. -/
theorem reach_of_readSuperclasses {c s : String} (h : s ∈ d.readSuperclasses c) : ReflTransGen d.Extends c s := by
  obtain ⟨a, ha, hp⟩ := ((Graph.mem_breadthFirst _ _ _ _).1 ((List.takeWhile_sublist _).subset h)).path
  obtain rfl := List.mem_singleton.1 ha
  exact ReflTransGen.mono (fun c s hs => extends_superclass (Option.mem_toList.1 hs)) _ _ hp

/-- What a forwarding method forwards to is a method of its class or of one of its ancestors. -/
theorem bridgeTarget?_some (h : d.Sound) {bridge target : Method} {named : MemberRef}
    (ht : d.bridgeTarget? bridge named = some target) :
    ∃ c, ReflTransGen d.Extends bridge.ref.owner c ∧ target ∈ d.methodsOf c := by
  unfold bridgeTarget? at ht
  dsimp only at ht
  split at ht
  · exact ⟨_, .refl, (h.methodByKey?_eq_some.1 ht).1⟩
  · split at ht
    · rename_i hsuper
      obtain ⟨c, hc, ht⟩ := List.exists_of_findSome?_eq_some ht
      exact ⟨c, .head (extends_superclass hsuper) (reach_of_readSuperclasses hc), (h.methodByKey?_eq_some.1 ht).1⟩
    · cases ht

/-- **The bridges that are found.** -/
theorem mem_findBridges {bridge target : MemberRef} :
    (bridge, target) ∈ d.findBridges ↔ ∃ m ∈ d.methods, ∃ named t, m.forwards = some named ∧
      d.bridgeTarget? m named = some t ∧ t.ref ≠ m.ref ∧ m.ref = bridge ∧ t.ref = target := by
  rw [findBridges, List.mem_filterMap]
  refine exists_congr fun m => and_congr_right fun _ => ?_
  cases m.forwards with
  | none => simp
  | some named =>
    cases ht : d.bridgeTarget? m named with
    | none => simp [ht]
    | some t => simp [ht]

theorem ne_of_mem_findBridges {bridge target : MemberRef} (h : (bridge, target) ∈ d.findBridges) : bridge ≠ target := by
  obtain ⟨m, -, named, t, -, -, hne, rfl, rfl⟩ := mem_findBridges.1 h
  exact hne.symm

theorem findBridges_unique (h : d.Sound) {bridge target target' : MemberRef} (hb : (bridge, target) ∈ d.findBridges)
    (hb' : (bridge, target') ∈ d.findBridges) : target = target' := by
  obtain ⟨m, hm, named, t, hf, ht, -, href, rfl⟩ := mem_findBridges.1 hb
  obtain ⟨m', hm', named', t', hf', ht', -, href', rfl⟩ := mem_findBridges.1 hb'
  have hself : m = m' := h.eq_of_ref (h.mem_methods.1 hm) (h.mem_methods.1 hm') (href.trans href'.symm)
  subst hself
  rw [hf] at hf'
  cases hf'
  rw [ht] at ht'
  rw [Option.some.inj ht']

/-- A forwarding method with what it forwards to. -/
def bridgeOf? (d : Directory) (m : Method) : Option (MemberRef × MemberRef) := do
  let target ← d.bridgeTarget? m (← m.forwards)
  if target.ref = m.ref then none else some (m.ref, target.ref)

theorem findBridges_eq (d : Directory) : d.findBridges = d.methods.filterMap d.bridgeOf? := rfl

theorem fst_of_bridgeOf? {d : Directory} {m : Method} {p : MemberRef × MemberRef} (h : d.bridgeOf? m = some p) :
    p.1 = m.ref := by
  obtain ⟨named, -, h⟩ := Option.bind_eq_some_iff.1 h
  obtain ⟨target, -, h⟩ := Option.bind_eq_some_iff.1 h
  split at h
  · cases h
  · cases h
    rfl

/-- **What a directory knows of a forwarding method does not depend on the order of its bridges.** -/
theorem bridgedBy?_eq_some {e : Directory} (h : d.Sound) (hb : ∀ p, p ∈ e.bridges ↔ p ∈ d.findBridges)
    {bridge target : MemberRef} : e.bridgedBy? bridge = some target ↔ (bridge, target) ∈ d.findBridges := by
  rw [bridgedBy?, Option.map_eq_some_iff]
  constructor
  · rintro ⟨⟨b, t⟩, hfind, rfl⟩
    have hmem := (hb _).1 (List.mem_of_find?_eq_some hfind)
    have hkey := List.find?_some hfind
    simp only [beq_iff_eq] at hkey
    exact hkey ▸ hmem
  · intro hmem
    cases hfind : e.bridges.find? (·.1 == bridge) with
    | none =>
      have := List.find?_eq_none.1 hfind _ ((hb _).2 hmem)
      simp at this
    | some p =>
      obtain ⟨b, t⟩ := p
      have hkey := List.find?_some hfind
      simp only [beq_iff_eq] at hkey
      subst hkey
      exact ⟨_, rfl, findBridges_unique h ((hb _).1 (List.mem_of_find?_eq_some hfind)) hmem⟩

/-! ## The same classes -/

theorem SameClasses.superclassOf? {d e : Directory} (h : d.SameClasses e) : e.superclassOf? = d.superclassOf? :=
  funext fun name => by rw [Directory.superclassOf?, h.declaration, ← Directory.superclassOf?]

/-- **Directories that have read the same find the same bridges.** -/
theorem SameClasses.findBridges {d e : Directory} (h : d.SameClasses e) : e.findBridges = d.findBridges := by
  have hsuper : ∀ name, e.readSuperclasses name = d.readSuperclasses name := fun name => by
    have hread : e.wasRead = d.wasRead := funext h.wasRead
    rw [readSuperclasses, readSuperclasses, h.superclassOf?, hread]
    congr 1
    exact Graph.breadthFirst_congr _ _ _ _ h.known
  have htarget : e.bridgeTarget? = d.bridgeTarget? := by
    funext bridge named
    unfold bridgeTarget?
    rw [h.methodByKey?, h.superclassOf?, hsuper]
  rw [Directory.findBridges, Directory.findBridges, h.methods, htarget]

end Directory
end RenameAudit
