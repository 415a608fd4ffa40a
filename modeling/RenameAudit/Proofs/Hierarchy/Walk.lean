import Mathlib
import RenameAudit.Proofs.Hierarchy.ResolvingAgain
/-!
# Proofs.Hierarchy.Walk — a resolution as a walk with marks

`Walk.step` goes from class to class as a recursion over supertypes does: it marks a class as being resolved, takes its
supertypes, links its methods, and marks it as resolved; a class that is being resolved already closes a circle and is
passed over.  Every step follows the order of `Directory.resolutionOrder` (`Follows.step`), and takes either a class out of
those that are only mentioned or read, or a visit out of the plan.  So a walk comes to an end, with the directory that is
said to be resolved, and with no class left that is being resolved (`first_resolution`).
-/
namespace RenameAudit

open Std Relation ClassFile

/-- How far a class has come while a resolution is under way. -/
inductive Stage where
  | stub | read | resolving | resolved
  deriving DecidableEq, Repr

/-- The stage of a class between resolutions. -/
def ClassState.stage : ClassState → Stage
  | stub => .stub
  | read => .read
  | resolved => .resolved

/-- Whether a resolution has yet to come to a class. -/
def Stage.isOpen : Stage → Bool
  | stub | read => true
  | resolving | resolved => false

namespace Directory

/-- The stage of a class; one that is not known is as one that is only mentioned. -/
def stageOf (d : Directory) (name : String) : Stage :=
  (d.classes[name]?.map (·.state.stage)).getD .stub

/-- A resolution under way, with the stage of each class and the visits that are still to make. -/
structure Walk where
  progress : Progress
  stage : String → Stage
  plan : List (Graph.Visit String)

namespace Walk

/-- The walk through the classes under audit and their ancestors. -/
def start (d : Directory) : Walk :=
  ⟨⟨d.prepare, []⟩, d.stageOf, d.owned.map .enter⟩

/-- One visit.  A class that was read is left when its supertypes have been visited, and only then its methods are
linked. -/
def step (w : Walk) : Option Walk :=
  match w.plan with
  | [] => none
  | .leave c :: rest => some ⟨resolveClass w.progress c, Function.update w.stage c .resolved, rest⟩
  | .enter c :: rest =>
    match w.stage c with
    | .resolved | .resolving => some { w with plan := rest }
    | .stub =>
      some ⟨{ w.progress with dir := w.progress.dir.markResolved c }, Function.update w.stage c .resolved, rest⟩
    | .read =>
      some ⟨w.progress, Function.update w.stage c .resolving,
        (w.progress.dir.supertypesOf c).map .enter ++ .leave c :: rest⟩

/-- Visits lead from a walk to a later one. -/
def Leads : Walk → Walk → Prop :=
  ReflTransGen fun w w' => w.step = some w'

/-- As many visits one after another. -/
def visits : Nat → Walk → Option Walk
  | 0, w => some w
  | n + 1, w => w.step.bind (visits n)

theorem leads_of_visits {n : Nat} {w w' : Walk} (h : visits n w = some w') : w.Leads w' := by
  induction n generalizing w with
  | zero =>
    cases h
    exact .refl
  | succ n ih =>
    obtain ⟨next, hstep, hrest⟩ := Option.bind_eq_some_iff.1 h
    exact .head hstep (ih hrest)

theorem step_eq_none {w : Walk} : w.step = none ↔ w.plan = [] := by
  unfold step
  split
  · exact iff_of_true rfl ‹_›
  · rename_i hplan
    exact iff_of_false (fun h => by cases h) fun h => by rw [hplan] at h; cases h
  · rename_i hplan
    refine iff_of_false (fun h => ?_) fun h => by rw [hplan] at h; cases h
    split at h <;> cases h

end Walk

/-! ## Stages -/

theorem stageOf_eq (d : Directory) (name : String) :
    d.stageOf name = if d.isResolved name then .resolved else if d.wasRead name then .read else .stub := by
  rw [stageOf, isResolved, wasRead, declaration?]
  cases d.classes[name]? with
  | none => rfl
  | some e =>
    obtain ⟨declaration, resolved, stack⟩ := e
    cases resolved <;> cases declaration <;> rfl

theorem isOpen_stageOf (d : Directory) (name : String) : (d.stageOf name).isOpen = !d.isResolved name := by
  rw [stageOf_eq]
  cases d.isResolved name <;> cases d.wasRead name <;> rfl

theorem stageOf_ne_resolving (d : Directory) (name : String) : d.stageOf name ≠ .resolving := by
  rw [stageOf_eq]
  cases d.isResolved name <;> cases d.wasRead name <;> decide

/-- A class that is only mentioned has no supertypes. -/
theorem supertypesOf_of_stub {d : Directory} {name : String} (h : d.stageOf name = .stub) :
    d.wasRead name = false ∧ d.supertypesOf name = [] := by
  have hread : d.wasRead name = false := by
    rw [stageOf_eq] at h
    cases hr : d.wasRead name with
    | false => rfl
    | true =>
      rw [hr] at h
      cases hm : d.isResolved name <;> rw [hm] at h <;> cases h
  refine ⟨hread, ?_⟩
  rw [wasRead, Option.isSome_eq_false_iff, Option.isNone_iff_eq_none] at hread
  rw [supertypesOf, hread]
  rfl

/-- The known classes to which a resolution has yet to come. -/
def unvisited (d : Directory) (stage : String → Stage) : ExtTreeMap String ClassEntry :=
  d.classes.filter fun c _ => (stage c).isOpen

theorem mem_unvisited {d : Directory} {stage : String → Stage} {c : String} :
    c ∈ d.unvisited stage ↔ c ∈ d.classes ∧ (stage c).isOpen = true := by
  rw [unvisited, ExtTreeMap.mem_iff_isSome_getElem?, ExtTreeMap.mem_iff_isSome_getElem?, ExtTreeMap.getElem?_filter']
  cases d.classes[c]? with
  | none => simp
  | some e => cases (stage c).isOpen <;> simp

theorem unvisited_congr {d : Directory} {stage stage' : String → Stage}
    (h : ∀ c, (stage' c).isOpen = (stage c).isOpen) : d.unvisited stage' = d.unvisited stage := by
  rw [unvisited, unvisited]
  simp only [h]

/-- **A class to which a resolution has come is visited no more.** -/
theorem unvisited_update {d : Directory} {stage : String → Stage} {c : String} {s : Stage} (hs : s.isOpen = false) :
    d.unvisited (Function.update stage c s) = (d.unvisited stage).erase c := by
  refine ExtTreeMap.ext_getElem? fun n => ?_
  rw [ExtTreeMap.getElem?_erase, unvisited, unvisited, ExtTreeMap.getElem?_filter', ExtTreeMap.getElem?_filter']
  by_cases hn : n = c
  · subst hn
    simp [hs]
  · have hne : ¬ compare c n = .eq := fun h => hn (Std.compare_eq_iff_eq.1 h).symm
    rw [if_neg hne, Function.update_of_ne hn]

/-! ## A walk follows the order -/

/-- **What every visit preserves.**  Some classes are done: those are resolved, in the order in which a resolution comes
to them, and what the plan still visits is the rest of that order.  A class that is being resolved is still to be left. -/
structure Follows (d : Directory) (done : List String) (w : Walk) : Prop where
  order : d.prepare.resolutionOrder = done ++ Graph.depthFirst d.supertypesOf (d.unvisited w.stage) w.plan
  progress : w.progress = done.foldl resolveClass ⟨d.prepare, []⟩
  resolved : ∀ c ∈ done, w.stage c = .resolved
  resolving : ∀ c, w.stage c = .resolving → .leave c ∈ w.plan
  untouched : ∀ c, c ∉ done → w.stage c ≠ .resolving → w.stage c = d.stageOf c
  left : ∀ c, .leave c ∈ w.plan → (w.stage c).isOpen = false
  entered : ∀ c, .enter c ∈ w.plan → c ∈ d.classes

/-- The classes that are still to visit and the visits that are planned: every step makes the pair smaller. -/
def Walk.measure (d : Directory) (w : Walk) : Nat × Nat :=
  ((d.unvisited w.stage).size, w.plan.length)

theorem follows_start (d : Directory) : Follows d [] (.start d) where
  order := by
    rw [resolutionOrder_prepare, List.nil_append]
    refine Graph.depthFirst_congr _ _ _ _ fun c => ?_
    rw [mem_unresolved, mem_unvisited, Walk.start, isOpen_stageOf, Bool.not_eq_true']
  progress := rfl
  resolved c hc := absurd hc List.not_mem_nil
  resolving c hc := absurd hc (stageOf_ne_resolving d c)
  untouched c _ _ := rfl
  left c hc := by
    obtain ⟨_, -, h⟩ := List.mem_map.1 hc
    cases h
  entered c hc := by
    obtain ⟨o, ho, h⟩ := List.mem_map.1 hc
    cases h
    exact (mem_owned.1 ho).1

namespace Follows

variable {d : Directory} {done : List String} {w w' : Walk}

theorem underway (hs : d.Sound) (h : Follows d done w) : Underway d w.progress := by
  rw [h.progress]
  refine List.foldlRecOn (motive := Underway d) _ _ .begin fun s hu c hc => underway_resolveClass hs hu ?_
  rw [h.order]
  exact List.mem_append_left _ hc

theorem prepared (hs : d.Sound) (h : Follows d done w) : d.Prepared w.progress.dir :=
  (h.underway hs).prepared hs

/-- A planned class that is only mentioned or read is still to be visited. -/
theorem contains (h : Follows d done w) {c : String} (hc : .enter c ∈ w.plan) (hopen : (w.stage c).isOpen = true) :
    (d.unvisited w.stage).contains c = true :=
  ExtTreeMap.contains_iff_mem.2 (mem_unvisited.2 ⟨h.entered c hc, hopen⟩)

/-- A class that is only mentioned or read is so from the start. -/
theorem stageOf_of_open (h : Follows d done w) {c : String} (hopen : (w.stage c).isOpen = true) :
    c ∉ done ∧ d.stageOf c = w.stage c := by
  have hdone : c ∉ done := fun hc => by
    rw [h.resolved c hc] at hopen
    cases hopen
  refine ⟨hdone, (h.untouched c hdone fun hr => ?_).symm⟩
  rw [hr] at hopen
  cases hopen

/-- To leave a class makes no difference to what is still to be visited. -/
theorem unvisited_leave (h : Follows d done w) {c : String} {rest : List (Graph.Visit String)}
    (hplan : w.plan = .leave c :: rest) : d.unvisited (Function.update w.stage c .resolved) = d.unvisited w.stage := by
  refine unvisited_congr fun a => ?_
  by_cases hac : a = c
  · rw [hac, Function.update_self, h.left c (hplan ▸ List.mem_cons_self)]
    rfl
  · rw [Function.update_of_ne hac]

/-- A class is passed over. -/
theorem skip (h : Follows d done w) {c : String} {rest : List (Graph.Visit String)} (hplan : w.plan = .enter c :: rest)
    (hclosed : (w.stage c).isOpen = false) : Follows d done { w with plan := rest } where
  order := by
    have hout : ¬ (d.unvisited w.stage).contains c = true := fun hin => by
      rw [(mem_unvisited.1 (ExtTreeMap.contains_iff_mem.1 hin)).2] at hclosed
      cases hclosed
    rw [h.order, hplan, Graph.depthFirst, dif_neg hout]
  progress := h.progress
  resolved := h.resolved
  resolving a ha := by
    have hleave := h.resolving a ha
    rw [hplan] at hleave
    exact (List.mem_cons.1 hleave).resolve_left fun he => by cases he
  untouched := h.untouched
  left a ha := h.left a (hplan ▸ List.mem_cons_of_mem _ ha)
  entered a ha := h.entered a (hplan ▸ List.mem_cons_of_mem _ ha)

/-- A class is marked as being resolved, and its supertypes are next. -/
theorem enter (h : Follows d done w) {c : String} {rest : List (Graph.Visit String)}
    (hknown : ∀ s ∈ d.supertypesOf c, s ∈ d.classes) (hplan : w.plan = .enter c :: rest)
    (hopen : (w.stage c).isOpen = true) :
    Follows d done ⟨w.progress, Function.update w.stage c .resolving,
      (d.supertypesOf c).map .enter ++ .leave c :: rest⟩ where
  order := by
    have hin := h.contains (hplan ▸ List.mem_cons_self) hopen
    rw [h.order, hplan, Graph.depthFirst, dif_pos hin, unvisited_update rfl]
  progress := h.progress
  resolved a ha := by
    have hac : a ≠ c := fun he => (h.stageOf_of_open hopen).1 (he ▸ ha)
    rw [← h.resolved a ha]
    exact Function.update_of_ne hac _ _
  resolving a ha := by
    refine List.mem_append_right _ ?_
    by_cases hac : a = c
    · exact hac ▸ List.mem_cons_self
    · dsimp only at ha
      rw [Function.update_of_ne hac] at ha
      have hleave := h.resolving a ha
      rw [hplan] at hleave
      exact List.mem_cons_of_mem _ ((List.mem_cons.1 hleave).resolve_left fun he => by cases he)
  untouched a hdone ha := by
    dsimp only at ha ⊢
    by_cases hac : a = c
    · rw [hac, Function.update_self] at ha
      exact absurd rfl ha
    · rw [Function.update_of_ne hac] at ha ⊢
      exact h.untouched a hdone ha
  left a ha := by
    dsimp only at ha ⊢
    by_cases hac : a = c
    · rw [hac, Function.update_self]
      rfl
    · rw [Function.update_of_ne hac]
      refine h.left a (hplan ▸ ?_)
      rcases List.mem_append.1 ha with ha | ha
      · obtain ⟨_, -, he⟩ := List.mem_map.1 ha
        cases he
      · refine List.mem_cons_of_mem _ ((List.mem_cons.1 ha).resolve_left fun he => hac ?_)
        cases he
        rfl
  entered a ha := by
    rcases List.mem_append.1 ha with ha | ha
    · obtain ⟨s, hs, he⟩ := List.mem_map.1 ha
      cases he
      exact hknown a hs
    · refine h.entered a (hplan ▸ List.mem_cons_of_mem _ ?_)
      exact (List.mem_cons.1 ha).resolve_left fun he => by cases he

/-- A class is left: it is done. -/
theorem leave (h : Follows d done w) {c : String} {rest : List (Graph.Visit String)} (hplan : w.plan = .leave c :: rest) :
    Follows d (done ++ [c]) ⟨resolveClass w.progress c, Function.update w.stage c .resolved, rest⟩ where
  order := by
    rw [h.order, hplan, Graph.depthFirst, h.unvisited_leave hplan, List.append_assoc, List.singleton_append]
  progress := by
    rw [h.progress, List.foldl_append]
    rfl
  resolved a ha := by
    dsimp only
    by_cases hac : a = c
    · rw [hac, Function.update_self]
    · rw [Function.update_of_ne hac]
      exact h.resolved a ((List.mem_append.1 ha).resolve_right fun hc => hac (List.mem_singleton.1 hc))
  resolving a ha := by
    dsimp only at ha ⊢
    by_cases hac : a = c
    · rw [hac, Function.update_self] at ha
      cases ha
    · rw [Function.update_of_ne hac] at ha
      have hleave := h.resolving a ha
      rw [hplan] at hleave
      refine (List.mem_cons.1 hleave).resolve_left fun he => hac ?_
      cases he
      rfl
  untouched a hdone ha := by
    rw [List.mem_append, not_or, List.mem_singleton] at hdone
    dsimp only at ha ⊢
    rw [Function.update_of_ne hdone.2] at ha ⊢
    exact h.untouched a hdone.1 ha
  left a ha := by
    dsimp only
    by_cases hac : a = c
    · rw [hac, Function.update_self]
      rfl
    · rw [Function.update_of_ne hac]
      exact h.left a (hplan ▸ List.mem_cons_of_mem _ ha)
  entered a ha := h.entered a (hplan ▸ List.mem_cons_of_mem _ ha)

/-- A class that is only mentioned is done at once. -/
theorem mark (h : Follows d done w) (hs : d.Sound) {c : String} {rest : List (Graph.Visit String)}
    (hplan : w.plan = .enter c :: rest) (hstub : w.stage c = .stub) :
    Follows d (done ++ [c])
      ⟨{ w.progress with dir := w.progress.dir.markResolved c }, Function.update w.stage c .resolved, rest⟩ := by
  have hopen : (w.stage c).isOpen = true := by rw [hstub]; rfl
  obtain ⟨hread, hnone⟩ := supertypesOf_of_stub ((h.stageOf_of_open hopen).2.trans hstub)
  have hresolve : resolveClass w.progress c = { w.progress with dir := w.progress.dir.markResolved c } := by
    rw [resolveClass_eq, (h.prepared hs).same.wasRead, hread, if_neg Bool.false_ne_true]
  -- to mark it is to go to it and to leave it, with no supertypes between
  have henter := h.enter (fun s hmem => hs.supertypes_known c s hmem) hplan hopen
  rw [hnone] at henter
  have hleave := henter.leave rfl
  rw [hresolve, Function.update_idem] at hleave
  exact hleave

/-- To go to a class leaves fewer to visit. -/
theorem measure_lt (h : Follows d done w) {c : String} (hc : .enter c ∈ w.plan) (hopen : (w.stage c).isOpen = true)
    {s : Stage} (hs : s.isOpen = false) (progress : Progress) (plan : List (Graph.Visit String)) :
    Prod.Lex (· < ·) (· < ·) (Walk.measure d ⟨progress, Function.update w.stage c s, plan⟩) (w.measure d) := by
  refine .left _ _ ?_
  dsimp only
  rw [unvisited_update hs]
  exact Graph.size_erase_lt (h.contains hc hopen)

/-- **Every visit follows the order, and there are not endlessly many.** -/
theorem step (hs : d.Sound) (h : Follows d done w) (hstep : w.step = some w') :
    (∃ done', Follows d done' w') ∧ Prod.Lex (· < ·) (· < ·) (w'.measure d) (w.measure d) := by
  have hshorter : ∀ {v : Graph.Visit String} {rest : List (Graph.Visit String)}, w.plan = v :: rest →
      rest.length < w.plan.length := fun hplan => by
    rw [hplan, List.length_cons]
    exact Nat.lt_succ_self _
  unfold Walk.step at hstep
  split at hstep
  · cases hstep
  · rename_i c rest hplan
    cases hstep
    refine ⟨⟨_, h.leave hplan⟩, ?_⟩
    rw [Walk.measure, Walk.measure, h.unvisited_leave hplan]
    exact .right _ (hshorter hplan)
  · rename_i c rest hplan
    have hmem : .enter c ∈ w.plan := hplan ▸ List.mem_cons_self
    have hskip : (w.stage c).isOpen = false → (∃ done', Follows d done' { w with plan := rest }) ∧
        Prod.Lex (· < ·) (· < ·) (Walk.measure d { w with plan := rest }) (w.measure d) := fun hclosed =>
      ⟨⟨_, h.skip hplan hclosed⟩, .right _ (hshorter hplan)⟩
    split at hstep
    · rename_i hstage
      cases hstep
      exact hskip (by rw [hstage]; rfl)
    · rename_i hstage
      cases hstep
      exact hskip (by rw [hstage]; rfl)
    · rename_i hstage
      cases hstep
      exact ⟨⟨_, h.mark hs hplan hstage⟩, h.measure_lt hmem (by rw [hstage]; rfl) rfl _ _⟩
    · rename_i hstage
      cases hstep
      have hopen : (w.stage c).isOpen = true := by rw [hstage]; rfl
      rw [(h.prepared hs).same.supertypesOf]
      exact ⟨⟨_, h.enter (fun s hmem => hs.supertypes_known c s hmem) hplan hopen⟩, h.measure_lt hmem hopen rfl _ _⟩

/-- **A walk comes to an end.** -/
theorem exists_end (hs : d.Sound) {done : List String} {w : Walk} (h : Follows d done w) :
    ∃ done' final, w.Leads final ∧ Follows d done' final ∧ final.plan = [] := by
  cases hstep : w.step with
  | none => exact ⟨done, w, .refl, h, Walk.step_eq_none.1 hstep⟩
  | some w' =>
    obtain ⟨⟨next, hnext⟩, hless⟩ := h.step hs hstep
    obtain ⟨done', final, hleads, hend⟩ := hnext.exists_end hs
    exact ⟨done', final, .head hstep hleads, hend⟩
termination_by w.measure d
decreasing_by exact hless

/-- **At its end everything that a resolution comes to is resolved, and nothing else has changed.** -/
theorem at_end (h : Follows d done w) (hplan : w.plan = []) :
    done = d.prepare.resolutionOrder ∧ w.progress.dir = d.resolve ∧ ∀ c, w.stage c ≠ .resolving := by
  have hdone : d.prepare.resolutionOrder = done := by
    rw [h.order, hplan, Graph.depthFirst, List.append_nil]
  refine ⟨hdone.symm, ?_, fun c hc => ?_⟩
  · rw [h.progress, ← hdone]
    rfl
  · have hleave := h.resolving c hc
    rw [hplan] at hleave
    cases hleave

end Follows

/-- **Every state of a walk follows the order.** -/
theorem follows_of_leads {d : Directory} (hs : d.Sound) {w : Walk} (h : (Walk.start d).Leads w) :
    ∃ done, Follows d done w := by
  induction h with
  | refl => exact ⟨[], follows_start d⟩
  | tail _ hstep ih =>
    obtain ⟨done, hdone⟩ := ih
    exact (hdone.step hs hstep).1

/-! ## Supertypes first -/

/-- **Without circles, a resolution comes to all ancestors of a class before it comes to the class.** -/
theorem ancestors_before {d : Directory} (hs : d.Sound) (hacyclic : d.SupertypesAcyclic)
    (hnew : ∀ name, d.isResolved name = false) {front back : List String} {c a : String}
    (horder : d.prepare.resolutionOrder = front ++ c :: back) (ha : TransGen d.Extends c a) : a ∈ front := by
  have hdirect : ∀ {front back : List String} {c s : String}, d.prepare.resolutionOrder = front ++ c :: back →
      d.Extends c s → s ∈ front := fun {front back c s} horder hcs => by
    rw [resolutionOrder_prepare] at horder
    have hopen := (mem_unresolved d s).2 ⟨hs.supertypes_known c s hcs, hnew s⟩
    refine (Graph.depthFirst_before _ _ _ front c back horder s hcs hopen).resolve_right fun hback => ?_
    exact hacyclic c (.head' hcs hback)
  induction ha with
  | single hca => exact hdirect horder hca
  | tail _ hba ih =>
    obtain ⟨front', back', rfl⟩ := List.append_of_mem ih
    rw [List.append_assoc, List.cons_append] at horder
    exact List.mem_append_left _ (hdirect horder hba)

/-! ## The first resolution -/

section First

variable {d : Directory} (hs : d.Sound) (hnew : ∀ name, d.isResolved name = false)

include hs hnew

theorem mem_resolutionOrder_iff_reach {name : String} :
    name ∈ d.prepare.resolutionOrder ↔ ∃ o ∈ d.owned, ReflTransGen d.Extends o name := by
  rw [mem_resolutionOrder_iff_audited hs hnew, Audited]
  exact exists_congr fun o => and_congr_right fun _ => mem_scope hs

/-- **The marks in the directory are those of the walk**, apart from the classes that are being resolved. -/
theorem Follows.stageOf_dir {done : List String} {w : Walk} (h : Follows d done w) {c : String}
    (hc : w.stage c ≠ .resolving) : w.progress.dir.stageOf c = w.stage c := by
  have hsame := (h.prepared hs).same
  have hmark : w.progress.dir.isResolved c = decide (c ∈ done) := by
    by_cases hknown : c ∈ d.classes
    · have hmarks := isResolved_resolveClasses done ⟨d.prepare, []⟩ c (((sameClasses_prepare d).known c).2 hknown)
      rwa [isResolved_prepare, hnew, Bool.false_or, List.contains_eq_mem, ← h.progress] at hmarks
    · have hout : c ∉ done := fun hdone => by
        have horder : c ∈ d.prepare.resolutionOrder := h.order ▸ List.mem_append_left _ hdone
        exact hknown ((mem_resolutionOrder d c).1 horder).is_inside.1
      rw [isResolved_of_unknown fun hin => hknown ((hsame.known c).1 hin), decide_eq_false hout]
  by_cases hdone : c ∈ done
  · rw [h.resolved c hdone, stageOf_eq, hmark, decide_eq_true hdone, if_pos rfl]
  · rw [h.untouched c hdone hc, stageOf_eq, stageOf_eq, hmark, hnew, hsame.wasRead, decide_eq_false hdone]

end First

/-- **The first resolution comes to an end, circles among the classes or not.**  Then the classes under audit and all to
which supertypes lead from them are resolved, every other class is at the stage where it was, and none is being resolved.
Where no class inherits from itself, the methods of a class are linked only when all its ancestors are resolved. -/
theorem first_resolution (classes : List (ClassFile × Bool)) :
    let d := empty.takeAll classes
    (∃ final, (Walk.start d).Leads final ∧ final.step = none ∧ final.progress.dir = d.resolve ∧
      (∀ c, d.resolve.stageOf c = final.stage c) ∧
      (∀ c, final.stage c = .resolved ↔ ∃ o ∈ d.owned, ReflTransGen d.Extends o c) ∧
      (∀ c, (¬ ∃ o ∈ d.owned, ReflTransGen d.Extends o c) → final.stage c = d.stageOf c) ∧
      ∀ c, final.stage c ≠ .resolving) ∧
    (d.SupertypesAcyclic → ∀ w, (Walk.start d).Leads w → ∀ c rest, w.plan = .leave c :: rest →
      ∀ a ∈ w.progress.dir.stackOf c, w.stage a = .resolved ∧ w.progress.dir.isResolved a = true) := by
  intro d
  have hs : d.Sound := sound_empty.takeAll classes
  have hnew : ∀ name, d.isResolved name = false := fun name => isResolved_takeAll classes (isResolved_empty name)
  refine ⟨?_, fun hacyclic w hleads c rest hplan a ha => ?_⟩
  · obtain ⟨done, final, hleads, hfinal, hplan⟩ := (follows_start d).exists_end hs
    obtain ⟨rfl, hdir, hnone⟩ := hfinal.at_end hplan
    have hstage : ∀ c, final.stage c = if c ∈ d.prepare.resolutionOrder then .resolved else d.stageOf c := fun c => by
      split
      · exact hfinal.resolved c ‹_›
      · exact hfinal.untouched c ‹_› (hnone c)
    refine ⟨final, hleads, Walk.step_eq_none.2 hplan, hdir, fun c => ?_, fun c => ?_, fun c hc => ?_, hnone⟩
    · rw [← hdir, hfinal.stageOf_dir hs hnew (hnone c)]
    · rw [← mem_resolutionOrder_iff_reach hs hnew, hstage]
      split
      · exact iff_of_true rfl ‹_›
      · refine iff_of_false (fun h => ?_) ‹_›
        have hopen := isOpen_stageOf d c
        rw [h, hnew] at hopen
        cases hopen
    · rw [hstage, if_neg fun h => hc ((mem_resolutionOrder_iff_reach hs hnew).1 h)]
  · obtain ⟨done, hdone⟩ := follows_of_leads hs hleads
    have horder : d.prepare.resolutionOrder = done ++ c :: Graph.depthFirst d.supertypesOf (d.unvisited w.stage) rest := by
      rw [hdone.order, hplan, Graph.depthFirst]
    rw [(hdone.prepared hs).stackOf] at ha
    have hstage := hdone.resolved a (ancestors_before hs hacyclic hnew horder ((mem_ancestors hs).1 ha).2)
    have hdir := hdone.stageOf_dir hs hnew (c := a) (by rw [hstage]; decide)
    have hopen := isOpen_stageOf w.progress.dir a
    rw [hdir, hstage] at hopen
    exact ⟨hstage, by simpa [Stage.isOpen] using hopen⟩

/-- Of two classes that inherit from each other one is under audit, and both are resolved; a class to which nothing leads is
as it was read. -/
example :
    ["A", "B", "C"].map (empty.takeAll [(withMethod "A" (some "B"), true), (withMethod "B" (some "A"), false),
      (withMethod "C" (some "A"), false)]).resolve.stageOf = [.resolved, .resolved, .read] := by
  cbv

/-- After five visits the class `B` is to be left, and then the classes above it are resolved. -/
theorem family_walk :
    (empty.takeAll (family "Q")).SupertypesAcyclic ∧
      ∃ w rest, (Walk.start (empty.takeAll (family "Q"))).Leads w ∧ w.plan = .leave "B" :: rest ∧
        w.stage "P" = .resolved ∧ w.stage "Z" = .resolved := by
  have hs : (empty.takeAll (family "Q")).Sound := sound_empty.takeAll _
  have hacyclic : (empty.takeAll (family "Q")).SupertypesAcyclic := (acyclic_iff hs).2 (by cbv)
  have hancestors : (empty.takeAll (family "Q")).ancestors "B" = ["P", "Z"] := by cbv
  have hnext : ((Walk.start (empty.takeAll (family "Q"))).visits 5).map (·.plan.head?) = some (some (.leave "B")) := by cbv
  obtain ⟨w, hw, hhead⟩ := Option.map_eq_some_iff.1 hnext
  obtain ⟨rest, hplan⟩ := List.head?_eq_some_iff.1 hhead
  have hleads := Walk.leads_of_visits hw
  obtain ⟨done, hdone⟩ := follows_of_leads hs hleads
  have h := (first_resolution (family "Q")).2 hacyclic w hleads "B" rest hplan
  rw [(hdone.prepared hs).stackOf, hancestors] at h
  exact ⟨hacyclic, w, rest, hleads, hplan, (h "P" List.mem_cons_self).1,
    (h "Z" (List.mem_cons_of_mem _ List.mem_cons_self)).1⟩

end Directory
end RenameAudit
