import RenameAudit.Proofs.Arena.SameWrites
/-!
# Proofs.Arena.SameResolution — resolving the same

A resolution of an arena and one of a directory that start in the same state go through the same states (`InStep`): each
pass looks up the same methods and does the same writes, and the merges that wait for a class in a list of their own are
those of it that wait in the list of all.  So both end in the same state (`SameState.resolve`), and after any calls an arena
is in the state of the directory (`sameState_after`).
-/
namespace RenameAudit

open Std ClassFile

theorem Directory.keepStack_of_unknown {d : Directory} {name : String} (h : name ∉ d.classes) : d.keepStack name = d := by
  have hsame : d.classes.modify name (keepIn (d.ancestors name)) = d.classes := ExtTreeMap.ext_getElem? fun n => by
    rw [getElem?_modify_eq]
    split
    · rename_i hn
      rw [hn, getElem?_eq_none_iff.2 h]
      rfl
    · rfl
  rw [keepStack_eq, hsame]

namespace Arena

namespace SameState

variable {a : Arena} {d : Directory} (h : SameState a d)

include h

/-! ## The nearest method -/

/-- **The nearest method with a key that a condition allows is the same.** -/
theorem findSome?_methodByKey? (allowed : Method → Bool) {scope : List ClassId}
    (hscope : ∀ c ∈ scope, c < a.classes.length) (key : String) :
    ((scope.map a.nameOf).findSome? fun c => (d.methodByKey? c key).filter allowed) =
      (scope.findSome? fun c => (a.methodByKey? c key).filter fun m => allowed (a.method m)).map a.method := by
  rw [List.findSome?_map, List.map_findSome?]
  refine Directory.findSome?_congr fun c hc => ?_
  rw [Function.comp_apply, Function.comp_apply, h.books.methodByKey? (hscope c hc), Option.filter_map]
  rfl

theorem findSome?_lt {allowed : MethodId → Bool} {scope : List ClassId} {key : String} {m : MethodId}
    (hm : (scope.findSome? fun c => (a.methodByKey? c key).filter allowed) = some m) : m < a.methods.length := by
  obtain ⟨c, -, hc⟩ := List.exists_of_findSome?_eq_some hm
  exact h.books.methodByKey?_lt (Option.mem_filter_iff.1 hc).1

/-! ## The passes -/

/-- A loop whose steps keep what is entered, and keep both in the same state. -/
theorem foldl {α β : Type} {f : Arena → α → Arena} {g : Directory → β → Directory} (φ : α → β) (l : List α)
    (hf : ∀ b x, (f b x).entered = b.entered)
    (hstep : ∀ b e, SameState b e → b.entered = a.entered → ∀ x ∈ l, SameState (f b x) (g e (φ x))) :
    SameState (l.foldl f a) ((l.map φ).foldl g d) := by
  have hloop : SameState (l.foldl f a) (l.foldl (fun e x => g e (φ x)) d) ∧ (l.foldl f a).entered = a.entered :=
    List.foldl_rel (r := fun (b : Arena) e => SameState b e ∧ b.entered = a.entered) ⟨h, rfl⟩ fun x hx b e hb =>
      ⟨hstep b e hb.1 hb.2 x hx, (hf b x).trans hb.2⟩
  rw [List.foldl_map]
  exact hloop.1

theorem linkDirect {stack : List ClassId} (hstack : ∀ c ∈ stack, c < a.classes.length) {m : MethodId}
    (hm : m < a.methods.length) :
    SameState (linkDirect stack a m) (Directory.linkDirect (stack.map a.nameOf) d (a.method m)) := by
  have hnearest : d.nearestOverridable? (stack.map a.nameOf) (a.method m).key =
      (a.nearestOverridable? stack (a.method m).key).map a.method :=
    h.findSome?_methodByKey? Method.canBeOverridden hstack _
  unfold Arena.linkDirect Directory.linkDirect
  rw [hnearest]
  split
  · cases hp : a.nearestOverridable? stack (a.method m).key with
    | none => exact h
    | some p => exact h.addRoots hm (h.findSome?_lt hp)
  · exact h

theorem satisfy {scope : List ClassId} (hscope : ∀ c ∈ scope, c < a.classes.length) {declared : MethodId}
    (hm : declared < a.methods.length) :
    SameState (satisfy scope a declared) (Directory.satisfy (scope.map a.nameOf) d (a.method declared)) := by
  have hnearest : d.nearestConcrete? (scope.map a.nameOf) (a.method declared).key =
      (a.nearestConcrete? scope (a.method declared).key).map a.method :=
    h.findSome?_methodByKey? (fun m => !m.isAbstract && m.canOverride) hscope _
  unfold Arena.satisfy Directory.satisfy
  rw [hnearest]
  cases hp : a.nearestConcrete? scope (a.method declared).key with
  | none => exact h
  | some m => exact h.addOverrides (h.findSome?_lt hp) (sameMethods_singleton hm)

theorem openDeclarations {scope : List ClassId} (hscope : ∀ c ∈ scope, c < a.classes.length) :
    d.openDeclarations (scope.map a.nameOf) = (a.openDeclarations scope).map a.method := by
  have hmethods : (scope.map a.nameOf).flatMap d.methodsOf = (scope.flatMap a.methodsOf).map a.method := by
    rw [List.flatMap_map, List.map_flatMap]
    exact List.flatMap_congr fun c hc => h.books.methodsOf (hscope c hc)
  rw [Directory.openDeclarations, hmethods, List.filter_map, Arena.openDeclarations]
  refine congrArg _ (List.filter_congr fun m hm => ?_)
  obtain ⟨c, -, hm⟩ := List.mem_flatMap.1 hm
  have hhas : d.hasOverrides (a.method m).ref = a.hasOverrides m := h.hasOverrides (h.books.methodsOf_lt hm)
  rw [Function.comp_apply, hhas]

theorem satisfyAll {id : ClassId} (hid : id < a.classes.length) {stack : List ClassId}
    (hstack : ∀ c ∈ stack, c < a.classes.length) :
    SameState (satisfyAll id stack a) (Directory.satisfyAll (a.nameOf id) (stack.map a.nameOf) d) := by
  have hscope : ∀ c ∈ id :: stack, c < a.classes.length := fun c hc =>
    (List.mem_cons.1 hc).elim (fun he => he ▸ hid) (hstack c)
  unfold Arena.satisfyAll Directory.satisfyAll
  rw [h.books.accessOf hid]
  split
  · exact h
  · dsimp only
    rw [← List.map_cons, h.openDeclarations hscope]
    refine h.foldl a.method _ (entered_satisfy _) fun b e hb he m hm => ?_
    obtain ⟨c, -, hm⟩ := List.mem_flatMap.1 (List.mem_filter.1 hm).1
    have hscope : ∀ c ∈ id :: stack, c < b.classes.length := length_classes he ▸ hscope
    have hsatisfied := hb.satisfy hscope (length_methods he ▸ h.books.methodsOf_lt hm)
    rwa [nameOf_congr he, method_congr he] at hsatisfied

/-- A merge that waits for a class, with the names of the class and the methods. -/
theorem merge {w : MethodId × MethodId} (hw : w.1 < a.methods.length ∧ w.2 < a.methods.length) (owner : String) :
    SameState (merge a w) (Directory.merge d ⟨owner, a.refOf w.1, a.refOf w.2⟩) := by
  unfold Arena.merge Directory.merge
  rw [h.hasOverrides hw.1]
  split
  · exact h.addRoots hw.2 hw.1
  · exact h

theorem linkedDirectly {stack : List ClassId} (hstack : ∀ c ∈ stack, c < a.classes.length) {methods : List MethodId}
    (hmethods : ∀ m ∈ methods, m < a.methods.length) :
    SameState (methods.foldl (Arena.linkDirect stack) a)
      ((methods.map a.method).foldl (Directory.linkDirect (stack.map a.nameOf)) d) := by
  refine h.foldl a.method _ (entered_linkDirect _) fun b e hb he m hm => ?_
  have hlinked := hb.linkDirect (length_classes he ▸ hstack) (length_methods he ▸ hmethods m hm)
  rwa [nameOf_congr he, method_congr he] at hlinked

end SameState

/-! ## Resolutions side by side -/

/-- A merge that waits for a class, by names. -/
def mergeOf (a : Arena) (owner : ClassId) (w : MethodId × MethodId) : Directory.Merge :=
  ⟨a.nameOf owner, a.refOf w.1, a.refOf w.2⟩

/-- **A resolution of an arena goes as one of a directory**: they are in the same state, and the same merges wait. -/
structure InStep (base : Arena) (s : Progress) (t : Directory.Progress) : Prop where
  entered : s.arena.entered = base.entered
  state : SameState s.arena t.dir
  pending : ∀ id < base.classes.length,
    t.waiting.filter (·.owner == base.nameOf id) = (s.pending.getD id []).map (base.mergeOf id)
  pending_lt : ∀ id, ∀ w ∈ s.pending.getD id [], w.1 < base.methods.length ∧ w.2 < base.methods.length

namespace InStep

variable {base : Arena} {s : Progress} {t : Directory.Progress} (h : InStep base s t)

include h

theorem classes_length : s.arena.classes.length = base.classes.length :=
  length_classes h.entered

theorem methods_length : s.arena.methods.length = base.methods.length :=
  length_methods h.entered

theorem owner_eq {m : MethodId} : (s.arena.methodRecord m).owner = (base.methodRecord m).owner :=
  (congrArg MethodRecord.owner (methodRecord_congr h.entered m) :)

theorem nameOf_inj {x y : ClassId} (hx : x < base.classes.length) (hy : y < base.classes.length)
    (he : base.nameOf x = base.nameOf y) : x = y := by
  rw [← nameOf_congr h.entered] at he
  exact h.state.books.nameOf_inj (h.classes_length ▸ hx) (h.classes_length ▸ hy) he

/-- Other writes than to the waiting merges. -/
theorem write {a : Arena} {d : Directory} (he : a.entered = s.arena.entered) (hstate : SameState a d) :
    InStep base { s with arena := a } { t with dir := d } :=
  ⟨he.trans h.entered, hstate, h.pending, h.pending_lt⟩

theorem keepFor {m bridge : MethodId} (hb : bridge < s.arena.methods.length) :
    SameState (keepFor m s.arena bridge) (Directory.keepFor (s.arena.method m) t.dir (s.arena.refOf bridge)) := by
  unfold Arena.keepFor Directory.keepFor
  have hkey : ((s.arena.refOf bridge).key == (s.arena.method m).key) = s.arena.sameKey m bridge := rfl
  rw [hkey]
  split
  · exact h.state.keepStack (h.state.books.owner_lt hb)
  · exact h.state

/-- **One more merge waits.** -/
theorem wait {bridge m : MethodId} (hb : bridge < base.methods.length) (hm : m < base.methods.length) {owner : ClassId}
    (hown : owner = (base.methodRecord bridge).owner) :
    InStep base { s with pending := s.pending.insert owner (s.pending.getD owner [] ++ [(bridge, m)]) }
      { t with waiting := t.waiting ++ [⟨(base.refOf bridge).owner, base.refOf bridge, base.refOf m⟩] } := by
  have hname : (base.refOf bridge).owner = base.nameOf owner := hown ▸ rfl
  have howner : owner < base.classes.length := by
    have hlt := h.state.books.owner_lt (h.methods_length ▸ hb)
    rwa [h.owner_eq, ← hown, h.classes_length] at hlt
  refine ⟨h.entered, h.state, fun j hj => ?_, fun j w hw => ?_⟩
  · dsimp only
    rw [List.filter_append, h.pending j hj, getD_insert_eq]
    by_cases hjo : j = owner
    · rw [if_pos hjo, List.map_append, hjo, hname, List.filter_singleton, beq_self_eq_true]
      rfl
    · have hother : (base.nameOf owner == base.nameOf j) = false :=
        beq_eq_false_iff_ne.2 fun he => hjo (h.nameOf_inj howner hj he).symm
      rw [if_neg hjo, hname, List.filter_singleton, hother]
      exact List.append_nil _
  · dsimp only at hw
    rw [getD_insert_eq] at hw
    split at hw
    · rcases List.mem_append.1 hw with hw | hw
      · exact h.pending_lt _ w hw
      · rw [List.mem_singleton.1 hw]
        exact ⟨hb, hm⟩
    · exact h.pending_lt j w hw

/-- **One bridge is treated the same.** -/
theorem linkBridge {id : ClassId} (hid : id < base.classes.length) {m bridge : MethodId} (hm : m < base.methods.length)
    (hb : bridge < base.methods.length) :
    InStep base (linkBridge id m s bridge)
      (Directory.linkBridge (base.nameOf id) (base.method m) t (base.refOf bridge)) := by
  have hb' : bridge < s.arena.methods.length := h.methods_length ▸ hb
  have hkept := h.keepFor (m := m) hb'
  have he : (Arena.keepFor m s.arena bridge).entered = base.entered := (entered_keepFor m s.arena bridge).trans h.entered
  rw [method_congr h.entered, refOf_congr h.entered] at hkept
  have hown : (s.arena.methodRecord bridge).owner = (base.methodRecord bridge).owner := h.owner_eq
  have howner : (s.arena.methodRecord bridge).owner < (Arena.keepFor m s.arena bridge).classes.length := by
    rw [length_classes he, ← h.classes_length]
    exact h.state.books.owner_lt hb'
  have hname : (base.refOf bridge).owner = (Arena.keepFor m s.arena bridge).nameOf (s.arena.methodRecord bridge).owner := by
    rw [nameOf_congr he, hown]
    rfl
  have hkey : ((base.refOf bridge).key == (base.method m).key) = s.arena.sameKey m bridge := by
    rw [sameKey, method_congr h.entered]
    rfl
  unfold Arena.linkBridge Directory.linkBridge
  dsimp only
  rw [← Directory.keepFor, hkey]
  generalize Arena.keepFor m s.arena bridge = a at *
  generalize Directory.keepFor (base.method m) t.dir (base.refOf bridge) = d at *
  have hcontains : (d.stackOf (base.refOf bridge).owner).contains (base.nameOf id) =
      (a.stackOf (s.arena.methodRecord bridge).owner).contains id := by
    rw [hname, hkept.stackOf howner, ← nameOf_congr he, Bool.eq_iff_iff, List.contains_iff_mem, List.contains_iff_mem]
    exact hkept.books.mem_map_nameOf (hkept.stackOf_lt howner) (length_classes he ▸ hid)
  have hhas : d.hasOverrides (base.refOf bridge) = a.hasOverrides bridge := by
    rw [← refOf_congr he]
    exact hkept.hasOverrides (length_methods he ▸ hb)
  have hwaits : ((base.refOf bridge).owner ≠ base.nameOf id ∧ (!d.isResolved (base.refOf bridge).owner) = true) ↔
      ((s.arena.methodRecord bridge).owner ≠ id ∧ (a.record (s.arena.methodRecord bridge).owner).state ≠ .resolved) := by
    rw [hname, hkept.isResolved howner, ← nameOf_congr he, Bool.not_eq_true', beq_eq_false_iff_ne]
    exact and_congr_left fun _ => not_congr
      ⟨hkept.books.nameOf_inj howner (length_classes he ▸ hid), congrArg _⟩
  rw [hcontains]
  split
  · exact ⟨he, hkept, h.pending, h.pending_lt⟩
  · rw [hhas]
    split
    · have hadded := hkept.addRoots (length_methods he ▸ hm) (length_methods he ▸ hb)
      rw [refOf_congr he] at hadded
      exact ⟨(entered_addOverrides ..).trans he, hadded, h.pending, h.pending_lt⟩
    · by_cases hw : (s.arena.methodRecord bridge).owner ≠ id ∧
          (a.record (s.arena.methodRecord bridge).owner).state ≠ .resolved
      · rw [if_pos hw, if_pos (hwaits.2 hw)]
        have hwaiting := h.wait hb hm hown
        exact ⟨he, hkept, hwaiting.pending, hwaiting.pending_lt⟩
      · rw [if_neg hw, if_neg fun hd => hw (hwaits.1 hd)]
        exact ⟨he, hkept, h.pending, h.pending_lt⟩

/-- **The bridges to one method are treated the same.** -/
theorem linkBridges {id : ClassId} (hid : id < base.classes.length) {m : MethodId} (hm : m < base.methods.length) :
    InStep base (linkBridges id s m) (Directory.linkBridges (base.nameOf id) t (base.method m)) := by
  have hm' : m < s.arena.methods.length := h.methods_length ▸ hm
  have hhas : t.dir.hasOverrides (base.method m).ref = s.arena.hasOverrides m := by
    rw [← method_congr h.entered]
    exact h.state.hasOverrides hm'
  have hbridges : t.dir.bridgesTo (base.method m).ref = (s.arena.bridgesTo m).map base.refOf := by
    rw [← method_congr h.entered, ← refOf_congr h.entered]
    exact h.state.bridgesTo hm'
  unfold Arena.linkBridges Directory.linkBridges
  rw [hhas, method_congr h.entered]
  split
  · exact h
  · rw [hbridges, List.foldl_map]
    exact List.foldl_rel (r := InStep base) h fun bridge hb s' t' h' =>
      h'.linkBridge hid hm (h.methods_length ▸ h.state.bridgesTo_lt hb)

/-- **The merges that wait for a class are carried out**, and wait no more. -/
theorem merges {id : ClassId} (hid : id < base.classes.length) :
    InStep base ⟨(s.pending.getD id []).foldl merge s.arena, s.pending.erase id⟩
      ⟨(t.waiting.filter (·.owner == base.nameOf id)).foldl Directory.merge t.dir,
        t.waiting.filter (·.owner != base.nameOf id)⟩ := by
  have hmerged : SameState ((s.pending.getD id []).foldl merge s.arena)
      (((s.pending.getD id []).map (base.mergeOf id)).foldl Directory.merge t.dir) := by
    refine h.state.foldl (base.mergeOf id) _ entered_merge fun b e hb he w hw => ?_
    have hlt := h.pending_lt id w hw
    rw [← length_methods (he.trans h.entered)] at hlt
    rw [mergeOf, ← refOf_congr (he.trans h.entered)]
    exact hb.merge hlt _
  have hleft : ∀ j, (s.pending.erase id).getD j [] = if j = id then [] else s.pending.getD j [] := fun j => by
    rw [ExtTreeMap.getD_erase]
    exact if_congr (Std.compare_eq_iff_eq.trans eq_comm) rfl rfl
  refine ⟨(entered_foldl entered_merge _ _).trans h.entered, h.pending id hid ▸ hmerged, fun j hj => ?_, fun j w hw => ?_⟩
  · dsimp only
    rw [hleft, List.filter_filter]
    by_cases hjid : j = id
    · subst hjid
      rw [if_pos rfl, List.map_nil, List.filter_eq_nil_iff]
      simp
    · have hne : base.nameOf j ≠ base.nameOf id := fun he => hjid (h.nameOf_inj hj hid he)
      rw [if_neg hjid, ← h.pending j hj]
      refine List.filter_congr fun w _ => ?_
      rw [Bool.eq_iff_iff, Bool.and_eq_true, beq_iff_eq, bne_iff_ne]
      exact and_iff_left_of_imp fun he => he ▸ hne
  · dsimp only at hw
    rw [hleft] at hw
    split at hw
    · cases hw
    · exact h.pending_lt j w hw

/-! ## One class -/

/-- **The methods of a class are linked in both.** -/
theorem linked {id : ClassId} (hid : id < base.classes.length) {stack : List ClassId} {methods : List MethodId}
    (hstack : ∀ c ∈ stack, c < base.classes.length) (hmethods : ∀ m ∈ methods, m < base.methods.length) :
    InStep base (methods.foldl (Arena.linkBridges id) { s with arena := methods.foldl (linkDirect stack) s.arena })
      ((methods.map base.method).foldl (Directory.linkBridges (base.nameOf id))
        { t with dir := (methods.map base.method).foldl (Directory.linkDirect (stack.map base.nameOf)) t.dir }) := by
  have hdirect : InStep base { s with arena := methods.foldl (linkDirect stack) s.arena }
      { t with dir := (methods.map base.method).foldl (Directory.linkDirect (stack.map base.nameOf)) t.dir } := by
    refine h.write (entered_foldl (entered_linkDirect _) _ _) ?_
    rw [← method_congr h.entered, ← nameOf_congr h.entered]
    exact h.state.linkedDirectly (h.classes_length ▸ hstack) (h.methods_length ▸ hmethods)
  rw [List.foldl_map]
  exact List.foldl_rel (r := InStep base) hdirect fun m hm s t h => h.linkBridges hid (hmethods m hm)

/-- **The declarations that a class has or inherits are satisfied in both**, and what waited for it is carried out. -/
theorem satisfied {id : ClassId} (hid : id < base.classes.length) {stack : List ClassId}
    (hstack : ∀ c ∈ stack, c < base.classes.length) :
    InStep base ⟨(s.pending.getD id []).foldl merge (satisfyAll id stack s.arena), s.pending.erase id⟩
      ⟨(t.waiting.filter (·.owner == base.nameOf id)).foldl Directory.merge
          (Directory.satisfyAll (base.nameOf id) (stack.map base.nameOf) t.dir),
        t.waiting.filter (·.owner != base.nameOf id)⟩ := by
  refine InStep.merges (h.write (entered_satisfyAll ..) ?_) hid
  rw [← nameOf_congr h.entered]
  exact h.state.satisfyAll (h.classes_length ▸ hid) (h.classes_length ▸ hstack)

/-- **One class is resolved in both.** -/
theorem resolveClass {id : ClassId} (hid : id < base.classes.length) :
    InStep base (resolveClass s id) (Directory.resolveClass t (base.nameOf id)) := by
  have hid' : id < s.arena.classes.length := h.classes_length ▸ hid
  have hmarked : ∀ {s t}, InStep base s t →
      InStep base { s with arena := s.arena.markResolved id } { t with dir := t.dir.markResolved (base.nameOf id) } :=
    fun {s t} h => by
      refine h.write (entered_markResolved ..) ?_
      rw [← nameOf_congr h.entered]
      exact h.state.markResolved (h.classes_length ▸ hid)
  have hread : t.dir.wasRead (base.nameOf id) = (s.arena.record id).read := by
    rw [← nameOf_congr h.entered]
    exact h.state.books.wasRead hid'
  unfold Arena.resolveClass Directory.resolveClass
  rw [hread]
  split
  · have hkept : InStep base { s with arena := s.arena.keepStack id } { t with dir := t.dir.keepStack (base.nameOf id) } := by
      refine h.write (entered_keepStack ..) ?_
      rw [← nameOf_congr h.entered]
      exact h.state.keepStack hid'
    have hk : id < (s.arena.keepStack id).classes.length := hkept.classes_length ▸ hid
    have hstack := hkept.state.stackOf hk
    have hmethods := hkept.state.books.methodsOf hk
    rw [nameOf_congr hkept.entered] at hstack hmethods
    rw [method_congr hkept.entered] at hmethods
    dsimp only at hstack hmethods ⊢
    rw [hstack, hmethods]
    have hlt : ∀ c ∈ (s.arena.keepStack id).stackOf id, c < base.classes.length :=
      hkept.classes_length ▸ hkept.state.stackOf_lt hk
    have hmethods_lt : ∀ m ∈ (s.arena.keepStack id).methodsOf id, m < base.methods.length := fun m hm =>
      hkept.methods_length ▸ hkept.state.books.methodsOf_lt hm
    exact hmarked ((hkept.linked hid hlt hmethods_lt).satisfied hid hlt)
  · exact hmarked h

end InStep

/-! ## All classes -/

theorem SameState.resolutionOrder {a : Arena} {d : Directory} (h : SameState a d) :
    d.resolutionOrder = a.resolutionOrder.map a.nameOf := by
  have hplan : d.owned.map Graph.Visit.enter = (a.ownedIds.map .enter).map (Graph.Visit.map a.nameOf) := by
    rw [h.books.owned, List.map_map, List.map_map]
    rfl
  rw [Directory.resolutionOrder, hplan, Arena.resolutionOrder]
  refine Graph.depthFirst_map (· < a.classes.length) (fun _ _ hx hy he => h.books.nameOf_inj hx hy he)
    (fun _ hx => h.books.supertypesOf hx) (fun _ hx => h.books.supertypesOf_lt hx) _ _ _ (fun x hx => ?_) fun x hx => ?_
  · obtain ⟨e, hentry, hsame⟩ := h.entries x hx
    have hresolved := h.isResolved hx
    rw [Directory.isResolved, hentry] at hresolved
    have hresolved : e.resolved = ((a.record x).state == .resolved) := hresolved
    rw [ExtTreeMap.mem_iff_isSome_getElem?, ExtTreeMap.mem_iff_isSome_getElem?, ExtTreeMap.getElem?_filter',
      ExtTreeMap.getElem?_filter', hentry, getElem?_byNumber, getElem?_record hx, Option.filter_some, Option.filter_some,
      hresolved, bne]
    split <;> rfl
  · obtain ⟨o, ho, he⟩ := List.mem_map.1 hx
    cases he
    obtain ⟨r, hr, -⟩ := h.books.orderly.mem_ownedIds.1 ho
    exact (List.getElem?_eq_some_iff.1 hr).1

theorem mem_resolutionOrder_lt {a : Arena} {id : ClassId} (h : id ∈ a.resolutionOrder) : id < a.classes.length := by
  have hin := ((Graph.mem_depthFirst _ _ _ _).1 h).is_inside
  rw [ExtTreeMap.mem_iff_isSome_getElem?, ExtTreeMap.getElem?_filter', getElem?_byNumber] at hin
  refine Nat.lt_of_not_le fun hle => ?_
  rw [List.getElem?_eq_none hle] at hin
  cases hin

/-- **Both are resolved.** -/
theorem SameState.resolve {a : Arena} {d : Directory} (h : SameState a d) : SameState a.resolve d.resolve := by
  have hstart : InStep a.prepare ⟨a.prepare, ∅⟩ ⟨d.prepare, []⟩ :=
    ⟨rfl, h.prepare, fun id _ => by rw [ExtTreeMap.getD_empty]; rfl, fun id w hw => by
      rw [ExtTreeMap.getD_empty] at hw
      cases hw⟩
  have hloop : InStep a.prepare (a.prepare.resolutionOrder.foldl Arena.resolveClass ⟨a.prepare, ∅⟩)
      (a.prepare.resolutionOrder.foldl (fun t id => Directory.resolveClass t (a.prepare.nameOf id)) ⟨d.prepare, []⟩) :=
    List.foldl_rel (r := InStep a.prepare) hstart fun id hid s t hst => hst.resolveClass (mem_resolutionOrder_lt hid)
  unfold Arena.resolve Directory.resolve
  dsimp only
  rw [h.prepare.resolutionOrder, List.foldl_map]
  exact hloop.state

/-! ## Calls -/

/-- **Every call does the same to both.** -/
theorem SameState.apply {a : Arena} {d : Directory} (h : SameState a d) (hgood : d.Good) (step : Directory.Step) :
    SameState (a.apply step) (d.apply step) := by
  cases step with
  | takeIn c owned => exact h.takeIn c owned
  | mention name => exact h.mention name
  | resolve => exact h.resolve
  | keepStack name =>
    rw [Arena.apply, Directory.apply]
    cases hn : a.lookup name with
    | none =>
      have hunknown : name ∉ d.classes := fun hmem => by
        rw [h.books.known, hn] at hmem
        cases hmem
      rw [Directory.keepStack_of_unknown hunknown]
      exact h
    | some id =>
      rw [← h.books.nameOf_lookup hn]
      exact h.keepStack (h.books.orderly.lookup_lt hn)
  | keepRoots m =>
    rw [Arena.apply, Directory.apply]
    cases hm : a.numberOf? m with
    | none =>
      exact h.keepOther fun i hi he =>
        List.find?_eq_none.1 hm i (List.mem_range.2 hi) (beq_iff_eq.2 he)
    | some i =>
      have href : (a.refOf i == m) = true := List.find?_some (p := fun i => a.refOf i == m) hm
      obtain rfl : a.refOf i = m := beq_iff_eq.1 href
      exact h.keepRoots hgood (List.mem_range.1 (List.mem_of_find?_eq_some hm))

/-- **After any calls both are in the same state.** -/
theorem sameState_after (steps : List Directory.Step) : SameState (after steps) (Directory.after steps) := by
  have hrun : SameState (after steps) (Directory.after steps) ∧ (Directory.after steps).Good :=
    List.foldl_rel (r := fun a d => SameState a d ∧ d.Good) ⟨sameState_empty, Directory.good_empty⟩
      fun step _ a d h => ⟨h.1.apply h.2 step, h.2.apply step⟩
  exact hrun.1

end Arena
end RenameAudit
