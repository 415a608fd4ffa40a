import RenameAudit.Proofs.Hierarchy.BridgeOrder
import RenameAudit.Proofs.Hierarchy.SharedRoots
/-!
# Proofs.Hierarchy.LaterClasses — classes that are taken in after a resolution

A resolution that starts inside a set of classes that has all their ancestors looks at nothing outside, apart from the
bridges from there, and these change nothing as long as nothing outside has overrides.  `Agree inside waits s t` says that
two resolutions under way cannot be told apart inside; every step keeps them in agreement (`Agree.resolveClass`).
-/
namespace RenameAudit
namespace Directory

open Std ClassFile

/-- What a resolution changes of a class and what it looks at: its declaration and its mark. -/
def record? (d : Directory) (name : String) : Option (Option Declaration × Bool) :=
  d.classes[name]?.map fun e => (e.declaration, e.resolved)

theorem declaration?_eq (d : Directory) (name : String) : d.declaration? name = (d.record? name).bind (·.1) := by
  rw [declaration?, record?]
  cases d.classes[name]? <;> rfl

theorem isResolved_eq (d : Directory) (name : String) : d.isResolved name = ((d.record? name).map (·.2)).getD false := by
  rw [isResolved, record?]
  cases d.classes[name]? <;> rfl

theorem isResolved_of_unknown {d : Directory} {name : String} (h : name ∉ d.classes) : d.isResolved name = false := by
  rw [isResolved, getElem?_eq_none_iff.2 h]
  rfl

theorem record?_congr {d e : Directory} {name : String} (hknown : name ∈ e.classes ↔ name ∈ d.classes)
    (hdecl : e.declaration? name = d.declaration? name) (hmark : e.isResolved name = d.isResolved name) :
    e.record? name = d.record? name := by
  rw [ExtTreeMap.mem_iff_isSome_getElem?, ExtTreeMap.mem_iff_isSome_getElem?] at hknown
  unfold record?
  unfold declaration? at hdecl
  unfold isResolved at hmark
  cases hd : d.classes[name]? <;> cases he : e.classes[name]? <;> simp_all

theorem record?_keepStack (d : Directory) (name n : String) : (d.keepStack name).record? n = d.record? n := by
  rw [record?, keepStack, getElem?_modify_eq, record?]
  split
  · cases d.classes[n]? with
    | none => rfl
    | some e => cases he : e.stack <;> simp [he]
  · rfl

theorem record?_markResolved (d : Directory) (name n : String) :
    (d.markResolved name).record? n = if n = name then (d.record? n).map fun r => (r.1, true) else d.record? n := by
  rw [record?, markResolved, getElem?_modify_eq, record?]
  split
  · cases d.classes[n]? <;> rfl
  · rfl

/-- Two directories have the same records. -/
def SameRecords (d e : Directory) : Prop :=
  ∀ name, e.record? name = d.record? name

theorem SameRecords.keptByWrites : KeptByWrites SameRecords where
  refl _ _ := rfl
  trans h h' name := (h' name).trans (h name)
  addOverrides d m more name := by
    unfold addOverrides
    split <;> rfl
  keepStack := record?_keepStack

theorem record?_resolveClass (s : Progress) (name n : String) :
    (resolveClass s name).dir.record? n =
      if n = name then (s.dir.record? n).map fun r => (r.1, true) else s.dir.record? n := by
  rw [resolveClass_eq]
  split
  · rw [record?_markResolved, SameRecords.keptByWrites.merged s name n]
  · exact record?_markResolved ..

/-- **A resolution marks the classes that it comes to**, and no others. -/
theorem isResolved_resolveClasses (names : List String) (s : Progress) (n : String) (hknown : n ∈ s.dir.classes) :
    (names.foldl resolveClass s).dir.isResolved n = (s.dir.isResolved n || names.contains n) := by
  induction names generalizing s with
  | nil => simp
  | cons name rest ih =>
    have hrecord := record?_resolveClass s name n
    have hstep : (resolveClass s name).dir.isResolved n = (s.dir.isResolved n || n == name) := by
      rw [isResolved_eq, hrecord, isResolved_eq]
      obtain ⟨e, he⟩ := Option.isSome_iff_exists.1 (ExtTreeMap.mem_iff_isSome_getElem?.1 hknown)
      by_cases hn : n = name
      · simp [hn, record?, hn ▸ he]
      · simp [hn]
    have hstill : n ∈ (resolveClass s name).dir.classes := by
      rw [ExtTreeMap.mem_iff_isSome_getElem?, ← Option.isSome_map, ← record?, hrecord]
      split <;> simp [record?, hknown]
    rw [List.foldl_cons, ih _ hstill, hstep, List.contains_cons, Bool.or_assoc]

theorem findSome?_congr {α β : Type} {f g : α → Option β} {items : List α} (h : ∀ x ∈ items, f x = g x) :
    items.findSome? f = items.findSome? g := by
  rw [← List.head?_filterMap, ← List.head?_filterMap, List.filterMap_congr h]

theorem mem_methodsOf_of_methodByKey? {d : Directory} {c key : String} {m : Method}
    (h : d.methodByKey? c key = some m) : m ∈ d.methodsOf c := by
  obtain ⟨decl, hd, hm⟩ := Option.bind_eq_some_iff.1 h
  exact mem_methodsOf.2 ⟨decl, hd, List.mem_of_find?_eq_some hm⟩

/-- **Loops over two lists end in related states** when the items that only one of them has change nothing that the
relation sees. -/
theorem foldl_of_filter_eq {β σ : Type} {step : σ → β → σ} {related : σ → σ → Prop} {p : β → Bool}
    (hstep : ∀ s t x, p x = true → related s t → related (step s x) (step t x))
    (hleft : ∀ s t x, p x = false → related s t → related (step s x) t)
    (hright : ∀ s t x, p x = false → related s t → related s (step t x)) {l l' : List β}
    (h : l.filter p = l'.filter p) {s t : σ} (hst : related s t) : related (l.foldl step s) (l'.foldl step t) := by
  have hskip : ∀ (front : List β) {s t : σ}, (∀ x ∈ front, ¬ p x = true) → related s t →
      related s (front.foldl step t) := fun front s t hfront hst =>
    List.foldlRecOn (motive := related s) _ _ hst fun t ht x hx => hright s t x (Bool.eq_false_iff.2 (hfront x hx)) ht
  induction l generalizing l' s t with
  | nil => exact hskip l' (List.filter_eq_nil_iff.1 h.symm) hst
  | cons x rest ih =>
    cases hp : p x with
    | true =>
      rw [List.filter_cons_of_pos hp] at h
      obtain ⟨front, back, rfl, hfront, -, hback⟩ := List.filter_eq_cons_iff.1 h.symm
      rw [List.foldl_append, List.foldl_cons]
      exact ih hback.symm (hstep _ _ x hp (hskip front hfront hst))
    | false =>
      rw [List.filter_cons_of_neg (Bool.eq_false_iff.1 hp)] at h
      exact ih h (hleft s t x hp hst)

/-- Whether both ends of a bridge belong to given classes. -/
def isWithin (inside : String → Bool) (p : MemberRef × MemberRef) : Bool :=
  inside p.1.owner && inside p.2.owner

/-! ## Resolutions that cannot be told apart inside a set of classes -/

/-- **A resolution is confined to a set of classes**: it has their ancestors, only their methods have overrides, and what
waits for one of those that are still to come would write to their methods. -/
structure Confined (inside waits : String → Bool) (s : Progress) : Prop where
  closed : ∀ c, inside c = true → ∀ a ∈ s.dir.stackOf c, inside a = true
  owners : ∀ c, inside c = true → ∀ m ∈ s.dir.methodsOf c, m.ref.owner = c
  written : ∀ m ∈ s.dir.overrides, inside m.owner = true
  targets : ∀ w ∈ s.waiting, waits w.owner = true → inside w.target.owner = true

/-- **Two resolutions agree inside a set of classes.** -/
structure Agree (inside waits : String → Bool) (s t : Progress) : Prop where
  confined : Confined inside waits s
  record : ∀ c, inside c = true → t.dir.record? c = s.dir.record? c
  stackOf : ∀ c, inside c = true → t.dir.stackOf c = s.dir.stackOf c
  bridges : t.dir.bridges.filter (isWithin inside) = s.dir.bridges.filter (isWithin inside)
  overrides : t.dir.overrides = s.dir.overrides
  waiting : t.waiting.filter (fun w => waits w.owner) = s.waiting.filter (fun w => waits w.owner)

namespace Agree

variable {inside waits : String → Bool} {s t : Progress}

theorem declaration (h : Agree inside waits s t) {c : String} (hc : inside c = true) :
    t.dir.declaration? c = s.dir.declaration? c := by
  rw [declaration?_eq, declaration?_eq, h.record c hc]

theorem isResolved (h : Agree inside waits s t) {c : String} (hc : inside c = true) :
    t.dir.isResolved c = s.dir.isResolved c := by
  rw [isResolved_eq, isResolved_eq, h.record c hc]

theorem wasRead (h : Agree inside waits s t) {c : String} (hc : inside c = true) :
    t.dir.wasRead c = s.dir.wasRead c := by
  rw [Directory.wasRead, h.declaration hc, ← Directory.wasRead]

theorem methodsOf (h : Agree inside waits s t) {c : String} (hc : inside c = true) :
    t.dir.methodsOf c = s.dir.methodsOf c := by
  rw [Directory.methodsOf, h.declaration hc, ← Directory.methodsOf]

theorem methodByKey? (h : Agree inside waits s t) {c : String} (hc : inside c = true) (key : String) :
    t.dir.methodByKey? c key = s.dir.methodByKey? c key := by
  rw [Directory.methodByKey?, h.declaration hc, ← Directory.methodByKey?]

theorem accessOf (h : Agree inside waits s t) {c : String} (hc : inside c = true) :
    t.dir.accessOf c = s.dir.accessOf c := by
  rw [Directory.accessOf, h.declaration hc, ← Directory.accessOf]

theorem hasOverrides (h : Agree inside waits s t) (m : MemberRef) : t.dir.hasOverrides m = s.dir.hasOverrides m := by
  rw [Directory.hasOverrides, h.overrides, ← Directory.hasOverrides]

theorem rootSet (h : Agree inside waits s t) (m : MemberRef) : t.dir.rootSet m = s.dir.rootSet m := by
  rw [Directory.rootSet, h.overrides, ← Directory.rootSet]

theorem confined_right (h : Agree inside waits s t) : Confined inside waits t where
  closed c hc a ha := h.confined.closed c hc a (h.stackOf c hc ▸ ha)
  owners c hc m hm := h.confined.owners c hc m (h.methodsOf hc ▸ hm)
  written m hm := h.confined.written m (h.overrides ▸ hm)
  targets w hw hwaits := by
    have hmem : w ∈ t.waiting.filter fun w => waits w.owner := List.mem_filter.2 ⟨hw, hwaits⟩
    rw [h.waiting] at hmem
    exact h.confined.targets w (List.mem_filter.1 hmem).1 hwaits

theorem symm (h : Agree inside waits s t) : Agree inside waits t s :=
  ⟨h.confined_right, fun c hc => (h.record c hc).symm, fun c hc => (h.stackOf c hc).symm, h.bridges.symm,
    h.overrides.symm, h.waiting.symm⟩

/-! ### Single writes -/

theorem keepStack_right (h : Agree inside waits s t) (name : String) :
    Agree inside waits s { t with dir := t.dir.keepStack name } :=
  ⟨h.confined, fun c hc => (record?_keepStack ..).trans (h.record c hc),
    fun c hc => (stackOf_keepStack ..).trans (h.stackOf c hc), h.bridges, h.overrides, h.waiting⟩

theorem keepStack (h : Agree inside waits s t) (name : String) :
    Agree inside waits { s with dir := s.dir.keepStack name } { t with dir := t.dir.keepStack name } :=
  ((h.keepStack_right name).symm.keepStack_right name).symm

theorem markResolved (h : Agree inside waits s t) (name : String) :
    Agree inside waits { s with dir := s.dir.markResolved name } { t with dir := t.dir.markResolved name } where
  confined := {
    closed := fun c hc a ha => h.confined.closed c hc a (stackOf_markResolved s.dir name c ▸ ha)
    owners := fun c hc m hm => h.confined.owners c hc m ((sameClasses_markResolved s.dir name).methodsOf c ▸ hm)
    written := h.confined.written
    targets := h.confined.targets }
  record c hc := by rw [record?_markResolved, record?_markResolved, h.record c hc]
  stackOf c hc := by rw [stackOf_markResolved, stackOf_markResolved, h.stackOf c hc]
  bridges := h.bridges
  overrides := h.overrides
  waiting := h.waiting

theorem addOverrides (h : Agree inside waits s t) {m : MemberRef} (hm : inside m.owner = true) (more : MethodSet) :
    Agree inside waits { s with dir := s.dir.addOverrides m more } { t with dir := t.dir.addOverrides m more } := by
  have hwritten : ∀ x ∈ (s.dir.addOverrides m more).overrides, inside x.owner = true := fun x hx => by
    rcases mem_addOverrides.1 hx with hx | ⟨rfl, -⟩
    · exact h.confined.written x hx
    · exact hm
  unfold Directory.addOverrides at hwritten ⊢
  split
  · exact h
  · rename_i hmore
    rw [if_neg hmore] at hwritten
    refine ⟨⟨h.confined.closed, h.confined.owners, hwritten, h.confined.targets⟩, h.record, h.stackOf,
      h.bridges, ?_, h.waiting⟩
    dsimp only
    rw [overridesOf, overridesOf, h.overrides]

theorem addRoots (h : Agree inside waits s t) {m : MemberRef} (hm : inside m.owner = true) (other : MemberRef) :
    Agree inside waits { s with dir := s.dir.addOverrides m ((s.dir.rootSet other).erase m) }
      { t with dir := t.dir.addOverrides m ((t.dir.rootSet other).erase m) } := by
  rw [h.rootSet other]
  exact h.addOverrides hm _

/-! ### Passes -/

theorem linkDirect (h : Agree inside waits s t) {stack : List String} (hstack : ∀ c ∈ stack, inside c = true)
    {m : Method} (hm : inside m.ref.owner = true) :
    Agree inside waits { s with dir := linkDirect stack s.dir m } { t with dir := linkDirect stack t.dir m } := by
  have hnearest : t.dir.nearestOverridable? stack m.key = s.dir.nearestOverridable? stack m.key := by
    unfold nearestOverridable?
    exact findSome?_congr fun c hc => by rw [h.methodByKey? (hstack c hc)]
  unfold Directory.linkDirect
  rw [hnearest]
  split
  · split
    · exact h.addRoots hm _
    · exact h
  · exact h

theorem follow (h : Agree inside waits s t) {m : MemberRef} (hm : inside m.owner = true) (takes : Bool)
    (bridge : MemberRef) :
    Agree inside waits { s with dir := follow m takes s.dir bridge } { t with dir := follow m takes t.dir bridge } := by
  unfold Directory.follow
  split
  · exact h.addRoots hm bridge
  · exact h

theorem append_waiting (h : Agree inside waits s t) (more : List Merge)
    (hmore : ∀ w ∈ more, inside w.target.owner = true) :
    Agree inside waits { s with waiting := s.waiting ++ more } { t with waiting := t.waiting ++ more } := by
  refine ⟨⟨h.confined.closed, h.confined.owners, h.confined.written, fun w hw hwaits => ?_⟩, h.record,
    h.stackOf, h.bridges, h.overrides, ?_⟩
  · rcases List.mem_append.1 hw with hw | hw
    · exact h.confined.targets w hw hwaits
    · exact hmore w hw
  · dsimp only
    rw [List.filter_append, List.filter_append, h.waiting]

theorem keepFor (h : Agree inside waits s t) (m : Method) (bridge : MemberRef) :
    Agree inside waits { s with dir := keepFor m s.dir bridge } { t with dir := keepFor m t.dir bridge } := by
  unfold Directory.keepFor
  split
  · exact h.keepStack bridge.owner
  · exact h

/-- One bridge from inside is taken alike. -/
theorem linkBridge (h : Agree inside waits s t) (name : String) {m : Method} (hm : inside m.ref.owner = true)
    {bridge : MemberRef} (hbridge : inside bridge.owner = true) :
    Agree inside waits (linkBridge name m s bridge) (linkBridge name m t bridge) := by
  have hpasses : passes name m t.dir bridge = passes name m s.dir bridge := by
    rw [passes, h.stackOf _ hbridge, ← passes]
  have htakes : takes name m t.dir bridge = takes name m s.dir bridge := by
    rw [takes, hpasses, h.hasOverrides, ← takes]
  have hdelays : delays name m t.dir bridge = delays name m s.dir bridge := by
    rw [delays, hpasses, h.hasOverrides, h.isResolved hbridge, ← delays]
  rw [linkBridge_eq, linkBridge_eq, htakes, hdelays]
  refine ((h.keepFor m bridge).follow hm (takes name m s.dir bridge) bridge).append_waiting _ fun w hw => ?_
  unfold delays at hw
  split at hw
  · obtain rfl := List.mem_singleton.1 hw
    exact hm
  · cases hw

/-- **A bridge from outside changes nothing that can be seen inside.** -/
theorem linkBridge_outside (h : Agree inside waits s t) (hwaits : ∀ c, waits c = true → inside c = true) (name : String)
    (m : Method) {bridge : MemberRef} (hbridge : inside bridge.owner = false) :
    Agree inside waits s (Directory.linkBridge name m t bridge) := by
  have hnone : t.dir.hasOverrides bridge = false := by
    rw [← Bool.not_eq_true, hasOverrides_iff]
    intro hmem
    rw [h.confined_right.written bridge hmem] at hbridge
    cases hbridge
  have htakes : takes name m t.dir bridge = false := by
    rw [takes, hnone, Bool.and_false]
  have hkept : Agree inside waits s { t with dir := Directory.keepFor m t.dir bridge } := by
    unfold Directory.keepFor
    split
    · exact h.keepStack_right bridge.owner
    · exact h
  have hdelays : (delays name m t.dir bridge).filter (fun w => waits w.owner) = [] := by
    unfold delays
    split
    · refine List.filter_eq_nil_iff.2 fun w hw hwait => ?_
      obtain rfl := List.mem_singleton.1 hw
      rw [hwaits _ hwait] at hbridge
      cases hbridge
    · rfl
  rw [linkBridge_eq, htakes]
  refine ⟨hkept.confined, hkept.record, hkept.stackOf, hkept.bridges, hkept.overrides, ?_⟩
  rw [List.filter_append, hdelays, List.append_nil]
  exact h.waiting

/-- **The bridges to a method inside** are taken alike, however many come from outside. -/
theorem linkBridges (h : Agree inside waits s t) (hwaits : ∀ c, waits c = true → inside c = true) (name : String)
    {m : Method} (hm : inside m.ref.owner = true) :
    Agree inside waits (linkBridges name s m) (linkBridges name t m) := by
  have hbridges : ∀ d : Directory, (d.bridgesTo m.ref).filter (fun b => inside b.owner) =
      ((d.bridges.filter (isWithin inside)).filter (·.2 == m.ref)).map (·.1) := fun d => by
    rw [bridgesTo, List.filter_map, List.filter_filter, List.filter_filter]
    congr 1
    refine List.filter_congr fun p _ => ?_
    cases hp : p.2 == m.ref with
    | true => simp [isWithin, (beq_iff_eq.1 hp), hm]
    | false => simp
  unfold Directory.linkBridges
  rw [h.hasOverrides]
  split
  · exact h
  · refine foldl_of_filter_eq (p := fun b => inside b.owner) (fun s t b hb h => h.linkBridge name hm hb)
      (fun s t b hb h => (h.symm.linkBridge_outside hwaits name m hb).symm)
      (fun s t b hb h => h.linkBridge_outside hwaits name m hb) ?_ h
    rw [hbridges, hbridges, h.bridges]

theorem satisfy (h : Agree inside waits s t) {scope : List String} (hscope : ∀ c ∈ scope, inside c = true)
    (declared : Method) :
    Agree inside waits { s with dir := satisfy scope s.dir declared } { t with dir := satisfy scope t.dir declared } := by
  have hnearest : t.dir.nearestConcrete? scope declared.key = s.dir.nearestConcrete? scope declared.key := by
    unfold nearestConcrete?
    exact findSome?_congr fun c hc => by rw [h.methodByKey? (hscope c hc)]
  unfold Directory.satisfy
  rw [hnearest]
  split
  · rename_i m hm
    obtain ⟨c, hc, hm⟩ := List.exists_of_findSome?_eq_some hm
    have hmem := mem_methodsOf_of_methodByKey? (Option.filter_eq_some_iff.1 hm).1
    have howner : m.ref.owner = c := h.confined.owners c (hscope c hc) m hmem
    exact h.addOverrides (howner ▸ hscope c hc) _
  · exact h

theorem satisfyAll (h : Agree inside waits s t) {name : String} {stack : List String}
    (hscope : ∀ c ∈ name :: stack, inside c = true) :
    Agree inside waits { s with dir := satisfyAll name stack s.dir } { t with dir := satisfyAll name stack t.dir } := by
  have hopen : t.dir.openDeclarations (name :: stack) = s.dir.openDeclarations (name :: stack) := by
    rw [openDeclarations, openDeclarations, List.flatMap_congr fun c hc => h.methodsOf (hscope c hc)]
    exact List.filter_congr fun m _ => by rw [h.hasOverrides]
  unfold Directory.satisfyAll
  dsimp only
  rw [h.accessOf (hscope name List.mem_cons_self), hopen]
  split
  · exact h
  · exact List.foldl_rel (r := fun d e => Agree inside waits { s with dir := d } { t with dir := e }) h
      fun m _ d e h => h.satisfy hscope m

/-- **What waited for a class that is still to come is carried out alike.** -/
theorem merges (h : Agree inside waits s t) {name : String} (hname : waits name = true) :
    Agree inside waits
      { dir := (s.waiting.filter (·.owner == name)).foldl merge s.dir, waiting := s.waiting.filter (·.owner != name) }
      { dir := (t.waiting.filter (·.owner == name)).foldl merge t.dir, waiting := t.waiting.filter (·.owner != name) } := by
  have hnow : ∀ merges : List Merge, merges.filter (·.owner == name) =
      (merges.filter fun w => waits w.owner).filter (·.owner == name) := fun merges => by
    rw [List.filter_filter]
    refine List.filter_congr fun w _ => ?_
    cases hw : w.owner == name with
    | true => rw [beq_iff_eq.1 hw, hname]; rfl
    | false => rfl
  have hlater : ∀ merges : List Merge, (merges.filter (·.owner != name)).filter (fun w => waits w.owner) =
      (merges.filter fun w => waits w.owner).filter (·.owner != name) := fun merges => by
    rw [List.filter_filter, List.filter_filter]
    exact List.filter_congr fun w _ => Bool.and_comm _ _
  have hmerges : Agree inside waits { s with dir := (s.waiting.filter (·.owner == name)).foldl merge s.dir }
      { t with dir := (t.waiting.filter (·.owner == name)).foldl merge t.dir } := by
    rw [hnow t.waiting, h.waiting, ← hnow]
    refine List.foldl_rel (r := fun d e => Agree inside waits { s with dir := d } { t with dir := e }) h
      fun w hw d e h => ?_
    obtain ⟨hw, howner⟩ := List.mem_filter.1 hw
    have htarget := h.confined.targets w hw (by rw [beq_iff_eq.1 howner, hname])
    have htakes : e.hasOverrides w.bridge = d.hasOverrides w.bridge := h.hasOverrides w.bridge
    rw [merge_eq, merge_eq, htakes]
    exact h.follow htarget _ w.bridge
  refine ⟨⟨hmerges.confined.closed, hmerges.confined.owners, hmerges.confined.written, fun w hw hwaits => ?_⟩,
    hmerges.record, hmerges.stackOf, hmerges.bridges, hmerges.overrides, ?_⟩
  · exact hmerges.confined.targets w (List.mem_filter.1 hw).1 hwaits
  · dsimp only
    rw [hlater, hlater, h.waiting]

/-! ### One class -/

/-- **Resolving a class keeps resolutions in agreement.** -/
theorem resolveClass (h : Agree inside waits s t) (hwaits : ∀ c, waits c = true → inside c = true) {name : String}
    (hname : waits name = true) : Agree inside waits (resolveClass s name) (resolveClass t name) := by
  have hin := hwaits name hname
  have hkept := h.keepStack name
  have hmethods := hkept.methodsOf hin
  have hstack := hkept.stackOf name hin
  have howner : ∀ m ∈ (s.dir.keepStack name).methodsOf name, inside m.ref.owner = true := fun m hm =>
    hkept.confined.owners name hin m hm ▸ hin
  have hscope : ∀ c ∈ name :: (s.dir.keepStack name).stackOf name, inside c = true := fun c hc =>
    (List.mem_cons.1 hc).elim (fun hc => hc ▸ hin) (hkept.confined.closed name hin c)
  have hdirect : Agree inside waits (linkedDirectly s name) (linkedDirectly t name) := by
    dsimp only [linkedDirectly]
    dsimp only at hmethods hstack
    rw [hmethods, hstack]
    exact List.foldl_rel (r := fun d e => Agree inside waits { s with dir := d } { t with dir := e }) hkept
      fun m hm d e h => h.linkDirect (fun c hc => hscope c (List.mem_cons_of_mem _ hc)) (howner m hm)
  have hbridges : Agree inside waits (linkedToBridges s name) (linkedToBridges t name) := by
    dsimp only [linkedToBridges]
    dsimp only at hmethods
    rw [hmethods]
    exact List.foldl_rel (r := Agree inside waits) hdirect fun m hm s t h => h.linkBridges hwaits name (howner m hm)
  have hsatisfied : Agree inside waits (satisfied s name) (satisfied t name) := by
    dsimp only [satisfied]
    dsimp only at hstack
    rw [hstack]
    exact hbridges.satisfyAll hscope
  have hmerged : Agree inside waits (merged s name) (merged t name) := hsatisfied.merges hname
  rw [resolveClass_eq, resolveClass_eq, h.wasRead hin]
  split
  · exact hmerged.markResolved name
  · exact h.markResolved name

theorem resolveClasses (h : Agree inside waits s t) (hwaits : ∀ c, waits c = true → inside c = true)
    (names : List String) (hnames : ∀ c ∈ names, waits c = true) :
    Agree inside waits (names.foldl Directory.resolveClass s) (names.foldl Directory.resolveClass t) :=
  List.foldl_rel (r := Agree inside waits) h fun name hname _ _ h => h.resolveClass hwaits (hnames name hname)

end Agree

end Directory
end RenameAudit
