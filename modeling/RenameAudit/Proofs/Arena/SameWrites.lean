import RenameAudit.Proofs.Arena.SameState
/-!
# Proofs.Arena.SameWrites — writing the same

Each write of a resolution, done to an arena and to a directory in the same state, leaves both in the same state: a method
overrides more methods, its roots are kept, the ancestors of a class are kept, the class is marked, and all that was kept is
dropped.  So do mentioning a class and taking one in.
-/
namespace RenameAudit

open Std ClassFile

theorem Directory.overridesOf_addOverrides (d : Directory) (m : MemberRef) (more : MethodSet) (x : MemberRef) :
    (d.addOverrides m more).overridesOf x = if x = m then d.overridesOf x ∪ more else d.overridesOf x := by
  refine ExtTreeSet.ext_mem fun r => overrides_addOverrides.trans ?_
  split
  · rename_i hx
    rw [ExtTreeSet.mem_union_iff]
    exact or_congr Iff.rfl (and_iff_right hx)
  · rename_i hx
    exact or_iff_left fun hr => hx hr.1

/-- Roots that are asked for are kept, also where others were kept. -/
theorem Directory.getElem?_keptRoots_keepRoots (d : Directory) (m x : MemberRef) :
    (d.keepRoots m).keptRoots[x]? = if x = m then some (d.rootsOf m) else d.keptRoots[x]? := by
  unfold Directory.keepRoots
  split
  · rename_i hkept
    split
    · rename_i hx
      rw [hx, rootsOf, ExtTreeMap.getD_eq_getD_getElem?]
      obtain ⟨l, hl⟩ := Option.isSome_iff_exists.1 (ExtTreeMap.mem_iff_isSome_getElem?.1 (ExtTreeMap.contains_iff_mem.1 hkept))
      rw [hl]
      rfl
    · rfl
  · rename_i hnew
    have hnone : d.keptRoots[m]? = none := getElem?_eq_none_iff.2 fun hm => hnew (ExtTreeMap.contains_iff_mem.2 hm)
    rw [getElem?_insert_eq, rootsOf, ExtTreeMap.getD_eq_getD_getElem?, hnone]
    rfl

namespace Arena

/-! ## Changed records -/

theorem methodRecord_modifyMethod (a : Arena) (m : MethodId) (f : MethodRecord → MethodRecord) (x : MethodId) :
    (a.modifyMethod m f).methodRecord x =
      if x = m ∧ x < a.methods.length then f (a.methodRecord x) else a.methodRecord x := by
  rw [methodRecord, modifyMethod, List.getElem?_modify, methodRecord]
  by_cases hx : x < a.methods.length
  · rw [List.getElem?_eq_getElem hx]
    by_cases hm : x = m
    · simp [hm, hm ▸ hx]
    · simp [hm, Ne.symm hm]
  · rw [List.getElem?_eq_none (Nat.le_of_not_lt hx)]
    simp [hx]

theorem record_modifyClass (a : Arena) (id : ClassId) (f : ClassRecord → ClassRecord) {j : ClassId}
    (hj : j < a.classes.length) :
    (a.modifyClass id f).record j = if j = id then f (a.record j) else a.record j := by
  rw [record, modifyClass, List.getElem?_modify, record, List.getElem?_eq_getElem hj]
  by_cases hid : j = id
  · simp [hid]
  · simp [hid, Ne.symm hid]

theorem methodRecord_of_le {a : Arena} {m : MethodId} (hm : a.methods.length ≤ m) : a.methodRecord m = default := by
  rw [methodRecord, List.getElem?_eq_none hm]
  rfl

/-- An entry stays like a record while an arena grows. -/
theorem SameEntry.grow {a b : Arena} (hg : a.Grown b) {r : ClassRecord} {e : ClassEntry} (h : a.SameEntry r e) :
    b.SameEntry r e := by
  refine ⟨h.state, h.stack.trans (Option.map_congr fun l hl => List.map_congr_left fun s hs => ?_), fun s hs =>
    (h.stack_lt s hs).trans_le hg.classes_le⟩
  exact (hg.nameOf s (h.stack_lt s (by rwa [hl]))).symm

namespace SameState

variable {a : Arena} {d : Directory} (h : SameState a d)

include h

/-! ## Writes that leave what is entered -/

/-- **Both stay in the same state where what is entered stays** and the rest agrees, under the names of before. -/
theorem written {b : Arena} {e : Directory} (he : b.entered = a.entered) (hs : d.SameClasses e)
    (hentries : ∀ id < a.classes.length, ∃ c, e.classes[a.nameOf id]? = some c ∧ a.SameEntry (b.record id) c)
    (hbridges : e.bridges = d.bridges)
    (hoverrides : ∀ m < a.methods.length, a.SameMethods (b.overridesOf m) (e.overridesOf (a.refOf m)))
    (hoverriding : ∀ r, r ∈ e.overrides ↔ ∃ m < a.methods.length, a.refOf m = r ∧ b.hasOverrides m = true)
    (hkept : ∀ m < a.methods.length, ∀ l, (b.methodRecord m).roots = some l →
      (∀ x ∈ l, x < a.methods.length) ∧ e.keptRoots[a.refOf m]? = some (l.map a.refOf)) : SameState b e := by
  have href := refOf_congr he
  have hlength := length_methods he
  refine ⟨h.books.of_entered he hs, fun id hid => ?_, ?_, fun m hm => ?_, ?_, ?_⟩
  · obtain ⟨c, hc, hsame⟩ := hentries id (length_classes he ▸ hid)
    exact ⟨c, nameOf_congr he ▸ hc, hsame.congr he⟩
  · obtain ⟨l, hl, hd⟩ := h.bridges
    exact ⟨l, hl.congr he, by rw [hbridges, href, hd]⟩
  · rw [href]
    exact (hoverrides m (hlength ▸ hm)).congr he
  · rwa [href, hlength]
  · rwa [href, hlength]

/-- Both stay in the same state where the overrides stay as well. -/
theorem marked {b : Arena} {e : Directory} (he : b.entered = a.entered) (hs : d.SameClasses e)
    (hentries : ∀ id < a.classes.length, ∃ c, e.classes[a.nameOf id]? = some c ∧ a.SameEntry (b.record id) c)
    (hbridges : e.bridges = d.bridges) (hoverrides : e.overrides = d.overrides) (hover : ∀ m, b.overridesOf m = a.overridesOf m)
    (hkept : ∀ m < a.methods.length, ∀ l, (b.methodRecord m).roots = some l →
      (∀ x ∈ l, x < a.methods.length) ∧ e.keptRoots[a.refOf m]? = some (l.map a.refOf)) : SameState b e := by
  refine h.written he hs hentries hbridges (fun m hm => ?_) (fun r => ?_) hkept
  · rw [hover, Directory.overridesOf, hoverrides]
    exact h.overrides m hm
  · rw [hoverrides, h.overriding]
    simp only [Arena.hasOverrides, hover]

/-! ### Writes to a method -/

/-- **A method overrides more methods in both.** -/
theorem addOverrides {m : MethodId} (hm : m < a.methods.length) {more : ExtTreeSet MethodId} {more' : MethodSet}
    (hmore : a.SameMethods more more') : SameState (a.addOverrides m more) (d.addOverrides (a.refOf m) more') := by
  have hover : ∀ x < a.methods.length, (a.addOverrides m more).overridesOf x =
      if x = m then a.overridesOf x ∪ more else a.overridesOf x := fun x hx => by
    rw [overridesOf, Arena.addOverrides, methodRecord_modifyMethod]
    simp only [hx, and_true]
    split <;> rfl
  have hs := Directory.sameClasses_addOverrides d (a.refOf m) more'
  obtain ⟨overrides, hd⟩ : ∃ overrides, d.addOverrides (a.refOf m) more' = { d with overrides } := by
    unfold Directory.addOverrides
    split <;> exact ⟨_, rfl⟩
  refine h.written (entered_addOverrides a m more) hs (fun id hid => ?_) (by rw [hd]) (fun x hx => ?_) (fun r => ?_)
    fun x hx l hl => ?_
  · rw [hd]
    exact h.entries id hid
  · have hself : a.refOf x = a.refOf m ↔ x = m := ⟨h.books.refOf_inj hx hm, congrArg _⟩
    rw [hover x hx, Directory.overridesOf_addOverrides]
    simp only [hself]
    split
    · exact (h.overrides x hx).union hmore
    · exact h.overrides x hx
  · rw [Directory.mem_addOverrides, h.overriding]
    simp only [hasOverrides_iff]
    constructor
    · rintro (⟨x, hx, rfl, y, hy⟩ | ⟨rfl, r, hr⟩)
      · refine ⟨x, hx, rfl, y, ?_⟩
        rw [Overrides, hover x hx]
        split
        · exact ExtTreeSet.mem_union_iff.2 (.inl hy)
        · exact hy
      · obtain ⟨y, hy, -⟩ := (hmore.mem r).1 hr
        refine ⟨m, hm, rfl, y, ?_⟩
        rw [Overrides, hover m hm, if_pos rfl]
        exact ExtTreeSet.mem_union_iff.2 (.inr hy)
    · rintro ⟨x, hx, rfl, y, hy⟩
      rw [Overrides, hover x hx] at hy
      split at hy
      · rename_i hxm
        refine (ExtTreeSet.mem_union_iff.1 hy).imp (fun hy => ⟨x, hx, rfl, y, hy⟩) fun hy => ?_
        exact ⟨congrArg a.refOf hxm, a.refOf y, (hmore.mem _).2 ⟨y, hy, rfl⟩⟩
      · exact .inl ⟨x, hx, rfl, y, hy⟩
  · rw [hd]
    rw [Arena.addOverrides, methodRecord_modifyMethod] at hl
    refine h.keptRoots x hx l ?_
    split at hl <;> exact hl

theorem addRoots {m p : MethodId} (hm : m < a.methods.length) (hp : p < a.methods.length) :
    SameState (a.addOverrides m ((a.rootSet p).erase m))
      (d.addOverrides (a.refOf m) ((d.rootSet (a.refOf p)).erase (a.refOf m))) :=
  h.addOverrides hm ((h.rootSet hp).erase h.books hm)

/-- **The roots of a method are kept in both.** -/
theorem keepRoots (hgood : d.Good) {m : MethodId} (hm : m < a.methods.length) :
    SameState (a.keepRoots m) (d.keepRoots (a.refOf m)) := by
  have hs := Directory.sameClasses_keepRoots d (a.refOf m)
  obtain ⟨kept, hd⟩ : ∃ keptRoots, d.keepRoots (a.refOf m) = { d with keptRoots } := by
    unfold Directory.keepRoots
    split <;> exact ⟨_, rfl⟩
  refine h.marked (entered_keepRoots a m) hs (fun id hid => ?_) (by rw [hd]) (by rw [hd]) (fun x => ?_) fun x hx l hl => ?_
  · rw [hd]
    exact h.entries id hid
  · rw [overridesOf, Arena.keepRoots, methodRecord_modifyMethod, overridesOf]
    split
    · split <;> rfl
    · rfl
  · have hself : a.refOf x = a.refOf m ↔ x = m := ⟨h.books.refOf_inj hx hm, congrArg _⟩
    rw [Directory.getElem?_keptRoots_keepRoots]
    simp only [hself]
    rw [Arena.keepRoots, methodRecord_modifyMethod] at hl
    by_cases hxm : x = m
    · rw [if_pos ⟨hxm, hx⟩, hxm] at hl
      rw [if_pos hxm]
      split at hl
      · obtain ⟨hlt, hkept⟩ := h.keptRoots m hm l hl
        rw [Directory.rootsOf, ExtTreeMap.getD_eq_getD_getElem?, hkept]
        exact ⟨hlt, rfl⟩
      · obtain rfl : a.roots m = l := Option.some.inj hl
        refine ⟨fun y hy => (h.rootSet hm).lt y (mem_roots.1 hy), ?_⟩
        rw [hgood.rootsOf_eq, h.roots hm]
    · rw [if_neg fun hself => hxm hself.1] at hl
      rw [if_neg hxm]
      exact h.keptRoots x hx l hl

/-- Roots that are kept for something else than a method change no answer. -/
theorem keepOther {m : MemberRef} (hm : ∀ i < a.methods.length, a.refOf i ≠ m) : SameState a (d.keepRoots m) := by
  obtain ⟨kept, hd⟩ : ∃ keptRoots, d.keepRoots m = { d with keptRoots } := by
    unfold Directory.keepRoots
    split <;> exact ⟨_, rfl⟩
  refine h.marked rfl (Directory.sameClasses_keepRoots d m) (fun id hid => ?_) (by rw [hd]) (by rw [hd]) (fun _ => rfl)
    fun i hi l hl => ?_
  · rw [hd]
    exact h.entries id hid
  · rw [Directory.getElem?_keptRoots_keepRoots, if_neg (hm i hi)]
    exact h.keptRoots i hi l hl

/-! ### Writes to a class -/

/-- **What leaves a class as it was read may be done to its record and to its entry.** -/
theorem modify {id : ClassId} (hid : id < a.classes.length) {f : ClassRecord → ClassRecord} {f' : ClassEntry → ClassEntry}
    (hf : ∀ r, (f r).entered = r.entered) (hf' : ∀ e, (f' e).declaration = e.declaration)
    (hsame : ∀ e, a.SameEntry (a.record id) e → a.SameEntry (f (a.record id)) (f' e)) :
    SameState (a.modifyClass id f) { d with classes := d.classes.modify (a.nameOf id) f' } := by
  refine h.marked (entered_modifyClass hf a id) (Directory.sameClasses_modify d (a.nameOf id) f' hf') (fun j hj => ?_) rfl rfl
    (fun _ => rfl) h.keptRoots
  obtain ⟨e, hentry, hold⟩ := h.entries j hj
  have hname : a.nameOf j = a.nameOf id ↔ j = id := ⟨h.books.nameOf_inj hj hid, congrArg _⟩
  rw [record_modifyClass a id f hj]
  simp only [getElem?_modify_eq, hname, hentry]
  by_cases hjid : j = id
  · subst hjid
    rw [if_pos rfl, if_pos rfl]
    exact ⟨f' e, rfl, hsame e hold⟩
  · rw [if_neg hjid, if_neg hjid]
    exact ⟨e, rfl, hold⟩

theorem markResolved {id : ClassId} (hid : id < a.classes.length) :
    SameState (a.markResolved id) (d.markResolved (a.nameOf id)) := by
  refine h.modify hid (fun _ => rfl) (fun _ => rfl) fun e hold => ⟨?_, hold.stack, hold.stack_lt⟩
  rfl

theorem keepStack {id : ClassId} (hid : id < a.classes.length) :
    SameState (a.keepStack id) (d.keepStack (a.nameOf id)) := by
  refine h.modify hid (fun r => by split <;> rfl) (fun e => by split <;> rfl) fun e hold => ?_
  have hstack := hold.stack
  cases hk : (a.record id).stack with
  | some l =>
    rw [hk] at hstack
    simp only [hstack, Option.map_some]
    exact hold
  | none =>
    rw [hk] at hstack
    simp only [hstack, Option.map_none]
    refine ⟨hold.state, congrArg some (h.books.ancestors hid), fun s hs => ancestors_lt s hs⟩

/-! ## Making ready -/

omit h in
theorem hasBridges_recordBridges {a : Arena} (ha : a.Orderly) : a.recordBridges.HasBridges a.findBridges := by
  obtain ⟨hby, hto⟩ := bridges_recordBridges a
  obtain ⟨targets, sources, he⟩ := recordBridges_eq a
  have hmethods : a.recordBridges.methods = a.methods := by rw [he]
  refine ⟨fun p hp => ?_, fun b => Option.ext fun t => ?_, hto⟩
  · obtain ⟨hb, ht, -⟩ := ha.mem_findBridges hp
    rw [hmethods]
    exact ⟨hb, ht⟩
  · rw [hby, find?_fst_eq_some (nodup_findBridges a)]

/-- The bridges that are found are recorded in both. -/
theorem recordBridges : SameState a.recordBridges { d with bridges := d.findBridges } := by
  have hhas := hasBridges_recordBridges h.books.orderly
  have hsound : Directory.Sound { d with bridges := d.findBridges } :=
    h.books.sound.of_sameClasses ⟨rfl, rfl, fun _ => Iff.rfl, fun _ => rfl⟩
  have ho := h.books.orderly
  obtain ⟨targets, sources, he⟩ := recordBridges_eq a
  rw [he] at hhas ⊢
  refine ⟨⟨⟨ho.byName, ho.unread, ho.supertypes, ho.fields, ho.methods, ho.owned, ho.bodies⟩, hsound, h.books.names,
    h.books.known, h.books.declaration, h.books.fields, h.books.methods⟩, fun id hid => ?_, ⟨_, hhas, h.books.findBridges⟩,
    fun m hm => ?_, h.overriding, h.keptRoots⟩
  · obtain ⟨e, hentry, hsame⟩ := h.entries id hid
    exact ⟨e, hentry, hsame.state, hsame.stack, hsame.stack_lt⟩
  · exact ⟨(h.overrides m hm).lt, (h.overrides m hm).mem⟩

/-- Nothing is kept in either. -/
theorem dropKept : SameState a.dropKept { d.dropStacks with keptRoots := ∅ } := by
  have hs := Directory.sameClasses_dropStacks d
  have hclass : ∀ id, a.dropKept.record id = { a.record id with stack := none } := fun id => by
    rw [record, Arena.dropKept, List.getElem?_map, record]
    cases a.classes[id]? <;> rfl
  have hmethod : ∀ m, a.dropKept.methodRecord m = { a.methodRecord m with roots := none } := fun m => by
    rw [methodRecord, Arena.dropKept, List.getElem?_map, methodRecord]
    cases a.methods[m]? <;> rfl
  refine h.marked (entered_dropKept a) ⟨hs.names, hs.ingested, hs.known, hs.declaration⟩ (fun id hid => ?_) rfl rfl
    (fun m => ?_) fun m hm l hl => ?_
  · obtain ⟨e, hentry, hsame⟩ := h.entries id hid
    rw [hclass, Directory.dropStacks, ExtTreeMap.getElem?_map, hentry]
    exact ⟨_, rfl, hsame.state, rfl, fun s hs => absurd hs List.not_mem_nil⟩
  · rw [overridesOf, hmethod, overridesOf]
  · rw [hmethod] at hl
    cases hl

/-- **Both are made ready**: nothing is kept, and the same bridges are found. -/
theorem prepare : SameState a.prepare d.prepare := by
  have hfound : Directory.findBridges { d.dropStacks with keptRoots := ∅ } = d.findBridges :=
    (Directory.sameClasses_dropStacks d).findBridges
  have hrecorded := h.dropKept.recordBridges
  rw [hfound] at hrecorded
  exact hrecorded

/-! ## Reading -/

/-- **More classes and methods are there**, and of the old ones all is as it was. -/
theorem grow {b : Arena} {e : Directory} (hgrown : a.Grown b) (hbooks : SameBooks b e) (htargets : b.targets = a.targets)
    (hsources : b.sources = a.sources) (hoverrides : e.overrides = d.overrides) (hkept : e.keptRoots = d.keptRoots)
    (hbridges : e.bridges = d.bridges)
    (hentries : ∀ id < b.classes.length, ∃ c, e.classes[b.nameOf id]? = some c ∧ b.SameEntry (b.record id) c)
    (hnew : ∀ m, a.methods.length ≤ m → b.overridesOf m = ∅ ∧ (b.methodRecord m).roots = none) : SameState b e := by
  have ho := h.books.orderly
  have hover : ∀ m < a.methods.length, b.overridesOf m = a.overridesOf m := fun m hm => by
    rw [overridesOf, hgrown.methodRecord m hm, overridesOf]
  have hdover : e.overridesOf = d.overridesOf := funext fun m => by
    rw [Directory.overridesOf, hoverrides, ← Directory.overridesOf]
  have hfresh : ∀ m, a.methods.length ≤ m → m < b.methods.length → b.refOf m ∉ d.overrides := fun m hm hlt hmem => by
    obtain ⟨x, hx, href, -⟩ := (h.overriding _).1 hmem
    rw [← hgrown.refOf ho hx] at href
    have heq := hbooks.refOf_inj (hx.trans_le hgrown.methods_le) hlt href
    exact Nat.not_lt_of_le hm (heq ▸ hx)
  refine ⟨hbooks, hentries, ?_, fun m hm => ?_, fun r => ?_, fun m hm l hl => ?_⟩
  · obtain ⟨l, hl, hd⟩ := h.bridges
    refine ⟨l, ⟨fun p hp => ?_, fun m => ?_, fun t => ?_⟩, ?_⟩
    · exact ⟨(hl.lt p hp).1.trans_le hgrown.methods_le, (hl.lt p hp).2.trans_le hgrown.methods_le⟩
    · rw [Arena.bridgedBy?, htargets, ← Arena.bridgedBy?, hl.bridgedBy?]
    · rw [Arena.bridgesTo, hsources, ← Arena.bridgesTo, hl.bridgesTo]
    · rw [hbridges, hd]
      exact List.map_congr_left fun p hp => by rw [hgrown.refOf ho (hl.lt p hp).1, hgrown.refOf ho (hl.lt p hp).2]
  · rw [hdover]
    by_cases hlt : m < a.methods.length
    · rw [hover m hlt, hgrown.refOf ho hlt]
      exact (h.overrides m hlt).grow ho hgrown
    · rw [(hnew m (Nat.le_of_not_lt hlt)).1, Directory.overridesOf_of_not_mem (hfresh m (Nat.le_of_not_lt hlt) hm)]
      refine ⟨fun x hx => absurd hx ExtTreeSet.not_mem_empty, fun r => iff_of_false ExtTreeSet.not_mem_empty ?_⟩
      rintro ⟨x, hx, -⟩
      exact ExtTreeSet.not_mem_empty hx
  · rw [hoverrides, h.overriding]
    constructor
    · rintro ⟨m, hm, rfl, hhas⟩
      refine ⟨m, hm.trans_le hgrown.methods_le, hgrown.refOf ho hm, ?_⟩
      rwa [Arena.hasOverrides, hover m hm]
    · rintro ⟨m, hm, rfl, hhas⟩
      by_cases hlt : m < a.methods.length
      · rw [Arena.hasOverrides, hover m hlt] at hhas
        exact ⟨m, hlt, (hgrown.refOf ho hlt).symm, hhas⟩
      · rw [hasOverrides_eq_false.2 (hnew m (Nat.le_of_not_lt hlt)).1] at hhas
        cases hhas
  · by_cases hlt : m < a.methods.length
    · rw [hgrown.methodRecord m hlt] at hl
      obtain ⟨hin, hroots⟩ := h.keptRoots m hlt l hl
      refine ⟨fun x hx => (hin x hx).trans_le hgrown.methods_le, ?_⟩
      rw [hkept, hgrown.refOf ho hlt, hroots]
      exact congrArg some (List.map_congr_left fun x hx => (hgrown.refOf ho (hin x hx)).symm)
    · rw [(hnew m (Nat.le_of_not_lt hlt)).2] at hl
      cases hl

/-- **A class is mentioned in both.** -/
theorem mention (name : String) : SameState (a.mention name) (d.mention name) := by
  have hgrown := grown_mention a name
  have hsame : (d.mention name).overrides = d.overrides ∧ (d.mention name).keptRoots = d.keptRoots ∧
      (d.mention name).bridges = d.bridges := by
    unfold Directory.mention
    split <;> exact ⟨rfl, rfl, rfl⟩
  obtain ⟨new, byName, he⟩ := mention_eq a name
  refine h.grow hgrown (h.books.mention name) (by rw [he]) (by rw [he]) hsame.1 hsame.2.1 hsame.2.2 (fun id hid => ?_)
    fun m hm => ?_
  · by_cases hlt : id < a.classes.length
    · obtain ⟨e, hentry, hold⟩ := h.entries id hlt
      refine ⟨e, ?_, record_mention hlt name ▸ hold.grow hgrown⟩
      rw [hgrown.nameOf id hlt, Directory.getElem?_mention, hentry]
      split <;> rfl
    · cases hn : a.lookup name with
      | some i =>
        rw [mention_of_known hn] at hid
        exact absurd hid hlt
      | none =>
        have hstub : (a.mention name).record id = .stub name := by
          rw [mention_of_unknown hn, List.length_append] at hid
          rw [mention_of_unknown hn]
          refine record_eq (getElem?_snoc.2 (.inr ⟨?_, rfl⟩))
          exact Nat.le_antisymm (Nat.le_of_lt_succ hid) (Nat.le_of_not_lt hlt)
        have hname : (a.mention name).nameOf id = name := by
          rw [nameOf, hstub]
          rfl
        have hnone : d.classes[name]? = none :=
          getElem?_eq_none_iff.2 fun hmem => by
            rw [h.books.known, hn] at hmem
            cases hmem
        rw [hname, hstub, Directory.getElem?_mention, if_pos rfl, hnone]
        exact ⟨.stub, rfl, rfl, rfl, fun s hs => absurd hs List.not_mem_nil⟩
  · have hmethods : (a.mention name).methods = a.methods := by rw [he]
    rw [overridesOf, methodRecord_of_le (hmethods ▸ hm)]
    exact ⟨rfl, rfl⟩

theorem mentions (names : List String) : SameState (names.foldl Arena.mention a) (names.foldl Directory.mention d) :=
  List.foldl_rel (r := SameState) h fun name _ _ _ h => h.mention name

/-- **A class is filled in as it is declared.** -/
theorem fill {c : ClassFile} {id : ClassId} {parent : Option ClassId} {interfaces : List ClassId}
    (hn : a.Numbered c id parent interfaces) (hread : ∀ r, a.classes[id]? = some r → r.read = false) (owned : Bool)
    (hsound : (d.declare c.name (c.toDeclaration owned)).Sound) :
    SameState (a.fill c owned id parent interfaces) (d.declare c.name (c.toDeclaration owned)) := by
  have hgrown : a.Grown (a.fill c owned id parent interfaces) := grown_fill owned
  have hlength : (a.fill c owned id parent interfaces).classes.length = a.classes.length := List.length_modify ..
  have hmethods := (enterAll_spec MethodRecord.key a.methods (methodRecords c owned id)).1
  have hid := h.books.orderly.lookup_lt hn.name
  have hname := h.books.nameOf_lookup hn.name
  refine h.grow hgrown (h.books.fill hn hread owned hsound) rfl rfl rfl rfl rfl (fun j hj => ?_) fun m hm => ?_
  · have hj : j < a.classes.length := hlength ▸ hj
    obtain ⟨e, hentry, hold⟩ := h.entries j hj
    rw [congrFun (nameOf_fill owned) j, Directory.declare, getElem?_insert_eq]
    by_cases hjid : j = id
    · subst hjid
      rw [if_pos hname, record_eq (classes_fill_self owned (getElem?_record hid))]
      have hold := hold.grow hgrown
      exact ⟨_, rfl, rfl, by rw [← hname, hentry]; exact hold.stack, hold.stack_lt⟩
    · have hne : a.nameOf j ≠ c.name := fun he => hjid (h.books.nameOf_inj hj hid (he.trans hname.symm))
      rw [if_neg hne, hentry, record_fill_of_ne owned (Ne.symm hjid)]
      exact ⟨e, rfl, hold.grow hgrown⟩
  · have hfresh : ∀ r, (a.fill c owned id parent interfaces).methods[m]? = some r → r.overrides = ∅ ∧ r.roots = none :=
      fun r hr => by
        have hr : (a.methods ++ firstByKey MethodRecord.key (methodRecords c owned id))[m]? = some r := hmethods ▸ hr
        rw [List.getElem?_append_right hm] at hr
        obtain ⟨f, -, rfl⟩ := List.mem_map.1 (mem_firstByKey (List.mem_of_getElem? hr))
        exact ⟨rfl, rfl⟩
    rw [overridesOf, methodRecord]
    cases hr : (a.fill c owned id parent interfaces).methods[m]? with
    | none => exact ⟨rfl, rfl⟩
    | some r => exact hfresh r hr

/-- **A class is taken in by both.** -/
theorem takeIn (c : ClassFile) (owned : Bool) : SameState (a.takeIn c owned) (d.takeIn c owned) := by
  cases hr : a.refusal? c with
  | some fault =>
    rw [takeIn_of_refused owned hr, Directory.takeIn_of_refused owned ((h.books.refusal? c).trans hr)]
    exact h
  | none =>
    obtain ⟨id, parent, interfaces, hn, he⟩ := takeIn_of_accepted hr owned
    have hsound := h.books.sound.takeIn c owned
    rw [Directory.takeIn_of_accepted owned ((h.books.refusal? c).trans hr)] at hsound ⊢
    rw [he]
    exact (h.mentions (mentionedBy c)).fill hn (fun r hmem => h.books.orderly.unread_of_numbered hr hn.name hmem) owned
      hsound

end SameState

end Arena
end RenameAudit
