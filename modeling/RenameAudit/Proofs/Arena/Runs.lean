import RenameAudit.Proofs.Arena.Books
import RenameAudit.Proofs.Hierarchy.Runs
/-!
# Proofs.Arena.Runs — arenas after any calls

A resolution writes to records, and never to what is entered there (`entered_resolve`): each of its writes keeps what is
entered, and so does every loop over such writes.  So what is entered agrees after any calls (`orderly_after`).
-/
namespace RenameAudit

open Std ClassFile

theorem ClassRecord.eq_of_entered {r r' : ClassRecord} (h : r'.entered = r.entered) :
    r' = { r with state := r'.state, stack := r'.stack } := by
  cases r
  cases r'
  simp_all [entered]

theorem MethodRecord.eq_of_entered {m m' : MethodRecord} (h : m'.entered = m.entered) :
    m' = { m with overrides := m'.overrides, roots := m'.roots } := by
  cases m
  cases m'
  simp_all [entered]

namespace Arena

/-! ## Only what is entered -/

theorem Tabled.congr {ρ : Type} {classes classes' : List ClassRecord} {records records' : List ρ}
    {table : ClassRecord → ExtTreeMap String Nat} {owner : ρ → ClassId} {key : ρ → String}
    (h : Tabled classes records table owner key) (hlength : classes'.length = classes.length)
    (hclasses : ∀ (id : ClassId) (r : ClassRecord), classes'[id]? = some r → ∃ r', classes[id]? = some r' ∧ table r' = table r)
    (hmembers : ∀ (i : Nat) (o : ClassId) (k : String), (∃ m, records'[i]? = some m ∧ owner m = o ∧ key m = k) ↔
      ∃ m, records[i]? = some m ∧ owner m = o ∧ key m = k) : Tabled classes' records' table owner key where
  owner_lt m hm := by
    obtain ⟨i, hi⟩ := List.mem_iff_getElem?.1 hm
    obtain ⟨m', hm', howner, -⟩ := (hmembers i (owner m) (key m)).1 ⟨m, hi, rfl, rfl⟩
    rw [hlength, ← howner]
    exact h.owner_lt m' (List.mem_of_getElem? hm')
  table id r hr k i := by
    obtain ⟨r', hr', htable⟩ := hclasses id r hr
    rw [← htable, h.table id r' hr', hmembers]

section Entered

variable {a b : Arena} (he : b.entered = a.entered)

include he

theorem class_of_entered {id : ClassId} {r : ClassRecord} (hr : b.classes[id]? = some r) :
    ∃ state stack, a.classes[id]? = some { r with state, stack } := by
  have hclasses : b.classes.map ClassRecord.entered = a.classes.map ClassRecord.entered := (congrArg Arena.classes he :)
  obtain ⟨r', hr', hsame⟩ := exists_of_map_eq hclasses hr
  exact ⟨r'.state, r'.stack, ClassRecord.eq_of_entered hsame ▸ hr'⟩

theorem method_of_entered {m : MethodId} {r : MethodRecord} (hr : b.methods[m]? = some r) :
    ∃ overrides roots, a.methods[m]? = some { r with overrides, roots } := by
  have hmethods : b.methods.map MethodRecord.entered = a.methods.map MethodRecord.entered := (congrArg Arena.methods he :)
  obtain ⟨r', hr', hsame⟩ := exists_of_map_eq hmethods hr
  exact ⟨r'.overrides, r'.roots, MethodRecord.eq_of_entered hsame ▸ hr'⟩

theorem length_classes : b.classes.length = a.classes.length := by
  simpa [entered] using congrArg (fun a : Arena => a.classes.length) he

theorem length_methods : b.methods.length = a.methods.length := by
  simpa [entered] using congrArg (fun a : Arena => a.methods.length) he

/-- **Whether an arena is orderly, what is entered in it tells.** -/
theorem Orderly.of_entered (h : a.Orderly) : b.Orderly := by
  have hfields : b.fields = a.fields := (congrArg Arena.fields he :)
  have hbyName : b.byName = a.byName := (congrArg Arena.byName he :)
  have howned : b.owned = a.owned := (congrArg Arena.owned he :)
  have hlength := length_classes he
  refine ⟨fun n id => ?_, fun id r hr hread => ?_, fun id r hr s hs => ?_, ?_, ?_, fun n id => ?_, fun m hm r hr hown => ?_⟩
  · rw [lookup, hbyName, ← lookup, h.byName, Option.map_eq_some_iff, Option.map_eq_some_iff]
    constructor
    · rintro ⟨r, hr, hname⟩
      obtain ⟨_, _, hr'⟩ := class_of_entered he.symm hr
      exact ⟨_, hr', hname⟩
    · rintro ⟨r, hr, hname⟩
      obtain ⟨_, _, hr'⟩ := class_of_entered he hr
      exact ⟨_, hr', hname⟩
  · obtain ⟨_, _, hr'⟩ := class_of_entered he hr
    have hstub := h.unread id _ hr' hread
    exact hstub
  · obtain ⟨_, _, hr'⟩ := class_of_entered he hr
    exact hlength ▸ h.supertypes id _ hr' s hs
  · refine h.fields.congr hlength (fun id r hr => ?_) fun i o k => by rw [hfields]
    obtain ⟨_, _, hr'⟩ := class_of_entered he hr
    exact ⟨_, hr', rfl⟩
  · refine h.methods.congr hlength (fun id r hr => ?_) fun i o k => ⟨?_, ?_⟩
    · obtain ⟨_, _, hr'⟩ := class_of_entered he hr
      exact ⟨_, hr', rfl⟩
    · rintro ⟨m, hm, hrest⟩
      obtain ⟨_, _, hm'⟩ := method_of_entered he hm
      exact ⟨_, hm', hrest⟩
    · rintro ⟨m, hm, hrest⟩
      obtain ⟨_, _, hm'⟩ := method_of_entered he.symm hm
      exact ⟨_, hm', hrest⟩
  · rw [howned, h.owned]
    constructor
    · rintro ⟨r, hr, hrest⟩
      obtain ⟨_, _, hr'⟩ := class_of_entered he.symm hr
      exact ⟨_, hr', hrest⟩
    · rintro ⟨r, hr, hrest⟩
      obtain ⟨_, _, hr'⟩ := class_of_entered he hr
      exact ⟨_, hr', hrest⟩
  · obtain ⟨i, hi⟩ := List.mem_iff_getElem?.1 hm
    obtain ⟨_, _, hm'⟩ := method_of_entered he hi
    obtain ⟨_, _, hr'⟩ := class_of_entered he hr
    have hcode := h.bodies _ (List.mem_of_getElem? hm') _ hr' hown
    exact hcode

end Entered

/-! ## A resolution writes to records only -/

theorem entered_modifyClass {f : ClassRecord → ClassRecord} (hf : ∀ r, (f r).entered = r.entered) (a : Arena)
    (id : ClassId) : (a.modifyClass id f).entered = a.entered := by
  rw [entered, modifyClass, map_modify hf]
  rfl

theorem entered_modifyMethod {f : MethodRecord → MethodRecord} (hf : ∀ r, (f r).entered = r.entered) (a : Arena)
    (m : MethodId) : (a.modifyMethod m f).entered = a.entered := by
  rw [entered, modifyMethod, map_modify hf]
  rfl

theorem entered_keepStack (a : Arena) (id : ClassId) : (a.keepStack id).entered = a.entered :=
  entered_modifyClass (fun r => by split <;> rfl) a id

theorem entered_markResolved (a : Arena) (id : ClassId) : (a.markResolved id).entered = a.entered := by
  refine entered_modifyClass (fun r => ?_) a id
  rfl

theorem entered_addOverrides (a : Arena) (m : MethodId) (more : ExtTreeSet MethodId) :
    (a.addOverrides m more).entered = a.entered := by
  refine entered_modifyMethod (fun r => ?_) a m
  rfl

theorem entered_keepRoots (a : Arena) (m : MethodId) : (a.keepRoots m).entered = a.entered :=
  entered_modifyMethod (fun r => by split <;> rfl) a m

theorem entered_dropKept (a : Arena) : a.dropKept.entered = a.entered := by
  rw [entered, dropKept, List.map_map, List.map_map]
  rfl

/-- A loop keeps what each of its steps keeps. -/
theorem entered_foldl {β : Type} {step : Arena → β → Arena} (hstep : ∀ a x, (step a x).entered = a.entered) (l : List β)
    (a : Arena) : (l.foldl step a).entered = a.entered :=
  List.foldlRecOn (motive := fun b : Arena => b.entered = a.entered) _ _ rfl fun b hb x _ => (hstep b x).trans hb

theorem entered_linkDirect (stack : List ClassId) (a : Arena) (m : MethodId) :
    (linkDirect stack a m).entered = a.entered := by
  unfold linkDirect
  split
  · split
    · exact entered_addOverrides ..
    · rfl
  · rfl

theorem entered_keepFor (m : MethodId) (a : Arena) (bridge : MethodId) : (keepFor m a bridge).entered = a.entered := by
  unfold keepFor
  split
  · exact entered_keepStack ..
  · rfl

theorem entered_linkBridge (id : ClassId) (m : MethodId) (s : Progress) (bridge : MethodId) :
    (linkBridge id m s bridge).arena.entered = s.arena.entered := by
  have hkept := entered_keepFor m s.arena bridge
  unfold linkBridge
  dsimp only
  split
  · exact hkept
  · split
    · exact (entered_addOverrides ..).trans hkept
    · split <;> exact hkept

theorem entered_linkBridges (id : ClassId) (s : Progress) (m : MethodId) :
    (linkBridges id s m).arena.entered = s.arena.entered := by
  unfold linkBridges
  split
  · rfl
  · exact List.foldlRecOn (motive := fun t : Progress => t.arena.entered = s.arena.entered) _ _ rfl
      fun t ht bridge _ => (entered_linkBridge id m t bridge).trans ht

theorem entered_satisfy (scope : List ClassId) (a : Arena) (declared : MethodId) :
    (satisfy scope a declared).entered = a.entered := by
  unfold satisfy
  split
  · exact entered_addOverrides ..
  · rfl

theorem entered_satisfyAll (id : ClassId) (stack : List ClassId) (a : Arena) :
    (satisfyAll id stack a).entered = a.entered := by
  unfold satisfyAll
  split
  · rfl
  · exact entered_foldl (entered_satisfy _) _ a

theorem entered_merge (a : Arena) (waiting : MethodId × MethodId) : (merge a waiting).entered = a.entered := by
  unfold merge
  split
  · exact entered_addOverrides ..
  · rfl

theorem entered_resolveClass (s : Progress) (id : ClassId) : (resolveClass s id).arena.entered = s.arena.entered := by
  unfold resolveClass
  split
  · dsimp only
    rw [entered_markResolved, entered_foldl entered_merge, entered_satisfyAll]
    refine List.foldlRecOn (motive := fun t : Progress => t.arena.entered = s.arena.entered) _ _ ?_
      fun t ht m _ => (entered_linkBridges id t m).trans ht
    rw [entered_foldl (entered_linkDirect _), entered_keepStack]
  · exact entered_markResolved ..

/-- **Resolving classes changes nothing that is entered.** -/
theorem entered_resolve (a : Arena) : a.resolve.entered = a.prepare.entered := by
  unfold resolve
  exact List.foldlRecOn (motive := fun s : Progress => s.arena.entered = a.prepare.entered) _ _ rfl
    fun s hs id _ => (entered_resolveClass s id).trans hs

/-! ## Bridges -/

theorem addBridges_eq (l : List (MethodId × MethodId)) (a : Arena) :
    ∃ targets sources, l.foldl addBridge a = { a with targets, sources } :=
  List.foldlRecOn (motive := fun b : Arena => ∃ targets sources, b = { a with targets, sources }) _ _ ⟨_, _, rfl⟩
    fun b hb p _ => by
      obtain ⟨_, _, rfl⟩ := hb
      exact ⟨_, _, rfl⟩

theorem recordBridges_eq (a : Arena) : ∃ targets sources, a.recordBridges = { a with targets, sources } := by
  obtain ⟨targets, sources, h⟩ := addBridges_eq a.findBridges { a with targets := ∅, sources := ∅ }
  exact ⟨targets, sources, h⟩

theorem bridgesTo_addBridges (l : List (MethodId × MethodId)) (a : Arena) (t : MethodId) :
    (l.foldl addBridge a).bridgesTo t = a.bridgesTo t ++ (l.filter (·.2 == t)).map (·.1) := by
  induction l generalizing a with
  | nil => exact (List.append_nil _).symm
  | cons p rest ih =>
    rw [List.foldl_cons, ih, bridgesTo, addBridge, getD_insert_eq, List.filter_cons]
    by_cases ht : t = p.2
    · rw [if_pos ht, if_pos (beq_iff_eq.2 ht.symm), List.map_cons, ht, List.append_assoc]
      rfl
    · rw [if_neg ht, if_neg fun h => ht (beq_iff_eq.1 h).symm]
      rfl

theorem bridgedBy?_addBridges {l : List (MethodId × MethodId)} (hl : (l.map Prod.fst).Nodup) (a : Arena)
    (b t : MethodId) :
    (l.foldl addBridge a).bridgedBy? b = some t ↔ (b, t) ∈ l ∨ b ∉ l.map Prod.fst ∧ a.bridgedBy? b = some t := by
  induction l generalizing a with
  | nil => simp
  | cons p rest ih =>
    obtain ⟨hp, hrest⟩ := List.nodup_cons.1 hl
    have hstep : (addBridge a p).bridgedBy? b = if b = p.1 then some p.2 else a.bridgedBy? b := getElem?_insert_eq
    have hfst : (b, t) ∈ rest → b ∈ rest.map Prod.fst := fun h => List.mem_map_of_mem h
    rw [List.foldl_cons, ih hrest, hstep, List.map_cons, List.mem_cons, List.mem_cons, Prod.ext_iff]
    grind

/-- What is found of the bridges does not name a method twice. -/
theorem nodup_findBridges (a : Arena) : (a.findBridges.map Prod.fst).Nodup := by
  have hfst : ∀ m p, a.bridgeOf? m = some p → p.1 = m := fun m p h => by
    obtain ⟨named, -, h⟩ := Option.bind_eq_some_iff.1 h
    obtain ⟨target, -, h⟩ := Option.bind_eq_some_iff.1 h
    split at h
    · cases h
    · cases h
      rfl
  have hids : ((List.range a.methods.length).map id).Nodup := by
    rw [List.map_id]
    exact List.nodup_range
  exact hids.sublist (map_fst_filterMap_sublist hfst _)

/-- **Both maps of an arena that was made ready have the bridges that are found.** -/
theorem bridges_recordBridges (a : Arena) :
    (∀ b t, a.recordBridges.bridgedBy? b = some t ↔ (b, t) ∈ a.findBridges) ∧
      ∀ t, a.recordBridges.bridgesTo t = (a.findBridges.filter (·.2 == t)).map (·.1) := by
  refine ⟨fun b t => ?_, fun t => ?_⟩
  · rw [recordBridges, bridgedBy?_addBridges (nodup_findBridges a)]
    refine or_iff_left fun h => ?_
    have hnone : ({ a with targets := ∅, sources := ∅ } : Arena).bridgedBy? b = none := ExtTreeMap.getElem?_empty
    rw [hnone] at h
    cases h.2
  · rw [recordBridges, bridgesTo_addBridges]
    have hnil : ({ a with targets := ∅, sources := ∅ } : Arena).bridgesTo t = [] := ExtTreeMap.getD_empty
    rw [hnil, List.nil_append]

/-- The method of a class with a key. -/
theorem Orderly.methodByKey?_eq_some {a : Arena} (h : a.Orderly) {id : ClassId} {key : String} {m : MethodId} :
    a.methodByKey? id key = some m ↔ ∃ r, a.methods[m]? = some r ∧ r.owner = id ∧ r.key = key := by
  rw [methodByKey?]
  cases hr : a.classes[id]? with
  | some r => rw [record_eq hr, h.methods.table id r hr]
  | none =>
    have hnone : (a.record id).methods = ∅ := by
      rw [record, hr]
      rfl
    rw [hnone, ExtTreeMap.getElem?_empty]
    refine iff_of_false (fun h => by cases h) ?_
    rintro ⟨r, hm, rfl, -⟩
    exact absurd (h.methods.owner_lt r (List.mem_of_getElem? hm)) (Nat.not_lt_of_le (List.getElem?_eq_none_iff.1 hr))

theorem Orderly.bridgeTarget?_lt {a : Arena} (h : a.Orderly) {owner : ClassId} {named : MemberRef} {t : MethodId}
    (ht : a.bridgeTarget? owner named = some t) : t < a.methods.length := by
  have hlt : ∀ {id key}, a.methodByKey? id key = some t → t < a.methods.length := fun hm => by
    obtain ⟨r, hr, -⟩ := h.methodByKey?_eq_some.1 hm
    exact (List.getElem?_eq_some_iff.1 hr).1
  unfold bridgeTarget? at ht
  split at ht
  · exact hlt ht
  · split at ht
    · split at ht
      · obtain ⟨c, -, ht⟩ := List.exists_of_findSome?_eq_some ht
        exact hlt ht
      · cases ht
    · cases ht

/-- A bridge that is found is a method, as is the other one that it forwards to. -/
theorem Orderly.mem_findBridges {a : Arena} (h : a.Orderly) {b t : MethodId} (hb : (b, t) ∈ a.findBridges) :
    b < a.methods.length ∧ t < a.methods.length ∧ b ≠ t := by
  obtain ⟨m, hm, hb⟩ := List.mem_filterMap.1 hb
  obtain ⟨named, -, hb⟩ := Option.bind_eq_some_iff.1 hb
  obtain ⟨target, htarget, hb⟩ := Option.bind_eq_some_iff.1 hb
  split at hb
  · cases hb
  · rename_i hne
    cases hb
    exact ⟨List.mem_range.1 hm, h.bridgeTarget?_lt htarget, fun he => hne he.symm⟩

/-- **Both maps of bridges agree**: a bridge stands once among the bridges to what it forwards to, which is another method,
and among no others. -/
structure Bridged (a : Arena) : Prop where
  count : ∀ b t, (a.bridgesTo t).count b = if a.bridgedBy? b = some t then 1 else 0
  methods : ∀ b t, a.bridgedBy? b = some t → b < a.methods.length ∧ t < a.methods.length ∧ b ≠ t

theorem Bridged.of_eq {a b : Arena} (h : a.Bridged) (htargets : b.targets = a.targets) (hsources : b.sources = a.sources)
    (hlength : a.methods.length ≤ b.methods.length) : b.Bridged := by
  have hto : b.bridgesTo = a.bridgesTo := funext fun t => by rw [bridgesTo, hsources, ← bridgesTo]
  have hby : b.bridgedBy? = a.bridgedBy? := funext fun m => by rw [bridgedBy?, htargets, ← bridgedBy?]
  refine ⟨fun m t => by rw [hto, hby, h.count], fun m t ht => ?_⟩
  obtain ⟨hm, ht, hne⟩ := h.methods m t (hby ▸ ht)
  exact ⟨hm.trans_le hlength, ht.trans_le hlength, hne⟩

theorem bridged_recordBridges {a : Arena} (h : a.Orderly) : a.recordBridges.Bridged := by
  obtain ⟨hby, hto⟩ := bridges_recordBridges a
  obtain ⟨_, _, hsame⟩ := recordBridges_eq a
  have hmethods : a.recordBridges.methods = a.methods := by rw [hsame]
  refine ⟨fun b t => ?_, fun b t ht => hmethods ▸ h.mem_findBridges ((hby b t).1 ht)⟩
  have hnodup : (a.recordBridges.bridgesTo t).Nodup :=
    hto t ▸ (nodup_findBridges a).sublist (List.filter_sublist.map Prod.fst)
  rw [hnodup.count]
  refine if_congr ?_ rfl rfl
  rw [hto, hby, List.mem_map]
  constructor
  · rintro ⟨p, hp, rfl⟩
    obtain ⟨hp, hpt⟩ := List.mem_filter.1 hp
    exact beq_iff_eq.1 hpt ▸ hp
  · exact fun hb => ⟨(b, t), List.mem_filter.2 ⟨hb, beq_self_eq_true _⟩, rfl⟩

/-! ## Calls -/

/-- The arena with a class read, or as it is where the class is refused. -/
def takeIn (a : Arena) (c : ClassFile) (owned : Bool) : Arena :=
  match a.ingest c owned with
  | .ok (_, b) => b
  | .error _ => a

/-- The number of a method. -/
def numberOf? (a : Arena) (m : MemberRef) : Option MethodId :=
  (List.range a.methods.length).find? fun i => a.refOf i == m

/-- The arena after a call.  Lists are only asked for where there is such a class or method. -/
def apply (a : Arena) : Directory.Step → Arena
  | .takeIn c owned => a.takeIn c owned
  | .mention name => a.mention name
  | .resolve => a.resolve
  | .keepStack name => (a.lookup name).elim a a.keepStack
  | .keepRoots m => (a.numberOf? m).elim a a.keepRoots

/-- The arena after calls, from the one without classes. -/
def after (steps : List Directory.Step) : Arena :=
  steps.foldl apply empty

theorem takeIn_of_refused {a : Arena} {c : ClassFile} (owned : Bool) {fault : StructureFault}
    (h : a.refusal? c = some fault) : a.takeIn c owned = a := by
  rw [takeIn, ingest, h]

theorem takeIn_of_accepted {a : Arena} {c : ClassFile} (h : a.refusal? c = none) (owned : Bool) :
    ∃ id parent interfaces, ((mentionedBy c).foldl mention a).Numbered c id parent interfaces ∧
      a.takeIn c owned = ((mentionedBy c).foldl mention a).fill c owned id parent interfaces := by
  obtain ⟨id, parent, interfaces, hn, he⟩ := ingest_of_accepted h owned
  exact ⟨id, parent, interfaces, hn, by rw [takeIn, he]⟩

/-- The class that is taken in was not read before. -/
theorem Orderly.unread_of_numbered {a : Arena} (h : a.Orderly) {c : ClassFile} (hr : a.refusal? c = none) {id : ClassId}
    (hn : ((mentionedBy c).foldl Arena.mention a).lookup c.name = some id) {r : ClassRecord}
    (hmem : ((mentionedBy c).foldl Arena.mention a).classes[id]? = some r) : r.read = false := by
  have hname := ((h.mentions (mentionedBy c)).byName c.name id).1 hn
  rw [hmem] at hname
  exact h.unread_of_accepted hr _ (List.mem_of_getElem? hmem) (Option.some.inj hname)

theorem Orderly.takeIn {a : Arena} (h : a.Orderly) (c : ClassFile) (owned : Bool) : (a.takeIn c owned).Orderly := by
  cases hr : a.refusal? c with
  | some fault => rwa [takeIn_of_refused owned hr]
  | none =>
    obtain ⟨id, parent, interfaces, hn, he⟩ := takeIn_of_accepted hr owned
    rw [he]
    exact (h.mentions _).fill hn (fun r hmem => h.unread_of_numbered hr hn.name hmem) owned

theorem Orderly.prepare {a : Arena} (h : a.Orderly) : a.prepare.Orderly := by
  have hdropped : a.dropKept.Orderly := h.of_entered (entered_dropKept a)
  obtain ⟨_, _, he⟩ := recordBridges_eq a.dropKept
  rw [Arena.prepare, he]
  exact ⟨hdropped.byName, hdropped.unread, hdropped.supertypes, hdropped.fields, hdropped.methods, hdropped.owned,
    hdropped.bodies⟩

/-- **Every call keeps what is entered in order.** -/
theorem Orderly.apply {a : Arena} (h : a.Orderly) (step : Directory.Step) : (a.apply step).Orderly := by
  cases step with
  | takeIn c owned => exact h.takeIn c owned
  | mention name => exact h.mention name
  | resolve => exact h.prepare.of_entered (entered_resolve a)
  | keepStack name =>
    rw [Arena.apply]
    cases a.lookup name with
    | none => exact h
    | some id => exact h.of_entered (entered_keepStack a id)
  | keepRoots m =>
    rw [Arena.apply]
    cases a.numberOf? m with
    | none => exact h
    | some i => exact h.of_entered (entered_keepRoots a i)

/-- **What is entered is in order after any calls.** -/
theorem orderly_after (steps : List Directory.Step) : (after steps).Orderly :=
  List.foldlRecOn (motive := Orderly) _ _ orderly_empty fun _ h step _ => h.apply step

end Arena
end RenameAudit
