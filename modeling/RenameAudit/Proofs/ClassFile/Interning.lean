import Mathlib
import RenameAudit.Proofs.ClassFile.Needs
/-!
# Proofs.ClassFile.Interning — collecting the constants of a class

The writer of a class enters constants and bootstrap methods as it goes.  `Writes` says of a step of it that it succeeds,
what bootstrap methods there are before and after, and what holds of its result in the pool that there is then and in
every pool with more constants; so what has been written stays right.  A `Plan` lists all entries that will be needed,
and no step enters others, which is why the pool is never full.
-/
namespace RenameAudit
namespace ClassFile

/-- All entries and all bootstrap methods of a class, which fit the format. -/
structure Plan where
  needed : List Entry
  table : List BootstrapMethod
  pool_fits : (needed.dedup.map Entry.width).sum + 1 < 65536
  table_fits : table.length < 65536

/-- **A writing step does its part of a plan**: from the bootstrap methods `before` and any pool that is within the plan
and has the property `pre`, it gives a result and keeps the pool within the plan; then the bootstrap methods are `after`,
and the result has the property `post` in the pool and in every larger one. -/
def Writes {α : Type} (plan : Plan) (pre : Pool → Prop) (before : List BootstrapMethod) (w : Writing α)
    (after : List BootstrapMethod) (post : Pool → α → Prop) : Prop :=
  ∀ pool, Within plan.needed pool → (∀ larger, pool <+: larger → pre larger) →
    ∃ a pool', w.run ⟨pool, before⟩ = .ok (a, ⟨pool', after⟩) ∧ Within plan.needed pool' ∧ pool <+: pool' ∧
      ∀ larger, pool' <+: larger → post larger a

namespace Writes

variable {α β : Type} {plan : Plan} {pre : Pool → Prop} {before mid after : List BootstrapMethod} {w : Writing α}
  {post : Pool → α → Prop}

theorem pure {a : α} (h : ∀ pool, pre pool → post pool a) : Writes plan pre before (pure a) before post :=
  fun pool hwithin hpre => ⟨a, pool, rfl, hwithin, List.prefix_rfl, fun larger hlarger => h larger (hpre larger hlarger)⟩

theorem bind {f : α → Writing β} {post' : Pool → β → Prop} (hw : Writes plan pre before w mid post)
    (hf : ∀ a, Writes plan (fun pool => pre pool ∧ post pool a) mid (f a) after post') :
    Writes plan pre before (w >>= f) after post' := by
  intro pool hwithin hpre
  obtain ⟨a, pool₁, hrun, hwithin₁, hgrows, hpost⟩ := hw pool hwithin hpre
  obtain ⟨b, pool₂, hrun', hwithin₂, hgrows', hpost'⟩ := hf a pool₁ hwithin₁ fun larger hlarger =>
    ⟨hpre larger (hgrows.trans hlarger), hpost larger hlarger⟩
  refine ⟨b, pool₂, ?_, hwithin₂, hgrows.trans hgrows', hpost'⟩
  rw [StateT.run_bind, hrun]
  exact hrun'

/-- A step whose result is known. -/
theorem bind_known {v : α} {f : α → Writing β} {post' : Pool → β → Prop}
    (hw : Writes plan pre before w mid fun _ a => a = v) (hf : Writes plan pre mid (f v) after post') :
    Writes plan pre before (w >>= f) after post' := by
  intro pool hwithin hpre
  obtain ⟨a, pool₁, hrun, hwithin₁, hgrows, hpost⟩ := hw pool hwithin hpre
  cases hpost pool₁ List.prefix_rfl
  obtain ⟨b, pool₂, hrun', hwithin₂, hgrows', hpost'⟩ := hf pool₁ hwithin₁ fun larger hlarger =>
    hpre larger (hgrows.trans hlarger)
  refine ⟨b, pool₂, ?_, hwithin₂, hgrows.trans hgrows', hpost'⟩
  rw [StateT.run_bind, hrun]
  exact hrun'

/-- What holds before a step holds after it. -/
theorem imp {pre' : Pool → Prop} {post' : Pool → α → Prop} (hw : Writes plan pre before w after post)
    (hpre : ∀ pool, pre' pool → pre pool) (hpost : ∀ pool a, pre' pool → post pool a → post' pool a) :
    Writes plan pre' before w after post' := by
  intro pool hwithin hpre'
  obtain ⟨a, pool₁, hrun, hwithin₁, hgrows, hpost₁⟩ := hw pool hwithin fun larger hlarger =>
    hpre larger (hpre' larger hlarger)
  exact ⟨a, pool₁, hrun, hwithin₁, hgrows, fun larger hlarger =>
    hpost larger a (hpre' larger (hgrows.trans hlarger)) (hpost₁ larger hlarger)⟩

/-- A step that asks for the bootstrap methods is given those that there are. -/
theorem of_get {f : List BootstrapMethod → Writing α} (hf : Writes plan pre before (f before) after post) :
    Writes plan pre before (do let s ← get; f s.bootstraps) after post :=
  hf

/-- A step for each item of a list, each of which adds its bootstrap methods. -/
theorem mapM {item : α → Writing β} (next : List BootstrapMethod → α → List BootstrapMethod) {as : List α}
    {R : Pool → α → β → Prop} (hnext : ∀ bs a, bs <+: next bs a)
    (h : ∀ a ∈ as, ∀ bs, next bs a <+: plan.table → Writes plan pre bs (item a) (next bs a) fun pool b => R pool a b)
    (hafter : as.foldl next before <+: plan.table) :
    Writes plan pre before (as.mapM item) (as.foldl next before) fun pool bs => List.Forall₂ (R pool) as bs := by
  induction as generalizing before with
  | nil => exact pure fun _ _ => .nil
  | cons a as ih =>
    have hgrows : ∀ (as : List α) (bs : List BootstrapMethod), bs <+: as.foldl next bs := by
      intro as
      induction as with
      | nil => exact fun bs => List.prefix_rfl
      | cons a as ih => exact fun bs => (hnext bs a).trans (ih (next bs a))
    rw [List.mapM_cons]
    refine (h a List.mem_cons_self before ((hgrows as _).trans hafter)).bind fun b => ?_
    refine ((ih (fun a' ha' => h a' (List.mem_cons_of_mem a ha')) hafter).imp (fun _ hpre => hpre.1)
      fun _ _ hpre hrest => And.intro hpre.2 hrest).bind fun bs => ?_
    exact pure fun _ ⟨_, hb, hbs⟩ => .cons hb hbs

/-- A count, and the items one after another. -/
theorem table {item : α → Writing Bytes} (next : List BootstrapMethod → α → List BootstrapMethod) {as : List α}
    {R : Pool → α → Bytes → Prop} (hnext : ∀ bs a, bs <+: next bs a)
    (h : ∀ a ∈ as, ∀ bs, next bs a <+: plan.table → Writes plan pre bs (item a) (next bs a) fun pool b => R pool a b)
    (hafter : as.foldl next before <+: plan.table) :
    Writes plan pre before (Writing.table item as) (as.foldl next before) fun pool bytes =>
      ∃ parts, List.Forall₂ (R pool) as parts ∧
        bytes = Bytes.ofU16 (UInt16.ofNat as.length) ++ parts.flatten :=
  (mapM next hnext h hafter).bind fun parts => pure fun _ ⟨_, hparts⟩ => ⟨parts, hparts, rfl⟩

/-- A table of items that have no bootstrap methods. -/
theorem table_plain {item : α → Writing Bytes} {as : List α} {R : Pool → α → Bytes → Prop}
    (h : ∀ a ∈ as, ∀ bs, bs <+: plan.table → Writes plan pre bs (item a) bs fun pool b => R pool a b)
    (hbefore : before <+: plan.table) :
    Writes plan pre before (Writing.table item as) before fun pool bytes =>
      ∃ parts, List.Forall₂ (R pool) as parts ∧ bytes = Bytes.ofU16 (UInt16.ofNat as.length) ++ parts.flatten := by
  have hsame : as.foldl (fun bs _ => bs) before = before := List.foldl_fixed as
  have hafter : as.foldl (fun bs _ => bs) before <+: plan.table := by rwa [hsame]
  have htable := table (fun bs _ => bs) (fun _ _ => List.prefix_rfl) h hafter
  rwa [hsame] at htable

end Writes

/-! ## Constants -/

section Constants

variable {plan : Plan} {pre : Pool → Prop} {bs : List BootstrapMethod}

theorem Within.index_lt {pool : Pool} (h : Within plan.needed pool) : pool.width + 1 < 65536 :=
  Nat.lt_of_le_of_lt (Nat.succ_le_succ h.width_le) plan.pool_fits

/-- **A constant is entered** if the plan has what it stands for. -/
theorem writes_intern {c : Constant} {e : Entry} (he : e ∈ plan.needed)
    (hstands : ∀ pool i, pre pool → pool.get? i = some c → Stands pool i e) :
    Writes plan pre bs (Writing.intern c) bs fun pool i => Stands pool i e := by
  intro pool hwithin hpre
  have hmax := hwithin.index_lt
  have hfound : ∀ {larger : Pool} {n : Nat}, pool <+: larger → larger.at? n = some c → n + 1 < 65536 →
      Stands larger (UInt16.ofNat (n + 1)) e := fun hlarger hn hlt =>
    hstands _ _ (hpre _ hlarger) (Pool.get?_ofNat hn hlt)
  cases hindex : pool.indexFrom c 1 with
  | some k =>
    obtain ⟨n, rfl, hn⟩ := Pool.exists_at?_of_indexFrom hindex
    have hlt := Pool.lt_width_of_at? hn
    refine ⟨UInt16.ofNat (n + 1), pool, ?_, hwithin, List.prefix_rfl, fun larger hlarger =>
      (hfound List.prefix_rfl hn (by omega)).mono hlarger⟩
    rw [Nat.add_comm, StateT.run, Writing.intern, hindex]
  | none =>
    have hgrows : pool <+: pool ++ [c] := List.prefix_append pool [c]
    have hnew := hfound hgrows (pool.at?_width c) hmax
    have hwithin' : Within plan.needed (pool ++ [c]) := by
      refine ⟨hwithin.nodup.append (List.nodup_singleton c) ?_, fun d hd => ?_⟩
      · exact List.disjoint_singleton.2 (Pool.not_mem_of_indexFrom hindex)
      · rcases List.mem_append.1 hd with hd | hd
        · obtain ⟨i, e', hi, he', hstands'⟩ := hwithin.needed d hd
          exact ⟨i, e', Pool.get?_append hi [c], he', hstands'.mono hgrows⟩
        · cases List.mem_singleton.1 hd
          exact ⟨_, e, Pool.get?_ofNat (pool.at?_width c) hmax, he, hnew⟩
    refine ⟨UInt16.ofNat (pool.width + 1), pool ++ [c], ?_, hwithin', hgrows, fun larger hlarger => hnew.mono hlarger⟩
    have hfits := hwithin'.index_lt
    have hwidth : Pool.width (pool ++ [c]) = pool.width + c.width := by
      rw [Pool.width, List.map_append, List.sum_append, List.map_singleton, List.sum_singleton, Pool.width]
    rw [StateT.run, Writing.intern, hindex]
    dsimp only
    rw [Nat.add_comm 1, if_pos (by rw [hwidth] at hfits; omega)]

theorem writes_text {s : String} (h : .text s ∈ plan.needed) :
    Writes plan pre bs (Writing.text s) bs fun pool i => Stands pool i (.text s) :=
  writes_intern h fun _ _ _ hget => .value hget

theorem writes_named {kind : NameKind} {s : String} (h : namedEntries kind s ⊆ plan.needed) :
    Writes plan pre bs (do let i ← Writing.text s; Writing.intern (kind.constant i)) bs
      fun pool i => Stands pool i (.named kind s) :=
  (writes_text (h (by simp [namedEntries]))).bind fun _ =>
    writes_intern (h (by simp [namedEntries])) fun _ _ hpre hget => .named hget hpre.2

theorem writes_className {name : String} (h : namedEntries .classRef name ⊆ plan.needed) :
    Writes plan pre bs (Writing.className name) bs fun pool i => Stands pool i (.named .classRef name) :=
  writes_named h

theorem writes_nameAndType {name descriptor : String} (h : nameAndTypeEntries name descriptor ⊆ plan.needed) :
    Writes plan pre bs (Writing.nameAndType name descriptor) bs
      fun pool i => Stands pool i (.nameAndType name descriptor) :=
  (writes_text (h (by simp [nameAndTypeEntries]))).bind fun _ =>
    (writes_text (h (by simp [nameAndTypeEntries]))).bind fun _ =>
      writes_intern (h (by simp [nameAndTypeEntries])) fun _ _ hpre hget => .nameAndType hget hpre.1.2 hpre.2

theorem writes_memberRef {kind : MemberKind} {m : MemberRef} (h : memberEntries kind m ⊆ plan.needed) :
    Writes plan pre bs (Writing.memberRef kind.constant m) bs fun pool i => Stands pool i (.member kind m) := by
  rw [memberEntries, List.append_subset, List.append_subset] at h
  obtain ⟨⟨howner, hnat⟩, hmember⟩ := h
  exact (writes_className howner).bind fun _ => (writes_nameAndType hnat).bind fun _ =>
    writes_intern (hmember List.mem_cons_self) fun _ _ hpre hget => .member hget hpre.1.2 hpre.2

theorem methodKind_eq (viaInterface : Bool) :
    Writing.methodKind viaInterface = (MemberKind.ofMethod viaInterface).constant := by
  cases viaInterface <;> rfl

theorem handleKind_eq (h : MethodHandle) : Writing.handleKind h = h.reference.constant := by
  unfold Writing.handleKind MethodHandle.reference
  split
  · rfl
  · exact methodKind_eq _

theorem writes_methodHandle {h : MethodHandle} (hneeded : h.entries ⊆ plan.needed) :
    Writes plan pre bs (Writing.methodHandle h) bs
      fun pool i => Stands pool i (.handle h.kind h.reference h.target) := by
  rw [MethodHandle.entries, List.append_subset] at hneeded
  rw [Writing.methodHandle, handleKind_eq]
  exact (writes_memberRef hneeded.1).bind fun _ =>
    writes_intern (hneeded.2 List.mem_cons_self) fun _ _ hpre hget => .handle hget hpre.2

/-- A proper handle is that of an interface's method exactly if it is marked as one. -/
theorem MethodHandle.reference_eq {h : MethodHandle} (hproper : h.Proper) :
    (h.reference == .interfaceMethod) = h.viaInterface := by
  unfold MethodHandle.reference
  split
  · rename_i hfield
    rw [hproper hfield]
    rfl
  · cases h.viaInterface <;> rfl

/-- **An argument is written as a constant that is read as that argument.** -/
theorem writes_argument {a : BootstrapArgument} (hproper : a.Proper) (h : a.entries ⊆ plan.needed) :
    Writes plan pre bs (Writing.argument a) bs fun pool i => pool.loadable i = .ok a := by
  cases a with
  | integer value | float value | long value | double value =>
    refine (writes_intern (h List.mem_cons_self) fun _ _ _ => .value).imp (fun _ hpre => hpre) fun _ _ _ hstands => ?_
    rw [Pool.loadable, Pool.constant, hstands.get?]
    rfl
  | classRef name => exact (writes_named h).imp (fun _ hpre => hpre) fun _ _ _ hstands => hstands.loadable_named
  | string s => exact (writes_named h).imp (fun _ hpre => hpre) fun _ _ _ hstands => hstands.loadable_named
  | methodType d => exact (writes_named h).imp (fun _ hpre => hpre) fun _ _ _ hstands => hstands.loadable_named
  | handle handle =>
    refine (writes_methodHandle h).imp (fun _ hpre => hpre) fun _ _ _ hstands => ?_
    rw [hstands.loadable_handle, handle.reference_eq hproper]
  | dynamic name descriptor => exact hproper.elim

end Constants

/-! ## Bootstrap methods -/

theorem prefix_shared (bs : List BootstrapMethod) (b : BootstrapMethod) : bs <+: shared bs b := by
  unfold shared
  split
  · exact List.prefix_rfl
  · exact List.prefix_append bs [b]

theorem prefix_foldl_shared (bs new : List BootstrapMethod) : bs <+: new.foldl shared bs := by
  induction new generalizing bs with
  | nil => exact List.prefix_rfl
  | cons b new ih => exact (prefix_shared bs b).trans (ih (shared bs b))

theorem shared_of_some {bs : List BootstrapMethod} {b : BootstrapMethod} {i : Nat}
    (h : bs.findIdx? (· == b) = some i) : shared bs b = bs :=
  if_pos (by rw [← List.findIdx?_isSome, h]; rfl)

theorem shared_of_none {bs : List BootstrapMethod} {b : BootstrapMethod} (h : bs.findIdx? (· == b) = none) :
    shared bs b = bs ++ [b] :=
  if_neg (by rw [← List.findIdx?_isSome, h]; exact Bool.false_ne_true)

/-- A bootstrap method is among those that it was shared with, at the place that it was given. -/
theorem findIdx_shared (bs : List BootstrapMethod) {b : BootstrapMethod} (hb : (b == b) = true) :
    (shared bs b).findIdx (· == b) = (bs.findIdx? (· == b)).getD bs.length ∧
      (shared bs b).findIdx (· == b) < (shared bs b).length := by
  cases hfind : bs.findIdx? (· == b) with
  | some i =>
    obtain ⟨hlt, hi⟩ := List.findIdx?_eq_some_iff_findIdx_eq.1 hfind
    rw [shared_of_some hfind, hi]
    exact ⟨rfl, hlt⟩
  | none =>
    have hnone := List.findIdx?_eq_none_iff.1 hfind
    have hlast : [b].findIdx (· == b) = 0 := by rw [List.findIdx_cons, hb]; rfl
    rw [shared_of_none hfind, List.findIdx_append, List.findIdx_eq_length.2 hnone, if_neg (Nat.lt_irrefl _), hlast,
      Nat.zero_add, List.length_append]
    exact ⟨rfl, Nat.lt_succ_self _⟩

theorem findIdx_eq_of_lt {bs table : List BootstrapMethod} {p : BootstrapMethod → Bool} (h : bs <+: table)
    (hlt : bs.findIdx p < bs.length) : table.findIdx p = bs.findIdx p := by
  obtain ⟨more, rfl⟩ := h
  rw [List.findIdx_append, if_pos hlt]

/-- **A bootstrap method is numbered** by its place among those of the plan. -/
theorem writes_bootstrap {plan : Plan} {pre : Pool → Prop} {bs : List BootstrapMethod} {b : BootstrapMethod}
    (hb : (b == b) = true) (h : shared bs b <+: plan.table) :
    Writes plan pre bs (Writing.bootstrap b) (shared bs b)
      fun _ k => k = UInt16.ofNat (plan.table.findIdx (· == b)) := by
  intro pool hwithin _
  obtain ⟨hindex, hlt⟩ := findIdx_shared bs hb
  refine ⟨_, pool, ?_, hwithin, List.prefix_rfl, fun _ _ => rfl⟩
  rw [findIdx_eq_of_lt h hlt, hindex, StateT.run, Writing.bootstrap]
  dsimp only
  cases hfind : bs.findIdx? (· == b) with
  | some i => rw [shared_of_some hfind]; rfl
  | none => rw [shared_of_none hfind]; rfl

/-- **The bootstrap method at that place** is equal to the one that was written. -/
theorem getElem?_representative {table bs : List BootstrapMethod} {b : BootstrapMethod} (hb : (b == b) = true)
    (h : shared bs b <+: table) :
    table[table.findIdx (· == b)]? = some (b.representative table) ∧ (b.representative table == b) = true := by
  obtain ⟨-, hlt⟩ := findIdx_shared bs hb
  have hlt' : table.findIdx (· == b) < table.length := by
    rw [findIdx_eq_of_lt h hlt]
    exact Nat.lt_of_lt_of_le hlt h.length_le
  have hget : table[table.findIdx (· == b)]? = some table[table.findIdx (· == b)] := List.getElem?_eq_getElem hlt'
  have hrep : b.representative table = table[table.findIdx (· == b)] := by
    rw [BootstrapMethod.representative, List.getD_eq_getElem?_getD, hget]
    rfl
  refine ⟨by rw [hget, hrep], ?_⟩
  rw [hrep]
  exact List.findIdx_getElem (p := (· == b))

end ClassFile
end RenameAudit
