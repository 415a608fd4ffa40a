import Mathlib
import RenameAudit.Proofs.ClassFile.ReadingBack
/-!
# Proofs.ClassFile.Entries — what the indices of a pool stand for

A constant refers to others by index, so what it says depends on its pool.  An `Entry` says the same without indices,
and `Stands` relates the two.  What an index stands for is what the look-ups give (`Stands.className` and its
siblings), it stays so when constants are added (`Stands.mono`), and in a pool without repetitions only one index stands
for an entry (`Stands.unique`).  A pool of such constants is therefore no larger than the entries (`Within.width_le`).
-/
namespace RenameAudit
namespace ClassFile

/-! ## Indices -/

namespace Pool

variable {pool : Pool} {c : Constant} {n : Nat} {i j : UInt16}

theorem at?_cons (c : Constant) (pool : Pool) (n : Nat) :
    at? (c :: pool) n = if n = 0 then some c else if n < c.width then none else at? pool (n - c.width) := by
  cases n with
  | zero => rfl
  | succ n =>
    rw [if_neg (Nat.succ_ne_zero n), Constant.width]
    cases hwide : c.isWide with
    | false =>
      rw [if_neg Bool.false_ne_true, if_neg (by omega), Nat.add_sub_cancel]
      simp only [at?, hwide]
    | true =>
      rw [if_pos rfl]
      cases n with
      | zero => simp only [at?, hwide]; rfl
      | succ n =>
        rw [if_neg (by omega)]
        simp only [at?, hwide]
        rfl

theorem at?_append (h : pool.at? n = some c) (more : Pool) : at? (pool ++ more) n = some c := by
  induction pool generalizing n with
  | nil => cases h
  | cons d pool ih =>
    rw [List.cons_append, at?_cons]
    rw [at?_cons] at h
    split_ifs at h ⊢
    · exact h
    · exact ih h

theorem at?_width (pool : Pool) (c : Constant) : at? (pool ++ [c]) pool.width = some c := by
  induction pool with
  | nil => rfl
  | cons d pool ih =>
    have hpos := d.width_pos
    rw [List.cons_append, at?_cons, width_cons, if_neg (by omega), if_neg (by omega), Nat.add_sub_cancel_left, ih]

theorem mem_of_at? (h : pool.at? n = some c) : c ∈ pool := by
  induction pool generalizing n with
  | nil => cases h
  | cons d pool ih =>
    rw [at?_cons] at h
    split_ifs at h
    · cases h; exact List.mem_cons_self
    · exact List.mem_cons_of_mem d (ih h)

theorem lt_width_of_at? (h : pool.at? n = some c) : n < pool.width := by
  induction pool generalizing n with
  | nil => cases h
  | cons d pool ih =>
    have hpos := d.width_pos
    rw [at?_cons] at h
    rw [width_cons]
    split_ifs at h
    · omega
    · have hn := ih h
      omega

/-- In a pool without repetitions, a constant has one index. -/
theorem at?_inj (hnodup : pool.Nodup) {m : Nat} (hm : pool.at? m = some c) (hn : pool.at? n = some c) : m = n := by
  induction pool generalizing m n with
  | nil => cases hm
  | cons d pool ih =>
    obtain ⟨hd, hnodup⟩ := List.nodup_cons.1 hnodup
    rw [at?_cons] at hm hn
    split_ifs at hm hn with hm0 hn0 hnw hmw hn0 hnw
    · rw [hm0, hn0]
    · cases hm; exact absurd (mem_of_at? hn) hd
    · cases hn; exact absurd (mem_of_at? hm) hd
    · have hrest := ih hnodup hm hn
      omega

/-- The index of a constant, where the first constant has a given index. -/
theorem exists_at?_of_indexFrom {next k : Nat} (h : indexFrom c pool next = some k) :
    ∃ n, k = next + n ∧ pool.at? n = some c := by
  induction pool generalizing next with
  | nil => cases h
  | cons d pool ih =>
    rw [indexFrom] at h
    split at h
    · rename_i hd
      cases h
      exact ⟨0, rfl, congrArg some hd⟩
    · obtain ⟨n, hk, hn⟩ := ih h
      have hpos := d.width_pos
      refine ⟨d.width + n, by omega, ?_⟩
      rw [at?_cons, if_neg (by omega), if_neg (by omega), Nat.add_sub_cancel_left, hn]

theorem not_mem_of_indexFrom {next : Nat} (h : indexFrom c pool next = none) : c ∉ pool := by
  induction pool generalizing next with
  | nil => exact List.not_mem_nil
  | cons d pool ih =>
    rw [indexFrom] at h
    split at h
    · cases h
    · rename_i hd
      exact fun hc => (List.mem_cons.1 hc).elim (fun heq => hd heq.symm) (ih h)

theorem get?_eq_some : pool.get? i = some c ↔ ∃ n, i.toNat = n + 1 ∧ pool.at? n = some c := by
  rw [get?]
  cases i.toNat with
  | zero => simp
  | succ n => simp

theorem get?_ofNat (h : pool.at? n = some c) (hn : n + 1 < 65536) : pool.get? (UInt16.ofNat (n + 1)) = some c :=
  get?_eq_some.2 ⟨n, UInt16.toNat_ofNat_of_lt' hn, h⟩

theorem get?_append (h : pool.get? i = some c) (more : Pool) : get? (pool ++ more) i = some c := by
  obtain ⟨n, hi, hn⟩ := get?_eq_some.1 h
  exact get?_eq_some.2 ⟨n, hi, at?_append hn more⟩

theorem get?_inj (hnodup : pool.Nodup) (hi : pool.get? i = some c) (hj : pool.get? j = some c) : i = j := by
  obtain ⟨m, him, hm⟩ := get?_eq_some.1 hi
  obtain ⟨n, hjn, hn⟩ := get?_eq_some.1 hj
  exact UInt16.toNat_inj.1 (by rw [him, hjn, at?_inj hnodup hm hn])

end Pool

/-! ## Entries -/

/-- The kinds of constant that have a text and nothing else. -/
inductive NameKind where
  | classRef | string | methodType
  deriving DecidableEq, Repr

/-- The constant of a kind whose text has an index. -/
def NameKind.constant : NameKind → UInt16 → Constant
  | classRef => .classRef
  | string => .string
  | methodType => .methodType

/-- The bootstrap argument of a kind. -/
def NameKind.argument : NameKind → String → BootstrapArgument
  | classRef => .classRef
  | string => .string
  | methodType => .methodType

/-- The kinds of constant that refer to a member. -/
inductive MemberKind where
  | field | method | interfaceMethod
  deriving DecidableEq, Repr

/-- The constant of a kind whose owner and whose name and descriptor have indices. -/
def MemberKind.constant : MemberKind → UInt16 → UInt16 → Constant
  | field => .fieldRef
  | method => .methodRef
  | interfaceMethod => .interfaceMethodRef

/-- What a constant says, without indices. -/
inductive Entry where
  /-- A constant that refers to no other. -/
  | value (constant : Constant)
  | named (kind : NameKind) (text : String)
  | nameAndType (name descriptor : String)
  | member (kind : MemberKind) (target : MemberRef)
  | handle (kind : UInt8) (reference : MemberKind) (target : MemberRef)
  | invokeDynamic (number : UInt16) (name descriptor : String)
  deriving DecidableEq, Repr

namespace Entry

/-- A text. -/
def text (s : String) : Entry :=
  value (.utf8 s)

/-- The number of indices that the constant of an entry takes. -/
def width : Entry → Nat
  | value c => c.width
  | _ => 1

end Entry

/-- **What an index stands for** in a pool. -/
inductive Stands (pool : Pool) : UInt16 → Entry → Prop where
  | value {i : UInt16} {c : Constant} (h : pool.get? i = some c) : Stands pool i (.value c)
  | named {i j : UInt16} {kind : NameKind} {s : String} (h : pool.get? i = some (kind.constant j))
      (hs : Stands pool j (.text s)) : Stands pool i (.named kind s)
  | nameAndType {i j k : UInt16} {name descriptor : String} (h : pool.get? i = some (.nameAndType j k))
      (hname : Stands pool j (.text name)) (hdescriptor : Stands pool k (.text descriptor)) :
      Stands pool i (.nameAndType name descriptor)
  | member {i j k : UInt16} {kind : MemberKind} {target : MemberRef} (h : pool.get? i = some (kind.constant j k))
      (howner : Stands pool j (.named .classRef target.owner))
      (hnat : Stands pool k (.nameAndType target.name target.descriptor)) : Stands pool i (.member kind target)
  | handle {i j : UInt16} {kind : UInt8} {reference : MemberKind} {target : MemberRef}
      (h : pool.get? i = some (.methodHandle kind j)) (htarget : Stands pool j (.member reference target)) :
      Stands pool i (.handle kind reference target)
  | invokeDynamic {i j : UInt16} {number : UInt16} {name descriptor : String}
      (h : pool.get? i = some (.invokeDynamic number j)) (hnat : Stands pool j (.nameAndType name descriptor)) :
      Stands pool i (.invokeDynamic number name descriptor)

namespace Stands

variable {pool : Pool} {i j : UInt16} {e : Entry}

/-- What an index stands for does not change when constants are added. -/
theorem mono (h : Stands pool i e) {more : Pool} (hmore : pool <+: more) : Stands more i e := by
  obtain ⟨added, rfl⟩ := hmore
  induction h with
  | value h => exact .value (Pool.get?_append h added)
  | named h _ ih => exact .named (Pool.get?_append h added) ih
  | nameAndType h _ _ ihName ihDescriptor => exact .nameAndType (Pool.get?_append h added) ihName ihDescriptor
  | member h _ _ ihOwner ihNat => exact .member (Pool.get?_append h added) ihOwner ihNat
  | handle h _ ih => exact .handle (Pool.get?_append h added) ih
  | invokeDynamic h _ ih => exact .invokeDynamic (Pool.get?_append h added) ih

theorem exists_get? (h : Stands pool i e) : ∃ c, pool.get? i = some c ∧ c.width = e.width := by
  cases h with
  | value h => exact ⟨_, h, rfl⟩
  | @named _ _ kind _ h => exact ⟨_, h, by cases kind <;> rfl⟩
  | @member _ _ _ kind _ h => exact ⟨_, h, by cases kind <;> rfl⟩
  | nameAndType h | handle h | invokeDynamic h => exact ⟨_, h, rfl⟩

theorem ne_zero (h : Stands pool i e) : i ≠ 0 := by
  obtain ⟨c, hc, -⟩ := h.exists_get?
  rintro rfl
  cases hc

/-- **Only one index stands for an entry** in a pool without repetitions. -/
theorem unique (hnodup : pool.Nodup) (hi : Stands pool i e) (hj : Stands pool j e) : i = j := by
  induction hi generalizing j with
  | value hi =>
    cases hj with
    | value hj => exact Pool.get?_inj hnodup hi hj
  | named hi _ ih =>
    cases hj with
    | named hj hs => exact Pool.get?_inj hnodup hi (ih hs ▸ hj)
  | nameAndType hi _ _ ihName ihDescriptor =>
    cases hj with
    | nameAndType hj hname hdescriptor => exact Pool.get?_inj hnodup hi (ihName hname ▸ ihDescriptor hdescriptor ▸ hj)
  | member hi _ _ ihOwner ihNat =>
    cases hj with
    | member hj howner hnat => exact Pool.get?_inj hnodup hi (ihOwner howner ▸ ihNat hnat ▸ hj)
  | handle hi _ ih =>
    cases hj with
    | handle hj htarget => exact Pool.get?_inj hnodup hi (ih htarget ▸ hj)
  | invokeDynamic hi _ ih =>
    cases hj with
    | invokeDynamic hj hnat => exact Pool.get?_inj hnodup hi (ih hnat ▸ hj)

/-! ### Look-ups -/

theorem get? {c : Constant} (h : Stands pool i (.value c)) : pool.get? i = some c := by
  cases h with
  | value h => exact h

theorem text {s : String} (h : Stands pool i (.text s)) : pool.text i = .ok s := by
  rw [Pool.text, Pool.constant, h.get?]
  rfl

theorem className {name : String} (h : Stands pool i (.named .classRef name)) : pool.className i = .ok name := by
  cases h with
  | named h hs =>
    rw [Pool.className, Pool.constant, h]
    exact hs.text

theorem lookup_nameAndType {name descriptor : String} (h : Stands pool i (.nameAndType name descriptor)) :
    pool.nameAndType i = .ok (name, descriptor) := by
  cases h with
  | nameAndType h hname hdescriptor =>
    simp only [Pool.nameAndType, Pool.constant, h]
    change (do return (← pool.text _, ← pool.text _)) = _
    rw [hname.text, hdescriptor.text]
    rfl

theorem memberOf {owner nat : UInt16} {target : MemberRef} (howner : Stands pool owner (.named .classRef target.owner))
    (hnat : Stands pool nat (.nameAndType target.name target.descriptor)) :
    pool.memberOf owner nat = .ok target := by
  rw [Pool.memberOf, howner.className, hnat.lookup_nameAndType]
  rfl

theorem memberRef {kind : MemberKind} {target : MemberRef} (h : Stands pool i (.member kind target)) :
    pool.memberRef i = .ok (target, kind == .interfaceMethod) := by
  cases h with
  | member h howner hnat =>
    rw [Pool.memberRef, Pool.constant, h]
    cases kind <;>
    · change (do return (← pool.memberOf _ _, _)) = _
      rw [memberOf howner hnat]
      rfl

theorem methodHandle {kind : UInt8} {reference : MemberKind} {target : MemberRef}
    (h : Stands pool i (.handle kind reference target)) :
    pool.methodHandle i = .ok ⟨kind, target, reference == .interfaceMethod⟩ := by
  cases h with
  | handle h htarget =>
    rw [Pool.methodHandle, Pool.constant, h]
    change (do let r ← pool.memberRef _; return MethodHandle.mk kind r.1 r.2) = _
    rw [htarget.memberRef]
    rfl

theorem lookup_invokeDynamic {number : UInt16} {name descriptor : String}
    (h : Stands pool i (.invokeDynamic number name descriptor)) :
    pool.invokeDynamic i = .ok (number, name, descriptor) := by
  cases h with
  | invokeDynamic h hnat =>
    rw [Pool.invokeDynamic, Pool.constant, h]
    change (do return (number, ← pool.nameAndType _)) = _
    rw [hnat.lookup_nameAndType]
    rfl

theorem loadable_named {kind : NameKind} {s : String} (h : Stands pool i (.named kind s)) :
    pool.loadable i = .ok (kind.argument s) := by
  cases h with
  | named h hs =>
    rw [Pool.loadable, Pool.constant, h]
    cases kind with
    | classRef =>
      change (do return BootstrapArgument.classRef (← pool.text _)) = _
      rw [hs.text]
      rfl
    | string =>
      change (do return BootstrapArgument.string (← pool.text _)) = _
      rw [hs.text]
      rfl
    | methodType =>
      change (do return BootstrapArgument.methodType (← pool.text _)) = _
      rw [hs.text]
      rfl

theorem loadable_handle {kind : UInt8} {reference : MemberKind} {target : MemberRef}
    (h : Stands pool i (.handle kind reference target)) :
    pool.loadable i = .ok (.handle ⟨kind, target, reference == .interfaceMethod⟩) := by
  cases h with
  | handle h htarget =>
    rw [Pool.loadable, Pool.constant, h]
    change (do let r ← pool.memberRef _; return BootstrapArgument.handle ⟨kind, r.1, r.2⟩) = _
    rw [htarget.memberRef]
    rfl

end Stands

/-! ## Pools of needed constants -/

/-- A pool without repetitions, each constant of which stands for an entry that is needed. -/
structure Within (needed : List Entry) (pool : Pool) : Prop where
  nodup : pool.Nodup
  needed : ∀ c ∈ pool, ∃ i e, pool.get? i = some c ∧ e ∈ needed ∧ Stands pool i e

/-- **A pool is no larger than what is needed.** -/
theorem Within.width_le {needed : List Entry} {pool : Pool} (h : Within needed pool) :
    pool.width ≤ (needed.dedup.map Entry.width).sum := by
  have hentry : ∀ c : Constant, ∃ e, c ∈ pool → e ∈ needed ∧ ∃ i, pool.get? i = some c ∧ Stands pool i e := by
    intro c
    by_cases hc : c ∈ pool
    · obtain ⟨i, e, hi, he, hstands⟩ := h.needed c hc
      exact ⟨e, fun _ => ⟨he, i, hi, hstands⟩⟩
    · exact ⟨.value c, fun hin => absurd hin hc⟩
  choose entry hentry using hentry
  have hwidth : ∀ c ∈ pool, c.width = (entry c).width := by
    intro c hc
    obtain ⟨-, i, hi, hstands⟩ := hentry c hc
    obtain ⟨d, hd, hwidth⟩ := hstands.exists_get?
    exact (congrArg Constant.width (Option.some_inj.1 (hi.symm.trans hd))).trans hwidth
  have hinjective : ∀ c ∈ pool, ∀ d ∈ pool, entry c = entry d → c = d := by
    intro c hc d hd heq
    obtain ⟨-, i, hi, hstandsi⟩ := hentry c hc
    obtain ⟨-, j, hj, hstandsj⟩ := hentry d hd
    have hij : i = j := hstandsi.unique h.nodup (heq ▸ hstandsj)
    exact Option.some_inj.1 (hi.symm.trans (hij ▸ hj))
  have hsubset : pool.map entry ⊆ needed.dedup := by
    intro e he
    obtain ⟨c, hc, rfl⟩ := List.mem_map.1 he
    exact List.mem_dedup.2 (hentry c hc).1
  obtain ⟨entries, hperm, hsublist⟩ := (h.nodup.map_on hinjective).subperm hsubset
  calc pool.width = ((pool.map entry).map Entry.width).sum := by
        rw [Pool.width, List.map_map, List.map_congr_left hwidth]; rfl
    _ = (entries.map Entry.width).sum := (hperm.map Entry.width).sum_eq.symm
    _ ≤ (needed.dedup.map Entry.width).sum := (hsublist.map Entry.width).sum_le_sum fun _ _ => Nat.zero_le _

end ClassFile
end RenameAudit
