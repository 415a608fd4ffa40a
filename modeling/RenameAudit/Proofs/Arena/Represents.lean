import RenameAudit.Proofs.Arena.SameResolution
/-!
# Proofs.Arena.Represents — an arena represents the directory

After any calls all parts of an arena agree, what was read lasts through all further calls, and whatever is asked of the
arena by number has the answer that the directory gives by name (`books_kept`).
-/
namespace RenameAudit

open Std ClassFile

namespace Arena

/-- **An arena represents a directory**: the same classes, fields and methods in the same order, the same declarations and
states, the same ancestors, bridges, overrides and roots, and the same classes are refused. -/
structure Represents (a : Arena) (d : Directory) : Prop where
  names : d.names = a.classes.map (·.name)
  known : ∀ n, d.knows n = (a.lookup n).isSome
  declarations : ∀ n, d.declaration? n = (a.lookup n).bind a.declaration?
  fields : d.fields = a.fields.map a.viewField
  methods : d.methods = a.methods.map a.view
  owned : d.owned = a.ownedIds.map a.nameOf
  refused : ∀ c, d.refusal? c = a.refusal? c
  state : ∀ n id, a.lookup n = some id → d.classes[n]?.map (·.state) = some (a.record id).state
  stack : ∀ n id, a.lookup n = some id → d.stackOf n = (a.stackOf id).map a.nameOf
  methodsByKey : ∀ n id, a.lookup n = some id → ∀ key, d.methodByKey? n key = (a.methodByKey? id key).map a.method
  targets : ∀ b < a.methods.length, d.bridgedBy? (a.refOf b) = (a.bridgedBy? b).map a.refOf
  sources : ∀ t < a.methods.length, d.bridgesTo (a.refOf t) = (a.bridgesTo t).map a.refOf
  overrides : ∀ m < a.methods.length, ∀ r, r ∈ d.overridesOf (a.refOf m) ↔ ∃ x ∈ a.overridesOf m, a.refOf x = r
  roots : ∀ m < a.methods.length, d.rootsOf (a.refOf m) = (a.rootsOf m).map a.refOf

/-- The roots of a method are the same, kept or not. -/
theorem SameState.rootsOf {a : Arena} {d : Directory} (h : SameState a d) (hgood : d.Good) {m : MethodId}
    (hm : m < a.methods.length) : d.rootsOf (a.refOf m) = (a.rootsOf m).map a.refOf := by
  rw [Arena.rootsOf]
  cases hl : (a.methodRecord m).roots with
  | none => rw [hgood.rootsOf_eq, h.roots hm, Option.getD_none]
  | some l =>
    rw [Directory.rootsOf, ExtTreeMap.getD_eq_getD_getElem?, (h.keptRoots m hm l hl).2]
    rfl

/-- **What is in the same state is represented.** -/
theorem SameState.represents {a : Arena} {d : Directory} (h : SameState a d) (hgood : d.Good) : a.Represents d where
  names := h.books.names
  known := h.books.knows
  declarations := h.books.declaration
  fields := h.books.fields
  methods := h.books.methods
  owned := h.books.owned
  refused := h.books.refusal?
  state n id hn := by
    obtain ⟨e, hentry, hsame⟩ := h.entries id (h.books.orderly.lookup_lt hn)
    rw [← h.books.nameOf_lookup hn, hentry, Option.map_some, hsame.state]
  stack n id hn := by
    rw [← h.books.nameOf_lookup hn, h.stackOf (h.books.orderly.lookup_lt hn)]
  methodsByKey n id hn key := by
    rw [← h.books.nameOf_lookup hn, h.books.methodByKey? (h.books.orderly.lookup_lt hn)]
  targets _ := h.bridgedBy?
  sources _ := h.bridgesTo
  overrides m hm := (h.overrides m hm).mem
  roots _ := h.rootsOf hgood

/-- **An arena knows of a class what the class file says that was accepted for it**, and nothing else. -/
theorem declaration?_after (steps : List Directory.Step) (n : String) (decl : Declaration) :
    ((after steps).lookup n).bind (after steps).declaration? = some decl ↔
      ∃ c owned, Directory.Accepted steps c owned ∧ c.name = n ∧ c.toDeclaration owned = decl := by
  rw [← (sameState_after steps).books.declaration, Directory.declaration?_after]

/-- **The books are kept.**  After any calls, refused classes and circles among them included, all parts of an arena agree; it
knows of each class what the class file says that was accepted for it; what was read lasts through all further calls; and
the arena represents the directory after the same calls. -/
theorem books_kept (steps : List Directory.Step) :
    (after steps).Consistent ∧
      (∀ n decl, ((after steps).lookup n).bind (after steps).declaration? = some decl ↔
        ∃ c owned, Directory.Accepted steps c owned ∧ c.name = n ∧ c.toDeclaration owned = decl) ∧
      (∀ more, (after steps).Lasting (after (steps ++ more))) ∧
      (after steps).Represents (Directory.after steps) :=
  ⟨consistent_after steps, declaration?_after steps, lasting_after steps,
    (sameState_after steps).represents (Directory.good_after steps)⟩

end Arena
end RenameAudit
