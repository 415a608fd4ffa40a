import Mathlib
import RenameAudit.Proofs.Rename.Reverse
import RenameAudit.Proofs.Text.Split
/-!
# Proofs.Rename.WayBack — from a new class name back, and there again

The reverse of a table takes the new name of a class back to a name that the table may know better: a class that has no
entry keeps its own last part, and what that goes back to can be a class that has one.  Where no such entry stands in
the way (`WayBackClear`), what the new name goes back to is renamed to it again, and only there (`renamed_again_iff`).
-/
namespace RenameAudit

open Std

namespace RenameTable

/-! ## The two parts of a class name -/

/-- The package of a class name, as a table writes it. -/
def packagePart (cs : List Char) : String :=
  match Text.splitLast? '/' cs with
  | some (package, _) => String.ofList (package ++ ['/'])
  | none => ""

/-- A class name without its package. -/
def simplePart (cs : List Char) : List Char :=
  match Text.splitLast? '/' cs with
  | some (_, simple) => simple
  | none => cs

theorem mapOutermost_eq (t : RenameTable) (cs : List Char) :
    t.mapOutermost cs = t.mapPackage (packagePart cs) ++ String.ofList (simplePart cs) := by
  unfold mapOutermost packagePart simplePart
  cases Text.splitLast? '/' cs <;> rfl

theorem slash_not_mem_simplePart (cs : List Char) : '/' ∉ simplePart cs := by
  unfold simplePart
  split
  · rename_i hsplit
    exact Text.not_mem_of_splitLast? hsplit
  · rename_i hnone
    exact Text.splitLast?_eq_none_iff.1 hnone

theorem isPackageName_packagePart (cs : List Char) : IsPackageName (packagePart cs) := by
  unfold packagePart
  split
  · exact .inr (by simp [Text.endsWith])
  · exact .inl rfl

theorem packagePart_append_simplePart (cs : List Char) : (packagePart cs).toList ++ simplePart cs = cs := by
  unfold packagePart simplePart
  cases hsplit : Text.splitLast? '/' cs with
  | none => rfl
  | some parts =>
    dsimp only
    rw [String.toList_ofList, List.append_assoc]
    exact (Text.eq_of_splitLast? hsplit).symm

/-- A package and a simple name are found again in the class name that they make. -/
theorem parts_append {package : String} (hp : IsPackageName package) {simple : List Char} (hs : '/' ∉ simple) :
    packagePart (package.toList ++ simple) = package ∧ simplePart (package.toList ++ simple) = simple := by
  unfold packagePart simplePart
  rcases hp with rfl | hp
  · rw [String.toList_empty, List.nil_append, Text.splitLast?_eq_none_iff.2 hs]
    exact ⟨rfl, rfl⟩
  · have hlast : package.toList.getLast? = some '/' := by simpa [Text.endsWith] using hp
    obtain ⟨start, hstart⟩ := List.getLast?_eq_some_iff.1 hlast
    rw [hstart, List.append_assoc, List.singleton_append, Text.splitLast?_append start hs]
    dsimp only
    exact ⟨by rw [← hstart, String.ofList_toList], rfl⟩

theorem mapOutermost_append (t : RenameTable) {package : String} (hp : IsPackageName package) {simple : List Char}
    (hs : '/' ∉ simple) :
    t.mapOutermost (package.toList ++ simple) = t.mapPackage package ++ String.ofList simple := by
  obtain ⟨hpackage, hsimple⟩ := parts_append hp hs
  rw [mapOutermost_eq, hpackage, hsimple]

/-! ## One step of a look-up -/

theorem mapClassChars_entry {t : RenameTable} {cs : List Char} {mapped : String}
    (h : t.classes[String.ofList cs]? = some mapped) : t.mapClassChars cs = mapped := by
  rw [mapClassChars, h]

theorem mapClassChars_inner {t : RenameTable} {outer inner : List Char} (hinner : '$' ∉ inner)
    (h : t.classes[String.ofList (outer ++ '$' :: inner)]? = none) :
    t.mapClassChars (outer ++ '$' :: inner) = t.mapClassChars outer ++ String.ofList ('$' :: inner) := by
  have hsplit := Text.splitLast?_append outer hinner
  rw [mapClassChars, h]
  dsimp only
  split
  · rename_i heq
    rw [hsplit] at heq
    cases heq
    rfl
  · rename_i heq
    rw [hsplit] at heq
    cases heq

theorem mapClassChars_outermost {t : RenameTable} {cs : List Char} (hcs : '$' ∉ cs)
    (h : t.classes[String.ofList cs]? = none) : t.mapClassChars cs = t.mapOutermost cs := by
  rw [mapClassChars, h]
  dsimp only
  split
  · rename_i heq
    rw [Text.splitLast?_eq_none_iff.2 hcs] at heq
    cases heq
  · rfl

/-! ## The way back -/

/-- What the new name of a class goes back to. -/
def wayBack (t : RenameTable) (cs : List Char) : String :=
  t.reverse.mapClassChars (t.mapClassChars cs).toList

/-- Whether a name is the new name of a class entry. -/
def IsNewName (t : RenameTable) (name : String) : Prop :=
  ∃ old : String, t.classes[old]? = some name

/-- **No class entry stands in the way back of a class**: its new name is that of a class entry, or else what this goes
back to has no class entry, and none stands in the way back of its outer class. -/
def WayBackClear (t : RenameTable) (cs : List Char) : Prop :=
  t.IsNewName (t.mapClassChars cs) ∨
    t.classes[t.wayBack cs]? = none ∧
      match _h : Text.splitLast? '$' cs with
      | some (outer, _) => t.WayBackClear outer
      | none => True
termination_by cs.length
decreasing_by exact Text.length_lt_of_splitLast? _h

/-- Whether a class or one of its outer classes has an entry, so that its package does not count. -/
def HasEntry (t : RenameTable) (cs : List Char) : Prop :=
  ∃ start, (cs = start ∨ ∃ rest, cs = start ++ '$' :: rest) ∧ (t.classes[String.ofList start]?).isSome

/-- The new name of the package of the outermost class, and the package that this goes back to, have no `$`, which would
be read as the mark of an inner class. -/
structure PlainPackage (t : RenameTable) (cs : List Char) : Prop where
  mapped : '$' ∉ (t.mapPackage (packagePart (cs.takeWhile (· != '$')))).toList
  back : '$' ∉ (t.reverse.mapPackage (t.mapPackage (packagePart (cs.takeWhile (· != '$'))))).toList

section

variable {t : RenameTable} {cs outer inner : List Char}

theorem wayBackClear_inner (hinner : '$' ∉ inner) : t.WayBackClear (outer ++ '$' :: inner) ↔
    t.IsNewName (t.mapClassChars (outer ++ '$' :: inner)) ∨
      t.classes[t.wayBack (outer ++ '$' :: inner)]? = none ∧ t.WayBackClear outer := by
  have hsplit := Text.splitLast?_append outer hinner
  rw [WayBackClear]
  split
  · rename_i heq
    rw [hsplit] at heq
    cases heq
    rfl
  · rename_i heq
    rw [hsplit] at heq
    cases heq

theorem wayBackClear_outermost (hcs : '$' ∉ cs) :
    t.WayBackClear cs ↔ t.IsNewName (t.mapClassChars cs) ∨ t.classes[t.wayBack cs]? = none := by
  rw [WayBackClear]
  split
  · rename_i heq
    rw [Text.splitLast?_eq_none_iff.2 hcs] at heq
    cases heq
  · rw [and_true]

/-- **The new name of a class entry goes back to a class that is renamed to it.** -/
theorem renamed_again_of_isNewName (h : t.Reversible) (hnew : t.IsNewName (t.mapClassChars cs)) :
    t.mapClassChars (t.wayBack cs).toList = t.mapClassChars cs := by
  obtain ⟨old, hold⟩ := hnew
  have hback : t.wayBack cs = old :=
    mapClassChars_entry (by rw [String.ofList_toList]; exact h.reverse_classes_iff.2 hold)
  rw [hback]
  exact mapClassChars_entry (by rwa [String.ofList_toList])

/-- A class whose new name is not that of an entry has no entry, and its new name has none in the reverse. -/
theorem no_entries_of_not_isNewName (h : t.Reversible) (hnew : ¬ t.IsNewName (t.mapClassChars cs)) :
    t.classes[String.ofList cs]? = none ∧ t.reverse.classes[t.mapClassChars cs]? = none := by
  constructor
  · refine Option.eq_none_iff_forall_ne_some.2 fun mapped hmapped => hnew ⟨String.ofList cs, ?_⟩
    rwa [mapClassChars_entry hmapped]
  · exact Option.eq_none_iff_forall_ne_some.2 fun old hold => hnew ⟨old, h.reverse_classes_iff.1 hold⟩

theorem wayBack_inner (h : t.Reversible) (hinner : '$' ∉ inner)
    (hnew : ¬ t.IsNewName (t.mapClassChars (outer ++ '$' :: inner))) :
    t.wayBack (outer ++ '$' :: inner) = t.wayBack outer ++ String.ofList ('$' :: inner) := by
  obtain ⟨hentry, hreverse⟩ := no_entries_of_not_isNewName h hnew
  have hmapped := mapClassChars_inner hinner hentry
  have hchars : (t.mapClassChars (outer ++ '$' :: inner)).toList = (t.mapClassChars outer).toList ++ '$' :: inner := by
    rw [hmapped, String.toList_append, String.toList_ofList]
  rw [wayBack, hchars, mapClassChars_inner hinner, wayBack]
  rwa [← hchars, String.ofList_toList]

/-- **A class entry in the way leads elsewhere.** -/
theorem not_renamed_again_of_entry {mapped : String} (hnew : ¬ t.IsNewName (t.mapClassChars cs))
    (hentry : t.classes[t.wayBack cs]? = some mapped) : t.mapClassChars (t.wayBack cs).toList ≠ t.mapClassChars cs := by
  have hmapped : t.mapClassChars (t.wayBack cs).toList = mapped :=
    mapClassChars_entry (by rwa [String.ofList_toList])
  intro heq
  exact hnew ⟨t.wayBack cs, by rw [hentry, ← hmapped, heq]⟩

/-- **An inner class comes to its new name again** when its outer class does, unless a class entry is in the way. -/
theorem renamed_again_inner_iff (h : t.Reversible) (hinner : '$' ∉ inner)
    (hnew : ¬ t.IsNewName (t.mapClassChars (outer ++ '$' :: inner))) :
    t.mapClassChars (t.wayBack (outer ++ '$' :: inner)).toList = t.mapClassChars (outer ++ '$' :: inner) ↔
      t.classes[t.wayBack (outer ++ '$' :: inner)]? = none ∧
        t.mapClassChars (t.wayBack outer).toList = t.mapClassChars outer := by
  cases hback : t.classes[t.wayBack (outer ++ '$' :: inner)]? with
  | some mapped => exact iff_of_false (not_renamed_again_of_entry hnew hback) fun hand => nomatch hand.1
  | none =>
    have hentry := (no_entries_of_not_isNewName h hnew).1
    have hchars : (t.wayBack (outer ++ '$' :: inner)).toList = (t.wayBack outer).toList ++ '$' :: inner := by
      rw [wayBack_inner h hinner hnew, String.toList_append, String.toList_ofList]
    rw [hchars, mapClassChars_inner hinner (by rwa [← hchars, String.ofList_toList]),
      mapClassChars_inner hinner hentry, String.append_left_inj]
    exact ⟨fun heq => ⟨rfl, heq⟩, And.right⟩

theorem dollar_not_mem_append_simplePart (hcs : '$' ∉ cs) {package : List Char} (hpackage : '$' ∉ package) :
    '$' ∉ package ++ simplePart cs := by
  have hsimple : '$' ∉ simplePart cs := fun hin =>
    hcs (packagePart_append_simplePart cs ▸ List.mem_append_right _ hin)
  rw [List.mem_append]
  exact not_or.2 ⟨hpackage, hsimple⟩

theorem wayBack_outermost (h : t.Reversible) (hcs : '$' ∉ cs)
    (hplain : '$' ∉ (t.mapPackage (packagePart cs)).toList) (hnew : ¬ t.IsNewName (t.mapClassChars cs)) :
    t.wayBack cs = t.reverse.mapPackage (t.mapPackage (packagePart cs)) ++ String.ofList (simplePart cs) := by
  obtain ⟨hentry, hreverse⟩ := no_entries_of_not_isNewName h hnew
  have hchars : (t.mapClassChars cs).toList = (t.mapPackage (packagePart cs)).toList ++ simplePart cs := by
    rw [mapClassChars_outermost hcs hentry, mapOutermost_eq, String.toList_append, String.toList_ofList]
  rw [wayBack, hchars, mapClassChars_outermost (dollar_not_mem_append_simplePart hcs hplain),
    mapOutermost_append _ (h.written.mapPackage (isPackageName_packagePart cs)) (slash_not_mem_simplePart cs)]
  rwa [← hchars, String.ofList_toList]

/-- **A class without outer classes comes to its new name again**, unless a class entry is in the way. -/
theorem renamed_again_outermost_iff (h : t.Reversible) (hcs : '$' ∉ cs) (hplain : t.PlainPackage cs)
    (hnew : ¬ t.IsNewName (t.mapClassChars cs)) :
    t.mapClassChars (t.wayBack cs).toList = t.mapClassChars cs ↔ t.classes[t.wayBack cs]? = none := by
  cases hback : t.classes[t.wayBack cs]? with
  | some mapped => exact iff_of_false (not_renamed_again_of_entry hnew hback) fun hnone => nomatch hnone
  | none =>
    have htake : cs.takeWhile (· != '$') = cs :=
      List.takeWhile_eq_self_iff.2 fun c hc => bne_iff_ne.2 fun heq => hcs (heq ▸ hc)
    obtain ⟨hmappedPlain, hbackPlain⟩ := hplain
    rw [htake] at hmappedPlain hbackPlain
    have hchars : (t.wayBack cs).toList =
        (t.reverse.mapPackage (t.mapPackage (packagePart cs))).toList ++ simplePart cs := by
      rw [wayBack_outermost h hcs hmappedPlain hnew, String.toList_append, String.toList_ofList]
    have hreversed : IsPackageName (t.reverse.mapPackage (t.mapPackage (packagePart cs))) :=
      (packagesWritten_reverse t).mapPackage (h.written.mapPackage (isPackageName_packagePart cs))
    refine iff_of_true ?_ rfl
    rw [hchars, mapClassChars_outermost (dollar_not_mem_append_simplePart hcs hbackPlain)
        (by rwa [← hchars, String.ofList_toList]),
      mapOutermost_append _ hreversed (slash_not_mem_simplePart cs), h.mapPackage_back,
      mapClassChars_outermost hcs (no_entries_of_not_isNewName h hnew).1, mapOutermost_eq]

/-! ## The whole way -/

theorem isNewName_of_entry (h : (t.classes[String.ofList cs]?).isSome) : t.IsNewName (t.mapClassChars cs) := by
  obtain ⟨mapped, hmapped⟩ := Option.isSome_iff_exists.1 h
  exact ⟨String.ofList cs, by rw [hmapped, mapClassChars_entry hmapped]⟩

theorem HasEntry.of_inner (h : t.HasEntry (outer ++ '$' :: inner)) (hinner : '$' ∉ inner)
    (hnew : ¬ t.IsNewName (t.mapClassChars (outer ++ '$' :: inner))) : t.HasEntry outer := by
  obtain ⟨start, hstart | ⟨rest, hrest⟩, hentry⟩ := h
  · exact absurd (isNewName_of_entry (hstart ▸ hentry)) hnew
  · refine ⟨start, ?_, hentry⟩
    rcases List.append_eq_append_iff.1 hrest with ⟨more, hstart, hmore⟩ | ⟨more, houter, hmore⟩
    · cases more with
      | nil => exact .inl (by rw [hstart, List.append_nil])
      | cons c more =>
        obtain ⟨-, hinside⟩ := List.cons.inj hmore
        exact absurd (hinside ▸ List.mem_append_right _ List.mem_cons_self) hinner
    · cases more with
      | nil => exact .inl (by rw [houter, List.append_nil])
      | cons c more =>
        obtain ⟨hc, -⟩ := List.cons.inj hmore
        exact .inr ⟨more, hc ▸ houter⟩

theorem takeWhile_inner (outer inner : List Char) :
    (outer ++ '$' :: inner).takeWhile (· != '$') = outer.takeWhile (· != '$') := by
  induction outer with
  | nil => rfl
  | cons c outer ih => simp only [List.cons_append, List.takeWhile_cons, ih]

theorem PlainPackage.of_inner (h : t.PlainPackage (outer ++ '$' :: inner)) : t.PlainPackage outer := by
  obtain ⟨hmapped, hback⟩ := h
  rw [takeWhile_inner] at hmapped hback
  exact ⟨hmapped, hback⟩

theorem renamed_again_chars_iff (h : t.Reversible) (cs : List Char) (hcs : t.HasEntry cs ∨ t.PlainPackage cs) :
    t.mapClassChars (t.wayBack cs).toList = t.mapClassChars cs ↔ t.WayBackClear cs := by
  by_cases hnew : t.IsNewName (t.mapClassChars cs)
  · exact iff_of_true (renamed_again_of_isNewName h hnew) (by rw [WayBackClear]; exact .inl hnew)
  · cases hsplit : Text.splitLast? '$' cs with
    | none =>
      have hdollar := Text.splitLast?_eq_none_iff.1 hsplit
      have hplain : t.PlainPackage cs := by
        refine hcs.resolve_left fun ⟨start, hstart, hentry⟩ => ?_
        rcases hstart with rfl | ⟨rest, rfl⟩
        · exact hnew (isNewName_of_entry hentry)
        · exact hdollar (List.mem_append_right _ List.mem_cons_self)
      rw [renamed_again_outermost_iff h hdollar hplain hnew, wayBackClear_outermost hdollar, or_iff_right hnew]
    | some parts =>
      obtain ⟨outer, inner⟩ := parts
      have hshorter := Text.length_lt_of_splitLast? hsplit
      obtain ⟨rfl, hinner⟩ := Text.splitLast?_eq_some_iff.1 hsplit
      have houter := hcs.imp (fun hentry => hentry.of_inner hinner hnew) PlainPackage.of_inner
      rw [renamed_again_inner_iff h hinner hnew, wayBackClear_inner hinner, or_iff_right hnew,
        renamed_again_chars_iff h outer houter]
termination_by cs.length

end

/-- **A class name survives the way back and there again** exactly where no class entry stands in the way. -/
theorem renamed_again_iff (entries : List RenameEntry) (hclasses : OneToOne (ofEntries entries).classes)
    (hpackages : OneToOne (ofEntries entries).packages) (name : String)
    (hname : (ofEntries entries).HasEntry name.toList ∨ (ofEntries entries).PlainPackage name.toList) :
    (ofEntries entries).mapClass ((ofEntries entries).reverse.mapClass ((ofEntries entries).mapClass name)) =
      (ofEntries entries).mapClass name ↔ (ofEntries entries).WayBackClear name.toList :=
  renamed_again_chars_iff ⟨hclasses, hpackages, packagesWritten_ofEntries entries⟩ name.toList hname

/-- Entries of which one is for a class in a renamed package. -/
def blockEntries : List RenameEntry :=
  [.package "a" "n", .classEntry "a/b" "n/B"]

/-- An inner class without an entry, in a renamed package. -/
theorem inner_renamed_again :
    OneToOne (ofEntries blockEntries).classes ∧ OneToOne (ofEntries blockEntries).packages ∧
    (ofEntries blockEntries).PlainPackage "a/q$1".toList ∧ (ofEntries blockEntries).WayBackClear "a/q$1".toList ∧
    (ofEntries blockEntries).mapClass ((ofEntries blockEntries).reverse.mapClass
      ((ofEntries blockEntries).mapClass "a/q$1")) = (ofEntries blockEntries).mapClass "a/q$1" := by
  have hclasses : OneToOne (ofEntries blockEntries).classes :=
    oneToOne_of_nodup (l := [("a/b", "n/B")]) (by cbv) (by decide)
  have hpackages : OneToOne (ofEntries blockEntries).packages :=
    oneToOne_of_nodup (l := [("a/", "n/")]) (by cbv) (by decide)
  have hmapped : (ofEntries blockEntries).mapPackage (packagePart ("a/q$1".toList.takeWhile (· != '$'))) =
      "n/" := by cbv
  have hback : (ofEntries blockEntries).reverse.mapPackage "n/" = "a/" := by cbv
  have hplain : (ofEntries blockEntries).PlainPackage "a/q$1".toList :=
    ⟨by rw [hmapped]; decide, by rw [hmapped, hback]; decide⟩
  have hclear : (ofEntries blockEntries).WayBackClear "a/q$1".toList := by
    have houter : (ofEntries blockEntries).WayBackClear "a/q".toList :=
      (wayBackClear_outermost (by decide)).2 (.inr (by cbv))
    have hparts : "a/q$1".toList = "a/q".toList ++ '$' :: ['1'] := by decide
    rw [hparts]
    exact (wayBackClear_inner (by decide)).2 (.inr ⟨by cbv, houter⟩)
  exact ⟨hclasses, hpackages, hplain, hclear,
    (renamed_again_iff blockEntries hclasses hpackages "a/q$1" (.inr hplain)).2 hclear⟩

/-- A table in which the new name of a package is the old name of another one, where a class keeps its name. -/
def takenPackage : RenameTable :=
  ofEntries [.package "a" "b", .classEntry "a/X" "c/Y"]

/-- A table with the mark of an inner class in the name of a package. -/
def markedPackage : RenameTable :=
  ofEntries [.package "a$b" "q"]

/-- **A class name need not survive the way back**: `b/X` keeps its name, which goes back to `a/X`, and that has an entry
for `c/Y`; and `q/Foo` goes back to `a$b/Foo`, which is read as an inner class of `a`. -/
theorem renamed_elsewhere :
    (OneToOne takenPackage.classes ∧ OneToOne takenPackage.packages ∧
      takenPackage.mapClass (takenPackage.reverse.mapClass (takenPackage.mapClass "b/X")) ≠
        takenPackage.mapClass "b/X") ∧
    OneToOne markedPackage.classes ∧ OneToOne markedPackage.packages ∧
      markedPackage.mapClass (markedPackage.reverse.mapClass (markedPackage.mapClass "q/Foo")) ≠
        markedPackage.mapClass "q/Foo" :=
  ⟨⟨oneToOne_of_nodup (l := [("a/X", "c/Y")]) (by cbv) (by decide),
      oneToOne_of_nodup (l := [("a/", "b/")]) (by cbv) (by decide), by cbv⟩,
    oneToOne_of_nodup (l := []) (by cbv) (by decide), oneToOne_of_nodup (l := [("a$b/", "q/")]) (by cbv) (by decide),
    by cbv⟩

end RenameTable
end RenameAudit
