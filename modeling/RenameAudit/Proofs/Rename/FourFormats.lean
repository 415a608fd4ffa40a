import Mathlib
import RenameAudit.Proofs.Rename.Lines
import RenameAudit.Proofs.Rename.Reverse
import RenameAudit.Proofs.Rename.Written
/-!
# Proofs.Rename.FourFormats — the four formats of a rename table say the same

Entries that can be written in all four formats are read from each of them as one table (`formats_agree`).  The formats
give packages with and without a slash, which is the same to a table (`ofEntries_slashed`).  The format is found from
the text too, except that an indented text without member lines counts as one of compact records, as which it says the
same (`compact_of_indented`).
-/
namespace RenameAudit

open Text NumberedLine

namespace RenameTable

theorem add_slashed (t : RenameTable) {e : RenameEntry} (h : e.Writable) : t.add e.slashed = t.add e := by
  have hname {name : String} (hn : RenameEntry.IsBarePackage name) : packageName (name ++ "/") = packageName name := by
    have hslash : IsPackageName (name ++ "/") := .inr (by simp [endsWith])
    have hne : name ≠ "" := fun heq => hn.ne_empty (by rw [heq]; rfl)
    rw [packageName_eq hslash, packageName, if_neg (not_or.2 ⟨hn.not_default, hne⟩),
      if_neg (by rw [hn.bare]; exact Bool.false_ne_true)]
  cases e with
  | package old mapped => rw [RenameEntry.slashed, add, add, hname h.1, hname h.2]
  | classEntry old mapped | field owner old mapped | method owner old descriptor mapped => rfl

/-- **A slash at the end of a package** makes no difference to a table. -/
theorem ofEntries_slashed {entries : List RenameEntry} (h : ∀ e ∈ entries, e.Writable) :
    ofEntries (entries.map RenameEntry.slashed) = ofEntries entries := by
  rw [ofEntries, ofEntries, addAll, addAll, List.foldl_map]
  exact List.foldl_ext _ _ _ fun t e he => add_slashed t (h e he)

end RenameTable

namespace RenameFormat

/-! ## Records -/

/-- Lines that do not depend on each other are read one by one. -/
theorem readAll_independent {entry : NumberedLine → Except LineFault RenameEntry} {entries : List RenameEntry}
    {lines : List (List Char)}
    (h : List.Forall₂ (fun e line => Clear line ∧ ∀ n, entry ⟨n, line⟩ = .ok e) entries lines) (n : Nat) :
    readAll (independent entry) () (numbered n lines) = .ok entries := by
  induction h generalizing n with
  | nil => rfl
  | cons hline _ ih =>
    rw [numbered_cons hline.1, readAll_cons (by rw [independent, hline.2 n]; rfl), ih]
    rfl

theorem splitPath_path (owner : String) {name : String} (h : '/' ∉ name.toList) :
    splitPath (owner ++ "/" ++ name) = .ok (owner, name) := by
  have hpath : (owner ++ "/" ++ name).toList = owner.toList ++ '/' :: name.toList := by
    rw [String.toList_append, String.toList_append, List.append_assoc]
    rfl
  rw [splitPath, hpath, splitLast?_append owner.toList h]
  simp only [String.ofList_toList]

theorem srgEntry_record {e : RenameEntry} {record : List String} (h : SrgRecord e record) (he : e.Writable) (n : Nat) :
    srgEntry ⟨n, joinWords record⟩ = .ok e := by
  rw [srgEntry, words_mk (h.tokens he)]
  cases h with
  | package old mapped | classEntry old mapped => rfl
  | field owner old mapped h | typedField owner old mapped h hd hd' =>
    obtain ⟨-, hold, hmapped⟩ := he
    simp only [srgField, splitPath_path _ hold.noSlash, splitPath_path _ hmapped.noSlash]
    rfl
  | method owner old descriptor mapped h hd' =>
    obtain ⟨-, hold, -, -, hmapped⟩ := he
    simp only [srgMethod, splitPath_path _ hold.noSlash, splitPath_path _ hmapped.noSlash]
    rfl

theorem endsWith_slashed (name : String) : endsWith '/' (name ++ "/") = true := by
  simp [endsWith]

theorem csrgEntry_record {e : RenameEntry} (he : e.Writable) (n : Nat) :
    csrgEntry ⟨n, joinWords (csrgRecord e)⟩ = .ok e.slashed := by
  rw [csrgEntry, words_mk (csrgRecord_tokens he)]
  cases e with
  | package old mapped =>
    simp only [csrgRecord, packageOrClass, endsWith_slashed]
    rfl
  | classEntry old mapped =>
    obtain ⟨-, hclass, -⟩ := he
    simp only [csrgRecord, packageOrClass, hclass]
    rfl
  | field owner old mapped | method owner old descriptor mapped => rfl

/-! ## Indented lines -/

theorem startsWith_tab_joinWords {ws : List String} (h : ∀ w ∈ ws, IsToken w) :
    startsWith "\t" (joinWords ws) = false := by
  refine Bool.eq_false_iff.2 fun hstart => blank_notMem_joinWords h (c := '\t') (by decide) (by decide) ?_
  exact (List.isPrefixOf_iff_prefix.1 hstart).subset (by decide)

theorem startsWith_tabs_joinWords {ws : List String} (h : ∀ w ∈ ws, IsToken w) :
    startsWith "\t\t" (joinWords ws) = false := by
  refine Bool.eq_false_iff.2 fun hstart => blank_notMem_joinWords h (c := '\t') (by decide) (by decide) ?_
  exact (List.isPrefixOf_iff_prefix.1 hstart).subset (by decide)

theorem memberLine_two (columns : Columns) {l : NumberedLine} {old mapped : String} {more : List String}
    (owner : String) (hwords : l.words = old :: mapped :: more) (hcount : more.length + 2 = columns.count) :
    memberLine columns owner l = .ok (.field owner old mapped) := by
  rw [memberLine, hwords]
  cases more with
  | nil => exact if_pos hcount.symm
  | cons w more =>
    rw [List.length_cons] at hcount
    have hother : ¬ more.length + 2 = columns.count := by omega
    simp only [hother, and_false, if_false]
    exact if_pos hcount

theorem memberLine_three (columns : Columns) {l : NumberedLine} {old descriptor mapped : String} {more : List String}
    (owner : String) (hwords : l.words = old :: descriptor :: mapped :: more)
    (hcount : more.length + 2 = columns.count) :
    memberLine columns owner l =
      if startsWith "(" descriptor.toList then .ok (.method owner old descriptor mapped)
      else if columns.typedFields then .ok (.field owner old mapped)
      else .error (.memberRecord l.text) := by
  have hother : ¬ more.length + 3 = columns.count := by omega
  simp only [memberLine, hwords, hcount, hother, and_true, if_false]

/-- **The line of an entry is read as that entry** below its class. -/
theorem indentedLine_entry {extra : Nat} {typedFields : Bool} {current : Option String} {e : RenameEntry}
    {record : List String} (h : IndentedRecord extra typedFields e record) (he : e.Writable)
    (hcurrent : e.BelongsTo current) (n : Nat) :
    indentedLine ⟨extra + 2, typedFields⟩ current ⟨n, e.indented (joinWords record)⟩
      = .ok (e.classBelow current, [e.slashed]) := by
  have htokens := h.tokens he
  have htab := startsWith_tab_joinWords htokens
  have htabs := startsWith_tabs_joinWords htokens
  have htabTabs : startsWith "\t\t" ('\t' :: joinWords record) = startsWith "\t" (joinWords record) := rfl
  have htabTab : startsWith "\t" ('\t' :: joinWords record) = true := rfl
  cases h with
  | package old mapped hcount hmore =>
    simp only [indentedLine, RenameEntry.indented, htab, htabs, classLine, words_mk htokens, hcount, endsWith_slashed]
    rfl
  | classEntry old mapped hcount hmore =>
    obtain ⟨-, hclass, -⟩ := he
    simp only [indentedLine, RenameEntry.indented, htab, htabs, classLine, words_mk htokens, hcount, hclass]
    rfl
  | field owner old mapped hcount hmore =>
    cases hcurrent
    have hline := memberLine_two ⟨extra + 2, typedFields⟩ owner (words_mk_tab htokens n) (by simp [hcount])
    simp only [indentedLine, RenameEntry.indented, htab, htabTab, htabTabs, hline]
    rfl
  | typedField owner old mapped htyped hd hfield hcount hmore =>
    cases hcurrent
    cases htyped
    have hline := memberLine_three ⟨extra + 2, true⟩ owner (words_mk_tab htokens n) (by simp [hcount])
    simp only [indentedLine, RenameEntry.indented, htab, htabTab, htabTabs, hline, hfield]
    rfl
  | method owner old descriptor mapped hcount hmore =>
    obtain ⟨-, -, -, hmethod, -⟩ := he
    cases hcurrent
    have hline := memberLine_three ⟨extra + 2, typedFields⟩ owner (words_mk_tab htokens n) (by simp [hcount])
    simp only [indentedLine, RenameEntry.indented, htab, htabTab, htabTabs, hline, hmethod]
    rfl

/-- What is left of a line that is indented twice is indented twice, if anything is. -/
theorem startsWith_of_isNote {note : List Char} (h : IsNote note) {l : NumberedLine} {n : Nat}
    (hl : meaningful? n note = some l) : startsWith "\t\t" l.content = true := by
  obtain ⟨rest, rfl, -⟩ := h
  have htake : ('\t' :: '\t' :: rest).takeWhile (· != '#') = '\t' :: '\t' :: rest.takeWhile (· != '#') := rfl
  have htabBlank : isBlank '\t' = true := rfl
  rw [NumberedLine.meaningful?, Option.ite_none_left_eq_some, htake, trimEnd_cons, trimEnd_cons, htabBlank] at hl
  obtain ⟨hcontent, hl⟩ := hl
  cases hrest : (trimEnd (rest.takeWhile (· != '#'))).isEmpty with
  | true => simp [hrest] at hcontent
  | false =>
    simp only [hrest] at hl
    rw [← Option.some.inj hl]
    rfl

theorem indentedLine_note {columns : Columns} (current : Option String) {notes : List (List Char)}
    (h : ∀ note ∈ notes, IsNote note) {n : Nat} {l : NumberedLine} (hl : l ∈ numbered n notes) :
    indentedLine columns current l = .ok (current, []) := by
  obtain ⟨note, hnote, hl⟩ := mem_numbered hl
  exact if_pos (startsWith_of_isNote (h note hnote) hl)

theorem clear_indented {e : RenameEntry} {record : List String} (h : ∀ w ∈ record, IsToken w) (hne : record ≠ []) :
    Clear (e.indented (joinWords record)) := by
  cases e with
  | package old mapped | classEntry old mapped => exact clear_joinWords h hne
  | field owner old mapped | method owner old descriptor mapped => exact (clear_joinWords h hne).tab

/-- **Indented lines are read as their entries.** -/
theorem readAll_indented {extra : Nat} {typedFields : Bool} {entries : List RenameEntry} {lines : List (List Char)}
    (h : IndentedLines extra typedFields entries lines) {current : Option String} (hgrouped : Grouped current entries)
    (hwritable : ∀ e ∈ entries, e.Writable) (n : Nat) :
    readAll (indentedLine ⟨extra + 2, typedFields⟩) current (numbered n lines)
      = .ok (entries.map RenameEntry.slashed) := by
  induction h generalizing current n with
  | nil => rfl
  | @cons e entries record notes lines hrecord hnotes _ ih =>
    have he := hwritable e List.mem_cons_self
    have hclear := clear_indented (e := e) (hrecord.tokens he) hrecord.ne_nil
    rw [numbered_cons hclear, numbered_append, readAll_cons (indentedLine_entry hrecord he hgrouped.1 n),
      readAll_skip fun l hl => indentedLine_note _ hnotes hl,
      ih hgrouped.2 fun e' he' => hwritable e' (List.mem_cons_of_mem e he')]
    rfl

theorem record_eq_csrgRecord {e : RenameEntry} {record : List String} (h : IndentedRecord 0 false e record)
    (hclass : e.BelongsTo none) : record = csrgRecord e := by
  cases h with
  | package old mapped hcount hmore | classEntry old mapped hcount hmore =>
    rw [List.eq_nil_of_length_eq_zero hcount]
    rfl
  | field owner old mapped hcount hmore | typedField owner old mapped htyped hd hfield hcount hmore
  | method owner old descriptor mapped hcount hmore => cases hclass

/-- **Indented lines without a tab are compact records** of the same entries. -/
theorem compact_of_indented {entries : List RenameEntry} {lines : List (List Char)}
    (h : IndentedLines 0 false entries lines) (hwritable : ∀ e ∈ entries, e.Writable) {n : Nat}
    (hflat : ∀ l ∈ numbered n lines, startsWith "\t" l.content = false) :
    readAll (independent csrgEntry) () (numbered n lines) = .ok (entries.map RenameEntry.slashed) := by
  induction h generalizing n with
  | nil => rfl
  | @cons e entries record notes lines hrecord hnotes _ ih =>
    have he := hwritable e List.mem_cons_self
    rw [numbered_cons (clear_indented (hrecord.tokens he) hrecord.ne_nil), numbered_append] at hflat ⊢
    have hclass : e.BelongsTo none ∧ e.indented (joinWords record) = joinWords record := by
      have hfirst := hflat _ List.mem_cons_self
      cases e with
      | package old mapped | classEntry old mapped => exact ⟨trivial, rfl⟩
      | field owner old mapped | method owner old descriptor mapped => cases hfirst
    have hnone : numbered (n + 1) notes = [] := by
      refine List.eq_nil_iff_forall_not_mem.2 fun l hl => ?_
      obtain ⟨note, hnote, hl'⟩ := mem_numbered hl
      have htabs := List.isPrefixOf_iff_prefix.1 (startsWith_of_isNote (hnotes note hnote) hl')
      have htab : startsWith "\t" l.content = true :=
        List.isPrefixOf_iff_prefix.2 ((show ['\t'] <+: ['\t', '\t'] by decide).trans htabs)
      exact absurd (htab.symm.trans (hflat l (List.mem_cons_of_mem _ (List.mem_append_left _ hl)))) (by decide)
    rw [hclass.2, record_eq_csrgRecord hrecord hclass.1,
      readAll_cons (by rw [independent, csrgEntry_record he]; rfl), hnone, List.nil_append,
      ih (fun e' he' => hwritable e' (List.mem_cons_of_mem e he'))
        fun l hl => hflat l (List.mem_cons_of_mem _ (List.mem_append_right _ hl))]
    rfl

/-! ## The format that a text suggests -/

theorem isTagged_append_cons {c : Char} (h : c = ' ' ∨ c = '/') (w rest : List Char) :
    isTagged (w ++ c :: rest) = isTagged w := by
  have htags : ∀ tag ∈ ["PK:", "CL:", "FD:", "MD:"], c ∉ tag.toList := by
    rcases h with rfl | rfl <;> decide
  rw [isTagged, isTagged, Bool.eq_iff_iff, List.any_eq_true, List.any_eq_true]
  refine exists_congr fun tag => and_congr_right fun htag => ?_
  rw [startsWith, isPrefixOf_append_cons (htags tag htag), startsWith]

theorem isTagged_joinWords (w v : String) (ws : List String) :
    isTagged (joinWords (w :: v :: ws)) = isTagged w.toList := by
  rw [joinWords_cons_cons, isTagged_append_cons (.inl rfl)]

theorem startsWith_header {w : String} (hw : IsToken w) (hne : w ≠ "tsrg2") (v : String) (ws : List String) :
    startsWith "tsrg2 " (joinWords (w :: v :: ws)) = false := by
  refine Bool.eq_false_iff.2 fun hstart => hne (String.toList_inj.1 ?_)
  rw [joinWords_cons_cons] at hstart
  have hblank : ' ' ∉ w.toList := fun hin => absurd (hw.plain ' ' hin).1 (by decide)
  have hprefix : "tsrg2".toList ++ [' '] <+: w.toList ++ ' ' :: joinWords (v :: ws) :=
    List.isPrefixOf_iff_prefix.1 hstart
  exact (eq_of_prefix_separator (by decide) hblank hprefix).symm

theorem ofLines?_untagged {w : String} (hw : IsToken w) (hne : w ≠ "tsrg2") (htag : isTagged w.toList = false)
    (v : String) (ws : List String) (n : Nat) (rest : List NumberedLine) :
    ofLines? (⟨n, joinWords (w :: v :: ws)⟩ :: rest)
      = if rest.any (fun l => startsWith "\t" l.content) then some tsrg else some csrg := by
  simp only [ofLines?, startsWith_header hw hne, isTagged_joinWords, htag]
  rfl

theorem ofLines?_tagged {w v : String} {ws : List String} (hw : IsToken w) (htag : isTagged w.toList = true) (n : Nat)
    (rest : List NumberedLine) : ofLines? (⟨n, joinWords (w :: v :: ws)⟩ :: rest) = some srg := by
  have hne : w ≠ "tsrg2" := fun heq => by rw [heq] at htag; exact absurd htag (by decide)
  simp only [ofLines?, startsWith_header hw hne, isTagged_joinWords, htag]
  rfl

end RenameFormat

/-! ## The texts of a list of entries -/

theorem noEnd_joinWords {record : List String} (h : ∀ w ∈ record, IsToken w) : '\n' ∉ joinWords record :=
  blank_notMem_joinWords h (by decide) (by decide)

theorem noEnd_indented {e : RenameEntry} {record : List String} (h : ∀ w ∈ record, IsToken w) :
    '\n' ∉ e.indented (joinWords record) := by
  cases e with
  | package old mapped | classEntry old mapped => exact noEnd_joinWords h
  | field owner old mapped | method owner old descriptor mapped =>
    exact fun hin => (List.mem_cons.1 hin).elim (absurd · (by decide)) (noEnd_joinWords h)

theorem IsNote.noEnd {note : List Char} (h : IsNote note) : '\n' ∉ note := by
  obtain ⟨rest, rfl, hrest⟩ := h
  simpa using hrest

theorem RenameEntry.exists_csrgRecord_of_untagged {e : RenameEntry} (hclass : e.BelongsTo none) (h : e.Untagged) :
    ∃ w v, csrgRecord e = [w, v] ∧ w ≠ "tsrg2" ∧ RenameFormat.isTagged w.toList = false := by
  cases e with
  | package old mapped =>
    refine ⟨old ++ "/", mapped ++ "/", rfl, fun heq => ?_, ?_⟩
    · have hend := RenameFormat.endsWith_slashed old
      rw [heq] at hend
      exact absurd hend (by decide)
    · rw [String.toList_append]
      exact (RenameFormat.isTagged_append_cons (.inr rfl) old.toList []).trans h.2
  | classEntry old mapped => exact ⟨old, mapped, rfl, h.1, h.2⟩
  | field owner old mapped | method owner old descriptor mapped => cases hclass

theorem RenameEntry.indented_of_belongsTo {e : RenameEntry} (hclass : e.BelongsTo none) (line : List Char) :
    e.indented line = line := by
  cases e with
  | package old mapped | classEntry old mapped => rfl
  | field owner old mapped | method owner old descriptor mapped => cases hclass

namespace RenameTable

theorem parseAs_of_entries {format : RenameFormat} {text : String} {entries : List RenameEntry}
    (h : format.entries text = .ok entries) : parseAs format text = .ok (ofEntries entries) := by
  rw [parseAs, h]
  rfl

theorem parse_of_detect {format : RenameFormat} {text : String} (h : RenameFormat.detect? text = some format) :
    parse text = parseAs format text := by
  rw [parse, h]

variable {entries : List RenameEntry} (hwritable : ∀ e ∈ entries, e.Writable)
include hwritable

theorem parseAs_of_slashed {format : RenameFormat} {text : String}
    (h : format.entries text = .ok (entries.map RenameEntry.slashed)) :
    parseAs format text = .ok (ofEntries entries) := by
  rw [parseAs_of_entries h, ofEntries_slashed hwritable]

/-! ### Tagged records -/

theorem clear_srg {records : List (List String)} (h : List.Forall₂ SrgRecord entries records) :
    List.Forall₂ (fun e line => Clear line ∧ ∀ n, RenameFormat.srgEntry ⟨n, line⟩ = .ok e) entries
      (records.map joinWords) := by
  rw [List.forall₂_map_right_iff]
  refine ((List.forall₂_and_left _ _).2 ⟨hwritable, h⟩).imp fun e record ⟨he, hrecord⟩ => ?_
  exact ⟨clear_joinWords (hrecord.tokens he) hrecord.ne_nil, RenameFormat.srgEntry_record hrecord he⟩

theorem ofText_srg {records : List (List String)} (h : List.Forall₂ SrgRecord entries records) :
    ofText (joinLines (records.map joinWords)) = numbered 1 (records.map joinWords) := by
  refine ofText_joinLines ?_
  induction h with
  | nil => exact fun _ hline => nomatch hline
  | @cons e record entries records hrecord _ ih =>
    rw [List.map_cons, List.forall_mem_cons]
    exact ⟨noEnd_joinWords (hrecord.tokens (hwritable e List.mem_cons_self)),
      ih fun e' he' => hwritable e' (List.mem_cons_of_mem e he')⟩

theorem parseAs_srg {text : String} (h : IsSrg entries text) : parseAs .srg text = .ok (ofEntries entries) := by
  obtain ⟨records, hrecords, rfl⟩ := h
  refine parseAs_of_entries ?_
  rw [RenameFormat.entries, ofText_srg hwritable hrecords]
  exact RenameFormat.readAll_independent (clear_srg hwritable hrecords) 1

theorem detect?_srg (hne : entries ≠ []) {text : String} (h : IsSrg entries text) :
    RenameFormat.detect? text = some .srg := by
  obtain ⟨records, hrecords, rfl⟩ := h
  rw [RenameFormat.detect?, ofText_srg hwritable hrecords]
  cases hrecords with
  | nil => exact absurd rfl hne
  | @cons e record entries records hrecord _ =>
    have htokens := hrecord.tokens (hwritable e List.mem_cons_self)
    rw [List.map_cons, numbered_cons (clear_joinWords htokens hrecord.ne_nil)]
    obtain ⟨tag, w, ws, rfl, htag⟩ := hrecord.exists_tag
    exact RenameFormat.ofLines?_tagged (htokens tag List.mem_cons_self) htag 1 _

/-! ### Compact records -/

theorem ofText_csrg {text : String} (h : IsCsrg entries text) :
    ofText text = numbered 1 (entries.map fun e => joinWords (csrgRecord e)) := by
  rw [h]
  refine ofText_joinLines fun line hline => ?_
  obtain ⟨e, he, rfl⟩ := List.mem_map.1 hline
  exact noEnd_joinWords (csrgRecord_tokens (hwritable e he))

theorem parseAs_csrg {text : String} (h : IsCsrg entries text) : parseAs .csrg text = .ok (ofEntries entries) := by
  refine parseAs_of_slashed hwritable ?_
  rw [RenameFormat.entries, ofText_csrg hwritable h]
  refine RenameFormat.readAll_independent ?_ 1
  rw [List.forall₂_map_left_iff, List.forall₂_map_right_iff, List.forall₂_same]
  intro e he
  exact ⟨clear_joinWords (csrgRecord_tokens (hwritable e he)) (csrgRecord_ne_nil e),
    RenameFormat.csrgEntry_record (hwritable e he)⟩

theorem detect?_csrg (hne : entries ≠ []) (hgrouped : Grouped none entries) (huntagged : ∀ e ∈ entries, e.Untagged)
    {text : String} (h : IsCsrg entries text) : RenameFormat.detect? text = some .csrg := by
  have hclear : ∀ e ∈ entries, Clear (joinWords (csrgRecord e)) := fun e he =>
    clear_joinWords (csrgRecord_tokens (hwritable e he)) (csrgRecord_ne_nil e)
  rw [RenameFormat.detect?, ofText_csrg hwritable h]
  cases entries with
  | nil => exact absurd rfl hne
  | cons e entries =>
    have htokens := csrgRecord_tokens (hwritable e List.mem_cons_self)
    obtain ⟨w, v, hrecord, hheader, htag⟩ :=
      RenameEntry.exists_csrgRecord_of_untagged hgrouped.1 (huntagged e List.mem_cons_self)
    rw [List.map_cons, numbered_cons (hclear e List.mem_cons_self), hrecord,
      RenameFormat.ofLines?_untagged (htokens w (by simp [hrecord])) hheader htag, if_neg]
    rw [Bool.not_eq_true, List.any_eq_false]
    intro l hl
    obtain ⟨line, hline, hl⟩ := mem_numbered hl
    obtain ⟨e', he', rfl⟩ := List.mem_map.1 hline
    have hmem := List.mem_cons_of_mem e he'
    rw [(hclear e' hmem).meaningful?] at hl
    rw [← Option.some.inj hl, RenameFormat.startsWith_tab_joinWords (csrgRecord_tokens (hwritable e' hmem))]
    exact Bool.false_ne_true

/-! ### Indented lines -/

theorem noEnd_indentedLines {extra : Nat} {typedFields : Bool} {lines : List (List Char)}
    (h : IndentedLines extra typedFields entries lines) : ∀ line ∈ lines, '\n' ∉ line := by
  induction h with
  | nil => exact fun _ hline => nomatch hline
  | @cons e entries record notes lines hrecord hnotes _ ih =>
    rw [List.forall_mem_cons, List.forall_mem_append]
    exact ⟨noEnd_indented (hrecord.tokens (hwritable e List.mem_cons_self)),
      fun note hnote => (hnotes note hnote).noEnd, ih fun e' he' => hwritable e' (List.mem_cons_of_mem e he')⟩

theorem parseAs_tsrg (hgrouped : Grouped none entries) {text : String} (h : IsTsrg entries text) :
    parseAs .tsrg text = .ok (ofEntries entries) := by
  obtain ⟨lines, hlines, rfl⟩ := h
  refine parseAs_of_slashed hwritable ?_
  rw [RenameFormat.entries, ofText_joinLines (noEnd_indentedLines hwritable hlines)]
  exact RenameFormat.readAll_indented hlines hgrouped hwritable 1

/-- **An indented text is taken for one**, or else for one of compact records that says the same. -/
theorem parse_tsrg (hne : entries ≠ []) (hgrouped : Grouped none entries) (huntagged : ∀ e ∈ entries, e.Untagged)
    {text : String} (h : IsTsrg entries text) : parse text = .ok (ofEntries entries) := by
  have hindented := parseAs_tsrg hwritable hgrouped h
  obtain ⟨lines, hlines, rfl⟩ := h
  have htext := ofText_joinLines (noEnd_indentedLines hwritable hlines)
  have hcompact : (∀ l ∈ numbered 1 lines, startsWith "\t" l.content = false) →
      parseAs .csrg (joinLines lines) = .ok (ofEntries entries) := by
    intro hflat
    refine parseAs_of_slashed hwritable ?_
    rw [RenameFormat.entries, htext]
    exact RenameFormat.compact_of_indented hlines hwritable hflat
  cases hlines with
  | nil => exact absurd rfl hne
  | @cons e entries record notes lines hrecord hnotes _ =>
    have htokens := hrecord.tokens (hwritable e List.mem_cons_self)
    obtain ⟨w, v, hwords, hheader, htag⟩ :=
      RenameEntry.exists_csrgRecord_of_untagged hgrouped.1 (huntagged e List.mem_cons_self)
    have hfirst := clear_joinWords htokens hrecord.ne_nil
    rw [e.indented_of_belongsTo hgrouped.1] at htext hcompact hindented ⊢
    rw [numbered_cons hfirst] at htext hcompact
    rw [RenameFormat.record_eq_csrgRecord hrecord hgrouped.1, hwords] at htokens htext hcompact hindented ⊢
    have hdetect := RenameFormat.ofLines?_untagged (htokens w List.mem_cons_self) hheader htag v [] 1
      (numbered 2 (notes ++ lines))
    rw [← htext, ← RenameFormat.detect?] at hdetect
    cases htabs : (numbered 2 (notes ++ lines)).any (fun l => startsWith "\t" l.content) with
    | true =>
      rw [htabs, if_pos rfl] at hdetect
      rw [parse_of_detect hdetect, hindented]
    | false =>
      rw [htabs, if_neg Bool.false_ne_true] at hdetect
      rw [parse_of_detect hdetect]
      refine hcompact (List.forall_mem_cons.2 ⟨RenameFormat.startsWith_tab_joinWords htokens, fun l hl => ?_⟩)
      exact Bool.eq_false_iff.2 (List.any_eq_false.1 htabs l hl)

/-! ### Indented lines below a header -/

theorem ofText_tsrg2 {header : List String} {lines : List (List Char)} (htokens : ∀ w ∈ header, IsToken w)
    (hne : header ≠ []) {extra : Nat} (h : IndentedLines extra true entries lines) :
    ofText (joinLines (joinWords header :: lines)) = ⟨1, joinWords header⟩ :: numbered 2 lines := by
  rw [ofText_joinLines (List.forall_mem_cons.2 ⟨noEnd_joinWords htokens, noEnd_indentedLines hwritable h⟩),
    numbered_cons (clear_joinWords htokens hne)]

theorem parseAs_tsrg2 (hgrouped : Grouped none entries) {text : String} (h : IsTsrg2 entries text) :
    parseAs .tsrg2 text = .ok (ofEntries entries) := by
  obtain ⟨source, target, more, lines, htokens, hlines, rfl⟩ := h
  refine parseAs_of_slashed hwritable ?_
  rw [RenameFormat.entries, ofText_tsrg2 hwritable htokens (List.cons_ne_nil _ _) hlines]
  have hcount : (words ⟨1, joinWords ("tsrg2" :: source :: target :: more)⟩).length - 1 = more.length + 2 := by
    rw [words_mk htokens]
    rfl
  simp only [RenameFormat.headedEntries, hcount]
  rw [if_neg (by omega)]
  exact RenameFormat.readAll_indented hlines hgrouped hwritable 2

theorem detect?_tsrg2 {text : String} (h : IsTsrg2 entries text) : RenameFormat.detect? text = some .tsrg2 := by
  obtain ⟨source, target, more, lines, htokens, hlines, rfl⟩ := h
  rw [RenameFormat.detect?, ofText_tsrg2 hwritable htokens (List.cons_ne_nil _ _) hlines, joinWords_cons_cons]
  rfl

omit hwritable

/-- **The four formats of a rename table say the same.**  Entries that can be written in all of them, each class with
its members below it, give one table in every format, and also where the format is found from the text, unless a class
or package could be taken for a tag or a header. -/
theorem formats_agree {entries : List RenameEntry} (hne : entries ≠ []) (hwritable : ∀ e ∈ entries, e.Writable)
    (hgrouped : Grouped none entries) {srg csrg tsrg tsrg2 : String} (hsrg : IsSrg entries srg)
    (hcsrg : IsCsrg entries csrg) (htsrg : IsTsrg entries tsrg) (htsrg2 : IsTsrg2 entries tsrg2) :
    (parseAs .srg srg = .ok (ofEntries entries) ∧ parseAs .csrg csrg = .ok (ofEntries entries) ∧
      parseAs .tsrg tsrg = .ok (ofEntries entries) ∧ parseAs .tsrg2 tsrg2 = .ok (ofEntries entries)) ∧
    ((∀ e ∈ entries, e.Untagged) →
      parse srg = .ok (ofEntries entries) ∧ parse csrg = .ok (ofEntries entries) ∧
      parse tsrg = .ok (ofEntries entries) ∧ parse tsrg2 = .ok (ofEntries entries)) := by
  have hsrg' := parseAs_srg hwritable hsrg
  have hcsrg' := parseAs_csrg hwritable hcsrg
  have htsrg2' := parseAs_tsrg2 hwritable hgrouped htsrg2
  refine ⟨⟨hsrg', hcsrg', parseAs_tsrg hwritable hgrouped htsrg, htsrg2'⟩, fun huntagged => ⟨?_, ?_, ?_, ?_⟩⟩
  · rw [parse_of_detect (detect?_srg hwritable hne hsrg), hsrg']
  · rw [parse_of_detect (detect?_csrg hwritable hne hgrouped huntagged hcsrg), hcsrg']
  · exact parse_tsrg hwritable hne hgrouped huntagged htsrg
  · rw [parse_of_detect (detect?_tsrg2 hwritable htsrg2), htsrg2']

/-- One entry of each kind. -/
def fourEntries : List RenameEntry :=
  [.package "p" "q", .classEntry "p/A" "q/B", .field "p/A" "f" "g", .method "p/A" "m" "()V" "n"]

/-- One entry of each kind in the four formats; the last text has a third column, a typed field and a note. -/
theorem fourEntries_agree :
    parse "PK: p q\nCL: p/A q/B\nFD: p/A/f q/B/g\nMD: p/A/m ()V q/B/n ()V\n" = .ok (ofEntries fourEntries) ∧
    parse "p/ q/\np/A q/B\np/A f g\np/A m ()V n\n" = .ok (ofEntries fourEntries) ∧
    parse "p/ q/\np/A q/B\n\tf g\n\tm ()V n\n" = .ok (ofEntries fourEntries) ∧
    parse "tsrg2 a b c\np/ q/ r/\np/A q/B C\n\tf I g h\n\tm ()V n o\n\t\t0 x\n" = .ok (ofEntries fourEntries) := by
  have hwritable : ∀ e ∈ fourEntries, e.Writable := by
    have hmember : ∀ w ∈ ["f", "g", "m", "n"], RenameEntry.IsMemberName w := fun w hw =>
      ⟨by revert w; decide, by revert w; decide⟩
    simp only [fourEntries, List.forall_mem_cons]
    exact ⟨⟨⟨by decide, by decide, by decide⟩, ⟨by decide, by decide, by decide⟩⟩, ⟨by decide, by decide, by decide⟩,
      ⟨by decide, hmember _ (by decide), hmember _ (by decide)⟩,
      ⟨by decide, hmember _ (by decide), by decide, by decide, hmember _ (by decide)⟩, nofun⟩
  have hgrouped : Grouped none fourEntries := ⟨trivial, trivial, rfl, rfl, trivial⟩
  have huntagged : ∀ e ∈ fourEntries, e.Untagged := by
    simp only [fourEntries, List.forall_mem_cons]
    exact ⟨⟨by decide, by decide⟩, ⟨by decide, by decide⟩, trivial, trivial, nofun⟩
  have hsrg : IsSrg fourEntries "PK: p q\nCL: p/A q/B\nFD: p/A/f q/B/g\nMD: p/A/m ()V q/B/n ()V\n" := by
    have hfield : SrgRecord (.field "p/A" "f" "g") ["FD:", "p/A" ++ "/" ++ "f", "q/B" ++ "/" ++ "g"] :=
      .field "p/A" "f" "g" (by decide)
    have hmethod : SrgRecord (.method "p/A" "m" "()V" "n")
        ["MD:", "p/A" ++ "/" ++ "m", "()V", "q/B" ++ "/" ++ "n", "()V"] :=
      .method "p/A" "m" "()V" "n" (by decide) (by decide)
    exact ⟨_, .cons (.package "p" "q") (.cons (.classEntry "p/A" "q/B") (.cons hfield (.cons hmethod .nil))), by decide⟩
  have hcsrg : IsCsrg fourEntries "p/ q/\np/A q/B\np/A f g\np/A m ()V n\n" := by
    rw [IsCsrg]
    decide
  have hnotes : ∀ note ∈ ([] : List (List Char)), IsNote note := nofun
  have htsrg : IsTsrg fourEntries "p/ q/\np/A q/B\n\tf g\n\tm ()V n\n" := by
    have hmore : ∀ w ∈ ([] : List String), IsToken w := nofun
    exact ⟨_, .cons (.package "p" "q" rfl hmore) hnotes (.cons (.classEntry "p/A" "q/B" rfl hmore) hnotes
      (.cons (.field "p/A" "f" "g" rfl hmore) hnotes (.cons (.method "p/A" "m" "()V" "n" rfl hmore) hnotes .nil))),
      by decide⟩
  have htsrg2 : IsTsrg2 fourEntries "tsrg2 a b c\np/ q/ r/\np/A q/B C\n\tf I g h\n\tm ()V n o\n\t\t0 x\n" := by
    have hpackage : IndentedRecord 1 true (.package "p" "q") ["p" ++ "/", "q" ++ "/", "r/"] :=
      .package "p" "q" rfl (by decide)
    have hclass : IndentedRecord 1 true (.classEntry "p/A" "q/B") ["p/A", "q/B", "C"] :=
      .classEntry "p/A" "q/B" rfl (by decide)
    have hfield : IndentedRecord 1 true (.field "p/A" "f" "g") ["f", "I", "g", "h"] :=
      .typedField "p/A" "f" "g" rfl (by decide) (by decide) rfl (by decide)
    have hmethod : IndentedRecord 1 true (.method "p/A" "m" "()V" "n") ["m", "()V", "n", "o"] :=
      .method "p/A" "m" "()V" "n" rfl (by decide)
    have hnote : ∀ note ∈ ["\t\t0 x".toList], IsNote note :=
      List.forall_mem_singleton.2 ⟨"0 x".toList, by decide, by decide⟩
    exact ⟨"a", "b", ["c"], _, by decide,
      .cons hpackage hnotes (.cons hclass hnotes (.cons hfield hnotes (.cons hmethod hnote .nil))), by decide⟩
  exact (formats_agree (List.cons_ne_nil _ _) hwritable hgrouped hsrg hcsrg htsrg htsrg2).2 huntagged

end RenameTable
end RenameAudit
