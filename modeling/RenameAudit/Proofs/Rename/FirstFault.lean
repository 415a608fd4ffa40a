import RenameAudit.Proofs.Rename.Lines
import RenameAudit.Proofs.Text.Lines
/-!
# Proofs.Rename.FirstFault — a refused text is told of its first bad line

Reading goes from line to line with what it knows from the lines above, and never looks ahead.  So the line that is
reported is the first bad one: the lines above it can be read by themselves, and with any lines below it the report is the
same (`readLines_fault`).  Only the header of a format that has one has to stand among the lines above.
-/
namespace RenameAudit

open Text

namespace NumberedLine

variable {σ α : Type} {step : σ → NumberedLine → Except LineFault (σ × List α)}

theorem number_of_meaningful? {m : Nat} {line : List Char} {l : NumberedLine} (h : meaningful? m line = some l) :
    l.number = m := by
  rw [meaningful?, Option.ite_none_left_eq_some] at h
  exact congrArg number (Option.some.inj h.2).symm

theorem numbered_cons_some {m : Nat} {line : List Char} {l : NumberedLine} (h : meaningful? m line = some l)
    (lines : List (List Char)) : numbered m (line :: lines) = l :: numbered (m + 1) lines := by
  simp [numbered, List.zipIdx_cons, h]

theorem numbered_cons_none {m : Nat} {line : List Char} (h : meaningful? m line = none) (lines : List (List Char)) :
    numbered m (line :: lines) = numbered (m + 1) lines := by
  simp [numbered, List.zipIdx_cons, h]

theorem le_number_of_mem {m : Nat} {lines : List (List Char)} {l : NumberedLine} (h : l ∈ numbered m lines) :
    m ≤ l.number := by
  obtain ⟨p, hp, hl⟩ := List.mem_filterMap.1 h
  rw [number_of_meaningful? hl]
  exact (List.mem_zipIdx hp).1

/-! ## Ends of lines -/

theorem meaningful?_append_return (m : Nat) (line : List Char) : meaningful? m (line ++ ['\r']) = meaningful? m line := by
  have htrim (cs : List Char) : trimEnd (cs ++ ['\r']) = trimEnd cs := by
    simp only [trimEnd, List.foldr_append]
    rfl
  by_cases hcomment : ∀ c ∈ line, (c != '#') = true
  · have hall := List.takeWhile_eq_self_iff.2 hcomment
    simp [meaningful?, List.takeWhile_append_of_pos hcomment, htrim, hall]
  · have hstop : (line ++ ['\r']).takeWhile (· != '#') = line.takeWhile (· != '#') := by
      rw [List.takeWhile_append, if_neg]
      intro hlength
      exact hcomment (List.takeWhile_eq_self_iff.1 ((List.takeWhile_prefix _).eq_of_length hlength))
    rw [meaningful?, hstop, meaningful?]

/-- **A text is read line by line**, however its lines end. -/
theorem ofText_eq (text : String) : ofText text = numbered 1 (lines text) := by
  obtain ⟨rest, hrest, hsplit⟩ := splitOn_eq_pieces text.toList
  have hnone : ∀ n, numbered n rest = [] := by
    intro n
    rcases hrest with rfl | rfl <;> rfl
  have hends : ∀ (ps : List (List Char)) (m : Nat), (∀ p ∈ ps, p ∈ pieces text.toList) →
      numbered m (ps.map (·.takeWhile (· != '\n'))) = numbered m (ps.map withoutEnd) := by
    intro ps
    induction ps with
    | nil => intro m _; rfl
    | cons p ps ih =>
      intro m hps
      have hline : meaningful? m (p.takeWhile (· != '\n')) = meaningful? m (withoutEnd p) := by
        rcases takeWhile_of_mem_pieces (hps p List.mem_cons_self) with h | h
        · rw [h]
        · rw [h, meaningful?_append_return]
      have hmore := ih (m + 1) fun q hq => hps q (List.mem_cons_of_mem _ hq)
      cases hp : meaningful? m (withoutEnd p) with
      | none => rw [List.map_cons, List.map_cons, numbered_cons_none (hline.trans hp), numbered_cons_none hp, hmore]
      | some l => rw [List.map_cons, List.map_cons, numbered_cons_some (hline.trans hp), numbered_cons_some hp, hmore]
  show numbered 1 (splitOn '\n' text.toList) = _
  rw [hsplit, numbered_append, hnone, List.append_nil, hends _ _ fun p hp => hp, lines]

/-! ## Reading line by line -/

/-- **The line that is reported is the first bad one.** -/
theorem readAll_fault {s : σ} {m n : Nat} {lines : List (List Char)} {e : LineFault}
    (h : readAll step s (numbered m lines) = .error (.atLine n e)) :
    ∃ before line after, lines = before ++ line :: after ∧ n = m + before.length ∧
      (∃ as, readAll step s (numbered m before) = .ok as) ∧
      ∀ more, readAll step s (numbered m (before ++ line :: more)) = .error (.atLine n e) := by
  induction lines generalizing s m with
  | nil => cases h
  | cons line lines ih =>
    cases hline : meaningful? m line with
    | none =>
      rw [numbered_cons_none hline] at h
      obtain ⟨before, bad, after, rfl, hn, hbefore, hmore⟩ := ih h
      refine ⟨line :: before, bad, after, rfl, by simp; omega, ?_, fun more => ?_⟩
      · rwa [numbered_cons_none hline]
      · rw [List.cons_append, numbered_cons_none hline, hmore]
    | some l =>
      rw [numbered_cons_some hline] at h
      cases hstep : step s l with
      | error fault =>
        rw [readAll, hstep] at h
        cases h
        refine ⟨[], line, lines, rfl, number_of_meaningful? hline, ⟨[], rfl⟩, fun more => ?_⟩
        rw [List.nil_append, numbered_cons_some hline, readAll, hstep]
      | ok result =>
        obtain ⟨s', as⟩ := result
        rw [readAll_cons hstep] at h
        cases hrest : readAll step s' (numbered (m + 1) lines) with
        | ok rest => rw [hrest] at h; cases h
        | error fault =>
          rw [hrest] at h
          cases h
          obtain ⟨before, bad, after, rfl, hn, ⟨bs, hbefore⟩, hmore⟩ := ih hrest
          refine ⟨line :: before, bad, after, rfl, by simp; omega, ⟨as ++ bs, ?_⟩, fun more => ?_⟩
          · rw [numbered_cons_some hline, readAll_cons hstep, hbefore]
            rfl
          · rw [List.cons_append, numbered_cons_some hline, readAll_cons hstep, hmore]
            rfl

/-- What can be read can be read up to any place. -/
theorem readAll_of_append {s : σ} {before after : List NumberedLine} {as : List α}
    (h : readAll step s (before ++ after) = .ok as) : ∃ bs, readAll step s before = .ok bs := by
  induction before generalizing s as with
  | nil => exact ⟨[], rfl⟩
  | cons l before ih =>
    rw [List.cons_append] at h
    cases hstep : step s l with
    | error fault => rw [readAll, hstep] at h; cases h
    | ok result =>
      obtain ⟨s', cs⟩ := result
      rw [readAll_cons hstep] at h
      cases hrest : readAll step s' (before ++ after) with
      | error fault => rw [hrest] at h; cases h
      | ok rest =>
        obtain ⟨bs, hbs⟩ := ih hrest
        exact ⟨cs ++ bs, by rw [readAll_cons hstep, hbs]; rfl⟩

end NumberedLine

open NumberedLine

namespace RenameFormat

/-- The entries of lines in a format. -/
def readLines (format : RenameFormat) (lines : List (List Char)) : Except TableFault (List RenameEntry) :=
  match format with
  | srg => readAll (independent srgEntry) () (numbered 1 lines)
  | csrg => readAll (independent csrgEntry) () (numbered 1 lines)
  | tsrg => readAll (indentedLine ⟨2, false⟩) none (numbered 1 lines)
  | tsrg2 => headedEntries (numbered 1 lines)

theorem entries_eq (format : RenameFormat) (text : String) : format.entries text = format.readLines (lines text) := by
  cases format <;> simp only [entries, readLines, ofText_eq]

/-- Whether lines have the header, where a format has one. -/
def HasHeader (format : RenameFormat) (lines : List (List Char)) : Prop :=
  format = tsrg2 → numbered 1 lines ≠ []

/-- The header of lines is the first that says something. -/
theorem exists_header {m : Nat} {lines : List (List Char)} {header : NumberedLine} {ls : List NumberedLine}
    (h : numbered m lines = header :: ls) :
    ∃ blank line rest, lines = blank ++ line :: rest ∧ header.number = m + blank.length ∧
      ls = numbered (m + blank.length + 1) rest ∧ numbered m blank = [] ∧
      ∀ more, numbered m (blank ++ line :: more) = header :: numbered (m + blank.length + 1) more := by
  induction lines generalizing m with
  | nil => cases h
  | cons line lines ih =>
    cases hline : meaningful? m line with
    | none =>
      rw [numbered_cons_none hline] at h
      obtain ⟨blank, first, rest, rfl, hnumber, hls, hblank, hmore⟩ := ih h
      have hshift : m + 1 + blank.length = m + (line :: blank).length := by simp; omega
      rw [hshift] at hnumber hls hmore
      refine ⟨line :: blank, first, rest, rfl, hnumber, hls, ?_, fun more => ?_⟩
      · rw [numbered_cons_none hline, hblank]
      · rw [List.cons_append, numbered_cons_none hline, hmore]
    | some l =>
      rw [numbered_cons_some hline] at h
      cases h
      exact ⟨[], line, lines, rfl, number_of_meaningful? hline, rfl, rfl,
        fun more => by rw [List.nil_append, numbered_cons_some hline]; rfl⟩

theorem headedEntries_fault {lines : List (List Char)} {n : Nat} {e : LineFault}
    (h : headedEntries (numbered 1 lines) = .error (.atLine n e)) :
    ∃ before line after, lines = before ++ line :: after ∧ n = before.length + 1 ∧
      (numbered 1 before ≠ [] → ∃ entries, headedEntries (numbered 1 before) = .ok entries) ∧
      ∀ more, headedEntries (numbered 1 (before ++ line :: more)) = .error (.atLine n e) := by
  cases hlines : numbered 1 lines with
  | nil => rw [hlines] at h; cases h
  | cons header ls =>
    obtain ⟨blank, first, rest, rfl, hnumber, rfl, hblank, hfirst⟩ := exists_header hlines
    rw [hlines, headedEntries] at h
    split at h
    · rename_i hfew
      cases h
      refine ⟨blank, first, rest, rfl, by omega, fun hne => absurd hblank hne, fun more => ?_⟩
      rw [hfirst, headedEntries, if_pos hfew]
    · rename_i henough
      obtain ⟨before, line, after, rfl, hn, ⟨entries, hbefore⟩, hmore⟩ := readAll_fault h
      refine ⟨blank ++ first :: before, line, after, by simp, by simp; omega, fun _ => ⟨entries, ?_⟩, fun more => ?_⟩
      · rw [hfirst, headedEntries, if_neg henough, hbefore]
      · rw [List.append_assoc, List.cons_append, hfirst, headedEntries, if_neg henough, hmore]

theorem headedEntries_of_append {before after : List NumberedLine} {entries : List RenameEntry}
    (h : headedEntries (before ++ after) = .ok entries) (hne : before ≠ []) :
    ∃ entries', headedEntries before = .ok entries' := by
  cases before with
  | nil => exact absurd rfl hne
  | cons header before =>
    rw [List.cons_append, headedEntries] at h
    rw [headedEntries]
    split at h
    · cases h
    · rw [if_neg ‹_›]
      exact readAll_of_append h

/-- **The line that is reported is the first bad one**, in every format. -/
theorem readLines_fault {format : RenameFormat} {lines : List (List Char)} {n : Nat} {e : LineFault}
    (h : format.readLines lines = .error (.atLine n e)) :
    ∃ before line after, lines = before ++ line :: after ∧ n = before.length + 1 ∧
      (format.HasHeader before → ∃ entries, format.readLines before = .ok entries) ∧
      ∀ more, format.readLines (before ++ line :: more) = .error (.atLine n e) := by
  have hplain : ∀ {σ : Type} {step : σ → NumberedLine → Except LineFault (σ × List RenameEntry)} {s : σ},
      readAll step s (numbered 1 lines) = .error (.atLine n e) →
      ∃ before line after, lines = before ++ line :: after ∧ n = before.length + 1 ∧
        (format.HasHeader before → ∃ entries, readAll step s (numbered 1 before) = .ok entries) ∧
        ∀ more, readAll step s (numbered 1 (before ++ line :: more)) = .error (.atLine n e) := by
    intro σ step s h
    obtain ⟨before, line, after, hlines, hn, hbefore, hmore⟩ := readAll_fault h
    exact ⟨before, line, after, hlines, by omega, fun _ => hbefore, hmore⟩
  cases format with
  | srg => exact hplain h
  | csrg => exact hplain h
  | tsrg => exact hplain h
  | tsrg2 =>
    obtain ⟨before, line, after, hlines, hn, hbefore, hmore⟩ := headedEntries_fault h
    exact ⟨before, line, after, hlines, hn, fun hheader => hbefore (hheader rfl), hmore⟩

theorem readLines_of_append {format : RenameFormat} {before after : List (List Char)} {entries : List RenameEntry}
    (h : format.readLines (before ++ after) = .ok entries) (hheader : format.HasHeader before) :
    ∃ entries', format.readLines before = .ok entries' := by
  cases format with
  | srg | csrg | tsrg =>
    simp only [readLines, numbered_append] at h
    exact readAll_of_append h
  | tsrg2 =>
    simp only [readLines, numbered_append] at h
    exact headedEntries_of_append h (hheader rfl)

/-- A header that comes before a line is among the lines above it. -/
theorem hasHeader_take {format : RenameFormat} {text : String} {n : Nat}
    (h : format = tsrg2 → ∃ header, (ofText text).head? = some header ∧ header.number < n) :
    format.HasHeader ((lines text).take (n - 1)) := by
  intro hformat hnone
  obtain ⟨header, hheader, hlt⟩ := h hformat
  rw [ofText_eq, ← List.take_append_drop (n - 1) (lines text), numbered_append, hnone, List.nil_append] at hheader
  have hle := le_number_of_mem (List.mem_of_mem_head? hheader)
  rw [List.length_take] at hle
  -- Where the text has fewer lines, nothing is left below them.
  by_cases hlen : n - 1 ≤ (lines text).length
  · omega
  · rw [List.drop_eq_nil_of_le (by omega)] at hheader
    cases hheader

end RenameFormat

namespace RenameTable

open RenameFormat

theorem parseAs_eq (format : RenameFormat) (text : String) :
    parseAs format text = (format.readLines (lines text)).map ofEntries := by
  rw [parseAs, entries_eq]

/-- **A refused text is told of its first bad line.**  The text of the lines above the reported one is accepted, and every
text with the same lines up to the reported one is refused for the same line and reason.  So an accepted text is accepted
up to any of its lines.  In the format with a header that has to be among the lines. -/
theorem first_bad_line_reported (format : RenameFormat) (text : String) :
    (∀ n fault, parseAs format text = .error (.atLine n fault) →
      (1 ≤ n ∧ n ≤ (lines text).length) ∧
      ((format = .tsrg2 → ∃ header, (ofText text).head? = some header ∧ header.number < n) →
        ∃ table, parseAs format (firstLines (n - 1) text) = .ok table) ∧
      ∀ other, (lines other).take n = (lines text).take n → parseAs format other = .error (.atLine n fault)) ∧
    ∀ count table, parseAs format text = .ok table →
      (format = .tsrg2 → ∃ header, (ofText text).head? = some header ∧ header.number ≤ count) →
        ∃ table', parseAs format (firstLines count text) = .ok table' := by
  refine ⟨fun n fault h => ?_, fun count table h hheader => ?_⟩
  · rw [parseAs_eq] at h
    cases hread : format.readLines (lines text) with
    | ok entries => rw [hread] at h; cases h
    | error e =>
      rw [hread] at h
      cases h
      obtain ⟨before, line, after, hlines, rfl, hbefore, hmore⟩ := readLines_fault hread
      have habove : (lines text).take (before.length + 1 - 1) = before := by simp [hlines]
      have hupto : (lines text).take (before.length + 1) = before ++ [line] := by
        rw [hlines, List.take_length_add_append]
        rfl
      refine ⟨⟨by omega, by simp [hlines]⟩, fun hheader => ?_, fun other hother => ?_⟩
      · obtain ⟨entries, hentries⟩ := hbefore (habove ▸ hasHeader_take hheader)
        exact ⟨ofEntries entries, by rw [parseAs_eq, lines_firstLines, habove, hentries]; rfl⟩
      · have hlinesOther : lines other = before ++ line :: (lines other).drop (before.length + 1) := by
          rw [← List.singleton_append, ← List.append_assoc, ← hupto, ← hother, List.take_append_drop]
        rw [parseAs_eq, hlinesOther, hmore]
        rfl
  · rw [parseAs_eq] at h
    cases hread : format.readLines (lines text) with
    | error e => rw [hread] at h; cases h
    | ok entries =>
      have hhas : format.HasHeader ((lines text).take count) :=
        hasHeader_take (n := count + 1) fun hformat =>
          (hheader hformat).imp fun header hh => ⟨hh.1, Nat.lt_succ_of_le hh.2⟩
      rw [← List.take_append_drop count (lines text)] at hread
      obtain ⟨entries', hentries⟩ := readLines_of_append hread hhas
      exact ⟨ofEntries entries', by rw [parseAs_eq, lines_firstLines, hentries]; rfl⟩

/-- A text with a header, of which the fourth line is bad. -/
def fourthLineBad : String :=
  "# note\ntsrg2 a b\nA B\n\tx\nC D\n"

/-- The three lines above are accepted, without the last of them too, and other ends of lines and other lines below change
nothing. -/
theorem fourthLineBad_reported :
    parseAs .tsrg2 fourthLineBad = .error (.atLine 4 (.memberRecord "\tx")) ∧
    (∃ table, parseAs .tsrg2 "# note\ntsrg2 a b\nA B\n" = .ok table) ∧
    (∃ table, parseAs .tsrg2 "# note\ntsrg2 a b\n" = .ok table) ∧
    parseAs .tsrg2 "# note\r\ntsrg2 a b\r\nA B\r\n\tx\r\n\ty z w" = .error (.atLine 4 (.memberRecord "\tx")) := by
  have hfault : parseAs .tsrg2 fourthLineBad = .error (.atLine 4 (.memberRecord "\tx")) := by cbv
  have hheader : ∀ text, text = fourthLineBad ∨ text = "# note\ntsrg2 a b\nA B\n" →
      (ofText text).head? = some ⟨2, "tsrg2 a b".toList⟩ := by
    rintro text (rfl | rfl) <;> cbv
  obtain ⟨-, habove, hother⟩ := (first_bad_line_reported .tsrg2 fourthLineBad).1 4 _ hfault
  obtain ⟨table, htable⟩ := habove fun _ => ⟨_, hheader _ (.inl rfl), by decide⟩
  have hthree : firstLines 3 fourthLineBad = "# note\ntsrg2 a b\nA B\n" := by cbv
  have htwo : firstLines 2 "# note\ntsrg2 a b\nA B\n" = "# note\ntsrg2 a b\n" := by cbv
  rw [hthree] at htable
  have hless := (first_bad_line_reported .tsrg2 "# note\ntsrg2 a b\nA B\n").2 2 table htable fun _ =>
    ⟨_, hheader _ (.inr rfl), by decide⟩
  rw [htwo] at hless
  exact ⟨hfault, ⟨table, htable⟩, hless, hother _ (by cbv)⟩

end RenameTable
end RenameAudit
