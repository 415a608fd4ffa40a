import Mathlib.Data.List.TakeWhile
import RenameAudit.Proofs.Text.Words
import RenameAudit.Rename.Format
/-!
# Proofs.Rename.Lines — the lines of a rename table that say something

Written lines are found again with their numbers (`ofText_joinLines`), none of them changed by the removal of comments
and white space (`Clear.meaningful?`), and reading goes through them one by one (`readAll_cons`, `readAll_skip`).
-/
namespace RenameAudit

open Text

namespace NumberedLine

/-- A line that is taken as it stands: no comment in it, and no white space at its end. -/
structure Clear (line : List Char) : Prop where
  noComment : '#' ∉ line
  last : ∃ start c, line = start ++ [c] ∧ isBlank c = false

theorem clear_joinWords {ws : List String} (h : ∀ w ∈ ws, IsToken w) (hne : ws ≠ []) : Clear (joinWords ws) where
  noComment hin := by
    rcases mem_joinWords hin with hblank | ⟨w, hw, hc⟩
    · exact absurd hblank (by decide)
    · exact ((h w hw).plain '#' hc).2 rfl
  last := joinWords_last h hne

theorem Clear.tab {line : List Char} (h : Clear line) : Clear ('\t' :: line) where
  noComment hin := (List.mem_cons.1 hin).elim (absurd · (by decide)) h.noComment
  last := by
    obtain ⟨start, c, hline, hc⟩ := h.last
    exact ⟨'\t' :: start, c, by rw [hline, List.cons_append], hc⟩

theorem Clear.meaningful? {line : List Char} (h : Clear line) (n : Nat) : meaningful? n line = some ⟨n, line⟩ := by
  have hcomment : line.takeWhile (· != '#') = line :=
    List.takeWhile_eq_self_iff.2 fun c hc => bne_iff_ne.2 fun heq => h.noComment (heq ▸ hc)
  obtain ⟨start, c, hline, hc⟩ := h.last
  have htrim : trimEnd line = line := by rw [hline, trimEnd_append_singleton start hc]
  rw [NumberedLine.meaningful?, hcomment, htrim]
  exact if_neg (by simp [hline])

theorem words_mk {ws : List String} (h : ∀ w ∈ ws, IsToken w) (n : Nat) : words ⟨n, joinWords ws⟩ = ws := by
  rw [words, words_joinWords h, List.map_map]
  exact (List.map_congr_left fun w _ => String.ofList_toList).trans (List.map_id ws)

theorem words_mk_tab {ws : List String} (h : ∀ w ∈ ws, IsToken w) (n : Nat) :
    words ⟨n, '\t' :: joinWords ws⟩ = ws :=
  words_mk h n

/-! ## Numbers -/

/-- The lines that say something, with their numbers, of which the first is given. -/
def numbered (n : Nat) (lines : List (List Char)) : List NumberedLine :=
  (lines.zipIdx n).filterMap fun p => meaningful? p.2 p.1

theorem numbered_append (n : Nat) (before after : List (List Char)) :
    numbered n (before ++ after) = numbered n before ++ numbered (n + before.length) after := by
  rw [numbered, List.zipIdx_append, List.filterMap_append]
  rfl

theorem numbered_cons {line : List Char} (h : Clear line) (n : Nat) (lines : List (List Char)) :
    numbered n (line :: lines) = ⟨n, line⟩ :: numbered (n + 1) lines := by
  rw [numbered, List.zipIdx_cons, List.filterMap_cons, h.meaningful?]
  rfl

theorem mem_numbered {n : Nat} {lines : List (List Char)} {l : NumberedLine} (h : l ∈ numbered n lines) :
    ∃ line ∈ lines, meaningful? l.number line = some l := by
  obtain ⟨p, hp, hl⟩ := List.mem_filterMap.1 h
  have hnumber : l.number = p.2 := by
    rw [NumberedLine.meaningful?, Option.ite_none_left_eq_some] at hl
    exact congrArg number (Option.some.inj hl.2).symm
  exact ⟨p.1, List.fst_mem_of_mem_zipIdx hp, hnumber ▸ hl⟩

/-- **The lines of a text are found again**, with numbers from 1. -/
theorem ofText_joinLines {lines : List (List Char)} (h : ∀ line ∈ lines, '\n' ∉ line) :
    ofText (joinLines lines) = numbered 1 lines := by
  have hempty (n : Nat) : numbered n [[]] = [] := rfl
  have hof : ofText (joinLines lines) = numbered 1 (splitOn '\n' (joinLines lines).toList) := rfl
  rw [hof, splitOn_joinLines h, numbered_append, hempty, List.append_nil]

/-! ## Reading -/

variable {σ α : Type} {step : σ → NumberedLine → Except LineFault (σ × List α)}

theorem readAll_cons {s s' : σ} {l : NumberedLine} {as : List α} (h : step s l = .ok (s', as))
    (rest : List NumberedLine) : readAll step s (l :: rest) = (readAll step s' rest).map (as ++ ·) := by
  rw [readAll, h]

/-- Lines that say nothing in a state are passed over. -/
theorem readAll_skip {s : σ} {ls : List NumberedLine} (h : ∀ l ∈ ls, step s l = .ok (s, []))
    (rest : List NumberedLine) : readAll step s (ls ++ rest) = readAll step s rest := by
  induction ls with
  | nil => rfl
  | cons l ls ih =>
    rw [List.cons_append, readAll_cons (h l List.mem_cons_self), ih fun k hk => h k (List.mem_cons_of_mem l hk)]
    cases readAll step s rest <;> rfl

end NumberedLine
end RenameAudit
