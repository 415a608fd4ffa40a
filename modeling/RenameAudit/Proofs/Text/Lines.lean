import Mathlib.Data.List.TakeWhile
import RenameAudit.Proofs.Text.Split
/-!
# Proofs.Text.Lines — the lines of a text

A line ends with a line feed, with or without a carriage return before it, and the last line may have no end.  The first
lines of a text, taken with their ends, are a text that has just these lines (`lines_firstLines`).  Cutting at line feeds
gives the same lines with the carriage returns left on them, and an empty one where the text ends in a line feed
(`splitOn_eq_pieces`).
-/
namespace RenameAudit
namespace Text

/-- The lines of a text with their ends. -/
def pieces : List Char → List (List Char)
  | [] => []
  | c :: cs =>
    if c = '\n' then ['\n'] :: pieces cs
    else
      match pieces cs with
      | [] => [[c]]
      | piece :: more => (c :: piece) :: more

/-- A line without its end. -/
def withoutEnd (piece : List Char) : List Char :=
  match splitLast? '\n' piece with
  | some (line, _) => if line.getLast? = some '\r' then line.dropLast else line
  | none => piece

/-- The lines of a text. -/
def lines (text : String) : List (List Char) :=
  (pieces text.toList).map withoutEnd

/-- The text of the first lines of a text. -/
def firstLines (count : Nat) (text : String) : String :=
  String.ofList ((pieces text.toList).take count).flatten

theorem pieces_end (cs : List Char) : pieces ('\n' :: cs) = ['\n'] :: pieces cs :=
  if_pos rfl

theorem pieces_last {c : Char} {cs : List Char} (hc : c ≠ '\n') (h : pieces cs = []) : pieces (c :: cs) = [[c]] := by
  rw [pieces, if_neg hc, h]

theorem pieces_inside {c : Char} {cs piece : List Char} {more : List (List Char)} (hc : c ≠ '\n')
    (h : pieces cs = piece :: more) : pieces (c :: cs) = (c :: piece) :: more := by
  rw [pieces, if_neg hc, h]

theorem pieces_eq_nil_iff {cs : List Char} : pieces cs = [] ↔ cs = [] := by
  cases cs with
  | nil => simp [pieces]
  | cons c cs =>
    by_cases hc : c = '\n'
    · simp [hc, pieces_end]
    · cases h : pieces cs with
      | nil => simp [pieces_last hc h]
      | cons piece more => simp [pieces_inside hc h]

theorem pieces_flatten_take (cs : List Char) (count : Nat) :
    pieces ((pieces cs).take count).flatten = (pieces cs).take count := by
  induction cs generalizing count with
  | nil => simp [pieces]
  | cons c cs ih =>
    cases count with
    | zero => rfl
    | succ count =>
      by_cases hc : c = '\n'
      · rw [hc, pieces_end, List.take_succ_cons, List.flatten_cons, List.singleton_append, pieces_end, ih]
      · cases h : pieces cs with
        | nil => rw [pieces_last hc h]; simp [pieces, hc]
        | cons piece more =>
          have ih := ih (count + 1)
          rw [h, List.take_succ_cons] at ih
          rw [pieces_inside hc h, List.take_succ_cons, List.flatten_cons, List.cons_append, ← List.flatten_cons,
            pieces_inside hc ih]

/-- **The first lines of a text are a text of these lines.** -/
theorem lines_firstLines (count : Nat) (text : String) : lines (firstLines count text) = (lines text).take count := by
  rw [lines, firstLines, String.toList_ofList, pieces_flatten_take, lines, List.map_take]

/-! ## Cutting at line feeds -/

theorem exists_of_mem_pieces {cs piece : List Char} (h : piece ∈ pieces cs) :
    ∃ line, '\n' ∉ line ∧ (piece = line ++ ['\n'] ∨ piece = line) := by
  induction cs generalizing piece with
  | nil => cases h
  | cons c cs ih =>
    by_cases hc : c = '\n'
    · rw [hc, pieces_end] at h
      rcases List.mem_cons.1 h with rfl | hmore
      · exact ⟨[], by simp, .inl rfl⟩
      · exact ih hmore
    · cases hcs : pieces cs with
      | nil =>
        rw [pieces_last hc hcs, List.mem_singleton] at h
        exact ⟨[c], by simpa using Ne.symm hc, .inr h⟩
      | cons start more =>
        rw [pieces_inside hc hcs] at h
        rw [hcs] at ih
        rcases List.mem_cons.1 h with rfl | hmore
        · obtain ⟨line, hline, hstart⟩ := ih List.mem_cons_self
          refine ⟨c :: line, by simpa using ⟨Ne.symm hc, hline⟩, ?_⟩
          rcases hstart with rfl | rfl
          · exact .inl rfl
          · exact .inr rfl
        · exact ih (List.mem_cons_of_mem _ hmore)

/-- A line and its part before a line feed differ at most in a carriage return. -/
theorem takeWhile_of_mem_pieces {cs piece : List Char} (h : piece ∈ pieces cs) :
    piece.takeWhile (· != '\n') = withoutEnd piece ∨ piece.takeWhile (· != '\n') = withoutEnd piece ++ ['\r'] := by
  obtain ⟨line, hline, hpiece⟩ := exists_of_mem_pieces h
  rcases hpiece with rfl | rfl
  · have hstart : (line ++ ['\n']).takeWhile (· != '\n') = line :=
      (takeWhile_bne_eq_iff hline).2 ⟨['\n'], rfl, .inr rfl⟩
    rw [hstart, withoutEnd, splitLast?_append line (List.not_mem_nil)]
    dsimp only
    split
    · rename_i hlast
      obtain ⟨start, rfl⟩ := List.getLast?_eq_some_iff.1 hlast
      exact .inr (by rw [List.dropLast_concat])
    · exact .inl rfl
  · have hwhole : piece.takeWhile (· != '\n') = piece :=
      (takeWhile_bne_eq_iff hline).2 ⟨[], (List.append_nil piece).symm, .inl rfl⟩
    rw [hwhole, withoutEnd, splitLast?_eq_none_iff.2 hline]
    exact .inl rfl

/-- **Cutting at line feeds gives the lines** up to their line feeds, and an empty part after the last line feed. -/
theorem splitOn_eq_pieces (cs : List Char) :
    ∃ rest : List (List Char), (rest = [] ∨ rest = [[]]) ∧
      splitOn '\n' cs = (pieces cs).map (·.takeWhile (· != '\n')) ++ rest := by
  induction cs with
  | nil => exact ⟨[[]], .inr rfl, rfl⟩
  | cons c cs ih =>
    obtain ⟨rest, hrest, hcs⟩ := ih
    rw [splitOn] at hcs
    rw [splitOn, List.foldr_cons, hcs]
    by_cases hc : c = '\n'
    · exact ⟨rest, hrest, by simp [hc, consPart, pieces_end]⟩
    · cases hpieces : pieces cs with
      | nil =>
        have hone : rest = [[]] := by
          rw [pieces_eq_nil_iff.1 hpieces] at hcs
          exact hcs.symm
        exact ⟨[], .inl rfl, by simp [hone, consPart, pieces_last hc hpieces, hc]⟩
      | cons piece more => exact ⟨rest, hrest, by simp [consPart, pieces_inside hc hpieces, hc]⟩

end Text
end RenameAudit
