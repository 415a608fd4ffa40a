import Mathlib.Data.List.Basic
import RenameAudit.Text.Blank
import RenameAudit.Text.Split
/-!
# Proofs.Text.Words — texts made of lines, and lines made of words

A line is written as its words with a blank between them (`joinWords`), and a text as its lines with an end after each
(`joinLines`).  Words that have no white space are found again (`words_joinWords`), and so are lines without an end of
a line in them (`splitOn_joinLines`).
-/
namespace RenameAudit
namespace Text

/-- A word that can stand in a record: it has a character, no white space, and no number sign, which would begin a
comment. -/
structure IsToken (word : String) : Prop where
  ne_empty : word.toList ≠ []
  plain : ∀ c ∈ word.toList, isBlank c = false ∧ c ≠ '#'

theorem isToken_iff {word : String} :
    IsToken word ↔ (!word.toList.isEmpty && word.toList.all fun c => !isBlank c && c != '#') = true := by
  simp only [Bool.and_eq_true, Bool.not_eq_true', List.isEmpty_eq_false_iff, List.all_eq_true, bne_iff_ne]
  exact ⟨fun h => ⟨h.ne_empty, h.plain⟩, fun h => ⟨h.1, h.2⟩⟩

instance : DecidablePred IsToken :=
  fun _ => decidable_of_iff _ isToken_iff.symm

/-- Words with a blank between them. -/
def joinWords (words : List String) : List Char :=
  [' '].intercalate (words.map String.toList)

/-- Lines with an end after each. -/
def joinLines (lines : List (List Char)) : String :=
  String.ofList (lines.flatMap (· ++ ['\n']))

theorem joinWords_cons_cons (w v : String) (ws : List String) :
    joinWords (w :: v :: ws) = w.toList ++ ' ' :: joinWords (v :: ws) := by
  rw [joinWords, List.map_cons, List.map_cons, List.intercalate_cons_cons, List.append_assoc]
  rfl

theorem joinWords_singleton (w : String) : joinWords [w] = w.toList :=
  List.intercalate_singleton

/-! ## Words -/

theorem wordsFrom_append {w : List Char} (h : ∀ c ∈ w, isBlank c = false) (word rest : List Char) :
    wordsFrom word (w ++ rest) = wordsFrom (w.reverse ++ word) rest := by
  induction w generalizing word with
  | nil => rfl
  | cons c w ih =>
    rw [List.cons_append, wordsFrom, h c List.mem_cons_self, if_neg Bool.false_ne_true,
      ih (fun d hd => h d (List.mem_cons_of_mem c hd)), List.reverse_cons, List.append_assoc]
    rfl

theorem words_append_blank {w : List Char} (hne : w ≠ []) (h : ∀ c ∈ w, isBlank c = false) (rest : List Char) :
    words (w ++ ' ' :: rest) = w :: words rest := by
  rw [words, wordsFrom_append h, List.append_nil, wordsFrom, if_pos (by decide), if_neg (by simpa using hne),
    List.reverse_reverse]
  rfl

theorem words_single {w : List Char} (hne : w ≠ []) (h : ∀ c ∈ w, isBlank c = false) : words w = [w] := by
  have happend := wordsFrom_append h [] []
  rw [List.append_nil, List.append_nil] at happend
  rw [words, happend, wordsFrom, if_neg (by simpa using hne), List.reverse_reverse]

/-- **The words of a line are found again.** -/
theorem words_joinWords {ws : List String} (h : ∀ w ∈ ws, IsToken w) : words (joinWords ws) = ws.map String.toList := by
  induction ws with
  | nil => rfl
  | cons w ws ih =>
    have hw := h w List.mem_cons_self
    have hblank : ∀ c ∈ w.toList, isBlank c = false := fun c hc => (hw.plain c hc).1
    cases ws with
    | nil => rw [joinWords_singleton, words_single hw.ne_empty hblank]; rfl
    | cons v ws =>
      rw [joinWords_cons_cons, words_append_blank hw.ne_empty hblank, ih fun u hu => h u (List.mem_cons_of_mem w hu)]
      rfl

theorem mem_joinWords {ws : List String} {c : Char} (h : c ∈ joinWords ws) : c = ' ' ∨ ∃ w ∈ ws, c ∈ w.toList := by
  induction ws with
  | nil => cases h
  | cons w ws ih =>
    cases ws with
    | nil => exact .inr ⟨w, List.mem_cons_self, by rwa [joinWords_singleton] at h⟩
    | cons v ws =>
      rw [joinWords_cons_cons] at h
      rcases List.mem_append.1 h with hw | hrest
      · exact .inr ⟨w, List.mem_cons_self, hw⟩
      · rcases List.mem_cons.1 hrest with rfl | hrest
        · exact .inl rfl
        · exact (ih hrest).imp_right fun ⟨u, hu, hc⟩ => ⟨u, List.mem_cons_of_mem w hu, hc⟩

/-- Between words there is no white space but blanks. -/
theorem blank_notMem_joinWords {ws : List String} (h : ∀ w ∈ ws, IsToken w) {c : Char} (hblank : isBlank c = true)
    (hc : c ≠ ' ') : c ∉ joinWords ws := by
  intro hin
  obtain ⟨w, hw, hcw⟩ := (mem_joinWords hin).resolve_left hc
  exact absurd (((h w hw).plain c hcw).1.symm.trans hblank) Bool.false_ne_true

theorem joinWords_last {ws : List String} (h : ∀ w ∈ ws, IsToken w) (hne : ws ≠ []) :
    ∃ start c, joinWords ws = start ++ [c] ∧ isBlank c = false := by
  induction ws with
  | nil => exact absurd rfl hne
  | cons w ws ih =>
    cases ws with
    | nil =>
      have hw := h w List.mem_cons_self
      obtain ⟨start, c, hlast⟩ := (List.eq_nil_or_concat' w.toList).resolve_left hw.ne_empty
      exact ⟨start, c, by rw [joinWords_singleton, hlast], (hw.plain c (by rw [hlast]; simp)).1⟩
    | cons v ws =>
      obtain ⟨start, c, hlast, hc⟩ := ih (fun u hu => h u (List.mem_cons_of_mem w hu)) (List.cons_ne_nil v ws)
      exact ⟨w.toList ++ ' ' :: start, c, by rw [joinWords_cons_cons, hlast]; simp, hc⟩

/-! ## Ends of lines -/

theorem trimEnd_cons (c : Char) (cs : List Char) :
    trimEnd (c :: cs) = if (trimEnd cs).isEmpty && isBlank c then [] else c :: trimEnd cs :=
  rfl

theorem trimEnd_append_singleton (cs : List Char) {c : Char} (h : isBlank c = false) :
    trimEnd (cs ++ [c]) = cs ++ [c] := by
  induction cs with
  | nil => rw [List.nil_append, trimEnd_cons, h, Bool.and_false]; rfl
  | cons d cs ih =>
    rw [List.cons_append, trimEnd_cons, ih, if_neg (by simp)]

theorem splitOn_append {l : List Char} {sep : Char} (h : sep ∉ l) (rest : List Char) :
    splitOn sep (l ++ sep :: rest) = l :: splitOn sep rest := by
  induction l with
  | nil => simp [splitOn, consPart]
  | cons c l ih =>
    have hc : c ≠ sep := fun heq => h (heq ▸ List.mem_cons_self)
    have hrest := ih fun hin => h (List.mem_cons_of_mem c hin)
    rw [splitOn] at hrest
    rw [List.cons_append, splitOn, List.foldr_cons, hrest, consPart, if_neg hc]

theorem splitOn_of_notMem {l : List Char} {sep : Char} (h : sep ∉ l) : splitOn sep l = [l] := by
  induction l with
  | nil => rfl
  | cons c l ih =>
    have hc : c ≠ sep := fun heq => h (heq ▸ List.mem_cons_self)
    have hrest := ih fun hin => h (List.mem_cons_of_mem c hin)
    rw [splitOn] at hrest
    rw [splitOn, List.foldr_cons, hrest, consPart, if_neg hc]

/-- **The lines of a text are found again**, and an empty one after the last end. -/
theorem splitOn_joinLines {ls : List (List Char)} (h : ∀ l ∈ ls, '\n' ∉ l) :
    splitOn '\n' (joinLines ls).toList = ls ++ [[]] := by
  rw [joinLines, String.toList_ofList]
  induction ls with
  | nil => rfl
  | cons l ls ih =>
    rw [List.flatMap_cons, List.append_assoc, List.singleton_append, splitOn_append (h l List.mem_cons_self),
      ih fun k hk => h k (List.mem_cons_of_mem l hk)]
    rfl

/-! ## Starts of lines -/

theorem isPrefixOf_append_cons {start : List Char} {c : Char} (h : c ∉ start) (w rest : List Char) :
    start.isPrefixOf (w ++ c :: rest) = start.isPrefixOf w := by
  induction start generalizing w with
  | nil => rfl
  | cons d start ih =>
    have hd : (d == c) = false := beq_eq_false_iff_ne.2 fun heq => h (heq ▸ List.mem_cons_self)
    cases w with
    | nil => simp [List.isPrefixOf, hd]
    | cons e w =>
      rw [List.cons_append, List.isPrefixOf_cons_cons, List.isPrefixOf_cons_cons,
        ih fun hin => h (List.mem_cons_of_mem d hin)]

/-- A text that begins with a word and a separator has that word before its first separator. -/
theorem eq_of_prefix_separator {sep : Char} {start w rest : List Char} (hstart : sep ∉ start) (hw : sep ∉ w)
    (h : start ++ [sep] <+: w ++ sep :: rest) : start = w := by
  induction start generalizing w with
  | nil =>
    cases w with
    | nil => rfl
    | cons c w =>
      have hc : sep = c := (List.cons_prefix_cons.1 h).1
      exact absurd (hc ▸ List.mem_cons_self) hw
  | cons d start ih =>
    rw [List.mem_cons, not_or] at hstart
    cases w with
    | nil =>
      have hd : d = sep := (List.cons_prefix_cons.1 h).1
      exact absurd hd.symm hstart.1
    | cons c w =>
      rw [List.mem_cons, not_or] at hw
      obtain ⟨rfl, hrest⟩ := List.cons_prefix_cons.1 h
      rw [ih hstart.2 hw.2 hrest]

end Text
end RenameAudit
