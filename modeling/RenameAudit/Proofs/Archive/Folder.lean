import Mathlib
import RenameAudit.Archive.Zip.Files
import RenameAudit.Files.Memory
import RenameAudit.Proofs.Lists.Ascending
import RenameAudit.Proofs.Text.Split
import RenameAudit.Proofs.Text.Words
/-!
# Proofs.Archive.Folder — a jar and its folder

The files of a folder are found in any order, each by the steps that lead to it, and a class file is told by its extension.
In a jar with the same files a class file is told by the end of its path.  Both ways find the same classes, in the order of
their names (`ofFolder_eq_filter`), but for files whose whole name is the ending: these have no extension.

Of the library that opens a jar it is assumed that it gives the names and the octets of the files as they are
(`ZipLibrary.Gives`).
-/
namespace RenameAudit

/-- **What is assumed of a library**: it opens the jar, and the entries are the files of a list in their order, each with its
name and its octets as they are. -/
def ZipLibrary.Gives {α ε : Type} (library : ZipLibrary α ε) (jar : ByteArray) (listing : List (String × Bytes)) : Prop :=
  ∃ archive, library.open? jar = some archive ∧ library.count archive = listing.length ∧
    ∀ i (h : i < listing.length), library.entry archive i = .ok ⟨listing[i].1, true⟩ ∧
      library.contents archive i = .ok listing[i].2

namespace Archive

open FileTree (pathOf)
open Text

/-- The files of a folder and of the folders in it, each with the steps that lead to it.  No step has a slash. -/
structure Folder where
  files : List (List String × Bytes)
  steps : ∀ f ∈ files, f.1 ≠ [] ∧ ∀ step ∈ f.1, '/' ∉ step.toList
  distinct : (files.map Prod.fst).Nodup

/-- A file with its path in the place of its steps. -/
def onPath (f : List String × Bytes) : String × Bytes :=
  (pathOf f.1, f.2)

/-- What stands after the last point of a file name, unless the name begins with that point. -/
def extension? (name : List Char) : Option (List Char) :=
  match splitLast? '.' name with
  | some (before, after) => if before.isEmpty then none else some after
  | none => none

/-- The class of a file that is told by its extension. -/
def classOfFile? (f : List String × Bytes) : Option ArchivedClass :=
  if (f.1.getLast?.bind fun name => extension? name.toList) = some "class".toList then class? (onPath f) else none

/-! ## Names and paths -/

theorem splitLast?_append_cons (sep : Char) (w cs : List Char) :
    splitLast? sep (w ++ sep :: cs) = match splitLast? sep cs with
      | some (before, after) => some (w ++ sep :: before, after)
      | none => some (w, cs) := by
  cases h : splitLast? sep cs with
  | none => exact splitLast?_append w (splitLast?_eq_none_iff.1 h)
  | some parts =>
    obtain ⟨before, after⟩ := parts
    obtain ⟨rfl, hafter⟩ := splitLast?_eq_some_iff.1 h
    have hassoc : w ++ sep :: (before ++ sep :: after) = (w ++ sep :: before) ++ sep :: after := by simp
    rw [hassoc]
    exact splitLast?_append _ hafter

theorem toList_pathOf_cons_cons (s t : String) (rest : List String) :
    (pathOf (s :: t :: rest)).toList = s.toList ++ '/' :: (pathOf (t :: rest)).toList := by
  rw [pathOf, String.intercalate_cons_cons, String.toList_append, String.toList_append, List.append_assoc]
  rfl

/-- **The last step is the name of the file.** -/
theorem fileName_pathOf {steps : List String} {last : String} (hsteps : ∀ step ∈ steps, '/' ∉ step.toList)
    (hlast : steps.getLast? = some last) : fileName (pathOf steps) = last.toList := by
  induction steps with
  | nil => cases hlast
  | cons s rest ih =>
    cases rest with
    | nil =>
      obtain rfl : s = last := by simpa using hlast
      rw [fileName, pathOf, String.intercalate_singleton, splitLast?_eq_none_iff.2 (hsteps s List.mem_cons_self)]
    | cons t rest =>
      have hrest := ih (fun step hstep => hsteps step (List.mem_cons_of_mem _ hstep)) (by simpa using hlast)
      rw [fileName] at hrest
      rw [fileName, toList_pathOf_cons_cons, splitLast?_append_cons]
      cases h : splitLast? '/' (pathOf (t :: rest)).toList with
      | none => rwa [h] at hrest
      | some parts => rwa [h] at hrest

/-- The steps of a path are found again. -/
theorem stepsOf_pathOf {steps : List String} (hne : steps ≠ []) (hsteps : ∀ step ∈ steps, '/' ∉ step.toList) :
    FileTree.stepsOf (pathOf steps) = steps := by
  have hsplit : splitOn '/' (pathOf steps).toList = steps.map String.toList := by
    induction steps with
    | nil => exact absurd rfl hne
    | cons s rest ih =>
      have hs := hsteps s List.mem_cons_self
      cases rest with
      | nil =>
        rw [pathOf, String.intercalate_singleton, splitOn_of_notMem hs]
        rfl
      | cons t rest =>
        rw [toList_pathOf_cons_cons, splitOn_append hs, ih (List.cons_ne_nil t rest)
          fun step hstep => hsteps step (List.mem_cons_of_mem _ hstep)]
        rfl
  rw [FileTree.stepsOf, hsplit, List.map_map]
  exact (List.map_congr_left fun s _ => String.ofList_toList).trans (List.map_id steps)

theorem pathOf_inj {steps steps' : List String} (h : steps ≠ [] ∧ ∀ step ∈ steps, '/' ∉ step.toList)
    (h' : steps' ≠ [] ∧ ∀ step ∈ steps', '/' ∉ step.toList) (heq : pathOf steps = pathOf steps') : steps = steps' := by
  rw [← stepsOf_pathOf h.1 h.2, heq, stepsOf_pathOf h'.1 h'.2]

/-- **A path leads through the folder of its first step.** -/
theorem startsWith_pathOf {steps : List String} (hsteps : ∀ step ∈ steps, '/' ∉ step.toList) :
    startsWith "META-INF/" (pathOf steps).toList = true ↔ steps.head? = some "META-INF" ∧ 2 ≤ steps.length := by
  have hstart : "META-INF/".toList = "META-INF".toList ++ ['/'] := rfl
  rw [startsWith, List.isPrefixOf_iff_prefix, hstart]
  cases steps with
  | nil => simp [pathOf]
  | cons s rest =>
    have hs := hsteps s List.mem_cons_self
    cases rest with
    | nil =>
      rw [pathOf, String.intercalate_singleton]
      constructor
      · exact fun h => absurd (h.subset (by simp)) hs
      · exact fun h => absurd h.2 (by simp)
    | cons t rest =>
      rw [toList_pathOf_cons_cons]
      constructor
      · intro h
        have hfirst : s = "META-INF" := String.toList_inj.1 (eq_of_prefix_separator (by decide) hs h).symm
        exact ⟨congrArg some hfirst, by simp⟩
      · rintro ⟨hfirst, -⟩
        obtain rfl : s = "META-INF" := by simpa using hfirst
        exact ⟨(pathOf (t :: rest)).toList, by simp⟩

theorem two_le_length {steps : List String} {first last : String} (hfirst : steps.head? = some first)
    (hlast : steps.getLast? = some last) (hne : first ≠ last) : 2 ≤ steps.length := by
  match steps, hfirst, hlast with
  | [step], rfl, rfl => exact absurd rfl hne
  | _ :: _ :: _, _, _ => simp

/-! ## Endings -/

theorem className?_eq_some {path name : String} :
    className? path = some name ↔
      startsWith "META-INF/" path.toList = false ∧ path.toList = name.toList ++ ending := by
  rw [className?]
  by_cases hmeta : startsWith "META-INF/" path.toList = true
  · simp [hmeta]
  · rw [if_neg hmeta]
    by_cases hend : ending.isSuffixOf path.toList = true
    · obtain ⟨start, hstart⟩ := List.isSuffixOf_iff_suffix.1 hend
      have htake : path.toList.take (path.toList.length - ending.length) = start := by
        rw [← hstart, List.length_append, Nat.add_sub_cancel, List.take_left]
      rw [if_pos hend, htake]
      constructor
      · intro h
        cases h
        exact ⟨by simpa using hmeta, by rw [String.toList_ofList, hstart]⟩
      · rintro ⟨-, hname⟩
        rw [List.append_cancel_right (hstart.trans hname), String.ofList_toList]
    · rw [if_neg hend]
      exact ⟨nofun, fun h => absurd (List.isSuffixOf_iff_suffix.2 ⟨name.toList, h.2.symm⟩) hend⟩

/-- **The extension is that of a class file** where a name ends so after something else. -/
theorem extension?_eq_some {name : List Char} :
    extension? name = some "class".toList ↔ ∃ before, before ≠ [] ∧ name = before ++ ending := by
  have hdot : ∀ before : List Char, before ++ ending = before ++ '.' :: "class".toList := fun _ => rfl
  constructor
  · intro h
    rw [extension?] at h
    split at h
    · rename_i before after hsplit
      obtain ⟨rfl, -⟩ := splitLast?_eq_some_iff.1 hsplit
      split at h
      · cases h
      · cases h
        exact ⟨before, by simpa using ‹¬ before.isEmpty = true›, rfl⟩
    · cases h
  · rintro ⟨before, hne, rfl⟩
    rw [extension?, hdot, splitLast?_append before (by decide)]
    simpa using hne

theorem hasEnding_iff {path : String} :
    hasEnding path = true ↔ ∃ before, before ≠ [] ∧ fileName path = before ++ ending := by
  rw [hasEnding]
  simp only [Bool.and_eq_true, List.isSuffixOf_iff_suffix, bne_iff_ne]
  constructor
  · rintro ⟨⟨before, hbefore⟩, hlength⟩
    refine ⟨before, ?_, hbefore.symm⟩
    rintro rfl
    exact hlength (by rw [← hbefore]; rfl)
  · rintro ⟨before, hne, heq⟩
    rw [heq, List.length_append]
    have hpos := List.length_pos_iff.2 hne
    exact ⟨List.suffix_append _ _, by omega⟩

/-- The name of a file ends like its path. -/
theorem fileName_of_className? {path name : String} (h : className? path = some name) :
    fileName path = fileName name ++ ending := by
  have hpath := (className?_eq_some.1 h).2
  have hending : '/' ∉ ending := by decide
  rw [fileName, fileName, hpath]
  cases hname : splitLast? '/' name.toList with
  | none =>
    have hnone : '/' ∉ name.toList ++ ending := by
      rw [List.mem_append]
      exact not_or.2 ⟨splitLast?_eq_none_iff.1 hname, hending⟩
    rw [splitLast?_eq_none_iff.2 hnone]
  | some parts =>
    obtain ⟨before, after⟩ := parts
    obtain ⟨heq, hafter⟩ := splitLast?_eq_some_iff.1 hname
    have hnone : '/' ∉ after ++ ending := by
      rw [List.mem_append]
      exact not_or.2 ⟨hafter, hending⟩
    rw [heq, List.append_assoc, List.cons_append, splitLast?_append before hnone]

/-- **Where the path of a file says that it is a class file, so does its name**, unless the name is the ending alone. -/
theorem hasEnding_of_className? {path name : String} (h : className? path = some name) :
    hasEnding path = !(fileName name).isEmpty := by
  rw [Bool.eq_iff_iff, hasEnding_iff, fileName_of_className? h, Bool.not_eq_true', List.isEmpty_eq_false_iff]
  constructor
  · rintro ⟨before, hne, heq⟩
    rwa [List.append_cancel_right heq]
  · exact fun hne => ⟨fileName name, hne, rfl⟩

/-! ## The classes of a folder and of a jar -/

theorem class?_eq_some {f : String × Bytes} {c : ArchivedClass} :
    class? f = some c ↔ className? f.1 = some c.name ∧ c.bytes = f.2 := by
  rw [class?, Option.map_eq_some_iff]
  constructor
  · rintro ⟨name, hname, rfl⟩
    exact ⟨hname, rfl⟩
  · rintro ⟨hname, hbytes⟩
    exact ⟨c.name, hname, by rw [← hbytes]⟩

theorem filterMap_class?_filter (listing : List (String × Bytes)) :
    (listing.filter fun f => hasEnding f.1).filterMap class? =
      (listing.filterMap class?).filter fun c => !(fileName c.name).isEmpty := by
  induction listing with
  | nil => rfl
  | cons f listing ih =>
    cases hclass : class? f with
    | none =>
      rw [List.filterMap_cons_none hclass, ← ih, List.filter_cons]
      split
      · rw [List.filterMap_cons_none hclass]
      · rfl
    | some c =>
      have hending := hasEnding_of_className? (class?_eq_some.1 hclass).1
      rw [List.filterMap_cons_some hclass, List.filter_cons, List.filter_cons, hending, ← ih]
      split
      · rw [List.filterMap_cons_some hclass]
      · rfl

theorem Folder.nodup_paths (folder : Folder) : ((folder.files.map onPath).map Prod.fst).Nodup := by
  have hmap : (folder.files.map onPath).map Prod.fst = (folder.files.map Prod.fst).map pathOf := by simp [onPath]
  rw [hmap]
  refine List.Nodup.map_on (fun steps hin steps' hin' heq => ?_) folder.distinct
  obtain ⟨f, hf, rfl⟩ := List.mem_map.1 hin
  obtain ⟨f', hf', rfl⟩ := List.mem_map.1 hin'
  exact pathOf_inj (folder.steps f hf) (folder.steps f' hf') heq

/-- Files with their own paths have classes with their own names. -/
theorem names_apart {listing : List (String × Bytes)} (h : (listing.map Prod.fst).Nodup) :
    (listing.filterMap class?).Pairwise fun a b => a.name ≠ b.name := by
  rw [List.pairwise_filterMap]
  rw [List.Nodup, List.pairwise_map] at h
  refine h.imp fun hne c hc c' hc' heq => hne (String.toList_inj.1 ?_)
  rw [(className?_eq_some.1 (class?_eq_some.1 hc).1).2, (className?_eq_some.1 (class?_eq_some.1 hc').1).2, heq]

theorem mem_sorted {classes : List ArchivedClass} {c : ArchivedClass} : c ∈ sorted classes ↔ c ∈ classes :=
  List.mem_mergeSort

/-- **A folder has the classes of a jar with the same files**, in the same order, but for those without a name of their
own. -/
theorem ofFolder_eq_filter {files listing : List (String × Bytes)} (hperm : files.Perm listing)
    (hpaths : (listing.map Prod.fst).Nodup) :
    ofFolder files = (sorted (listing.filterMap class?)).filter fun c => !(fileName c.name).isEmpty := by
  have hnames := names_apart hpaths
  have hnames' := names_apart ((hperm.map Prod.fst).nodup_iff.2 hpaths)
  rw [ofFolder, filterMap_class?_filter]
  refine eq_of_ascending (fun _ _ => String.lt_asymm) (pairwise_lt_mergeSort ArchivedClass.name (hnames'.filter _))
    ((pairwise_lt_mergeSort ArchivedClass.name hnames).filter _) fun c => ?_
  simp only [mem_sorted, List.mem_filter, (hperm.filterMap class?).mem_iff]

/-- **In a folder a class file is told by its extension.** -/
theorem ofFolder_onPath {walk : List (List String × Bytes)}
    (hsteps : ∀ f ∈ walk, f.1 ≠ [] ∧ ∀ step ∈ f.1, '/' ∉ step.toList) :
    ofFolder (walk.map onPath) = sorted (walk.filterMap classOfFile?) := by
  rw [ofFolder, List.filter_map, List.filterMap_map, List.filterMap_filter]
  refine congrArg sorted (List.filterMap_congr fun f hf => ?_)
  obtain ⟨hne, hslash⟩ := hsteps f hf
  have hlast := List.getLast?_eq_some_getLast hne
  have hiff : hasEnding (onPath f).1 = true ↔ extension? (f.1.getLast hne).toList = some "class".toList := by
    rw [hasEnding_iff, extension?_eq_some, onPath, fileName_pathOf hslash hlast]
  rw [classOfFile?, hlast, Option.bind_some]
  by_cases hend : hasEnding (onPath f).1 = true
  · rw [if_pos (hiff.1 hend)]
    simp [hend]
  · rw [if_neg (mt hiff.2 hend)]
    simp [hend]

/-- A path is the name of a file after something that ends where a name begins. -/
theorem exists_fileName (path : String) :
    ∃ start : String, path.toList = start.toList ++ fileName path ∧ fileName start = [] := by
  rw [fileName]
  cases h : splitLast? '/' path.toList with
  | none => exact ⟨"", by simp, rfl⟩
  | some parts =>
    obtain ⟨before, after⟩ := parts
    refine ⟨String.ofList (before ++ ['/']), ?_, ?_⟩
    · rw [(splitLast?_eq_some_iff.1 h).1, String.toList_ofList]
      simp
    · rw [fileName, String.toList_ofList, splitLast?_append before List.not_mem_nil]

/-- A file has a class without a name of its own exactly where its whole name is the ending, outside of the folder that is
left out. -/
theorem unnamed_iff {f : List String × Bytes} (hne : f.1 ≠ []) (hsteps : ∀ step ∈ f.1, '/' ∉ step.toList) :
    (∃ c, class? (onPath f) = some c ∧ fileName c.name = []) ↔
      f.1.getLast? = some ".class" ∧ f.1.head? ≠ some "META-INF" := by
  have hlast := List.getLast?_eq_some_getLast hne
  have hname := fileName_pathOf hsteps hlast
  constructor
  · rintro ⟨c, hc, hunnamed⟩
    have hclass := (class?_eq_some.1 hc).1
    have hend : f.1.getLast hne = ".class" := by
      rw [onPath] at hclass
      rw [fileName_of_className? hclass, hunnamed, List.nil_append] at hname
      exact String.toList_inj.1 hname.symm
    rw [hend] at hlast
    refine ⟨hlast, fun hhead => ?_⟩
    have hstart := (startsWith_pathOf hsteps).2 ⟨hhead, two_le_length hhead hlast (by decide)⟩
    exact absurd hstart (Bool.eq_false_iff.1 (className?_eq_some.1 hclass).1)
  · rintro ⟨hend, hhead⟩
    obtain ⟨start, hstart, hunnamed⟩ := exists_fileName (pathOf f.1)
    rw [fileName_pathOf hsteps hend] at hstart
    refine ⟨⟨start, f.2⟩, class?_eq_some.2 ⟨className?_eq_some.2 ⟨?_, hstart⟩, rfl⟩, hunnamed⟩
    exact Bool.eq_false_iff.2 fun h => hhead ((startsWith_pathOf hsteps).1 h).1

/-! ## A jar by its library -/

/-- Where every step succeeds, what the steps find is what is found of each item. -/
theorem filterMapM_range' {α β ε : Type} {f : Nat → Except ε (Option β)} {g : α → Option β} :
    ∀ (items : List α) (start : Nat), (∀ i (h : i < items.length), f (start + i) = .ok (g items[i])) →
      (List.range' start items.length).filterMapM f = .ok (items.filterMap g)
  | [], _, _ => rfl
  | a :: items, start, h => by
    have hfirst : f start = .ok (g a) := h 0 (by simp)
    have hrest := filterMapM_range' items (start + 1) fun i hi => by
      rw [Nat.add_assoc, Nat.add_comm 1]
      exact h (i + 1) (by simpa using hi)
    rw [List.length_cons, List.range'_succ, List.filterMapM_cons, hfirst]
    cases hg : g a with
    | none =>
      rw [List.filterMap_cons_none hg]
      exact hrest
    | some b =>
      rw [List.filterMap_cons_some hg]
      exact congrArg (Functor.map (b :: ·)) hrest

theorem eq_ok_of_toOption {ε α : Type} {x : Except ε α} {a : α} (h : x.toOption = some a) : x = .ok a := by
  cases x with
  | error e => cases h
  | ok b => exact congrArg _ (Option.some.inj h)

section Library

variable {α ε : Type} {library : ZipLibrary α ε}

theorem classAt?_eq_ok {archive : α} {index : Nat} {f : String × Bytes}
    (hentry : library.entry archive index = .ok ⟨f.1, true⟩) (hcontents : library.contents archive index = .ok f.2) :
    classAt? library archive index = .ok (class? f) := by
  rw [classAt?, hentry, class?]
  dsimp only
  cases hname : className? f.1 with
  | none => rfl
  | some name =>
    rw [hcontents]
    rfl

/-- **A jar has the classes of its files**, in the order of their names. -/
theorem readJar_of_gives {jar : ByteArray} {listing : List (String × Bytes)} (h : library.Gives jar listing) :
    readJar library jar = .ok (sorted (listing.filterMap class?)) := by
  obtain ⟨archive, hopen, hcount, hgives⟩ := h
  have hclasses := filterMapM_range' (f := classAt? library archive) (g := class?) listing 0 fun i hi => by
    rw [Nat.zero_add]
    exact classAt?_eq_ok (hgives i hi).1 (hgives i hi).2
  rw [readJar, hopen]
  dsimp only
  rw [hcount, List.range_eq_range', hclasses]
  rfl

/-- A library is asked for all entries. -/
theorem gives_of_entries {jar : ByteArray} {listing : List (String × Bytes)}
    (h : ((library.open? jar).map fun archive => (List.range (library.count archive)).map fun i =>
        ((library.entry archive i).toOption, (library.contents archive i).toOption)) =
      some (listing.map fun f => (some ⟨f.1, true⟩, some f.2))) : library.Gives jar listing := by
  obtain ⟨archive, hopen, hentries⟩ := Option.map_eq_some_iff.1 h
  have hcount : library.count archive = listing.length := by simpa using congrArg List.length hentries
  refine ⟨archive, hopen, hcount, fun i hi => ?_⟩
  have hat := congrArg (·[i]?) hentries
  simp only [List.getElem?_map, List.getElem?_range (hcount ▸ hi), List.getElem?_eq_getElem hi, Option.map_some,
    Option.some.injEq, Prod.mk.injEq] at hat
  exact ⟨eq_ok_of_toOption hat.1, eq_ok_of_toOption hat.2⟩

end Library

/-- **A jar and its folder give the same classes**, in whatever order their files are found, unless the whole name of a
file is the ending of class files: such a file has no extension and is left out in the folder only. -/
theorem jar_reads_as_folder {α ε : Type} (library : ZipLibrary α ε) (folder : Folder)
    {walk : List (List String × Bytes)} (hwalk : walk.Perm folder.files)
    {listing : List (String × Bytes)} (hlisting : listing.Perm (folder.files.map onPath)) {jar : ByteArray}
    (hjar : library.Gives jar listing) :
    ∃ classes, readJar library jar = .ok classes ∧
      ofFolder (walk.map onPath) = sorted (walk.filterMap classOfFile?) ∧
      ofFolder (walk.map onPath) = classes.filter (fun c => !(fileName c.name).isEmpty) ∧
      (ofFolder (walk.map onPath) = classes ↔
        ∀ f ∈ folder.files, f.1.getLast? = some ".class" → f.1.head? = some "META-INF") := by
  have hpaths := (hlisting.map Prod.fst).nodup_iff.2 folder.nodup_paths
  have hfilter := ofFolder_eq_filter ((hwalk.map onPath).trans hlisting.symm) hpaths
  refine ⟨sorted (listing.filterMap class?), readJar_of_gives hjar,
    ofFolder_onPath fun f hf => folder.steps f (hwalk.mem_iff.1 hf), hfilter, ?_⟩
  rw [hfilter, List.filter_eq_self]
  constructor
  · intro hall f hf hend
    by_contra hhead
    obtain ⟨hne, hsteps⟩ := folder.steps f hf
    obtain ⟨c, hc, hunnamed⟩ := (unnamed_iff hne hsteps).2 ⟨hend, hhead⟩
    have hin : c ∈ sorted (listing.filterMap class?) :=
      mem_sorted.2 (List.mem_filterMap.2 ⟨onPath f, hlisting.mem_iff.2 (List.mem_map_of_mem hf), hc⟩)
    simpa [hunnamed] using hall c hin
  · intro hall c hc
    obtain ⟨g, hg, hclass⟩ := List.mem_filterMap.1 (mem_sorted.1 hc)
    obtain ⟨f, hf, rfl⟩ := List.mem_map.1 (hlisting.mem_iff.1 hg)
    obtain ⟨hne, hsteps⟩ := folder.steps f hf
    rw [Bool.not_eq_true', List.isEmpty_eq_false_iff]
    intro hunnamed
    obtain ⟨hend, hhead⟩ := (unnamed_iff hne hsteps).1 ⟨c, hclass, hunnamed⟩
    exact hhead (hall f hf hend)

/-- A folder with two class files, one of them in the folder that is left out. -/
def twoFiles : Folder where
  files := [(["a", "B.class"], [7]), (["META-INF", ".class"], [8])]
  steps := by decide
  distinct := by decide

/-- A jar with the same files in another order. -/
def twoFilesJar : ByteArray :=
  ⟨#[0x50, 0x4b, 3, 4, 0x14, 0, 0, 0, 0, 0, 0, 0, 0x21, 0, 0xbf, 0x67, 0xd9, 0xdc, 1, 0, 0, 0, 1, 0, 0, 0, 0x0f, 0, 0,
    0, 0x4d, 0x45, 0x54, 0x41, 0x2d, 0x49, 0x4e, 0x46, 0x2f, 0x2e, 0x63, 0x6c, 0x61, 0x73, 0x73, 8, 0x50, 0x4b, 3, 4,
    0x14, 0, 0, 0, 0, 0, 0, 0, 0x21, 0, 0x2e, 0x7a, 0x66, 0x4c, 1, 0, 0, 0, 1, 0, 0, 0, 9, 0, 0, 0, 0x61, 0x2f, 0x42,
    0x2e, 0x63, 0x6c, 0x61, 0x73, 0x73, 7, 0x50, 0x4b, 1, 2, 0x14, 0, 0x14, 0, 0, 0, 0, 0, 0, 0, 0x21, 0, 0xbf, 0x67,
    0xd9, 0xdc, 1, 0, 0, 0, 1, 0, 0, 0, 0x0f, 0, 0, 0, 0, 0, 0, 0, 0, 0, 0, 0, 0x80, 1, 0, 0, 0, 0, 0x4d, 0x45, 0x54,
    0x41, 0x2d, 0x49, 0x4e, 0x46, 0x2f, 0x2e, 0x63, 0x6c, 0x61, 0x73, 0x73, 0x50, 0x4b, 1, 2, 0x14, 0, 0x14, 0, 0, 0,
    0, 0, 0, 0, 0x21, 0, 0x2e, 0x7a, 0x66, 0x4c, 1, 0, 0, 0, 1, 0, 0, 0, 9, 0, 0, 0, 0, 0, 0, 0, 0, 0, 0, 0, 0x80, 1,
    0x2e, 0, 0, 0, 0x61, 0x2f, 0x42, 0x2e, 0x63, 0x6c, 0x61, 0x73, 0x73, 0x50, 0x4b, 5, 6, 0, 0, 0, 0, 2, 0, 2, 0,
    0x74, 0, 0, 0, 0x56, 0, 0, 0, 0, 0]⟩

/-- The library gives both files, and so the jar and the folder have the same class. -/
theorem twoFiles_read :
    twoFiles.files.Perm twoFiles.files ∧
    [("META-INF/.class", [8]), ("a/B.class", [7])].Perm (twoFiles.files.map onPath) ∧
    Zip.library.Gives twoFilesJar [("META-INF/.class", [8]), ("a/B.class", [7])] ∧
    readJar Zip.library twoFilesJar = .ok (ofFolder (twoFiles.files.map onPath)) := by
  have hperm : [("META-INF/.class", [8]), ("a/B.class", [7])].Perm (twoFiles.files.map onPath) := by decide
  have hjar : Zip.library.Gives twoFilesJar [("META-INF/.class", [8]), ("a/B.class", [7])] :=
    gives_of_entries (by decide +kernel)
  obtain ⟨classes, hread, -, -, hsame⟩ := jar_reads_as_folder Zip.library twoFiles (.refl _) hperm hjar
  exact ⟨.refl _, hperm, hjar, hread.trans (congrArg _ (hsame.2 (by decide)).symm)⟩

/-- A folder with a file whose whole name is the ending. -/
def endingAlone : Folder where
  files := [(["a", ".class"], [7])]
  steps := by decide
  distinct := by decide

/-- A jar with that file. -/
def endingAloneJar : ByteArray :=
  ⟨#[0x50, 0x4b, 3, 4, 0x14, 0, 0, 0, 0, 0, 0, 0, 0x21, 0, 0x2e, 0x7a, 0x66, 0x4c, 1, 0, 0, 0, 1, 0, 0, 0, 8, 0, 0, 0,
    0x61, 0x2f, 0x2e, 0x63, 0x6c, 0x61, 0x73, 0x73, 7, 0x50, 0x4b, 1, 2, 0x14, 0, 0x14, 0, 0, 0, 0, 0, 0, 0, 0x21, 0,
    0x2e, 0x7a, 0x66, 0x4c, 1, 0, 0, 0, 1, 0, 0, 0, 8, 0, 0, 0, 0, 0, 0, 0, 0, 0, 0, 0, 0x80, 1, 0, 0, 0, 0, 0x61,
    0x2f, 0x2e, 0x63, 0x6c, 0x61, 0x73, 0x73, 0x50, 0x4b, 5, 6, 0, 0, 0, 0, 1, 0, 1, 0, 0x36, 0, 0, 0, 0x27, 0, 0, 0,
    0, 0]⟩

/-- **In a jar the ending alone is a class file**, which belongs to a class with the name of the folder, and in the folder
it is none. -/
theorem ending_alone_in_jar_only :
    Zip.library.Gives endingAloneJar (endingAlone.files.map onPath) ∧
    readJar Zip.library endingAloneJar = .ok [⟨"a/", [7]⟩] ∧
    ofFolder (endingAlone.files.map onPath) = [] := by
  have hjar : Zip.library.Gives endingAloneJar (endingAlone.files.map onPath) := gives_of_entries (by decide +kernel)
  have hclasses : sorted ((endingAlone.files.map onPath).filterMap class?) = [⟨"a/", [7]⟩] := by decide +kernel
  exact ⟨hjar, (readJar_of_gives hjar).trans (congrArg _ hclasses), by decide +kernel⟩

end Archive
end RenameAudit
