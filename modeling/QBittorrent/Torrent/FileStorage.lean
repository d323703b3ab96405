import Mathlib.Data.List.Pairwise
import QBittorrent.Base.PathLaws

/-!
# Renaming files and folders

`AbstractFileStorage::renameFile` and `renameFolder` check the paths, go through the files, and then
rename one or several of them.

* `AbstractFileStorage.renameFile_eq_ok_iff` : which calls succeed;
* `AbstractFileStorage.rename_iff` : which keep the list well-formed.
-/

namespace QBittorrent.AbstractFileStorage

open List PathText QBittorrent.Path Option

/-- The text of an error about a path. -/
def message (text : String) (path : Path) : String := text ++ ": '" ++ String.ofList path.pathStr ++ "'."

/-- The loop of `renameFile`: the index of the file that has the old path, if no other has the new
one. -/
def findFile (oldPath newPath : Path) : List Path → ℕ → Option ℕ → Except String (Option ℕ)
  | [], _, renamingFileIndex => .ok renamingFileIndex
  | path :: paths, i, renamingFileIndex =>
    if renamingFileIndex = none ∧ path = oldPath then findFile oldPath newPath paths (i + 1) (some i)
    else if path = newPath then .error (message "The file already exists" newPath)
    else findFile oldPath newPath paths (i + 1) renamingFileIndex

/-- The renames of single files that are made, if there is no error. -/
def renameFile (filePaths : List Path) (oldPath newPath : Path) : Except String (List (ℕ × Path)) :=
  if oldPath.isValid = false then .error (message "The old path is invalid" oldPath)
  else if newPath.isValid = false then .error (message "The new path is invalid" newPath)
  else if newPath.isAbsolute = true then .error (message "Absolute path isn't allowed" newPath)
  else match findFile oldPath newPath filePaths 0 none with
    | .error error => .error error
    | .ok none => .error (message "No such file" oldPath)
    | .ok (some renamingFileIndex) => .ok [(renamingFileIndex, newPath)]

/-- The loop of `renameFolder`: the indexes of the files below the old folder, if no other is below the
new one. -/
def findFiles (oldFolderPath newFolderPath : Path) : List Path → ℕ → Except String (List ℕ)
  | [], _ => .ok []
  | path :: paths, i =>
    if path.hasAncestor oldFolderPath then
      (findFiles oldFolderPath newFolderPath paths (i + 1)).map (i :: ·)
    else if path.hasAncestor newFolderPath then
      .error (message "The folder already exists" newFolderPath)
    else findFiles oldFolderPath newFolderPath paths (i + 1)

variable (Q : QtDir)

def renameFolder (filePaths : List Path) (oldFolderPath newFolderPath : Path) :
    Except String (List (ℕ × Path)) :=
  if oldFolderPath.isValid = false then .error (message "The old path is invalid" oldFolderPath)
  else if newFolderPath.isValid = false then .error (message "The new path is invalid" newFolderPath)
  else if newFolderPath.isAbsolute = true then
    .error (message "Absolute path isn't allowed" newFolderPath)
  else match findFiles oldFolderPath newFolderPath filePaths 0 with
    | .error error => .error error
    | .ok [] => .error (message "No such folder" oldFolderPath)
    | .ok (index :: indexes) => .ok ((index :: indexes).map fun index =>
        (index, div Q newFolderPath (relativePathOf Q oldFolderPath (filePaths.getD index empty))))

/-- The files after the renames. -/
def applyRenames (filePaths : List Path) (renames : List (ℕ × Path)) : List Path :=
  renames.foldl (fun filePaths rename => filePaths.set rename.1 rename.2) filePaths

variable {Q} {filePaths : List Path} {oldPath newPath : Path} {renames : List (ℕ × Path)}

/-! ### What is found -/

theorem findFile_some (i k : ℕ) : findFile oldPath newPath filePaths i (some k) =
    if newPath ∈ filePaths then .error (message "The file already exists" newPath)
    else .ok (some k) := by
  induction filePaths generalizing i with
  | nil => rfl
  | cons path paths ih =>
    rw [findFile, if_neg (by simp)]
    by_cases hpath : path = newPath
    · simp [hpath]
    · rw [if_neg hpath, ih]
      simp [Ne.symm hpath]

variable (oldPath newPath) in
theorem findFile_eq_ok_iff (hnodup : filePaths.Nodup) (i j : ℕ) :
    findFile oldPath newPath filePaths i none = .ok (some j) ↔
      ∃ k, j = i + k ∧ filePaths[k]? = some oldPath ∧ ∀ m, m ≠ k → filePaths[m]? ≠ some newPath := by
  induction filePaths generalizing i with
  | nil => simp [findFile]
  | cons path paths ih =>
    obtain ⟨hpath, hnodup⟩ := nodup_cons.1 hnodup
    by_cases hold : path = oldPath
    · subst hold
      rw [findFile, if_pos ⟨rfl, rfl⟩, findFile_some]
      constructor
      · intro h
        split_ifs at h with hmem
        obtain rfl : i = j := by simpa using h
        refine ⟨0, rfl, rfl, fun m hm hget => hmem ?_⟩
        obtain ⟨m, rfl⟩ := Nat.exists_eq_succ_of_ne_zero hm
        exact mem_of_getElem? hget
      · rintro ⟨k, rfl, hget, hnew⟩
        obtain rfl : k = 0 := by
          by_contra hk
          obtain ⟨k, rfl⟩ := Nat.exists_eq_succ_of_ne_zero hk
          exact hpath (mem_of_getElem? hget)
        rw [if_neg, Nat.add_zero]
        intro hmem
        obtain ⟨m, hm⟩ := mem_iff_getElem?.1 hmem
        exact hnew (m + 1) (by omega) hm
    · rw [findFile, if_neg fun h => hold h.2]
      by_cases hnew : path = newPath
      · rw [if_pos hnew]
        simp only [reduceCtorEq, false_iff]
        rintro ⟨k, rfl, hget, hother⟩
        cases k with
        | zero => exact hold (some.inj hget)
        | succ k => exact hother 0 (by omega) (congrArg some hnew)
      · rw [if_neg hnew, ih hnodup]
        constructor
        · rintro ⟨k, rfl, hget, hother⟩
          refine ⟨k + 1, by omega, hget, fun m hm => ?_⟩
          cases m with
          | zero => exact fun h => hnew (some.inj h)
          | succ m => exact hother m (by omega)
        · rintro ⟨k, rfl, hget, hother⟩
          cases k with
          | zero => exact absurd (some.inj hget) hold
          | succ k => exact ⟨k, by omega, hget, fun m hm => hother (m + 1) (by omega)⟩

theorem renameFile_eq_ok_iff (hnodup : filePaths.Nodup) :
    renameFile filePaths oldPath newPath = .ok renames ↔
      oldPath.isValid = true ∧ newPath.isValid = true ∧ newPath.isAbsolute = false ∧
        ∃ i, filePaths[i]? = some oldPath ∧ (∀ m, m ≠ i → filePaths[m]? ≠ some newPath) ∧
          renames = [(i, newPath)] := by
  have hfind := findFile_eq_ok_iff oldPath newPath hnodup 0
  simp only [Nat.zero_add] at hfind
  by_cases hvalid : oldPath.isValid = true ∧ newPath.isValid = true ∧ newPath.isAbsolute = false
  · obtain ⟨hold, hnew, hrelative⟩ := hvalid
    rw [renameFile, if_neg (by simp [hold]), if_neg (by simp [hnew]), if_neg (by simp [hrelative])]
    simp only [hold, hnew, hrelative, true_and]
    cases hfound : findFile oldPath newPath filePaths 0 none with
    | error error =>
      simp only [reduceCtorEq, false_iff]
      rintro ⟨i, hget, hother, -⟩
      have hok := (hfind i).2 ⟨i, rfl, hget, hother⟩
      rw [hfound] at hok
      cases hok
    | ok found =>
      cases found with
      | none =>
        simp only [reduceCtorEq, false_iff]
        rintro ⟨i, hget, hother, -⟩
        have hok := (hfind i).2 ⟨i, rfl, hget, hother⟩
        rw [hfound] at hok
        cases hok
      | some j =>
        obtain ⟨k, rfl, hget, hother⟩ := (hfind j).1 hfound
        constructor
        · intro h
          exact ⟨j, hget, hother, by simpa using h.symm⟩
        · rintro ⟨i, hget', hother', rfl⟩
          have hok := (hfind i).2 ⟨i, rfl, hget', hother'⟩
          rw [hfound] at hok
          have hij : j = i := by simpa using hok
          rw [hij]
  · rw [renameFile]
    refine iff_of_false (fun h => hvalid ?_) fun h => hvalid ⟨h.1, h.2.1, h.2.2.1⟩
    split_ifs at h with hold hnew habsolute
    exact ⟨by simpa using hold, by simpa using hnew, by simpa using habsolute⟩

theorem findFiles_eq (i : ℕ) : findFiles oldPath newPath filePaths i =
    if ∃ path ∈ filePaths, path.hasAncestor oldPath = false ∧ path.hasAncestor newPath = true then
      .error (message "The folder already exists" newPath)
    else .ok ((filePaths.zipIdx i).filterMap fun entry =>
      if entry.1.hasAncestor oldPath then some entry.2 else none) := by
  induction filePaths generalizing i with
  | nil => rfl
  | cons path paths ih =>
    rw [findFiles, ih]
    cases hold : path.hasAncestor oldPath with
    | true =>
      rw [if_pos rfl]
      simp only [mem_cons, exists_eq_or_imp, hold, Bool.true_eq_false, false_and, false_or]
      split_ifs
      · rfl
      · simp [zipIdx_cons, hold, Except.map]
    | false =>
      cases hnew : path.hasAncestor newPath with
      | true => simp [hold, hnew]
      | false => simp [hold, hnew, zipIdx_cons]

variable (filePaths) in
theorem map_filterMap_zipIdx (selected : Path → Bool) (target : Path → Path) :
    (filePaths.zipIdx.filterMap fun entry => if selected entry.1 then some entry.2 else none).map
        (fun index => (index, target (filePaths.getD index empty))) =
      filePaths.zipIdx.filterMap fun entry =>
        if selected entry.1 then some (entry.2, target entry.1) else none := by
  rw [map_filterMap]
  refine filterMap_congr fun entry hmem => ?_
  have hget := mem_zipIdx_iff_getElem?.1 hmem
  cases hselected : selected entry.1 with
  | true => simp [getD_eq_getElem?_getD, hget]
  | false => simp

theorem renameFolder_eq_ok_iff : renameFolder Q filePaths oldPath newPath = .ok renames ↔
    oldPath.isValid = true ∧ newPath.isValid = true ∧ newPath.isAbsolute = false ∧
      (∀ path ∈ filePaths, path.hasAncestor oldPath = false → path.hasAncestor newPath = false) ∧
        (∃ path ∈ filePaths, path.hasAncestor oldPath = true) ∧
          renames = filePaths.zipIdx.filterMap fun entry =>
            if entry.1.hasAncestor oldPath then
              some (entry.2, div Q newPath (relativePathOf Q oldPath entry.1)) else none := by
  by_cases hvalid : oldPath.isValid = true ∧ newPath.isValid = true ∧ newPath.isAbsolute = false
  · obtain ⟨hold, hnew, hrelative⟩ := hvalid
    rw [renameFolder, if_neg (by simp [hold]), if_neg (by simp [hnew]), if_neg (by simp [hrelative]),
      findFiles_eq]
    simp only [hold, hnew, hrelative, true_and]
    by_cases hexists : ∃ path ∈ filePaths,
        path.hasAncestor oldPath = false ∧ path.hasAncestor newPath = true
    · rw [if_pos hexists]
      simp only [reduceCtorEq, false_iff]
      obtain ⟨path, hmem, hselected, hbelow⟩ := hexists
      intro h
      rw [h.1 path hmem hselected] at hbelow
      cases hbelow
    · have hfree : ∀ path ∈ filePaths, path.hasAncestor oldPath = false →
          path.hasAncestor newPath = false := fun path hmem hselected =>
        Bool.eq_false_iff.2 fun hbelow => hexists ⟨path, hmem, hselected, hbelow⟩
      rw [if_neg hexists]
      have hmap := map_filterMap_zipIdx filePaths (fun path => path.hasAncestor oldPath)
        fun path => div Q newPath (relativePathOf Q oldPath path)
      cases hindexes : filePaths.zipIdx.filterMap fun entry =>
          if entry.1.hasAncestor oldPath then some entry.2 else none with
      | nil =>
        simp only [reduceCtorEq, false_iff]
        rintro ⟨-, ⟨path, hmem, hbelow⟩, -⟩
        obtain ⟨i, hi⟩ := mem_iff_getElem?.1 hmem
        have hentry : i ∈ filePaths.zipIdx.filterMap fun entry =>
            if entry.1.hasAncestor oldPath then some entry.2 else none :=
          mem_filterMap.2 ⟨(path, i), mem_zipIdx_iff_getElem?.2 hi, by simp [hbelow]⟩
        rw [hindexes] at hentry
        cases hentry
      | cons index indexes =>
        rw [hindexes] at hmap
        simp only [Except.ok.injEq, hmap]
        have hbelow : ∃ path ∈ filePaths, path.hasAncestor oldPath = true := by
          have hentry : index ∈ filePaths.zipIdx.filterMap fun entry =>
              if entry.1.hasAncestor oldPath then some entry.2 else none := by simp [hindexes]
          obtain ⟨entry, hmem, hsome⟩ := mem_filterMap.1 hentry
          refine ⟨entry.1, mem_of_getElem? (mem_zipIdx_iff_getElem?.1 hmem), ?_⟩
          split_ifs at hsome with hselected
          exact hselected
        exact ⟨fun h => ⟨hfree, hbelow, h.symm⟩, fun h => h.2.2.symm⟩
  · rw [renameFolder]
    refine iff_of_false (fun h => hvalid ?_) fun h => hvalid ⟨h.1, h.2.1, h.2.2.1⟩
    split_ifs at h with hold hnew habsolute
    exact ⟨by simpa using hold, by simpa using hnew, by simpa using habsolute⟩

theorem applyRenames_append (selected : Path → Bool) (target : Path → Path) (before paths : List Path) :
    applyRenames (before ++ paths) ((paths.zipIdx before.length).filterMap fun entry =>
        if selected entry.1 then some (entry.2, target entry.1) else none) =
      before ++ paths.map fun path => if selected path then target path else path := by
  induction paths generalizing before with
  | nil => simp [applyRenames]
  | cons path paths ih =>
    have hnext := ih (before ++ [if selected path then target path else path])
    rw [append_assoc, append_assoc, singleton_append, singleton_append,
      length_append, length_singleton] at hnext
    rw [map_cons, ← hnext, zipIdx_cons, filterMap_cons]
    cases hselected : selected path with
    | true =>
      simp only [if_true]
      rw [applyRenames, foldl_cons, ← applyRenames]
      simp
    | false => simp

/-! ### Lists of files -/

/-- The path of a file below the torrent's folder. -/
def IsFilePath (path : Path) : Prop :=
  ∃ names, names ≠ [] ∧ (∀ name ∈ names, IsName '/' '.' name) ∧ path = ofNames false names

/-- Each file has a place of its own. -/
structure WellFormed (filePaths : List Path) : Prop where
  relative : ∀ path ∈ filePaths, IsFilePath path
  distinct : filePaths.Nodup
  apart : ∀ path ∈ filePaths, ∀ other ∈ filePaths, path.hasAncestor other = false

def Moved (filePaths filePaths' : List Path) (selected : Path → Bool) (target : Path → Path) : Prop :=
  filePaths'.length = filePaths.length ∧ ∀ (i : ℕ) (path : Path), filePaths[i]? = some path →
    filePaths'[i]? = some (if selected path then target path else path)

theorem isNormal_of_isName {names : List QString} {keep : Bool} (h : ∀ name ∈ names, IsName '/' '.' name) :
    IsNormal '/' '.' keep names := ⟨0, names, rfl, h, fun _ => rfl⟩

theorem isFilePath_ofNames_iff {names : List QString} (h : IsNormal '/' '.' true names) :
    IsFilePath (ofNames false names) ↔ names ≠ [] ∧ ∀ name ∈ names, IsName '/' '.' name := by
  constructor
  · rintro ⟨names', hnil, hnames, heq⟩
    rw [ofNames_false_injective h (isNormal_of_isName hnames) heq]
    exact ⟨hnil, hnames⟩
  · rintro ⟨hnil, hnames⟩
    exact ⟨names, hnil, hnames, rfl⟩

theorem hasAncestor_names_iff {l m : List QString} (hl : IsNormal '/' '.' true l)
    (hm : IsNormal '/' '.' true m) :
    (ofNames false l).hasAncestor (ofNames false m) = true ↔ m <+: l ∧ m ≠ [] ∧ m ≠ l := by
  have hl : IsNormal '/' '.' (keeps userDir.dropsAboveRoot false) l := hl
  have hm : IsNormal '/' '.' (keeps userDir.dropsAboveRoot false) m := hm
  rw [hasAncestor_ofNames_iff hl hm, and_iff_right rfl]

theorem wellFormed_map_iff {names : List (List QString)}
    (h : ∀ l ∈ names, l ≠ [] ∧ ∀ name ∈ l, IsName '/' '.' name) :
    WellFormed (names.map (ofNames false)) ↔ names.Pairwise Apart := by
  have hnormal : ∀ l ∈ names, IsNormal '/' '.' true l := fun l hl => isNormal_of_isName (h l hl).2
  constructor
  · intro hfiles
    have hnodup : names.Nodup := List.Nodup.of_map _ hfiles.distinct
    refine hnodup.pairwise_of_forall_ne fun l hl m hm hne => ?_
    have hpath : ∀ l ∈ names, ofNames false l ∈ names.map (ofNames false) := fun l hl =>
      mem_map_of_mem hl
    have hnot : ∀ l ∈ names, ∀ m ∈ names, l ≠ m → ¬ l <+: m := by
      intro l hl m hm hne hpre
      have hancestor := (hasAncestor_names_iff (hnormal m hm) (hnormal l hl)).2 ⟨hpre, (h l hl).1, hne⟩
      rw [hfiles.apart _ (hpath m hm) _ (hpath l hl)] at hancestor
      cases hancestor
    exact ⟨hnot l hl m hm hne, hnot m hm l hl hne.symm⟩
  · intro hapart
    have hne : ∀ l ∈ names, ∀ m ∈ names, l ≠ m → Apart l m := fun l hl m hm =>
      hapart.forall hl hm
    refine ⟨?_, ?_, ?_⟩
    · intro path hpath
      obtain ⟨l, hl, rfl⟩ := mem_map.1 hpath
      exact ⟨l, (h l hl).1, (h l hl).2, rfl⟩
    · have hnodup : names.Nodup := hapart.imp
        fun {l m} (hlm : Apart l m) (heq : l = m) => hlm.1 (heq ▸ prefix_rfl)
      exact (nodup_map_iff_inj_on hnodup).2 fun l hl m hm =>
        ofNames_false_injective (hnormal l hl) (hnormal m hm)
    · intro path hpath other hother
      obtain ⟨l, hl, rfl⟩ := mem_map.1 hpath
      obtain ⟨m, hm, rfl⟩ := mem_map.1 hother
      rw [Bool.eq_false_iff, Ne, hasAncestor_names_iff (hnormal l hl) (hnormal m hm)]
      rintro ⟨hpre, -, hml⟩
      exact (hne m hm l hl hml).1 hpre

theorem WellFormed.exists_names (h : WellFormed filePaths) :
    ∃ names : List (List QString), filePaths = names.map (ofNames false) ∧
      ∀ l ∈ names, l ≠ [] ∧ ∀ name ∈ l, IsName '/' '.' name := by
  have hrelative := h.relative
  clear h
  induction filePaths with
  | nil => exact ⟨[], rfl, by simp⟩
  | cons path paths ih =>
    obtain ⟨⟨l, hnil, hl, rfl⟩, hpaths⟩ := forall_mem_cons.1 hrelative
    obtain ⟨names, rfl, hnames⟩ := ih hpaths
    exact ⟨l :: names, rfl, forall_mem_cons.2 ⟨⟨hnil, hl⟩, hnames⟩⟩

theorem moved_map (selected : Path → Bool) (target : Path → Path) :
    Moved filePaths (filePaths.map fun path => if selected path then target path else path) selected
      target := by
  refine ⟨length_map _, fun i path hpath => ?_⟩
  rw [getElem?_map, hpath, map_some]

/-! ### A file -/

/-- The list after `renameFile`, if it raises no error. -/
def FileRight (filePaths : List Path) (oldPath newPath : Path) : Prop :=
  ∀ renames, renameFile filePaths oldPath newPath = .ok renames →
    WellFormed (applyRenames filePaths renames) ∧
      Moved filePaths (applyRenames filePaths renames) (fun path => decide (path = oldPath))
        fun _ => newPath

/-- `renameFile` raises no error. -/
structure FileAccepted (filePaths : List Path) (oldPath newPath : Path) : Prop where
  mem : oldPath ∈ filePaths
  oldValid : oldPath.isValid = true
  newValid : newPath.isValid = true
  relative : newPath.isAbsolute = false
  free : ∀ path ∈ filePaths, path ≠ oldPath → path ≠ newPath

/-- The new path is that of a file, and neither below another file nor the folder of one. -/
structure FileFree (filePaths : List Path) (oldPath newPath : Path) : Prop where
  isFilePath : IsFilePath newPath
  apart : ∀ path ∈ filePaths, path ≠ oldPath →
    path.hasAncestor newPath = false ∧ newPath.hasAncestor path = false

theorem renameFile_eq_ok_iff_accepted (h : WellFormed filePaths) :
    renameFile filePaths oldPath newPath = .ok renames ↔ FileAccepted filePaths oldPath newPath ∧
      ∃ i, filePaths[i]? = some oldPath ∧ renames = [(i, newPath)] := by
  rw [renameFile_eq_ok_iff h.distinct]
  constructor
  · rintro ⟨hold, hnew, hrelative, i, hget, hother, rfl⟩
    refine ⟨⟨mem_of_getElem? hget, hold, hnew, hrelative, fun path hpath hne heq => ?_⟩, i, hget, rfl⟩
    obtain ⟨m, hm⟩ := mem_iff_getElem?.1 hpath
    refine hother m (fun hmi => hne ?_) (heq ▸ hm)
    rw [hmi, hget] at hm
    exact (some.inj hm).symm
  · rintro ⟨haccepted, i, hget, rfl⟩
    refine ⟨haccepted.oldValid, haccepted.newValid, haccepted.relative, i, hget, fun m hm hnew => ?_, rfl⟩
    refine haccepted.free newPath (mem_of_getElem? hnew) (fun heq => hm ?_) rfl
    obtain ⟨hmlt, hmget⟩ := List.getElem?_eq_some_iff.1 hnew
    obtain ⟨hilt, higet⟩ := List.getElem?_eq_some_iff.1 hget
    exact h.distinct.getElem_inj_iff.1 (hmget.trans (heq.trans higet.symm))

theorem set_eq_map {i : ℕ} (hnodup : filePaths.Nodup) (hget : filePaths[i]? = some oldPath) :
    filePaths.set i newPath =
      filePaths.map fun path => if decide (path = oldPath) then newPath else path := by
  obtain ⟨hi, hold⟩ := List.getElem?_eq_some_iff.1 hget
  refine ext_getElem (by simp) fun j hj hj' => ?_
  have hjlt : j < filePaths.length := by simpa using hj
  by_cases hij : i = j
  · subst hij
    simp [hold]
  · have hne : filePaths[j] ≠ oldPath := fun heq =>
      hij (hnodup.getElem_inj_iff.1 (hold.trans heq.symm))
    simp [hij, hne]

theorem exists_names_of_isClean (hclean : newPath.IsClean Q) (hrelative : newPath.isAbsolute = false) :
    ∃ names, IsNormal '/' '.' true names ∧ newPath = ofNames false names := by
  obtain ⟨absolute, names, hnormal, rfl⟩ := hclean.eq_ofNames
  rw [isAbsolute_ofNames hnormal] at hrelative
  subst hrelative
  exact ⟨names, hnormal, rfl⟩

theorem isClean_of_isValid {text : QString} (h : (ofString Q text).isValid = true) :
    (ofString Q text).IsClean Q := by
  rw [ofString_eq] at h ⊢
  refine isPath_clean fun hnil => ?_
  subst hnil
  simp [isValid, Path.isEmpty, QtDir.cleanPath, clean] at h

theorem fileRight_iff (h : WellFormed filePaths) (_ : newPath.isValid = true → newPath.IsClean Q) :
    FileRight filePaths oldPath newPath ↔
      (FileAccepted filePaths oldPath newPath → FileFree filePaths oldPath newPath) := by
  constructor
  · intro hright haccepted
    obtain ⟨i, hget⟩ := mem_iff_getElem?.1 haccepted.mem
    obtain ⟨hwellFormed, -⟩ := hright _ ((renameFile_eq_ok_iff_accepted h).2 ⟨haccepted, i, hget, rfl⟩)
    have happly : applyRenames filePaths [(i, newPath)] = filePaths.set i newPath := rfl
    rw [happly, set_eq_map h.distinct hget] at hwellFormed
    have hnewMem : newPath ∈ filePaths.map fun path =>
        if decide (path = oldPath) then newPath else path :=
      mem_map.2 ⟨oldPath, haccepted.mem, by simp⟩
    refine ⟨hwellFormed.relative _ hnewMem, fun path hpath hne => ?_⟩
    have hpathMem : path ∈ filePaths.map fun path =>
        if decide (path = oldPath) then newPath else path :=
      mem_map.2 ⟨path, hpath, by simp [hne]⟩
    exact ⟨hwellFormed.apart _ hpathMem _ hnewMem, hwellFormed.apart _ hnewMem _ hpathMem⟩
  · intro hfree renames hok
    obtain ⟨haccepted, i, hget, rfl⟩ := (renameFile_eq_ok_iff_accepted h).1 hok
    obtain ⟨hfilePath, hapart⟩ := hfree haccepted
    have happly : applyRenames filePaths [(i, newPath)] = filePaths.set i newPath := rfl
    rw [happly, set_eq_map h.distinct hget]
    refine ⟨?_, moved_map _ _⟩
    have hself : newPath.hasAncestor newPath = false := by
      rw [Bool.eq_false_iff, Ne, hasAncestor_iff_segments]
      exact fun hself => hself.2.2 rfl
    refine ⟨fun path hpath => ?_, ?_, fun path hpath other hother => ?_⟩
    · obtain ⟨path, hmem, rfl⟩ := mem_map.1 hpath
      split_ifs
      · exact hfilePath
      · exact h.relative path hmem
    · refine (nodup_map_iff_inj_on h.distinct).2 fun path hpath other hother heq => ?_
      by_cases hp : path = oldPath <;> by_cases ho : other = oldPath
      · rw [hp, ho]
      · simp only [hp, ho, decide_true, decide_false, if_true] at heq
        exact absurd heq.symm (haccepted.free other hother ho)
      · simp only [hp, ho, decide_true, decide_false, if_true] at heq
        exact absurd heq (haccepted.free path hpath hp)
      · simpa [hp, ho] using heq
    · obtain ⟨path, hmem, rfl⟩ := mem_map.1 hpath
      obtain ⟨other, hmem', rfl⟩ := mem_map.1 hother
      by_cases hp : path = oldPath <;> by_cases ho : other = oldPath
      · simpa [hp, ho] using hself
      · simpa [hp, ho] using (hapart other hmem' ho).2
      · simpa [hp, ho] using (hapart path hmem hp).1
      · simpa [hp, ho] using h.apart path hmem other hmem'

/-! ### A folder -/

variable (Q) in
/-- The path of a file below the new folder instead of the old one. -/
def movedPath (oldPath newPath path : Path) : Path :=
  ofNames false (newPath.names Q ++ (path.names Q).drop (oldPath.names Q).length)

variable (Q) in
/-- The list after `renameFolder`, if it raises no error. -/
def FolderRight (filePaths : List Path) (oldPath newPath : Path) : Prop :=
  ∀ renames, renameFolder Q filePaths oldPath newPath = .ok renames →
    WellFormed (applyRenames filePaths renames) ∧
      Moved filePaths (applyRenames filePaths renames) (fun path => path.hasAncestor oldPath)
        (movedPath Q oldPath newPath)

/-- `renameFolder` raises no error. -/
structure FolderAccepted (filePaths : List Path) (oldPath newPath : Path) : Prop where
  oldValid : oldPath.isValid = true
  newValid : newPath.isValid = true
  relative : newPath.isAbsolute = false
  free : ∀ path ∈ filePaths, path.hasAncestor oldPath = false → path.hasAncestor newPath = false
  nonempty : ∃ path ∈ filePaths, path.hasAncestor oldPath = true

variable (Q) in
/-- The new folder is below the torrent's folder, and no other file has its path or that of one of its
parents.  Where the new folder is the torrent's folder itself, no other file is where one of the moved
files comes to, in a folder there, or in its place. -/
structure FolderFree (filePaths : List Path) (oldPath newPath : Path) : Prop where
  inside : (newPath.names Q).head? ≠ some ['.', '.']
  apart : ∀ path ∈ filePaths, path.hasAncestor oldPath = false →
    path ≠ newPath ∧ newPath.hasAncestor path = false
  top : newPath.names Q = [] → ∀ path ∈ filePaths, path.hasAncestor oldPath = false →
    ∀ other ∈ filePaths, other.hasAncestor oldPath = true →
      path ≠ movedPath Q oldPath newPath other ∧
        path.hasAncestor (movedPath Q oldPath newPath other) = false ∧
          (movedPath Q oldPath newPath other).hasAncestor path = false

theorem relativePathOf_below {l r : List QString} (hl : l ≠ [])
    (h : ∀ name ∈ l ++ r, IsName '/' '.' name) :
    relativePathOf Q (ofNames false l) (ofNames false (l ++ r)) = ofNames false r := by
  have hnames : IsNormal '/' '.' (keeps Q.dropsAboveRoot false) (l ++ r) := isNormal_of_isName h
  have hl' : IsNormal '/' '.' (keeps Q.dropsAboveRoot false) l := by simpa using hnames.take l.length
  by_cases hresource : (ofNames false l).IsResource
  · have hresource' := (isResource_append hl' hl r).2 hresource
    rw [relativePathOf_absolute hl' hnames (.inr ⟨hl, hresource⟩) (.inr ⟨by simp [hl], hresource'⟩),
      relative_append]
  · have hresource' : ¬ (ofNames false (l ++ r)).IsResource := by rwa [isResource_append hl' hl]
    rw [relativePathOf_relative hl' hnames hresource hresource', fromHome_append,
      foldl_push_names fun name hname => h name (mem_append_right l hname), relative_append]

theorem pairwise_apart_map_iff {places : List (List QString)} (hapart : places.Pairwise Apart)
    {l n : List QString} {selected : List QString → Bool}
    (hselected : ∀ a ∈ places, selected a = true → l <+: a) :
    (places.map fun a => if selected a then n ++ a.drop l.length else a).Pairwise Apart ↔
      ∀ a ∈ places, selected a = false → ∀ b ∈ places, selected b = true →
        Apart a (n ++ b.drop l.length) := by
  have hnodup : places.Nodup := hapart.imp
    fun {l m} (hlm : Apart l m) (heq : l = m) => hlm.1 (heq ▸ prefix_rfl)
  rw [pairwise_map]
  constructor
  · intro h a ha hfalse b hb htrue
    have hne : a ≠ b := by
      rintro rfl
      rw [hfalse] at htrue
      cases htrue
    have hab := h.forall ha hb hne
    simpa [hfalse, htrue] using hab
  · intro h
    refine hnodup.pairwise_of_forall_ne fun a ha b hb hne => ?_
    have hab := hapart.forall ha hb hne
    cases hsa : selected a <;> cases hsb : selected b
    · simpa using hab
    · simpa using h a ha hsa b hb hsb
    · simpa using (h b hb hsb a ha hsa).symm
    · obtain ⟨r, rfl⟩ := hselected a ha hsa
      obtain ⟨r', rfl⟩ := hselected b hb hsb
      simp only [if_true, drop_left' rfl]
      exact (apart_append_left_iff n).2 ((apart_append_left_iff l).1 hab)

theorem names_relative {names : List QString} (h : IsNormal '/' '.' true names) :
    (ofNames false names).names Q = names := by
  exact names_ofNames h

theorem apart_iff_paths {a b : List QString} (ha : IsNormal '/' '.' true a)
    (hb : IsNormal '/' '.' true b) (hanil : a ≠ []) (hbnil : b ≠ []) :
    Apart a b ↔ ofNames false a ≠ ofNames false b ∧
      (ofNames false a).hasAncestor (ofNames false b) = false ∧
        (ofNames false b).hasAncestor (ofNames false a) = false := by
  have heq : ofNames false a = ofNames false b ↔ a = b :=
    ⟨ofNames_false_injective ha hb, congrArg (ofNames false)⟩
  rw [Ne, heq, Bool.eq_false_iff, Bool.eq_false_iff, Ne, Ne, hasAncestor_names_iff ha hb,
    hasAncestor_names_iff hb ha, Apart]
  constructor
  · exact fun h => ⟨fun hab => h.1 (hab ▸ prefix_rfl), fun hba => h.2 hba.1, fun hab => h.1 hab.1⟩
  · rintro ⟨hne, hba, hab⟩
    exact ⟨fun hpre => hab ⟨hpre, hanil, hne⟩, fun hpre => hba ⟨hpre, hbnil, fun h => hne h.symm⟩⟩

theorem not_isPrefix_iff {a n : List QString} (ha : IsNormal '/' '.' true a)
    (hn : IsNormal '/' '.' true n) (hanil : a ≠ []) :
    ¬ a <+: n ↔ ofNames false a ≠ ofNames false n ∧
      (ofNames false n).hasAncestor (ofNames false a) = false := by
  have heq : ofNames false a = ofNames false n ↔ a = n :=
    ⟨ofNames_false_injective ha hn, congrArg (ofNames false)⟩
  rw [Ne, heq, Bool.eq_false_iff, Ne, hasAncestor_names_iff hn ha]
  constructor
  · exact fun h => ⟨fun hne => h (hne ▸ prefix_rfl), fun hpre => h hpre.1⟩
  · exact fun ⟨hne, hancestor⟩ hpre => hancestor ⟨hpre, hanil, hne⟩

section Places

variable {places : List (List QString)} {l n : List QString}
  (hplaces : ∀ a ∈ places, a ≠ [] ∧ ∀ name ∈ a, IsName '/' '.' name)
  (hl : IsNormal '/' '.' true l) (hn : IsNormal '/' '.' true n)
include hplaces hl hn

theorem map_movedPath_eq : ((places.map (ofNames false)).map fun path =>
      if path.hasAncestor (ofNames false l) then
        movedPath Q (ofNames false l) (ofNames false n) path else path) =
    (places.map fun a => if (ofNames false a).hasAncestor (ofNames false l) then
      n ++ a.drop l.length else a).map (ofNames false) := by
  rw [List.map_map, List.map_map]
  refine map_congr_left fun a ha => ?_
  have hnames : ∀ {b : List QString}, IsNormal '/' '.' true b → (ofNames false b).names Q = b :=
    fun hb => names_relative hb
  simp only [Function.comp_apply, movedPath]
  split_ifs with hbelow
  · rw [hnames hn, hnames hl, hnames (isNormal_of_isName (hplaces a ha).2)]
  · rfl

theorem wellFormed_moved_iff (hapart : places.Pairwise Apart)
    (hfree : ∀ a ∈ places, (ofNames false a).hasAncestor (ofNames false l) = false →
      (ofNames false a).hasAncestor (ofNames false n) = false)
    (hnonempty : ∃ a ∈ places, (ofNames false a).hasAncestor (ofNames false l) = true) :
    WellFormed ((places.map (ofNames false)).map fun path =>
        if path.hasAncestor (ofNames false l) then
          movedPath Q (ofNames false l) (ofNames false n) path else path) ↔
      FolderFree Q (places.map (ofNames false)) (ofNames false l) (ofNames false n) := by
  have hnormal : ∀ a ∈ places, IsNormal '/' '.' true a := fun a ha => isNormal_of_isName (hplaces a ha).2
  have hnames : ∀ {b : List QString}, IsNormal '/' '.' true b → (ofNames false b).names Q = b :=
    fun hb => names_relative hb
  have hbelow : ∀ a ∈ places, (ofNames false a).hasAncestor (ofNames false l) = true →
      ∃ r, r ≠ [] ∧ a = l ++ r := by
    intro a ha hancestor
    obtain ⟨⟨r, rfl⟩, -, hne⟩ := (hasAncestor_names_iff (hnormal a ha) hl).1 hancestor
    exact ⟨r, fun hr => hne (by simp [hr]), rfl⟩
  have hinside : (n.head? ≠ some ['.', '.']) ↔ ∀ name ∈ n, IsName '/' '.' name := by
    obtain hnames | ⟨k, m, rest, hnil, rfl, hrest⟩ := IsNormal.names_or_ups (l := []) (r := n) hn
    · refine iff_of_true (fun hhead => ?_) hnames
      exact (hnames _ (mem_of_mem_head? hhead)).2.2.2 rfl
    · refine iff_of_false (by simp [replicate_succ]) fun hall => ?_
      exact (hall ['.', '.'] (by simp [replicate_succ])).2.2.2 rfl
  rw [map_movedPath_eq hplaces hl hn]
  by_cases hnNames : ∀ name ∈ n, IsName '/' '.' name
  · have hmoved : ∀ b ∈ places.map fun a => if (ofNames false a).hasAncestor (ofNames false l) then
        n ++ a.drop l.length else a, b ≠ [] ∧ ∀ name ∈ b, IsName '/' '.' name := by
      intro b hb
      obtain ⟨a, ha, rfl⟩ := mem_map.1 hb
      split_ifs with hselected
      · obtain ⟨r, hr, rfl⟩ := hbelow a ha hselected
        rw [drop_left' rfl]
        exact ⟨by simp [hr], fun name hname => (mem_append.1 hname).elim (hnNames name)
          fun hname => (hplaces _ ha).2 name (mem_append_right l hname)⟩
      · exact hplaces a ha
    have hprefix : ∀ a ∈ places, (ofNames false a).hasAncestor (ofNames false l) = true → l <+: a :=
      fun a ha hselected => by
        obtain ⟨r, -, rfl⟩ := hbelow a ha hselected
        exact prefix_append l r
    -- where a file below the old folder comes to
    have htarget : ∀ b ∈ places, (ofNames false b).hasAncestor (ofNames false l) = true →
        movedPath Q (ofNames false l) (ofNames false n) (ofNames false b) =
            ofNames false (n ++ b.drop l.length) ∧
          n ++ b.drop l.length ≠ [] ∧ IsNormal '/' '.' true (n ++ b.drop l.length) := by
      intro b hb hselected
      obtain ⟨r, hr, rfl⟩ := hbelow b hb hselected
      rw [movedPath, hnames hn, hnames hl, hnames (hnormal _ hb), drop_left' rfl]
      exact ⟨rfl, by simp [hr], hn.append fun name hname =>
        (hplaces _ hb).2 name (mem_append_right l hname)⟩
    rw [wellFormed_map_iff hmoved, pairwise_apart_map_iff hapart hprefix]
    constructor
    · intro hplace
      refine ⟨by rwa [hnames hn, hinside], fun path hpath hother => ?_,
        fun hnil path hpath hother moved hmovedPath hselected => ?_⟩
      · obtain ⟨a, ha, rfl⟩ := mem_map.1 hpath
        obtain ⟨b, hb, hselected⟩ := hnonempty
        refine (not_isPrefix_iff (hnormal a ha) hn (hplaces a ha).1).1 fun hpre => ?_
        exact (hplace a ha hother b hb hselected).1 (hpre.trans (prefix_append ..))
      · obtain ⟨a, ha, rfl⟩ := mem_map.1 hpath
        obtain ⟨b, hb, rfl⟩ := mem_map.1 hmovedPath
        obtain ⟨heq, hne, hnormal'⟩ := htarget b hb hselected
        rw [heq]
        exact (apart_iff_paths (hnormal a ha) hnormal' (hplaces a ha).1 hne).1
          (hplace a ha hother b hb hselected)
    · intro hfolder a ha hother b hb hselected
      have hmem : ∀ c ∈ places, ofNames false c ∈ places.map (ofNames false) := fun c hc =>
        mem_map_of_mem hc
      obtain ⟨heq, hne, hnormal'⟩ := htarget b hb hselected
      by_cases hnil : n = []
      · have htop := hfolder.top (by rw [hnames hn, hnil]) _ (hmem a ha) hother _ (hmem b hb) hselected
        rw [heq] at htop
        exact (apart_iff_paths (hnormal a ha) hnormal' (hplaces a ha).1 hne).2 htop
      · obtain ⟨r, hr, rfl⟩ := hbelow b hb hselected
        rw [drop_left' rfl]
        have hnotBelow : ¬ (n <+: a ∧ n ≠ a) := by
          rintro ⟨hpre, hna⟩
          have hancestor := (hasAncestor_names_iff (hnormal a ha) hn).2 ⟨hpre, hnil, hna⟩
          rw [hfree a ha hother] at hancestor
          cases hancestor
        refine (apart_append_iff hr hnotBelow).2 ?_
        exact (not_isPrefix_iff (hnormal a ha) hn (hplaces a ha).1).2
          (hfolder.apart _ (hmem a ha) hother)
  · refine iff_of_false (fun hwellFormed => hnNames fun name hname => ?_) fun hfolder =>
      hnNames (hinside.1 ?_)
    · obtain ⟨a, ha, hselected⟩ := hnonempty
      obtain ⟨r, hr, rfl⟩ := hbelow a ha hselected
      have hmem : ofNames false (n ++ r) ∈ (places.map fun a =>
          if (ofNames false a).hasAncestor (ofNames false l) then n ++ a.drop l.length
          else a).map (ofNames false) :=
        mem_map_of_mem (mem_map.2 ⟨l ++ r, ha, by simp [hselected, drop_left' rfl]⟩)
      have hnormal' : IsNormal '/' '.' true (n ++ r) := hn.append fun name hname =>
        (hplaces _ ha).2 name (mem_append_right l hname)
      exact ((isFilePath_ofNames_iff hnormal').1 (hwellFormed.relative _ hmem)).2 name
        (mem_append_left r hname)
    · have := hfolder.inside
      rwa [hnames hn] at this

end Places

theorem folderAccepted_iff :
    FolderAccepted filePaths oldPath newPath ↔ ∃ renames, renameFolder Q filePaths oldPath newPath = .ok renames :=
  ⟨fun h => ⟨_, renameFolder_eq_ok_iff.2 ⟨h.oldValid, h.newValid, h.relative, h.free, h.nonempty, rfl⟩⟩,
    fun ⟨_, hok⟩ => by
      obtain ⟨hov, hnv, hrel, hfree, hnonempty, -⟩ := renameFolder_eq_ok_iff.1 hok
      exact ⟨hov, hnv, hrel, hfree, hnonempty⟩⟩

section Clean

variable (h : WellFormed filePaths) (haccepted : FolderAccepted filePaths oldPath newPath)
  (hold : oldPath.IsClean Q) (hnew : newPath.IsClean Q)
include h haccepted hold hnew

theorem exists_places :
    ∃ (places : List (List QString)) (l n : List QString), filePaths = places.map (ofNames false) ∧
      oldPath = ofNames false l ∧ newPath = ofNames false n ∧ l ≠ [] ∧ IsNormal '/' '.' true l ∧
        IsNormal '/' '.' true n ∧ ∀ a ∈ places, a ≠ [] ∧ ∀ name ∈ a, IsName '/' '.' name := by
  obtain ⟨places, rfl, hplaces⟩ := h.exists_names
  obtain ⟨n, hn, rfl⟩ := exists_names_of_isClean hnew haccepted.relative
  -- the old folder is relative, since a file is below it
  obtain ⟨path, hpath, hselected⟩ := haccepted.nonempty
  obtain ⟨a, ha, rfl⟩ := mem_map.1 hpath
  obtain ⟨absolute, l, hl, rfl⟩ := hold.eq_ofNames
  have ha' : IsNormal '/' '.' (keeps Q.dropsAboveRoot false) a := isNormal_of_isName (hplaces a ha).2
  obtain ⟨rfl, hpre, hlnil, -⟩ := (hasAncestor_ofNames_iff ha' hl).1 hselected
  exact ⟨places, l, n, rfl, rfl, rfl, hlnil, hl, hn, hplaces⟩

theorem applyRenames_of_renameFolder (hok : renameFolder Q filePaths oldPath newPath = .ok renames) :
    applyRenames filePaths renames = filePaths.map fun path => if path.hasAncestor oldPath then
      movedPath Q oldPath newPath path else path := by
  obtain ⟨-, -, -, -, -, rfl⟩ := renameFolder_eq_ok_iff.1 hok
  have happly := applyRenames_append (fun path => path.hasAncestor oldPath)
    (fun path => div Q newPath (relativePathOf Q oldPath path)) [] filePaths
  simp only [nil_append, length_nil] at happly
  rw [happly]
  obtain ⟨places, l, n, rfl, rfl, rfl, hlnil, hl, hn, hplaces⟩ := exists_places h haccepted hold hnew
  refine map_congr_left fun path hpath => ?_
  obtain ⟨b, hb, rfl⟩ := mem_map.1 hpath
  split_ifs with hbelow
  · have hb' : IsNormal '/' '.' true b := isNormal_of_isName (hplaces b hb).2
    obtain ⟨⟨r, rfl⟩, -, -⟩ := (hasAncestor_names_iff hb' hl).1 hbelow
    have hr : ∀ name ∈ r, IsName '/' '.' name := fun name hname =>
      (hplaces _ hb).2 name (mem_append_right l hname)
    have hn' : IsNormal '/' '.' (keeps Q.dropsAboveRoot false) n := hn
    have hr' : IsNormal '/' '.' true r := isNormal_of_isName hr
    rw [relativePathOf_below hlnil (hplaces _ hb).2, div_ofNames hn' hr', foldl_push_names hr,
      movedPath, names_relative hn, names_relative hl, names_relative hb', drop_left' rfl]
  · rfl

theorem movedPath_back (hnamed : newPath.names Q ≠ []) {path : Path} (hpath : path ∈ filePaths)
    (hbelow : path.hasAncestor oldPath = true) :
    (movedPath Q oldPath newPath path).hasAncestor newPath = true ∧
      movedPath Q newPath oldPath (movedPath Q oldPath newPath path) = path := by
  obtain ⟨places, l, n, rfl, rfl, rfl, -, hl, hn, hplaces⟩ := exists_places h haccepted hold hnew
  obtain ⟨a, ha, rfl⟩ := mem_map.1 hpath
  have ha' : IsNormal '/' '.' true a := isNormal_of_isName (hplaces a ha).2
  obtain ⟨⟨r, rfl⟩, -, hne⟩ := (hasAncestor_names_iff ha' hl).1 hbelow
  have hnr : IsNormal '/' '.' true (n ++ r) := hn.append fun name hname =>
    (hplaces _ ha).2 name (mem_append_right l hname)
  rw [names_relative hn] at hnamed
  rw [movedPath, movedPath, names_relative ha', names_relative hl, names_relative hn,
    drop_left' rfl, names_relative hnr, drop_left' rfl, hasAncestor_names_iff hnr hn]
  exact ⟨⟨prefix_append n r, hnamed, fun heq => hne (by simp [self_eq_append_right.1 heq])⟩, rfl⟩

/-- The opposite call gives the files their old paths. -/
theorem renameFolder_back (hnamed : newPath.names Q ≠ []) {filePaths' : List Path}
    (hfiles : filePaths' = filePaths.map fun path => if path.hasAncestor oldPath then
      movedPath Q oldPath newPath path else path) (h' : WellFormed filePaths') :
    ∃ renames, renameFolder Q filePaths' newPath oldPath = .ok renames ∧
      applyRenames filePaths' renames = filePaths := by
  have hback (path : Path) (hpath : path ∈ filePaths) (hbelow : path.hasAncestor oldPath = true) :=
    movedPath_back h haccepted hold hnew hnamed hpath hbelow
  have haccepted' : FolderAccepted filePaths' newPath oldPath := by
    refine ⟨haccepted.newValid, haccepted.oldValid, ?_, fun path hpath hother => ?_, ?_⟩
    · obtain ⟨-, l, -, -, rfl, -, -, hl, -⟩ := exists_places h haccepted hold hnew
      exact isAbsolute_ofNames hl
    · rw [hfiles] at hpath
      obtain ⟨path, hmem, rfl⟩ := mem_map.1 hpath
      split_ifs at hother ⊢ with hbelow
      · exact absurd ((hback path hmem hbelow).1.symm.trans hother) nofun
      · exact Bool.eq_false_iff.2 hbelow
    · obtain ⟨path, hpath, hbelow⟩ := haccepted.nonempty
      exact ⟨_, hfiles ▸ mem_map.2 ⟨path, hpath, if_pos hbelow⟩, (hback path hpath hbelow).1⟩
  obtain ⟨renames, hok⟩ := folderAccepted_iff.1 haccepted'
  refine ⟨renames, hok, (applyRenames_of_renameFolder h' haccepted' hnew hold hok).trans ?_⟩
  rw [hfiles, List.map_map]
  refine (map_congr_left fun path hpath => ?_).trans (map_id filePaths)
  rw [Function.comp_apply]
  by_cases hbelow : path.hasAncestor oldPath = true
  · rw [if_pos hbelow, if_pos (hback path hpath hbelow).1, (hback path hpath hbelow).2]
    rfl
  · rw [if_neg hbelow, if_neg (by rw [haccepted.free path hpath (Bool.eq_false_iff.2 hbelow)]; nofun)]
    rfl

end Clean

theorem folderRight_iff (h : WellFormed filePaths) (hold : oldPath.isValid = true → oldPath.IsClean Q)
    (hnew : newPath.isValid = true → newPath.IsClean Q) :
    FolderRight Q filePaths oldPath newPath ↔
      (FolderAccepted filePaths oldPath newPath → FolderFree Q filePaths oldPath newPath) := by
  have hiff : FolderRight Q filePaths oldPath newPath ↔ (FolderAccepted filePaths oldPath newPath →
      WellFormed (filePaths.map fun path => if path.hasAncestor oldPath then
        movedPath Q oldPath newPath path else path)) := by
    have happly (haccepted : FolderAccepted filePaths oldPath newPath) {renames : List (ℕ × Path)}
        (hok : renameFolder Q filePaths oldPath newPath = .ok renames) :=
      applyRenames_of_renameFolder h haccepted (hold haccepted.oldValid) (hnew haccepted.newValid) hok
    constructor
    · intro hright haccepted
      obtain ⟨renames, hok⟩ := folderAccepted_iff.1 haccepted
      rw [← happly haccepted hok]
      exact (hright renames hok).1
    · intro hmoved renames hok
      have haccepted := folderAccepted_iff.2 ⟨renames, hok⟩
      rw [happly haccepted hok]
      exact ⟨hmoved haccepted, moved_map _ _⟩
  rw [hiff]
  refine forall_congr' fun haccepted => ?_
  obtain ⟨places, l, n, rfl, rfl, rfl, -, hl, hn, hplaces⟩ :=
    exists_places h haccepted (hold haccepted.oldValid) (hnew haccepted.newValid)
  refine wellFormed_moved_iff hplaces hl hn ((wellFormed_map_iff hplaces).1 h)
    (fun b hb hother => haccepted.free _ (mem_map_of_mem hb) hother) ?_
  obtain ⟨path, hpath, hselected⟩ := haccepted.nonempty
  obtain ⟨a, ha, rfl⟩ := mem_map.1 hpath
  exact ⟨a, ha, hselected⟩

/-- **When renames keep the list of files well-formed.**  Paths come as texts.  The checks do not see
that a relative path leads out of the torrent's folder or is that folder itself, and they compare the
new path with those of the other files and of the files below it, but not with the folders that other
files would have to become. -/
theorem rename_iff (h : WellFormed filePaths) (oldText newText : QString) :
    (FileRight filePaths (ofString Q oldText) (ofString Q newText) ↔
        (FileAccepted filePaths (ofString Q oldText) (ofString Q newText) →
          FileFree filePaths (ofString Q oldText) (ofString Q newText))) ∧
      (FolderRight Q filePaths (ofString Q oldText) (ofString Q newText) ↔
        (FolderAccepted filePaths (ofString Q oldText) (ofString Q newText) →
          FolderFree Q filePaths (ofString Q oldText) (ofString Q newText))) :=
  ⟨fileRight_iff h isClean_of_isValid, folderRight_iff h isClean_of_isValid isClean_of_isValid⟩

/-- A file in a folder, and one beside it. -/
def twoFiles : List Path := [ofNames false [['d'], ['a']], ofNames false [['b']]]

theorem wellFormed_twoFiles : WellFormed twoFiles := by
  refine ⟨?_, by decide, by decide⟩
  intro path hpath
  obtain rfl | rfl : path = ofNames false [['d'], ['a']] ∨ path = ofNames false [['b']] := by
    simpa [twoFiles] using hpath
  · exact ⟨[['d'], ['a']], by simp, by simp [IsName], rfl⟩
  · exact ⟨[['b']], by simp, by simp [IsName], rfl⟩

/-- The folder is renamed. -/
theorem rename_iff_folder : FolderRight userDir twoFiles (ofString userDir ['d']) (ofString userDir ['e']) :=
  (rename_iff wellFormed_twoFiles ['d'] ['e']).2.2 fun _ =>
    { inside := by decide, apart := by decide, top := fun h => absurd h (by decide) }

/-- A file is moved below another one, which would have to become a folder. -/
theorem file_becomes_folder : ¬ ∀ (Q : QtDir) (filePaths : List Path) (oldText newText : QString),
    WellFormed filePaths →
      FileRight filePaths (ofString Q oldText) (ofString Q newText) ∧
        FolderRight Q filePaths (ofString Q oldText) (ofString Q newText) := by
  intro h
  obtain ⟨hfile, -⟩ := h userDir twoFiles ['d', '/', 'a'] ['b', '/', 'a'] wellFormed_twoFiles
  obtain ⟨hwellFormed, -⟩ := hfile [(0, ofNames false [['b'], ['a']])] (by decide)
  exact absurd (hwellFormed.apart (ofNames false [['b'], ['a']]) (by decide) (ofNames false [['b']])
    (by decide)) (by decide)

/-! ### Renaming back -/

/-- A call of one of the two functions. -/
inductive Rename where
  | file (oldText newText : QString)
  | folder (oldText newText : QString)

def Rename.opposite : Rename → Rename
  | file oldText newText => file newText oldText
  | folder oldText newText => folder newText oldText

variable (Q)

/-- The files after a call. -/
def rename (filePaths : List Path) : Rename → Except String (List Path)
  | .file oldText newText =>
    (renameFile filePaths (ofString Q oldText) (ofString Q newText)).map (applyRenames filePaths)
  | .folder oldText newText =>
    (renameFolder Q filePaths (ofString Q oldText) (ofString Q newText)).map (applyRenames filePaths)

/-- Calls that raise no error and leave the files well-formed.  None of them puts the files of a folder
into the torrent's folder itself. -/
inductive Renamed : List Path → List Rename → List Path → Prop where
  | nil (filePaths : List Path) : Renamed filePaths [] filePaths
  | cons {filePaths filePaths' last : List Path} {call : Rename} {calls : List Rename}
    (hok : rename Q filePaths call = .ok filePaths') (h' : WellFormed filePaths')
    (hnamed : ∀ oldText newText, call = .folder oldText newText → (ofString Q newText).names Q ≠ [])
    (hrest : Renamed filePaths' calls last) : Renamed filePaths (call :: calls) last

variable {Q}

theorem exists_of_map_eq_ok {α β : Type} {f : α → β} {x : Except String α} {b : β}
    (h : x.map f = .ok b) : ∃ a, x = .ok a ∧ f a = b := by
  cases x with
  | error error => cases h
  | ok a => exact ⟨a, rfl, Except.ok.inj h⟩

theorem rename_opposite {filePaths' : List Path} {call : Rename} (h : WellFormed filePaths)
    (hok : rename Q filePaths call = .ok filePaths') (h' : WellFormed filePaths')
    (hnamed : ∀ oldText newText, call = .folder oldText newText → (ofString Q newText).names Q ≠ []) :
    rename Q filePaths' call.opposite = .ok filePaths := by
  cases call with
  | file oldText newText =>
    obtain ⟨renames, hrenames, rfl⟩ := exists_of_map_eq_ok hok
    obtain ⟨haccepted, i, hget, rfl⟩ := (renameFile_eq_ok_iff_accepted h).1 hrenames
    obtain ⟨hi, hold⟩ := List.getElem?_eq_some_iff.1 hget
    have hget' : (filePaths.set i (ofString Q newText))[i]? = some (ofString Q newText) :=
      getElem?_set_self hi
    rw [Rename.opposite, rename,
      (renameFile_eq_ok_iff_accepted h').2 ⟨⟨?_, haccepted.newValid, haccepted.oldValid, ?_, ?_⟩, i, hget', rfl⟩]
    · refine congrArg Except.ok ((set_set ..).trans ?_)
      rw [← hold, set_getElem_self]
    · exact mem_of_getElem? hget'
    · obtain ⟨names, -, hnames, heq⟩ := h.relative _ haccepted.mem
      exact heq ▸ isAbsolute_ofNames (isNormal_of_isName hnames : IsNormal '/' '.' true names)
    · rintro path hpath hne rfl
      change _ ∈ filePaths.set i _ at hpath
      rw [set_eq_map h.distinct hget] at hpath
      obtain ⟨path, -, heq⟩ := mem_map.1 hpath
      split_ifs at heq with hsame
      · exact hne heq.symm
      · exact hsame (decide_eq_true heq)
  | folder oldText newText =>
    obtain ⟨renames, hrenames, rfl⟩ := exists_of_map_eq_ok hok
    have haccepted := folderAccepted_iff.2 ⟨renames, hrenames⟩
    have hold := isClean_of_isValid haccepted.oldValid
    have hnew := isClean_of_isValid haccepted.newValid
    obtain ⟨back, hback, hfiles⟩ := renameFolder_back h haccepted hold hnew (hnamed _ _ rfl)
      (applyRenames_of_renameFolder h haccepted hold hnew hrenames) h'
    rw [Rename.opposite, rename, hback]
    exact congrArg Except.ok hfiles

/-- **Renames can be taken back.**  The opposite calls, the last one first, raise no error either, and
give every file the path that it had. -/
theorem renamed_back {calls : List Rename} {last : List Path} (h : WellFormed filePaths)
    (hrun : Renamed Q filePaths calls last) :
    (calls.reverse.map Rename.opposite).foldlM (rename Q) last = .ok filePaths := by
  induction hrun with
  | nil filePaths => rfl
  | cons hok h' hnamed hrest ih =>
    rw [reverse_cons, map_append, foldlM_append, ih h']
    change foldlM (rename Q) _ [_] = _
    rw [foldlM_cons, rename_opposite h hok h' hnamed]
    rfl

/-- A folder is renamed and gets its name back. -/
theorem renamed_back_folder : [Rename.folder ['e'] ['d']].foldlM (rename userDir)
    [ofNames false [['e'], ['a']], ofNames false [['b']]] = .ok twoFiles := by
  have hok : rename userDir twoFiles (.folder ['d'] ['e']) =
    .ok ([[['e'], ['a']], [['b']]].map (ofNames false)) := rfl
  exact renamed_back wellFormed_twoFiles (.cons hok ((wellFormed_map_iff (by simp [IsName])).2
    (by simp [Apart])) (by rintro _ _ ⟨⟩; decide) (.nil _))

end QBittorrent.AbstractFileStorage
