import QBittorrent.Base.Path
import QBittorrent.Torrent.PiecePriority

/-!
# The paths of files for the user and for libtorrent

A file that is not complete may have an extension and one that is not wanted may be in a folder of its
own.  `makeActualPath` adds both, and `makeUserPath` removes them from the paths that libtorrent
acknowledges.

* `TorrentFiles.Kept` : nothing is removed that was not added;
* `TorrentFiles.shown_iff` : then the user sees the path asked for.
-/

namespace QBittorrent

open PathText QBittorrent.Path List

def QB_EXT : QString := ['.', '!', 'q', 'B']

def UNWANTED_FOLDER_NAME : QString := ['.', 'u', 'n', 'w', 'a', 'n', 't', 'e', 'd']

/-- What a torrent knows of its files, with the settings of the session. -/
structure TorrentFiles where
  isAppendExtensionEnabled : Bool
  isUnwantedFolderEnabled : Bool
  fileSizes : List ℕ
  completedFiles : List Bool
  filePriorities : List DownloadPriority
  /-- The paths that the user sees. -/
  filePaths : List Path
  /-- Those of libtorrent. -/
  actualPaths : List Path
  /-- The renames that libtorrent has not acknowledged yet, in their order. -/
  renames : List (ℕ × Path)

namespace TorrentFiles

variable (Q : QtDir) (t : TorrentFiles)

def appends (index : ℕ) : Bool :=
  t.isAppendExtensionEnabled && decide (0 < t.fileSizes.getD index 0) &&
    !t.completedFiles.getD index false

def moves (index : ℕ) : Bool :=
  t.isUnwantedFolderEnabled &&
    decide (t.filePriorities.getD index DownloadPriority.Normal = DownloadPriority.Ignored)

def makeActualPath (index : ℕ) (path : Path) : Path :=
  let actualPath := if t.appends index then append Q path QB_EXT else path
  if t.moves index then
    div Q (div Q actualPath.parentPath (ofString Q UNWANTED_FOLDER_NAME))
      (ofString Q actualPath.filename)
  else actualPath

def makeUserPath (path : Path) : Path :=
  let userPath := path.removedExtension QB_EXT
  let parentRelPath := userPath.parentPath
  if parentRelPath.filename = UNWANTED_FOLDER_NAME then
    div Q parentRelPath.parentPath (ofString Q userPath.filename)
  else userPath

def doRenameFile (index : ℕ) (path : Path) : TorrentFiles :=
  { t with renames := t.renames ++ [(index, path)] }

def renameFile (index : ℕ) (path : Path) : TorrentFiles :=
  if index < t.filePaths.length then t.doRenameFile index (t.makeActualPath Q index path) else t

/-- `handleFileRenamedAlert` for the oldest rename.  The path of the file is stored only if it is
another one.  The alert is taken to give back the text that was sent: `QString::fromUtf8` would drop a
byte order mark from its begin. -/
def handleFileRenamedAlert : TorrentFiles :=
  match t.renames with
  | [] => t
  | (fileIndex, newActualFilePath) :: renames =>
    let newFilePath := makeUserPath Q newActualFilePath
    { t with
      filePaths :=
        if t.filePaths[fileIndex]? = some newFilePath then t.filePaths
        else t.filePaths.set fileIndex newFilePath
      actualPaths := t.actualPaths.set fileIndex newActualFilePath
      renames }

/-- The files whose path for libtorrent is not the one that they are to have. -/
def manageActualFilePaths : TorrentFiles :=
  { t with
    renames := t.renames ++ (List.range t.filePaths.length).filterMap fun i =>
      let path := t.filePaths.getD i Path.empty
      let targetActualPath := t.makeActualPath Q i path
      if t.actualPaths.getD i Path.empty ≠ targetActualPath then some (i, targetActualPath) else none }

def acknowledgeAll : TorrentFiles := (handleFileRenamedAlert Q)^[t.renames.length] t

/-- The path of a file, after a round of renames for it. -/
def manage : TorrentFiles := acknowledgeAll Q (t.manageActualFilePaths Q)

structure Shown (index : ℕ) (path : Path) : Prop where
  inverse : makeUserPath Q (t.makeActualPath Q index path) = path
  renamed : index < t.filePaths.length →
    (acknowledgeAll Q (t.renameFile Q index path)).filePaths[index]? = some path
  managed : ∀ n, t.renames = [] → t.filePaths[index]? = some path →
    ((manage Q)^[n] t).filePaths[index]? = some path

/-- Nothing is removed that was not added. -/
structure Kept (index : ℕ) (path : Path) : Prop where
  extension : t.appends index = false → path.hasExtension QB_EXT = false
  folder : t.moves index = false → path.parentPath.filename ≠ UNWANTED_FOLDER_NAME
  dots : t.appends index = false → t.moves index = true →
    path.filename ≠ ['.'] ∧ path.filename ≠ ['.', '.']

variable {Q t} {names : List QString} {name name' : QString} {index : ℕ} {path : Path}
  {renames : List (ℕ × Path)}

/-! ### The last name of a path -/

theorem notMem_QB_EXT : '/' ∉ QB_EXT := by decide

theorem isName_UNWANTED_FOLDER_NAME : IsName '/' '.' UNWANTED_FOLDER_NAME := by
  refine ⟨?_, ?_, ?_, ?_⟩ <;> decide

/-- Names and a last one, as a clean path has them. -/
structure EndsWith (names : List QString) (name : QString) : Prop where
  normal : IsNormal '/' '.' true names
  notMem : '/' ∉ name
  ne_nil : name ≠ []
  concat : IsNormal '/' '.' true (names ++ [name]) ∨ (names = [] ∧ name = ['.'])

theorem exists_endsWith (hpath : path.IsClean Q) (hrelative : path.isRelative = true) :
    ∃ names name, EndsWith names name ∧ path = ofText (names ++ [name]) := by
  obtain ⟨absolute, l, hl, rfl⟩ := hpath.eq_ofNames
  obtain rfl : absolute = false := by
    rw [isRelative_eq, isAbsolute_ofNames hl] at hrelative
    simpa using hrelative
  have hl : IsNormal '/' '.' true l := hl
  obtain rfl | ⟨names, name, rfl⟩ := eq_nil_or_concat' l
  · exact ⟨[], ['.'], ⟨isNormal_nil, by decide, by decide, .inr ⟨rfl, rfl⟩⟩,
      by rw [nil_append, ofText_singleton, ofNames_false_nil]⟩
  · obtain ⟨hslash, hnil, -⟩ := hl.notMem dot_ne_slash name (by simp)
    exact ⟨names, name, ⟨by simpa using hl.take names.length, hslash, hnil, .inl hl⟩,
      (ofText_eq_ofNames (by simp)).symm⟩

theorem EndsWith.names_ne_nil (h : EndsWith names name) : ∀ n ∈ names, n ≠ [] := fun n hn =>
  (h.normal.notMem dot_ne_slash n hn).2.1

theorem EndsWith.parentPath (h : EndsWith names name) :
    (ofText (names ++ [name])).parentPath = ofText names :=
  parentPath_ofText_concat h.names_ne_nil h.notMem

theorem EndsWith.filename (h : EndsWith names name) : (ofText (names ++ [name])).filename = name :=
  filename_ofText_concat h.notMem

theorem EndsWith.of_isName (h : IsNormal '/' '.' true names) (hname : IsName '/' '.' name) :
    EndsWith names name :=
  ⟨h, hname.1, hname.2.1, .inl (h.append fun _ hn => mem_singleton.1 hn ▸ hname)⟩

theorem ofText_concat_inj (h : '/' ∉ name) (h' : '/' ∉ name') :
    ofText (names ++ [name']) = ofText (names ++ [name]) ↔ name' = name := by
  constructor
  · intro heq
    have hfilename := congrArg Path.filename heq
    rwa [filename_ofText_concat h', filename_ofText_concat h] at hfilename
  · rintro rfl
    rfl

theorem div_ofText (h : IsNormal '/' '.' true names) (hslash : '/' ∉ name) (hnil : name ≠ []) :
    div Q (ofText names) (ofString Q name) =
      if names = [] then ⟨name⟩ else ofNames false (push '.' true names name) := by
  have hstring : ofString Q name = ⟨name⟩ := by rw [ofString_eq, cleanPath_of_notMem hslash]
  have h : IsNormal '/' '.' (keeps Q.dropsAboveRoot false) names := h
  rw [hstring]
  by_cases hnames : names = []
  · subst hnames
    rw [if_pos rfl, ofText_nil, div, if_neg (by simp [Path.isEmpty, hnil]), if_pos (by decide)]
  · rw [if_neg hnames, ofText_eq_ofNames hnames]
    by_cases hdot : name = ['.']
    · subst hdot
      have hnone : IsNormal '/' '.' true ([] : List QString) := isNormal_nil
      exact div_ofNames h hnone
    · have hpush : push '.' true [] name = [name] := by simp [push, hnil, hdot]
      have hname : IsNormal '/' '.' true [name] := by
        rw [← hpush]
        exact isNormal_push isNormal_nil hslash
      have htext : (⟨name⟩ : Path) = ofNames false [name] := by
        rw [ofNames_false (cons_ne_nil _ _), join_singleton]
      rw [htext]
      exact div_ofNames h hname

theorem push_eq_or (names : List QString) (name : QString) :
    push '.' true names name = names ++ [name] ∨
      (push '.' true names name).length ≤ names.length := by
  by_cases hskip : name = [] ∨ name = ['.']
  · exact .inr (by rw [push_skip hskip])
  · rw [push, if_neg hskip]
    by_cases hdots : name = ['.', '.']
    · rw [if_pos hdots]
      by_cases hnil : names = []
      · exact .inl (by simp [hnil])
      · rw [if_neg hnil]
        by_cases hlast : names.getLast? = some ['.', '.']
        · exact .inl (if_pos hlast)
        · exact .inr (by simp [if_neg hlast])
    · exact .inl (if_neg hdots)

theorem div_ofString_nil (path : Path) : div Q path (ofString Q []) = path := rfl

theorem div_ofText_eq_iff (h : EndsWith names name) (hslash : '/' ∉ name') :
    div Q (ofText names) (ofString Q name') = ofText (names ++ [name]) ↔ name' = name := by
  by_cases hnil : name' = []
  · subst hnil
    rw [div_ofString_nil]
    refine iff_of_false (fun heq => ?_) h.ne_nil.symm
    obtain hconcat | ⟨rfl, rfl⟩ := h.concat
    · rw [ofText_eq_ofNames (l := names ++ [name]) (by simp)] at heq
      by_cases hnames : names = []
      · subst hnames
        exact ofNames_ne_empty hconcat heq.symm
      · rw [ofText_eq_ofNames hnames] at heq
        have hlength := congrArg length (ofNames_false_injective h.normal hconcat heq)
        simp at hlength
    · revert heq
      decide
  · rw [div_ofText h.normal hslash hnil]
    by_cases hnames : names = []
    · subst hnames
      rw [if_pos rfl, nil_append, ofText_singleton, Path.mk.injEq]
    · have hconcat := h.concat.resolve_right fun hdot => hnames hdot.1
      rw [if_neg hnames, ofText_eq_ofNames (by simp)]
      constructor
      · intro heq
        have hpush := ofNames_false_injective (isNormal_push h.normal hslash) hconcat heq
        obtain hname | hle := push_eq_or names name'
        · exact singleton_inj.1 (append_cancel_left (hname.symm.trans hpush))
        · have hlength := congrArg length hpush
          rw [length_append, length_singleton] at hlength
          omega
      · rintro rfl
        have hnormalize := normalize_of_isNormal hconcat
        rw [normalize_append, normalize_of_isNormal h.normal] at hnormalize
        exact congrArg (ofNames false) hnormalize

theorem div_ofText_ne {folder : QString} (h : IsNormal '/' '.' true (names ++ [folder, name]))
    (hslash : '/' ∉ name') :
    div Q (ofText names) (ofString Q name') ≠ ofText (names ++ [folder, name]) := by
  have hnames : IsNormal '/' '.' true names := by simpa using h.take names.length
  intro heq
  rw [ofText_eq_ofNames (l := names ++ [folder, name]) (by simp)] at heq
  by_cases hnil : name' = []
  · subst hnil
    by_cases hnames' : names = []
    · subst hnames'
      exact ofNames_ne_empty h heq.symm
    · rw [ofText_eq_ofNames hnames'] at heq
      have hlength := congrArg length (ofNames_false_injective hnames h heq)
      simp at hlength
  · rw [div_ofText hnames hslash hnil] at heq
    split_ifs at heq with hnames'
    · subst hnames'
      have htext := congrArg Path.pathStr heq
      have htext : name' = folder ++ '/' :: join '/' [name] := htext
      exact hslash (by simp [htext])
    · have hlength := congrArg length
        (ofNames_false_injective (isNormal_push hnames hslash) h heq)
      rw [length_append, length_cons, length_singleton] at hlength
      obtain hname | hle := push_eq_or names name'
      · rw [hname, length_append, length_singleton] at hlength
        omega
      · omega

/-! ### What is added and what is removed -/

theorem makeUserPath_ofText (h : ∀ n ∈ names, n ≠ []) (hslash : '/' ∉ name) :
    makeUserPath Q (ofText (names ++ [name])) =
      if (ofText names).filename = UNWANTED_FOLDER_NAME then
        div Q (ofText names).parentPath (ofString Q (removedExtension ⟨name⟩ QB_EXT).pathStr)
      else ofText (names ++ [(removedExtension ⟨name⟩ QB_EXT).pathStr]) := by
  have hremoved : '/' ∉ (removedExtension ⟨name⟩ QB_EXT).pathStr := by
    rw [removedExtension]
    split_ifs
    · exact fun hmem => hslash (mem_of_mem_take hmem)
    · exact hslash
  rw [makeUserPath, removedExtension_ofText_concat notMem_QB_EXT]
  simp only [parentPath_ofText_concat h hremoved, filename_ofText_concat hremoved]

theorem removedExtension_eq_iff :
    (removedExtension ⟨name⟩ QB_EXT).pathStr = name ↔ hasExtension ⟨name⟩ QB_EXT = false := by
  cases hname : hasExtension ⟨name⟩ QB_EXT with
  | false => simp [removedExtension, hname]
  | true =>
    have hle := length_le_of_hasExtension hname
    rw [removedExtension, if_pos hname]
    refine iff_of_false (fun heq => ?_) (by simp)
    have hlength := congrArg length heq
    have hext : QB_EXT.length = 4 := rfl
    dsimp only at hlength
    rw [length_take] at hlength
    omega

theorem removedExtension_append : (removedExtension ⟨name ++ QB_EXT⟩ QB_EXT).pathStr = name := by
  have hname : hasExtension ⟨name ++ QB_EXT⟩ QB_EXT = true := by
    rw [hasExtension, isSuffixOf_iff_suffix, map_append]
    exact suffix_append ..
  rw [removedExtension, if_pos hname]
  rw [length_append, Nat.add_sub_cancel, take_left' rfl]

theorem EndsWith.isName_append (h : EndsWith names name) : IsName '/' '.' (name ++ QB_EXT) := by
  have hlength : ∀ m : QString, m.length ≤ 2 → name ++ QB_EXT ≠ m := by
    rintro m hm rfl
    have hext : QB_EXT.length = 4 := rfl
    rw [length_append] at hm
    omega
  refine ⟨fun hmem => ?_, hlength [] (by simp), hlength ['.'] (by simp), hlength ['.', '.'] (by simp)⟩
  exact (mem_append.1 hmem).elim h.notMem notMem_QB_EXT

theorem EndsWith.append (h : EndsWith names name) :
    Path.append Q (ofText (names ++ [name])) QB_EXT = ofText (names ++ [name ++ QB_EXT]) := by
  have hnormal : IsNormal '/' '.' (keeps Q.dropsAboveRoot false) (names ++ [name ++ QB_EXT]) :=
    h.normal.append fun n hn => mem_singleton.1 hn ▸ h.isName_append
  have htext : (ofText (names ++ [name])).pathStr ++ QB_EXT =
      (ofText (names ++ [name ++ QB_EXT])).pathStr := by
    cases names with
    | nil => simp [ofText_singleton]
    | cons first names =>
      rw [ofText_concat _ (cons_ne_nil _ _), ofText_concat _ (cons_ne_nil _ _)]
      simp
  rw [Path.append, htext, ofString_eq, ofText_eq_ofNames (by simp), cleanPath_ofNames hnormal]

theorem div_unwanted (h : IsNormal '/' '.' true names) :
    div Q (ofText names) (ofString Q UNWANTED_FOLDER_NAME) =
      ofText (names ++ [UNWANTED_FOLDER_NAME]) := by
  have hendsWith := EndsWith.of_isName h isName_UNWANTED_FOLDER_NAME
  exact (div_ofText_eq_iff hendsWith hendsWith.notMem).2 rfl

theorem exists_of_filename_eq (h : IsNormal '/' '.' true names)
    (hfolder : (ofText names).filename = UNWANTED_FOLDER_NAME) :
    ∃ parents, names = parents ++ [UNWANTED_FOLDER_NAME] := by
  obtain rfl | ⟨parents, last, rfl⟩ := eq_nil_or_concat' names
  · exact absurd hfolder (by decide)
  · rw [filename_ofText_concat (h.notMem dot_ne_slash last (by simp)).1] at hfolder
    exact ⟨parents, by rw [hfolder]⟩

theorem ne_of_filename_eq (h : EndsWith names name) (hslash : '/' ∉ name')
    (hfolder : (ofText names).filename = UNWANTED_FOLDER_NAME) :
    div Q (ofText names).parentPath (ofString Q name') ≠ ofText (names ++ [name]) := by
  obtain ⟨parents, rfl⟩ := exists_of_filename_eq h.normal hfolder
  obtain hconcat | ⟨hnil, -⟩ := h.concat
  · have hparents : ∀ n ∈ parents, n ≠ [] := fun n hn => h.names_ne_nil n (by simp [hn])
    rw [append_assoc, singleton_append] at hconcat ⊢
    rw [parentPath_ofText_concat hparents isName_UNWANTED_FOLDER_NAME.1]
    exact div_ofText_ne hconcat hslash
  · simp at hnil

theorem kept_iff : t.Kept index path ↔
    (t.appends index = false → path.hasExtension QB_EXT = false) ∧
      (t.moves index = false → path.parentPath.filename ≠ UNWANTED_FOLDER_NAME) ∧
        (t.appends index = false → t.moves index = true →
          path.filename ≠ ['.'] ∧ path.filename ≠ ['.', '.']) :=
  ⟨fun h => ⟨h.1, h.2, h.3⟩, fun h => ⟨h.1, h.2.1, h.2.2⟩⟩

theorem makeUserPath_unwanted (h : EndsWith names name) {last : QString} (hlast : IsName '/' '.' last) :
    makeUserPath Q (div Q (div Q (ofText names) (ofString Q UNWANTED_FOLDER_NAME))
        (ofString Q last)) = ofText (names ++ [name]) ↔
      (removedExtension ⟨last⟩ QB_EXT).pathStr = name := by
  have hunwanted : IsNormal '/' '.' true (names ++ [UNWANTED_FOLDER_NAME]) :=
    h.normal.append fun n hn => mem_singleton.1 hn ▸ isName_UNWANTED_FOLDER_NAME
  have hends := EndsWith.of_isName hunwanted hlast
  have hremoved : '/' ∉ (removedExtension ⟨last⟩ QB_EXT).pathStr := by
    rw [removedExtension]
    split_ifs
    · exact fun hmem => hlast.1 (mem_of_mem_take hmem)
    · exact hlast.1
  rw [div_unwanted h.normal, (div_ofText_eq_iff hends hends.notMem).2 rfl,
    makeUserPath_ofText hends.names_ne_nil hends.notMem,
    filename_ofText_concat isName_UNWANTED_FOLDER_NAME.1, if_pos rfl,
    parentPath_ofText_concat h.names_ne_nil isName_UNWANTED_FOLDER_NAME.1,
    div_ofText_eq_iff h hremoved]

theorem makeUserPath_eq_self (h : ∀ n ∈ names, n ≠ []) (hslash : '/' ∉ name)
    (hextension : hasExtension ⟨name⟩ QB_EXT = false)
    (hfolder : (ofText names).filename ≠ UNWANTED_FOLDER_NAME) :
    makeUserPath Q (ofText (names ++ [name])) = ofText (names ++ [name]) := by
  rw [makeUserPath_ofText h hslash, if_neg hfolder, removedExtension_eq_iff.2 hextension]

theorem makeUserPath_dots (h : EndsWith names name) (hdots : name = ['.'] ∨ name = ['.', '.']) :
    makeUserPath Q (div Q (div Q (ofText names) (ofString Q UNWANTED_FOLDER_NAME))
        (ofString Q name)) ≠ ofText (names ++ [name]) := by
  have hunwanted : IsNormal '/' '.' true (names ++ [UNWANTED_FOLDER_NAME]) :=
    h.normal.append fun n hn => mem_singleton.1 hn ▸ isName_UNWANTED_FOLDER_NAME
  rw [div_unwanted h.normal, div_ofText hunwanted h.notMem h.ne_nil, if_neg (by simp)]
  have hnoFolder : (ofText []).filename ≠ UNWANTED_FOLDER_NAME := by decide
  obtain rfl | rfl := hdots
  · have hskip : push '.' true (names ++ [UNWANTED_FOLDER_NAME]) ['.'] =
        names ++ [UNWANTED_FOLDER_NAME] := push_skip (.inr rfl)
    obtain hconcat | ⟨rfl, -⟩ := h.concat
    · exact absurd rfl (hconcat.notMem dot_ne_slash ['.'] (by simp)).2.2
    · rw [hskip, ← ofText_eq_ofNames (by simp),
        makeUserPath_eq_self (by simp) (by decide) (by decide) hnoFolder]
      decide
  · have hconcat := h.concat.resolve_right fun hdot => absurd hdot.2 (by decide)
    rw [push_up_name isName_UNWANTED_FOLDER_NAME.2.2.2]
    obtain rfl | ⟨parents, last, rfl⟩ := eq_nil_or_concat' names
    · have hdot : ofNames false [] = ofText ([] ++ [['.']]) := rfl
      rw [hdot, makeUserPath_eq_self (by simp) (by decide) (by decide) hnoFolder]
      decide
    · -- behind other names than dots there are none
      have hlast : last = ['.', '.'] ∧ ∀ n ∈ parents, n = ['.', '.'] := by
        obtain hnames | ⟨k, n, rest, hups, -, -⟩ := hconcat.names_or_ups
        · exact absurd rfl (hnames ['.', '.'] (by simp)).2.2.2
        · have hmem : ∀ n ∈ parents ++ [last], n = ['.', '.'] := fun n hn =>
            eq_of_mem_replicate (hups ▸ hn)
          exact ⟨hmem last (by simp), fun n hn => hmem n (by simp [hn])⟩
      obtain ⟨rfl, hparents⟩ := hlast
      have hfolder : (ofText parents).filename ≠ UNWANTED_FOLDER_NAME := by
        intro hfolder
        have hnormal : IsNormal '/' '.' true parents := by simpa using h.normal.take parents.length
        obtain ⟨grandparents, rfl⟩ := exists_of_filename_eq hnormal hfolder
        exact absurd (hparents UNWANTED_FOLDER_NAME (by simp)) (by decide)
      have hne : ∀ n ∈ parents, n ≠ [] := fun n hn => by simp [hparents n hn]
      rw [← ofText_eq_ofNames (by simp), makeUserPath_eq_self hne (by decide) (by decide) hfolder,
        ofText_eq_ofNames (by simp), ofText_eq_ofNames (by simp)]
      intro heq
      have hlength := congrArg length (ofNames_false_injective h.normal hconcat heq)
      simp at hlength

theorem makeUserPath_makeActualPath_iff (hpath : path.IsClean Q) (hrelative : path.isRelative = true) :
    makeUserPath Q (t.makeActualPath Q index path) = path ↔ t.Kept index path := by
  obtain ⟨names, name, h, rfl⟩ := exists_endsWith hpath hrelative
  have hremoved : '/' ∉ (removedExtension ⟨name⟩ QB_EXT).pathStr := by
    rw [removedExtension]
    split_ifs
    · exact fun hmem => h.notMem (mem_of_mem_take hmem)
    · exact h.notMem
  rw [kept_iff, h.parentPath, h.filename, hasExtension_ofText_concat notMem_QB_EXT, makeActualPath]
  cases happends : t.appends index <;> cases hmoves : t.moves index
  · -- nothing is added
    simp only [Bool.false_eq_true, if_false, forall_true_left, false_imp_iff, and_true]
    rw [makeUserPath_ofText h.names_ne_nil h.notMem]
    by_cases hfolder : (ofText names).filename = UNWANTED_FOLDER_NAME
    · rw [if_pos hfolder]
      exact iff_of_false (ne_of_filename_eq h hremoved hfolder) fun hk => hk.2 hfolder
    · rw [if_neg hfolder, ofText_concat_inj h.notMem hremoved, removedExtension_eq_iff]
      exact (and_iff_left hfolder).symm
  · -- the folder
    simp only [Bool.false_eq_true, if_false, if_true, forall_true_left, h.parentPath, h.filename]
    by_cases hdots : name = ['.'] ∨ name = ['.', '.']
    · refine iff_of_false (makeUserPath_dots h hdots) fun hk => ?_
      exact hdots.elim hk.2.2.1 hk.2.2.2
    · rw [not_or] at hdots
      rw [makeUserPath_unwanted h ⟨h.notMem, h.ne_nil, hdots⟩, removedExtension_eq_iff]
      simp [hdots]
  · -- the extension
    simp only [if_true, Bool.false_eq_true, if_false, forall_true_left, h.append]
    rw [makeUserPath_ofText h.names_ne_nil h.isName_append.1, removedExtension_append]
    by_cases hfolder : (ofText names).filename = UNWANTED_FOLDER_NAME
    · rw [if_pos hfolder]
      exact iff_of_false (ne_of_filename_eq h h.notMem hfolder) fun hk => by simp [hfolder] at hk
    · simp [hfolder]
  · -- both
    have hends := EndsWith.of_isName h.normal h.isName_append
    simp only [if_true, h.append, hends.parentPath, hends.filename]
    rw [makeUserPath_unwanted h h.isName_append, removedExtension_append]
    simp

/-! ### Renames that are acknowledged -/

theorem handleFileRenamedAlert_eq {fileIndex : ℕ} {actualPath : Path}
    (h : t.renames = (fileIndex, actualPath) :: renames) :
    handleFileRenamedAlert Q t =
      { t with
        filePaths := t.filePaths.set fileIndex (makeUserPath Q actualPath)
        actualPaths := t.actualPaths.set fileIndex actualPath
        renames } := by
  rw [handleFileRenamedAlert, h]
  dsimp only
  by_cases hsame : t.filePaths[fileIndex]? = some (makeUserPath Q actualPath)
  · rw [if_pos hsame]
    congr 1
    obtain ⟨hlt, hget⟩ := List.getElem?_eq_some_iff.1 hsame
    rw [← hget, List.set_getElem_self]
  · rw [if_neg hsame]

variable (Q) in
def shownPaths (paths : List Path) (renames : List (ℕ × Path)) : List Path :=
  renames.foldl (fun paths rename => paths.set rename.1 (makeUserPath Q rename.2)) paths

theorem acknowledgeAll_spec (t : TorrentFiles) :
    (acknowledgeAll Q t).filePaths = shownPaths Q t.filePaths t.renames ∧
      (acknowledgeAll Q t).renames = [] ∧
        (acknowledgeAll Q t).makeActualPath Q = t.makeActualPath Q := by
  rw [acknowledgeAll]
  generalize hrenames : t.renames = renames
  induction renames generalizing t with
  | nil => exact ⟨rfl, hrenames, rfl⟩
  | cons rename renames ih =>
    rw [length_cons, Function.iterate_succ_apply, handleFileRenamedAlert_eq hrenames]
    exact ih _ rfl

theorem length_shownPaths (paths : List Path) (renames : List (ℕ × Path)) :
    (shownPaths Q paths renames).length = paths.length := by
  induction renames generalizing paths with
  | nil => rfl
  | cons rename renames ih =>
    rw [shownPaths, foldl_cons, ← shownPaths, ih, length_set]

theorem getElem?_shownPaths {paths : List Path}
    (h : ∀ rename ∈ renames, rename.1 = index → makeUserPath Q rename.2 = path)
    (hpath : paths[index]? = some path) : (shownPaths Q paths renames)[index]? = some path := by
  induction renames generalizing paths with
  | nil => exact hpath
  | cons rename renames ih =>
    obtain ⟨hrename, hrest⟩ := forall_mem_cons.1 h
    refine ih hrest ?_
    by_cases hindex : rename.1 = index
    · dsimp only
      rw [hrename hindex, hindex]
      exact getElem?_set_self (List.getElem?_eq_some_iff.1 hpath).1
    · exact (getElem?_set_ne hindex).trans hpath

section

variable (hinverse : makeUserPath Q (t.makeActualPath Q index path) = path)

include hinverse

theorem manage_spec (hrenames : t.renames = []) (hpath : t.filePaths[index]? = some path) :
    (manage Q t).filePaths[index]? = some path ∧ (manage Q t).renames = [] ∧
      (manage Q t).makeActualPath Q = t.makeActualPath Q := by
  obtain ⟨hfilePaths, hempty, hactual⟩ := acknowledgeAll_spec (Q := Q) (t.manageActualFilePaths Q)
  refine ⟨?_, hempty, hactual⟩
  rw [manage, hfilePaths]
  refine getElem?_shownPaths (fun rename hmem hindex => ?_) hpath
  rw [manageActualFilePaths, hrenames, nil_append] at hmem
  obtain ⟨i, -, hsome⟩ := mem_filterMap.1 hmem
  dsimp only at hsome
  split_ifs at hsome
  obtain rfl := Option.some.inj hsome
  obtain rfl : i = index := hindex
  rw [getD_eq_getElem?_getD, hpath, Option.getD_some, hinverse]

theorem renamed_of_inverse (hindex : index < t.filePaths.length) :
    (acknowledgeAll Q (t.renameFile Q index path)).filePaths[index]? = some path := by
  rw [renameFile, if_pos hindex, (acknowledgeAll_spec _).1, doRenameFile, shownPaths, foldl_append,
    foldl_cons, foldl_nil, hinverse, ← shownPaths]
  exact getElem?_set_self (by rwa [length_shownPaths])

theorem managed_of_inverse (n : ℕ) (hrenames : t.renames = [])
    (hpath : t.filePaths[index]? = some path) :
    ((manage Q)^[n] t).filePaths[index]? = some path := by
  induction n generalizing t with
  | zero => exact hpath
  | succ n ih =>
    obtain ⟨hpath', hrenames', hactual⟩ := manage_spec hinverse hrenames hpath
    exact ih (by rw [hactual, hinverse]) hrenames' hpath'

end

/-- **When a file keeps the path that it was given.**  The extension and the folder are removed from
every path, whether or not they were added: without the extension the name must not end as if it had
it, outside of the folder of unwanted files the file must not be in one of that name, and a file that
is moved there needs a name. -/
theorem shown_iff (hpath : path.IsClean Q) (hrelative : path.isRelative = true) :
    t.Shown Q index path ↔ t.Kept index path := by
  rw [← makeUserPath_makeActualPath_iff hpath hrelative]
  exact ⟨Shown.inverse, fun h =>
    ⟨h, renamed_of_inverse h, fun n hrenames hfile => managed_of_inverse h n hrenames hfile⟩⟩

def completedFile : TorrentFiles where
  isAppendExtensionEnabled := true
  isUnwantedFolderEnabled := true
  fileSizes := [5]
  completedFiles := [true]
  filePriorities := [DownloadPriority.Normal]
  filePaths := [⟨['a']⟩]
  actualPaths := [⟨['a']⟩]
  renames := []

/-- It is renamed. -/
theorem shown_iff_renamed : completedFile.Shown userDir 0 (ofNames false [['b']]) :=
  (shown_iff (isClean_ofNames (by simp [IsName])) (by decide)).2
    { extension := fun _ => by decide, folder := fun _ => by decide, dots := fun _ => by decide }

/-- Its new name ends as those of incomplete files do, and is shown without that. -/
theorem completed_file_loses_extension : ¬ ∀ (Q : QtDir) (t : TorrentFiles) (index : ℕ) (path : Path),
    index < t.filePaths.length → path.isValid = true → path.IsClean Q → path.isRelative = true →
      t.Shown Q index path := by
  intro h
  have hshown := h userDir completedFile 0 (ofNames false [['x', '.', '!', 'q', 'B']]) (by decide)
    (by decide) (isClean_ofNames (by simp [IsName])) (by decide)
  exact absurd hshown.inverse (by decide)

end TorrentFiles

end QBittorrent
