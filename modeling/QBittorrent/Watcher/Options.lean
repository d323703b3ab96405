import QBittorrent.Watcher.Worker

/-!
# The options that watched files are added with

Files are announced by a scan of a watched folder, or when a file that was remembered is tried again.

* `scan_right` : a scan, at any depth;
* `right_iff_settled` : runs in which no remembered file is complete later.
-/

namespace QBittorrent.TorrentFilesWatcher

open List TorrentFilesWatcher.Worker Finmap TorrentFilesWatcher.Path

variable {D R : Type}

/-! ### Paths -/

theorem relativeNames_append (folder names : List Name) :
    relativeNames folder (folder ++ names) = names := by
  induction folder with
  | nil => rfl
  | cons a folder ih =>
    cases h : folder ++ names with
    | nil =>
      obtain ⟨rfl, rfl⟩ := append_eq_nil_iff.1 h
      simp [relativeNames]
    | cons b file =>
      rw [cons_append, relativeNames, if_pos rfl, ih]

namespace Path

theorem relativePathOf_below (path : Path) (names : List Name) :
    path.relativePathOf (path.below names) = ⟨false, names⟩ := by
  simp [relativePathOf, below, relativeNames_append]

@[simp] theorem below_nil (path : Path) : path.below [] = path := by
  simp [below]

theorem below_below (path : Path) (names names' : List Name) :
    (path.below names).below names' = path.below (names ++ names') := by
  simp [below]

theorem child_inj {path path' : Path} {name name' : Name} :
    path.child name = path'.child name' ↔ path = path' ∧ name = name' := by
  obtain ⟨a, ns⟩ := path
  obtain ⟨a', ns'⟩ := path'
  simp only [child, below, mk.injEq]
  constructor
  · rintro ⟨rfl, h⟩
    obtain ⟨rfl, hname⟩ := append_inj' h rfl
    exact ⟨⟨rfl, rfl⟩, singleton_inj.1 hname⟩
  · rintro ⟨⟨rfl, rfl⟩, rfl⟩
    exact ⟨rfl, rfl⟩

theorem below_ne_self {path : Path} {names : List Name} (h : names ≠ []) :
    path.below names ≠ path := by
  intro he
  have := congrArg Path.names he
  simp only [below, append_right_eq_self] at this
  exact h this

end Path

/-! ### Extended parameters -/

variable {names : List Name}

theorem joined_ne_empty (h : names ≠ []) : joined names ≠ "" := by
  obtain ⟨name, names, rfl⟩ := exists_cons_of_ne_nil h
  cases names with
  | nil => exact name.2.1
  | cons name' names =>
    intro he
    have := congrArg (fun s => s.toList.length) he
    simp [joined] at this

theorem joined_eq_name {name : Name} (h : names ≠ []) (he : joined names = name.1) :
    names = [name] := by
  obtain ⟨first, names, rfl⟩ := exists_cons_of_ne_nil h
  cases names with
  | nil => rw [Subtype.ext he]
  | cons second names =>
    refine absurd ?_ name.2.2
    rw [← he]
    simp [joined]

namespace AddTorrentParams

variable (disabled : Bool) (params : AddTorrentParams R) {names : List Name}

theorem data_relative (names : List Name) : (⟨false, names⟩ : Path).data = joined names := by
  simp [data]

theorem extended_ne (h : names ≠ []) : params.extended disabled ⟨false, names⟩ ≠ params := by
  intro he
  rw [extended] at he
  split_ifs at he with hauto hcategory
  · have := congrArg category he
    rw [hcategory, data_relative] at this
    exact joined_ne_empty h this
  · have := congrArg (fun p => (category p).toList.length) he
    simp [data_relative] at this
  · have hpath := congrArg savePath he
    have hne : (⟨false, names⟩ : Path) ≠ .empty := fun h' => h (congrArg Path.names h')
    simp only [append, if_neg hne] at hpath
    split_ifs at hpath with hempty
    · exact hne (hpath.trans hempty)
    · have := congrArg Path.names hpath
      rw [append_right_eq_self] at this
      exact h this

theorem extended_eq_default_iff [Inhabited R] (h : names ≠ []) (name : Name) :
    (default : AddTorrentParams R).extended disabled ⟨false, [name]⟩ =
        params.extended disabled ⟨false, names⟩ ↔
      params = default ∧ names = [name] := by
  constructor
  · intro he
    have hauto : params.useAutoTMM = none := by
      have := congrArg useAutoTMM he
      simp only [extended] at this
      split_ifs at this <;> exact this.symm
    have hrest : params.rest = default := by
      have := congrArg rest he
      simp only [extended] at this
      split_ifs at this <;> exact this.symm
    have hne : (⟨false, names⟩ : Path) ≠ .empty := fun h' => h (congrArg Path.names h')
    have hone : (⟨false, [name]⟩ : Path) ≠ .empty := by simp [empty]
    by_cases hd : (!disabled) = true
    · have hext : ∀ (p : AddTorrentParams R) (path : Path), p.useAutoTMM = none →
          p.extended disabled path = { p with
            category := if p.category = "" then path.data else p.category ++ "/" ++ path.data } :=
        fun p path hp => by simp only [extended, hp, Option.getD_none, if_pos hd]
      rw [hext _ _ rfl, hext _ _ hauto] at he
      have hcategory : name.1 = if params.category = "" then joined names
          else params.category ++ "/" ++ joined names := by
        have := congrArg category he
        exact this
      have hpath := congrArg savePath he
      split_ifs at hcategory with hempty
      · refine ⟨?_, joined_eq_name h hcategory.symm⟩
        ext1
        exacts [hempty, hpath.symm, hauto, hrest]
      · refine absurd ?_ name.2.2
        rw [hcategory]
        simp
    · have hext : ∀ (p : AddTorrentParams R) (path : Path), p.useAutoTMM = none →
          p.extended disabled path = { p with savePath := p.savePath.append path } :=
        fun p path hp => by simp only [extended, hp, Option.getD_none, if_neg hd]
      rw [hext _ _ rfl, hext _ _ hauto] at he
      have hcategory := congrArg category he
      have hpath : (⟨false, [name]⟩ : Path) = params.savePath.append ⟨false, names⟩ := by
        have := congrArg savePath he
        simpa only [append, if_neg hone, if_pos (show (default : AddTorrentParams R).savePath =
          .empty from rfl)] using this
      simp only [append, if_neg hne] at hpath
      split_ifs at hpath with hempty
      · refine ⟨?_, (congrArg Path.names hpath).symm⟩
        ext1
        exacts [hcategory.symm, hempty, hauto, hrest]
      · have hnames := congrArg Path.names hpath
        have habs := congrArg absolute hpath
        have hlength := congrArg List.length hnames
        have := length_pos_iff.2 h
        simp only [length_singleton, length_append] at hlength
        have hnil : params.savePath.names = [] := length_eq_zero_iff.1 (by omega)
        refine absurd ?_ hempty
        cases hsave : params.savePath with
        | mk absolute ns =>
          rw [hsave] at habs hnil
          dsimp only at habs hnil
          rw [← habs, hnil, empty]
  · rintro ⟨rfl, rfl⟩
    rfl

end AddTorrentParams

/-! ### What is right -/

/-- The watched folder that a folder belongs to: the nearest one that it is in, which is recursive
unless it is the folder itself. -/
structure Contains (s : Worker R) (watched : Path) (options : WatchedFolderOptions R)
    (names : List Name) (folder : Path) : Prop where
  path : folder = watched.below names
  lookup : s.watchedFolders.lookup watched = some options
  recursive : names ≠ [] → options.recursive = true
  nearest : ∀ front, front ≠ [] → front <+: names → watched.below front ∉ s.watchedFolders

/-- The parameters of a watched folder for the files of the folder that some names lead to. -/
def WatchedFolderOptions.paramsIn (options : WatchedFolderOptions R) (disabled : Bool)
    (names : List Name) : AddTorrentParams R :=
  if names = [] then options.addTorrentParams
  else options.addTorrentParams.extended disabled ⟨false, names⟩

/-- A file is handled through the watched folder that contains it, with its parameters. -/
def Handled.Right (s : Worker R) (h : Handled D R) : Prop :=
  ∃ folder name watched options names, h.file = folder.child name ∧
    Contains s watched options names folder ∧ (∀ path, h.scanned = some path → path = watched) ∧
      ∀ descr params, h.deed = .found descr params →
        params = options.paramsIn s.isAutoTMMDisabledByDefault names

namespace Contains

variable {s s' : Worker R} {watched folder : Path} {options : WatchedFolderOptions R}
  {names : List Name}

theorem self (h : s.watchedFolders.lookup watched = some options) :
    Contains s watched options [] watched where
  path := (below_nil _).symm
  lookup := h
  recursive h := absurd rfl h
  nearest _ hne hfront := absurd (prefix_nil.1 hfront) hne

section

variable (h : Contains s watched options names folder)

include h

theorem child (hrec : options.recursive = true) {name : Name}
    (hnot : folder.child name ∉ s.watchedFolders) :
    Contains s watched options (names ++ [name]) (folder.child name) where
  path := by rw [h.path, Path.child, below_below]
  lookup := h.lookup
  recursive _ := hrec
  nearest front hne hfront := by
    rcases prefix_concat_iff.1 hfront with rfl | hfront
    · rwa [← below_below, ← h.path]
    · exact h.nearest front hne hfront

theorem congr (hs : s'.watchedFolders = s.watchedFolders) :
    Contains s' watched options names folder := { h with
  lookup := hs ▸ h.lookup
  nearest := hs ▸ h.nearest }

theorem names_eq_nil (hfolder : folder ∈ s.watchedFolders) : names = [] := by
  by_contra hne
  exact h.nearest names hne (prefix_refl _) (h.path ▸ hfolder)

theorem folder_eq (hnames : names = []) : folder = watched := by
  rw [h.path, hnames, below_nil]

end

end Contains

theorem Handled.Right.congr {s s' : Worker R} {h : Handled D R} (hr : h.Right s)
    (hs : s'.watchedFolders = s.watchedFolders)
    (hd : s'.isAutoTMMDisabledByDefault = s.isAutoTMMDisabledByDefault) : h.Right s' := by
  obtain ⟨folder, name, watched, options, names, hfile, hcontains, hscanned, hparams⟩ := hr
  exact ⟨folder, name, watched, options, names, hfile, hcontains.congr hs, hscanned, hd ▸ hparams⟩

section Scans

variable {s : Worker R} {watched path : Path} {options : WatchedFolderOptions R}
  {names : List Name}

theorem scanParams_eq (h : Contains s watched options names path) :
    s.scanParams path watched options = options.paramsIn s.isAutoTMMDisabledByDefault names := by
  rw [scanParams, WatchedFolderOptions.paramsIn]
  by_cases hnames : names = []
  · rw [if_pos hnames, if_neg (not_not.2 (h.folder_eq hnames))]
  · rw [if_neg hnames, if_pos (by rw [h.path]; exact below_ne_self hnames), h.path,
      relativePathOf_below]

theorem processFile_right (hpath : Contains s watched options names path) (name : Name)
    (scan : Scan D R) (content : FileContent D) :
    ∀ h ∈ (s.processFile path watched options name scan content).handled,
      h ∈ scan.handled ∨ h.Right s := by
  have hright : ∀ deed : Deed D R, (∀ descr params, deed = .found descr params →
      params = s.scanParams path watched options) →
        (⟨path.child name, some watched, deed⟩ : Handled D R).Right s := by
    intro deed hdeed
    refine ⟨path, name, watched, options, names, rfl, hpath, fun p hp => ?_, fun d p hp => ?_⟩
    · exact (Option.some.inj hp).symm
    · rw [hdeed d p hp, scanParams_eq hpath]
  intro h hh
  match content with
  | .magnet none => exact .inl hh
  | .magnet (some lines) =>
    simp only [processFile, mem_append, List.mem_singleton] at hh
    obtain (hh | hh) | rfl := hh
    · exact .inl hh
    · obtain ⟨parseResult, -, hh⟩ := mem_filterMap.1 hh
      obtain ⟨descr, -, rfl⟩ := Option.map_eq_some_iff.1 hh
      exact .inr (hright _ fun d p hp => by cases hp; rfl)
    · exact .inr (hright _ fun d p hp => by cases hp)
  | .torrent (some descr) =>
    simp only [processFile, mem_append, mem_cons, not_mem_nil,
      or_false] at hh
    obtain hh | rfl | rfl := hh
    · exact .inl hh
    · exact .inr (hright _ fun d p hp => by cases hp; rfl)
    · exact .inr (hright _ fun d p hp => by cases hp)
  | .torrent none => exact .inl hh

theorem processFiles_right (hpath : Contains s watched options names path) (content : Entries D)
    (scan : Scan D R) :
    ∀ h ∈ (s.processFiles watched options path content scan).handled,
      h ∈ scan.handled ∨ h.Right s := by
  induction content generalizing scan with
  | none => exact fun h hh => .inl hh
  | file name content rest ih =>
    intro h hh
    obtain hh | hh := ih _ h hh
    · exact processFile_right hpath name scan content h hh
    · exact .inr hh
  | folder name content rest _ ih => exact ih scan

theorem processSubfolders_right (hrec : options.recursive = true) (content : Entries D)
    {names : List Name} {path : Path} (hpath : Contains s watched options names path)
    (scan : Scan D R) :
    ∀ h ∈ (s.processSubfolders watched options path content scan).handled,
      h ∈ scan.handled ∨ h.Right s := by
  induction content generalizing names path scan with
  | none => exact fun h hh => .inl hh
  | file name content rest ih => exact ih hpath scan
  | folder name content rest ihcontent ihrest =>
    intro h hh
    obtain hh | hh := ihrest hpath _ h hh
    · split_ifs at hh with hwatched
      · exact .inl hh
      · have hchild := hpath.child hrec hwatched
        obtain hh | hh := ihcontent hchild _ h hh
        · exact processFiles_right hchild content scan h hh
        · exact .inr hh
    · exact .inr hh

/-- Nothing in a folder is ready to be announced or removed. -/
def Entries.Idle : Entries D → Prop
  | .none => True
  | .file _ (.magnet Option.none) rest => rest.Idle
  | .file _ (.torrent Option.none) rest => rest.Idle
  | .file _ _ _ => False
  | .folder _ _ rest => rest.Idle

theorem processFiles_handled_idle (content : Entries D) (hidle : content.Idle) (scan : Scan D R) :
    (s.processFiles watched options path content scan).handled = scan.handled := by
  induction content generalizing scan with
  | none => rfl
  | file name content rest ih =>
    match content, hidle with
    | .magnet none, hidle => exact ih hidle scan
    | .torrent none, hidle => exact ih hidle _
  | folder name content rest _ ih => exact ih hidle scan

theorem handled_subset_processFiles (content : Entries D) (scan : Scan D R) :
    scan.handled ⊆ (s.processFiles watched options path content scan).handled := by
  induction content generalizing scan with
  | none => exact fun _ h => h
  | file name content rest ih =>
    refine fun h hh => ih _ ?_
    match content with
    | .magnet none => exact hh
    | .torrent none => exact hh
    | .magnet (some lines) => exact mem_append_left _ (mem_append_left _ hh)
    | .torrent (some descr) => exact mem_append_left _ hh
  | folder name content rest _ ih => exact ih scan

theorem exists_removed (content : Entries D) (hidle : ¬content.Idle) (scan : Scan D R) :
    ∃ file, ⟨file, some watched, .removed⟩ ∈
      (s.processFiles watched options path content scan).handled := by
  induction content generalizing scan with
  | none => exact absurd trivial hidle
  | file name content rest ih =>
    match content with
    | .magnet none => exact ih hidle scan
    | .torrent none => exact ih hidle _
    | .magnet (some lines) =>
      exact ⟨path.child name, handled_subset_processFiles rest _ (by simp [processFile])⟩
    | .torrent (some descr) =>
      exact ⟨path.child name, handled_subset_processFiles rest _ (by simp [processFile])⟩
  | folder name content rest _ ih => exact ih hidle scan

variable [Inhabited R]

theorem scan_right (content : Entries D) (hwatched : s.watchedFolders.lookup path = some options) :
    ∀ h ∈ (s.processWatchedFolder path content).2, h.Right s := by
  have hself := Contains.self hwatched
  intro h hh
  simp only [processWatchedFolder, processFolder, hwatched, Option.getD_some] at hh
  have hfiles := processFiles_right hself content ⟨s.failedTorrents, []⟩
  split_ifs at hh with hrec
  · obtain hh | hh := processSubfolders_right hrec content hself _ h hh
    · exact (hfiles h hh).resolve_left not_mem_nil
    · exact hh
  · exact (hfiles h hh).resolve_left not_mem_nil

theorem scan_right_iff (content : Entries D) :
    (∀ h ∈ (s.processWatchedFolder path content).2, h.Right s) ↔
      path ∈ s.watchedFolders ∨ content.Idle := by
  constructor
  · intro hright
    by_contra hno
    rw [not_or] at hno
    have hlookup : s.watchedFolders.lookup path = none := lookup_eq_none.2 hno.1
    obtain ⟨file, hfile⟩ := @exists_removed D R s path path default content hno.2
      ⟨s.failedTorrents, []⟩
    have hmem : (⟨file, some path, .removed⟩ : Handled D R) ∈
        (s.processWatchedFolder path content).2 := by
      simpa [processWatchedFolder, processFolder, hlookup, default] using hfile
    obtain ⟨folder, name, watched, options, names, -, hcontains, hscanned, -⟩ := hright _ hmem
    refine hno.1 (lookup_isSome.1 ?_)
    rw [hscanned path rfl, hcontains.lookup]
    rfl
  · rintro (hwatched | hidle)
    · obtain ⟨options, hoptions⟩ := Option.isSome_iff_exists.1 (lookup_isSome.2 hwatched)
      exact scan_right content hoptions
    · by_cases hwatched : path ∈ s.watchedFolders
      · obtain ⟨options, hoptions⟩ := Option.isSome_iff_exists.1 (lookup_isSome.2 hwatched)
        exact scan_right content hoptions
      · have hlookup : s.watchedFolders.lookup path = none := lookup_eq_none.2 hwatched
        have hnone : (s.processWatchedFolder path content).2 = [] := by
          simpa [processWatchedFolder, processFolder, hlookup, default] using
            processFiles_handled_idle content hidle ⟨s.failedTorrents, []⟩
        rw [hnone]
        simp

end Scans

/-! ### Files that are tried again -/

def Remembered (failedTorrents : List (Path × List (Path × ℕ))) : Prop :=
  ∀ folder ∈ failedTorrents, ∀ f ∈ folder.2, ∃ name, f.1 = folder.1.child name

/-- What must hold of a remembered file when it is tried again: it is not complete, unless its folder
has its name and is in a watched one with default parameters; and it is not given up for good while
no watched folder contains it. -/
def Retried [Inhabited R] (s : Worker R) (folder : Path) (f : Path × ℕ) : FileStatus D → Prop
  | .gone => True
  | .incomplete => maxFailedRetries ≤ f.2 →
      ∃ watched options names, Contains s watched options names folder
  | .complete _ => ∃ watched options name, Contains s watched options [name] folder ∧
      options.addTorrentParams = default ∧ f.1 = folder.child name

section Retries

variable [Inhabited R] {s : Worker R} {folder : Path} {f : Path × ℕ} {name : Name}

theorem retryFile_complete (hf : f.1 = folder.child name) (descr : D) :
    (s.retryFile folder f (.complete descr)).2 =
      [⟨f.1, none, .found descr
          (((s.watchedFolders.lookup folder).getD default).addTorrentParams.extended
            s.isAutoTMMDisabledByDefault ⟨false, [name]⟩)⟩,
        ⟨f.1, none, .removed⟩] := by
  have hne : folder.child name ≠ folder := below_ne_self (by simp)
  rw [retryFile, hf, if_pos hne, child, relativePathOf_below]

theorem retryFile_right_iff (hf : f.1 = folder.child name) (status : FileStatus D) :
    (∀ h ∈ (s.retryFile folder f status).2, h.Right s) ↔ Retried s folder f status := by
  cases status with
  | gone => simp [retryFile, Retried]
  | incomplete =>
    rw [retryFile, Retried]
    by_cases hmax : maxFailedRetries ≤ f.2
    · rw [if_pos hmax]
      simp only [List.mem_singleton, forall_eq, hmax, forall_const]
      constructor
      · rintro ⟨folder', name', watched, options, names, hfile, hcontains, -⟩
        obtain ⟨rfl, -⟩ := child_inj.1 (hf.symm.trans hfile)
        exact ⟨watched, options, names, hcontains⟩
      · rintro ⟨watched, options, names, hcontains⟩
        refine ⟨folder, name, watched, options, names, hf, hcontains, ?_, ?_⟩
        · intro path hpath
          cases hpath
        · intro descr params hdeed
          cases hdeed
    · simp [hmax]
  | complete descr =>
    rw [retryFile_complete hf, Retried]
    constructor
    · intro hright
      obtain ⟨folder', name', watched, options, names, hfile, hcontains, -, hparams⟩ :=
        hright _ mem_cons_self
      obtain ⟨rfl, -⟩ := child_inj.1 (hf.symm.trans hfile)
      have hparams := hparams descr _ rfl
      by_cases hwatched : folder ∈ s.watchedFolders
      · -- the folder of the file is watched: its parameters are not to be extended
        have hnames := hcontains.names_eq_nil hwatched
        have hlookup := hcontains.lookup
        rw [← hcontains.folder_eq hnames] at hlookup
        rw [WatchedFolderOptions.paramsIn, if_pos hnames, hlookup, Option.getD_some] at hparams
        exact absurd hparams (AddTorrentParams.extended_ne _ _ (by simp))
      · -- it is not: the parameters are the default ones
        have hnames : names ≠ [] := by
          intro hnil
          refine hwatched (lookup_isSome.1 ?_)
          rw [hcontains.folder_eq hnil, hcontains.lookup]
          rfl
        rw [WatchedFolderOptions.paramsIn, if_neg hnames, lookup_eq_none.2 hwatched,
          Option.getD_none] at hparams
        obtain ⟨hdefault, rfl⟩ :=
          (AddTorrentParams.extended_eq_default_iff _ _ hnames name).1 hparams
        exact ⟨watched, options, name, hcontains, hdefault, hf⟩
    · rintro ⟨watched, options, name', hcontains, hdefault, hf'⟩
      obtain ⟨-, rfl⟩ := child_inj.1 (hf.symm.trans hf')
      have hwatched : folder ∉ s.watchedFolders := by
        intro hmem
        exact absurd (hcontains.names_eq_nil hmem) (by simp)
      intro h hh
      refine ⟨folder, name, watched, options, [name], ?_, hcontains, ?_, ?_⟩
      · simp only [mem_cons, not_mem_nil, or_false] at hh
        obtain rfl | rfl := hh <;> exact hf
      · simp only [mem_cons, not_mem_nil, or_false] at hh
        obtain rfl | rfl := hh <;> intro path hpath <;> cases hpath
      · simp only [mem_cons, not_mem_nil, or_false] at hh
        rintro descr' params hdeed
        obtain rfl | rfl := hh
        · cases hdeed
          rw [lookup_eq_none.2 hwatched, WatchedFolderOptions.paramsIn, if_neg (by simp),
            hdefault]
          rfl
        · cases hdeed

end Retries

/-! ### Runs -/

/-- What holds of the worker at any time. -/
structure Inv (s : Worker R) : Prop where
  periodic : ∀ path ∈ s.watchedByTimeoutFolders, path ∈ s.watchedFolders
  remembered : Remembered s.failedTorrents

theorem remembered_remember {failedTorrents : List (Path × List (Path × ℕ))}
    (h : Remembered failedTorrents) (path : Path) (name : Name) :
    Remembered (remember path (path.child name) failedTorrents) := by
  induction failedTorrents with
  | nil =>
    intro folder hfolder f hf
    simp only [remember, List.mem_singleton] at hfolder
    subst hfolder
    simp only [List.mem_singleton] at hf
    subst hf
    exact ⟨name, rfl⟩
  | cons first rest ih =>
    have hfirst := h first mem_cons_self
    have hrest : Remembered rest := fun folder hfolder => h folder (mem_cons_of_mem _ hfolder)
    rw [remember]
    split_ifs with hpath hany
    · exact h
    · subst hpath
      intro folder hfolder f hf
      rcases mem_cons.1 hfolder with rfl | hfolder
      · rcases mem_append.1 hf with hf | hf
        · exact hfirst f hf
        · rw [mem_singleton.1 hf]
          exact ⟨name, rfl⟩
      · exact hrest folder hfolder f hf
    · intro folder hfolder f hf
      rcases mem_cons.1 hfolder with rfl | hfolder
      · exact hfirst f hf
      · exact ih hrest folder hfolder f hf

section Remembering

variable {s : Worker R} {watched : Path} {options : WatchedFolderOptions R}

theorem remembered_processFiles (content : Entries D) {path : Path} {scan : Scan D R}
    (h : Remembered scan.failedTorrents) :
    Remembered (s.processFiles watched options path content scan).failedTorrents := by
  induction content generalizing scan with
  | none => exact h
  | file name content rest ih =>
    refine ih ?_
    match content with
    | .magnet none => exact h
    | .magnet (some lines) => exact h
    | .torrent (some descr) => exact h
    | .torrent none => exact remembered_remember h path name
  | folder name content rest _ ih => exact ih h

theorem remembered_processSubfolders (content : Entries D) {path : Path} {scan : Scan D R}
    (h : Remembered scan.failedTorrents) :
    Remembered (s.processSubfolders watched options path content scan).failedTorrents := by
  induction content generalizing path scan with
  | none => exact h
  | file name content rest ih => exact ih h
  | folder name content rest ihcontent ihrest =>
    refine ihrest ?_
    split_ifs
    · exact h
    · exact ihcontent (remembered_processFiles content h)

end Remembering

variable [Inhabited R] {s s' : Worker R} {e : Event D R}

theorem processWatchedFolder_inv (h : Inv s) (path : Path) (content : Entries D) :
    Inv (s.processWatchedFolder path content).1 := by
  refine ⟨h.periodic, ?_⟩
  simp only [processWatchedFolder, processFolder]
  have hfiles := @remembered_processFiles D R s path
    ((s.watchedFolders.lookup path).getD default) content path ⟨s.failedTorrents, []⟩ h.remembered
  split_ifs
  · exact remembered_processSubfolders content hfiles
  · exact hfiles

theorem onTimeout_inv (contents : List (Path × Entries D)) (h : Inv s) :
    Inv (s.onTimeout contents).1 := by
  induction contents generalizing s with
  | nil => exact h
  | cons c contents ih => exact ih (processWatchedFolder_inv h c.1 c.2)

theorem setWatchedFolder_inv (h : Inv s) (path : Path) (options : WatchedFolderOptions R)
    (isNetworkFileSystem : Bool) : Inv (s.setWatchedFolder path options isNetworkFileSystem) := by
  have hinsert : ∀ p ∈ insert path s.watchedByTimeoutFolders,
      p ∈ s.watchedFolders.insert path options := by
    intro p hp
    rw [mem_insert]
    exact (Finset.mem_insert.1 hp).imp id (h.periodic p)
  have hkeep : ∀ p ∈ s.watchedByTimeoutFolders, p ∈ s.watchedFolders.insert path options :=
    fun p hp => hinsert p (Finset.mem_insert_of_mem hp)
  rw [Worker.setWatchedFolder]
  split_ifs
  · rw [updateWatchedFolder]
    refine ⟨?_, ?_⟩
    · split_ifs
      · exact hinsert
      · exact fun p hp => hkeep p (Finset.mem_of_mem_erase hp)
      · exact hkeep
    · split_ifs <;> exact h.remembered
  · rw [addWatchedFolder]
    refine ⟨?_, ?_⟩
    · split_ifs
      · exact hinsert
      · exact hkeep
    · split_ifs <;> exact h.remembered

omit [Inhabited R] in
theorem removeWatchedFolder_inv (h : Inv s) (path : Path) : Inv (s.removeWatchedFolder path) := by
  refine ⟨fun p hp => ?_, fun folder hfolder => h.remembered folder (mem_of_mem_filter hfolder)⟩
  obtain ⟨hne, hp⟩ := Finset.mem_erase.1 hp
  exact mem_erase.2 ⟨hne, h.periodic p hp⟩

theorem processFailedTorrents_inv (h : Inv s) (status : Path → FileStatus D) :
    Inv (s.processFailedTorrents status).1 := by
  refine ⟨h.periodic, fun folder hfolder f hf => ?_⟩
  obtain ⟨before, hbefore, hfolder⟩ := mem_filterMap.1 hfolder
  dsimp only at hfolder
  split_ifs at hfolder
  cases hfolder
  obtain ⟨g, hg, hretry⟩ := mem_filterMap.1 hf
  obtain ⟨name, hname⟩ := h.remembered before hbefore g hg
  refine ⟨name, ?_⟩
  rw [← hname]
  cases hstatus : status g.1 with
  | gone => simp [retryFile, hstatus] at hretry
  | complete descr => simp [retryFile, hstatus] at hretry
  | incomplete =>
    simp only [retryFile, hstatus] at hretry
    split_ifs at hretry
    cases hretry
    rfl

theorem handle_inv (h : Inv s) (e : Event D R) : Inv (s.handle e).1 := by
  cases e with
  | setWatchedFolder path options isNetworkFileSystem =>
    exact setWatchedFolder_inv h path options isNetworkFileSystem
  | removeWatchedFolder path => exact removeWatchedFolder_inv h path
  | directoryChanged path => exact ⟨h.periodic, h.remembered⟩
  | scan path content =>
    have h' : Inv { s with scheduled := s.scheduled.erase path } := ⟨h.periodic, h.remembered⟩
    exact processWatchedFolder_inv h' path content
  | timeout contents => exact onTimeout_inv contents h
  | retry status => exact processFailedTorrents_inv h status
  | setAutoTMMDisabledByDefault disabled => exact ⟨h.periodic, h.remembered⟩

theorem onTimeout_right (contents : List (Path × Entries D))
    (hwatched : ∀ c ∈ contents, c.1 ∈ s.watchedFolders) :
    ∀ h ∈ (s.onTimeout contents).2, h.Right s := by
  induction contents generalizing s with
  | nil =>
    intro h hh
    cases hh
  | cons c contents ih =>
    intro h hh
    rcases mem_append.1 hh with hh | hh
    · obtain ⟨options, hoptions⟩ := Option.isSome_iff_exists.1
        (lookup_isSome.2 (hwatched c mem_cons_self))
      exact scan_right c.2 hoptions h hh
    · exact (@ih (s.processWatchedFolder c.1 c.2).1
        (fun c' hc' => hwatched c' (mem_cons_of_mem _ hc')) h hh).congr rfl rfl

/-- What is done at an event is right. -/
def Worker.HandlesRight (s : Worker R) (e : Event D R) : Prop := ∀ h ∈ (s.handle e).2, h.Right s

/-- A delayed scan is of a folder that is still watched, or finds nothing that is ready, and every
remembered file is as it must be when it is tried again. -/
def Worker.Settled (s : Worker R) : Event D R → Prop
  | .scan path content => path ∈ s.watchedFolders ∨ content.Idle
  | .retry status =>
    ∀ folder ∈ s.failedTorrents, ∀ f ∈ folder.2, Retried s folder.1 f (status f.1)
  | _ => True

theorem handlesRight_iff (h : Inv s) (hpossible : s.Possible e) :
    s.HandlesRight e ↔ s.Settled e := by
  cases e with
  | scan path content =>
    have hscan : (∀ h ∈ (({ s with scheduled := s.scheduled.erase path } :
        Worker R).processWatchedFolder path content).2,
          h.Right { s with scheduled := s.scheduled.erase path }) ↔
        path ∈ s.watchedFolders ∨ content.Idle := scan_right_iff content
    refine Iff.trans ⟨fun hright h hh => ?_, fun hright h hh => ?_⟩ hscan
    · exact (hright h hh).congr rfl rfl
    · exact (hright h hh).congr rfl rfl
  | timeout contents =>
    refine iff_of_true (onTimeout_right contents fun c hc => h.periodic _ ?_) trivial
    rw [← hpossible.2, mem_toFinset]
    exact mem_map_of_mem hc
  | retry status =>
    simp only [HandlesRight, Worker.handle, processFailedTorrents, mem_flatMap,
      Worker.Settled]
    constructor
    · intro hright folder hfolder f hf
      obtain ⟨name, hname⟩ := h.remembered folder hfolder f hf
      exact (retryFile_right_iff hname _).1 fun h hh => hright h ⟨folder, hfolder, f, hf, hh⟩
    · rintro hretried h' ⟨folder, hfolder, f, hf, hh⟩
      obtain ⟨name, hname⟩ := h.remembered folder hfolder f hf
      exact (retryFile_right_iff hname _).2 (hretried folder hfolder f hf) h' hh
  | setWatchedFolder path options isNetworkFileSystem =>
    exact iff_of_true (fun h hh => absurd hh not_mem_nil) trivial
  | removeWatchedFolder path =>
    exact iff_of_true (fun h hh => absurd hh not_mem_nil) trivial
  | directoryChanged path =>
    exact iff_of_true (fun h hh => absurd hh not_mem_nil) trivial
  | setAutoTMMDisabledByDefault disabled =>
    exact iff_of_true (fun h hh => absurd hh not_mem_nil) trivial

theorem machine_step (h : s.Possible e) :
    (machine D R).step s e = some (s.handle e).1 := if_pos h

/-- **Watched files are added with the options of their watched folder**, and none is handled through
a folder that is not watched, exactly in the runs whose events are settled. -/
theorem right_iff_settled {events : List (Event D R)}
    (hr : ((machine D R).run {} events).isSome) :
    (machine D R).Meets Worker.HandlesRight {} events ↔
      (machine D R).Meets Worker.Settled {} events := by
  refine Machine.meets_iff_meets (I := Inv) ⟨by simp, by intro folder hfolder; cases hfolder⟩
    (fun s e s' hi h => ?_) (fun s e s' hi h => ?_) hr
  · obtain ⟨-, rfl⟩ := Machine.guarded_step_eq_some.1 h
    exact handle_inv hi e
  · exact handlesRight_iff hi (Machine.guarded_step_eq_some.1 h).1

/-- A folder of films, with its subfolders. -/
def films : Path := ⟨true, [⟨"films", by decide⟩]⟩

/-- Options with a category, which is used in automatic mode. -/
def filmOptions : WatchedFolderOptions Unit := ⟨⟨"films", .empty, some true, ()⟩, true⟩

/-- A complete file in a subfolder, and one that is not complete yet. -/
def filmFiles : Entries Unit :=
  .folder ⟨"new", by decide⟩ (.file ⟨"a.torrent", by decide⟩ (.torrent (some ())) .none)
    (.file ⟨"b.torrent", by decide⟩ (.torrent none) .none)

theorem right_iff_settled_films :
    (machine Unit Unit).Meets Worker.HandlesRight {}
      [.setWatchedFolder films filmOptions false, .timeout [(films, filmFiles)],
        .retry fun _ => .incomplete] := by
  refine (right_iff_settled (by decide)).2
    ⟨trivial, fun s h => ⟨trivial, fun s' h' => ⟨?_, fun _ _ => trivial⟩⟩⟩
  obtain ⟨-, rfl⟩ := Machine.guarded_step_eq_some.1 h
  obtain ⟨-, rfl⟩ := Machine.guarded_step_eq_some.1 h'
  intro folder hfolder f hf hmax
  have hall : ∀ folder ∈ [(films, [(films.child ⟨"b.torrent", by decide⟩, 0)])],
      ∀ f ∈ folder.2, f.2 < maxFailedRetries := by decide
  exact absurd hmax (Nat.not_le.2 (hall folder hfolder f hf))

/-- A file in a watched folder is complete when it is tried again: it is added with its own name in
the category. -/
def retriedFilm : List (Event Unit Unit) :=
  [.setWatchedFolder films filmOptions false, .timeout [(films, filmFiles)],
    .retry fun _ => .complete ()]

theorem retriedFilm_not_right :
    ((machine Unit Unit).run {} retriedFilm).isSome = true ∧
      ¬(machine Unit Unit).Meets Worker.HandlesRight {} retriedFilm := by
  refine ⟨by decide, fun h => ?_⟩
  have h₁ := h.2 _ (machine_step (by decide))
  have h₂ := h₁.2 _ (machine_step (by decide))
  have hretry := (retryFile_right_iff (s := _) (f := (films.child ⟨"b.torrent", by decide⟩, 0))
    rfl (.complete ())).1 fun h hh => h₂.1 h (mem_flatMap.2
      ⟨(films, [(films.child ⟨"b.torrent", by decide⟩, 0)]), mem_cons_self,
        mem_flatMap.2 ⟨_, mem_cons_self, hh⟩⟩)
  obtain ⟨watched, options, name, hcontains, -⟩ := hretry
  have hwatched := hcontains.names_eq_nil (lookup_isSome.1 (by rfl))
  cases hwatched

end QBittorrent.TorrentFilesWatcher
