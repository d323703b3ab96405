import QBittorrent.Lib.Dict
import QBittorrent.Lib.Machine

/-!
# Watched folders

The worker of `TorrentFilesWatcher` scans the watched folders for torrent and magnet files, which it
announces and removes.  A torrent file that can not be loaded yet is remembered, by the folder that
it is in, and tried again by a timer.  What is in a folder, and what has become of a remembered file,
is part of the event, so that files can come, change and go between the events.
-/

namespace QBittorrent.TorrentFilesWatcher

/-! ### Paths -/

/-- The name of a file or a folder. -/
abbrev Name := { s : String // s ≠ "" ∧ '/' ∉ s.toList }

structure Path where
  absolute : Bool
  names : List Name
  deriving DecidableEq

/-- Names with a separator between them. -/
def joined : List Name → String
  | [] => ""
  | [name] => name
  | name :: names => name ++ "/" ++ joined names

/-- The names that lead from a folder to a file, with `..` where it is not inside. -/
def relativeNames : List Name → List Name → List Name
  | [], file => file
  | folder, [] => folder.map fun _ => ⟨"..", by decide⟩
  | a :: folder, b :: file =>
    if a = b then relativeNames folder file
    else (a :: folder).map (fun _ => ⟨"..", by decide⟩) ++ b :: file

namespace Path

def empty : Path := ⟨false, []⟩

def data (path : Path) : String := (if path.absolute then "/" else "") ++ joined path.names

/-- `operator/`. -/
def append (lhs rhs : Path) : Path :=
  if rhs = empty then lhs
  else if lhs = empty then rhs
  else ⟨lhs.absolute, lhs.names ++ rhs.names⟩

/-- `relativePathOf`, for two different absolute paths. -/
def relativePathOf (path childPath : Path) : Path :=
  ⟨false, relativeNames path.names childPath.names⟩

/-- Something in a folder, by the names that lead to it. -/
def below (path : Path) (names : List Name) : Path := ⟨path.absolute, path.names ++ names⟩

/-- A file or a folder in a folder. -/
def child (path : Path) (name : Name) : Path := path.below [name]

end Path

/-! ### Options -/

/-- The parameters that the folder of a file changes, and the others. -/
@[ext]
structure AddTorrentParams (R : Type) where
  category : String
  savePath : Path
  useAutoTMM : Option Bool
  rest : R

/-- The default options, with those that no folder changes. -/
instance {R : Type} [Inhabited R] : Inhabited (AddTorrentParams R) where
  default := ⟨"", .empty, none, default⟩

structure WatchedFolderOptions (R : Type) where
  addTorrentParams : AddTorrentParams R
  recursive : Bool

instance {R : Type} [Inhabited R] : Inhabited (WatchedFolderOptions R) where
  default := ⟨default, false⟩

/-- The parameters with the category or the save path of a subfolder. -/
def AddTorrentParams.extended {R : Type} (isAutoTMMDisabledByDefault : Bool)
    (addTorrentParams : AddTorrentParams R) (subdirPath : Path) : AddTorrentParams R :=
  let useAutoTMM := addTorrentParams.useAutoTMM.getD (!isAutoTMMDisabledByDefault)
  if useAutoTMM then
    { addTorrentParams with
      category :=
        if addTorrentParams.category = "" then subdirPath.data
        else addTorrentParams.category ++ "/" ++ subdirPath.data }
  else { addTorrentParams with savePath := addTorrentParams.savePath.append subdirPath }

/-! ### What is found -/

/-- A file: the lines of a magnet file as they are parsed, unless it can not be opened or is too big;
or a torrent file as it is loaded. -/
inductive FileContent (D : Type) where
  | magnet (lines : Option (List (Option D)))
  | torrent (loadResult : Option D)

inductive Entries (D : Type) where
  | none
  | file (name : Name) (content : FileContent D) (rest : Entries D)
  | folder (name : Name) (content : Entries D) (rest : Entries D)

/-- What has become of a remembered file. -/
inductive FileStatus (D : Type) where
  | gone
  | incomplete
  | complete (loadResult : D)

inductive Deed (D R : Type) where
  | found (torrentDescr : D) (addTorrentParams : AddTorrentParams R)
  | removed
  | renamed

/-- What is done with a file: it is announced, removed or renamed, in a scan of a folder or when it
is tried again. -/
structure Handled (D R : Type) where
  file : Path
  scanned : Option Path
  deed : Deed D R

/-! ### The worker -/

/-- `TorrentFilesWatcher::Worker`: the folders that the system watches, the scans that are due,
and its fields. -/
structure Worker (R : Type) where
  watcher : Finset Path := ∅
  scheduled : List Path := []
  watchedFolders : Dict Path (WatchedFolderOptions R) := ∅
  watchedByTimeoutFolders : Finset Path := ∅
  failedTorrents : List (Path × List (Path × ℕ)) := []
  isAutoTMMDisabledByDefault : Bool := true

/-- `MAX_FAILED_RETRIES`. -/
def maxFailedRetries : ℕ := 5

/-- `m_failedTorrents[path][filePath] = 0`, unless it is there. -/
def remember (path filePath : Path) :
    List (Path × List (Path × ℕ)) → List (Path × List (Path × ℕ))
  | [] => [(path, [(filePath, 0)])]
  | (p, files) :: rest =>
    if p = path then
      (p, if files.any (fun f => f.1 = filePath) then files else files ++ [(filePath, 0)]) :: rest
    else (p, files) :: remember path filePath rest

/-- A scan: the remembered files, and what has been done. -/
structure Scan (D R : Type) where
  failedTorrents : List (Path × List (Path × ℕ))
  handled : List (Handled D R)

namespace Worker

variable {D R : Type} [Inhabited R] (s : Worker R)

/-- The parameters of a file that is found in `path`, in a scan of a watched folder. -/
def scanParams (path watchedFolderPath : Path) (options : WatchedFolderOptions R) :
    AddTorrentParams R :=
  if path ≠ watchedFolderPath then
    options.addTorrentParams.extended s.isAutoTMMDisabledByDefault
      (watchedFolderPath.relativePathOf path)
  else options.addTorrentParams

def processFile (path watchedFolderPath : Path) (options : WatchedFolderOptions R) (name : Name)
    (scan : Scan D R) : FileContent D → Scan D R
  | .magnet none => scan
  | .magnet (some lines) =>
    let found := lines.filterMap fun parseResult => parseResult.map fun descr =>
      ⟨path.child name, some watchedFolderPath,
        .found descr (s.scanParams path watchedFolderPath options)⟩
    { scan with
      handled :=
        scan.handled ++ found ++ [⟨path.child name, some watchedFolderPath, .removed⟩] }
  | .torrent (some descr) =>
    { scan with
      handled := scan.handled ++
        [⟨path.child name, some watchedFolderPath,
            .found descr (s.scanParams path watchedFolderPath options)⟩,
          ⟨path.child name, some watchedFolderPath, .removed⟩] }
  | .torrent none =>
    { scan with failedTorrents := remember path (path.child name) scan.failedTorrents }

/-- The first loop of `processFolder`, over the files. -/
def processFiles (watchedFolderPath : Path) (options : WatchedFolderOptions R) (path : Path) :
    Entries D → Scan D R → Scan D R
  | .none, scan => scan
  | .file name content rest, scan =>
    processFiles watchedFolderPath options path rest
      (s.processFile path watchedFolderPath options name scan content)
  | .folder _ _ rest, scan => processFiles watchedFolderPath options path rest scan

/-- The second loop of `processFolder`, over the subfolders: the files of each that is not watched
itself, and its subfolders. -/
def processSubfolders (watchedFolderPath : Path) (options : WatchedFolderOptions R) (path : Path) :
    Entries D → Scan D R → Scan D R
  | .none, scan => scan
  | .file _ _ rest, scan => processSubfolders watchedFolderPath options path rest scan
  | .folder name content rest, scan =>
    processSubfolders watchedFolderPath options path rest
      (if path.child name ∈ s.watchedFolders then scan
      else
        processSubfolders watchedFolderPath options (path.child name) content
          (s.processFiles watchedFolderPath options (path.child name) content scan))

def processFolder (path watchedFolderPath : Path) (options : WatchedFolderOptions R)
    (content : Entries D) (scan : Scan D R) : Scan D R :=
  let scan := s.processFiles watchedFolderPath options path content scan
  if options.recursive then s.processSubfolders watchedFolderPath options path content scan
  else scan

def processWatchedFolder (path : Path) (content : Entries D) : Worker R × List (Handled D R) :=
  let options := (s.watchedFolders.lookup path).getD default
  let scan := s.processFolder path path options content ⟨s.failedTorrents, []⟩
  ({ s with failedTorrents := scan.failedTorrents }, scan.handled)

/-- `onTimeout`, with what is in each folder. -/
def onTimeout (s : Worker R) : List (Path × Entries D) → Worker R × List (Handled D R)
  | [] => (s, [])
  | (path, content) :: rest =>
    let r := s.processWatchedFolder path content
    let r' := onTimeout r.1 rest
    (r'.1, r.2 ++ r'.2)

/-- What `processFailedTorrents` does with a remembered file: whether it stays, and what is done. -/
def retryFile (watchedFolderPath : Path) (torrent : Path × ℕ) :
    FileStatus D → Option (Path × ℕ) × List (Handled D R)
  | .gone => (none, [])
  | .complete descr =>
    let options := (s.watchedFolders.lookup watchedFolderPath).getD default
    let params :=
      if torrent.1 ≠ watchedFolderPath then
        options.addTorrentParams.extended s.isAutoTMMDisabledByDefault
          (watchedFolderPath.relativePathOf torrent.1)
      else options.addTorrentParams
    (none, [⟨torrent.1, none, .found descr params⟩, ⟨torrent.1, none, .removed⟩])
  | .incomplete =>
    if maxFailedRetries ≤ torrent.2 then (none, [⟨torrent.1, none, .renamed⟩])
    else (some (torrent.1, torrent.2 + 1), [])

def processFailedTorrents (status : Path → FileStatus D) : Worker R × List (Handled D R) :=
  ({ s with
      failedTorrents := s.failedTorrents.filterMap fun folder =>
        let files := folder.2.filterMap fun f => (s.retryFile (D := D) folder.1 f (status f.1)).1
        if files = [] then none else some (folder.1, files) },
    s.failedTorrents.flatMap fun folder =>
      folder.2.flatMap fun f => (s.retryFile folder.1 f (status f.1)).2)

/-- `scheduleWatchedFolderProcessing`. -/
def schedule (path : Path) : Worker R := { s with scheduled := s.scheduled ++ [path] }

def addWatchedFolder (path : Path) (options : WatchedFolderOptions R)
    (isNetworkFileSystem : Bool) : Worker R :=
  let s :=
    if isNetworkFileSystem || options.recursive then
      { s with watchedByTimeoutFolders := insert path s.watchedByTimeoutFolders }
    else ({ s with watcher := insert path s.watcher } : Worker R).schedule path
  { s with watchedFolders := s.watchedFolders.insert path options }

def updateWatchedFolder (path : Path) (options : WatchedFolderOptions R)
    (isNetworkFileSystem : Bool) : Worker R :=
  let recursiveModeChanged :=
    ((s.watchedFolders.lookup path).getD default).recursive != options.recursive
  let s :=
    if recursiveModeChanged && !isNetworkFileSystem then
      if options.recursive then
        { s with
          watcher := s.watcher.erase path
          watchedByTimeoutFolders := insert path s.watchedByTimeoutFolders }
      else
        ({ s with
          watchedByTimeoutFolders := s.watchedByTimeoutFolders.erase path
          watcher := insert path s.watcher } : Worker R).schedule path
    else s
  { s with watchedFolders := s.watchedFolders.insert path options }

def setWatchedFolder (path : Path) (options : WatchedFolderOptions R)
    (isNetworkFileSystem : Bool) : Worker R :=
  if path ∈ s.watchedFolders then s.updateWatchedFolder path options isNetworkFileSystem
  else s.addWatchedFolder path options isNetworkFileSystem

def removeWatchedFolder (path : Path) : Worker R :=
  { s with
    watchedFolders := s.watchedFolders.erase path
    watcher := s.watcher.erase path
    watchedByTimeoutFolders := s.watchedByTimeoutFolders.erase path
    failedTorrents := s.failedTorrents.filter fun folder => folder.1 ≠ path }

end Worker

/-! ### Events -/

/-- What happens to the worker: requests, a folder that the system tells has changed, a delayed scan,
the periodic scans of the folders in some order, the retry timer, and a change of the setting that
parameters without one of their own take. -/
inductive Event (D R : Type) where
  | setWatchedFolder (path : Path) (options : WatchedFolderOptions R) (isNetworkFileSystem : Bool)
  | removeWatchedFolder (path : Path)
  | directoryChanged (path : Path)
  | scan (path : Path) (content : Entries D)
  | timeout (contents : List (Path × Entries D))
  | retry (status : Path → FileStatus D)
  | setAutoTMMDisabledByDefault (disabled : Bool)

namespace Worker

variable {D R : Type} [Inhabited R] (s : Worker R)

/-- What can happen: only absolute paths are watched, the system tells of folders that it watches,
scans have been scheduled, and every folder with periodic scans has its turn. -/
def Possible : Event D R → Prop
  | .setWatchedFolder path _ _ => path.absolute = true
  | .directoryChanged path => path ∈ s.watcher
  | .scan path _ => path ∈ s.scheduled
  | .timeout contents => (contents.map Prod.fst).Nodup ∧
      (contents.map Prod.fst).toFinset = s.watchedByTimeoutFolders
  | .removeWatchedFolder _ | .retry _ | .setAutoTMMDisabledByDefault _ => True

instance : ∀ e : Event D R, Decidable (s.Possible e)
  | .setWatchedFolder path _ _ => inferInstanceAs (Decidable (path.absolute = true))
  | .directoryChanged path => inferInstanceAs (Decidable (path ∈ s.watcher))
  | .scan path _ => inferInstanceAs (Decidable (path ∈ s.scheduled))
  | .timeout contents => inferInstanceAs (Decidable ((contents.map Prod.fst).Nodup ∧
      (contents.map Prod.fst).toFinset = s.watchedByTimeoutFolders))
  | .removeWatchedFolder _ | .retry _ | .setAutoTMMDisabledByDefault _ => isTrue trivial

/-- The worker after an event, and what it has done with files. -/
def handle : Event D R → Worker R × List (Handled D R)
  | .setWatchedFolder path options isNetworkFileSystem =>
    (s.setWatchedFolder path options isNetworkFileSystem, [])
  | .removeWatchedFolder path => (s.removeWatchedFolder path, [])
  | .directoryChanged path => (s.schedule path, [])
  | .scan path content =>
    ({ s with scheduled := s.scheduled.erase path } : Worker R).processWatchedFolder path content
  | .timeout contents => s.onTimeout contents
  | .retry status => s.processFailedTorrents status
  | .setAutoTMMDisabledByDefault disabled => ({ s with isAutoTMMDisabledByDefault := disabled }, [])

end Worker

/-- The runs of the worker. -/
def machine (D R : Type) [Inhabited R] : Machine (Worker R) (Event D R) where
  step s e := if s.Possible e then some (s.handle e).1 else none

end QBittorrent.TorrentFilesWatcher
