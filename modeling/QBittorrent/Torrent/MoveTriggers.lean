import QBittorrent.Session.MoveQueueInvariant

/-!
# What a torrent defers until its files are in place

A torrent that has finished while it is moved, or while files of it are renamed, is announced when
that is done: what is to be called is put into `m_moveFinishedTriggers`.  The torrent counts the
renames that libtorrent has not answered, and knows whether it is being moved by what the session
tells it of the queue of moves.
-/

namespace QBittorrent.MoveTriggers

open MoveQueue

/-! ### Paths of files -/

/-- The path of a file in a torrent. -/
structure FilePath where
  parentPath : List String
  filename : List Char
  deriving DecidableEq

/-- `QB_EXT` -/
def qbExt : List Char := ['.', '!', 'q', 'B']

/-- `UNWANTED_FOLDER_NAME` -/
def unwantedFolderName : String := ".unwanted"

/-- `Path::removedExtension`, which does not tell upper from lower case. -/
def FilePath.removedExtension (path : FilePath) (ext : List Char) : FilePath :=
  let n := path.filename.length - ext.length
  if (path.filename.drop n).map Char.toLower = ext.map Char.toLower then
    { path with filename := path.filename.take n }
  else path

def makeUserPath (path : FilePath) : FilePath :=
  let userPath := path.removedExtension qbExt
  if userPath.parentPath.getLast? = some unwantedFolderName then
    { userPath with parentPath := userPath.parentPath.dropLast }
  else userPath

/-- What is kept of a file, with the name that libtorrent has for it. -/
structure TorrentFile where
  nativeIndex : ℕ
  filePath : FilePath
  actualFilePath : FilePath
  fileSize : ℕ
  completed : Bool := false
  /-- The priority of the file is `Ignored`. -/
  ignored : Bool := false

/-! ### The torrent -/

/-- The entries of `m_statusUpdatedTriggers`. -/
inductive StatusTrigger where
  | checked | finished

inductive NativeState where
  | checkingFiles | checkingResumeData | downloadingMetadata | downloading | finished | seeding
  deriving DecidableEq

/-- What is read of `lt::torrent_status`, some of it with what else `progress()` and
`isDownloading()` read. -/
structure NativeStatus where
  state : NativeState
  savePath : String
  /-- How the progress compares with `1.0`. -/
  progress : Ordering := .lt
  totalWanted : ℕ := 0
  isDownloading : Bool := false

structure TorrentImpl where
  nativeHandle : TorrentHandle
  hasMetadata : Bool
  /-- `m_maintenanceJob` is `HandleMetadata`. -/
  handlesMetadata : Bool := false
  files : List TorrentFile
  savePath : String
  downloadPath : String
  nativeStatus : NativeStatus
  hasFinishedStatus : Bool
  hasMissingFiles : Bool := false
  unchecked : Bool := false
  statusUpdatedTriggers : List StatusTrigger := []
  /-- Each calls `handleTorrentFinished`; they are numbered. -/
  moveFinishedTriggers : List ℕ := []
  renameCount : ℤ := 0
  storageIsMoving : Bool := false

namespace TorrentImpl

variable (t : TorrentImpl)

def isFinished : Bool :=
  t.nativeStatus.state = .finished ∨ t.nativeStatus.state = .seeding

def isChecking : Bool :=
  t.nativeStatus.state = .checkingFiles ∨ t.nativeStatus.state = .checkingResumeData

def actualStorageLocation : String := if t.hasMetadata then t.nativeStatus.savePath else ""

end TorrentImpl

/-- What a trigger meets when it is invoked. -/
structure Invocation where
  trigger : ℕ
  /-- libtorrent is moving the torrent. -/
  moving : Bool
  /-- The renames that libtorrent has not answered. -/
  renames : ℕ
  deriving DecidableEq

/-- `rename_file`, of a torrent of libtorrent. -/
structure Rename where
  torrentHandle : TorrentHandle
  nativeIndex : ℕ
  path : FilePath
  deriving DecidableEq

/-- The torrent, the session as far as it matters to it, and libtorrent. -/
structure Session where
  torrent : TorrentImpl
  isAppendExtensionEnabled : Bool := false
  isUnwantedFolderEnabled : Bool := false
  recheckTorrentsOnCompletion : Bool := false
  moveStorageQueue : List MoveStorageJob := []
  /-- The renames that libtorrent has not answered. -/
  renames : List Rename := []
  /-- How many triggers have been deferred. -/
  deferred : ℕ := 0
  /-- The deferred triggers that were invoked. -/
  invoked : List Invocation := []

namespace Session

variable (s : Session)

/-- Another state of the torrent. -/
def withTorrent (t : TorrentImpl) : Session := { s with torrent := t }

/-- libtorrent is given one job at a time, the first one. -/
def hasActiveJob (h : TorrentHandle) : Bool :=
  s.moveStorageQueue.head?.any fun job => job.torrentHandle = h

/-! ### Renames -/

def makeActualPath (file : TorrentFile) (path : FilePath) : FilePath :=
  let actualPath :=
    if s.isAppendExtensionEnabled ∧ 0 < file.fileSize ∧ file.completed = false then
      { path with filename := path.filename ++ qbExt }
    else path
  if s.isUnwantedFolderEnabled ∧ file.ignored then
    { actualPath with parentPath := actualPath.parentPath ++ [unwantedFolderName] }
  else actualPath

/-- `doRenameFile`, where the index is that of a file of the torrent. -/
def doRenameFile (index : ℕ) (path : FilePath) : Session :=
  match s.torrent.files[index]? with
  | none => s
  | some file =>
    { s with
      torrent := { s.torrent with renameCount := s.torrent.renameCount + 1 }
      renames := s.renames ++ [⟨s.torrent.nativeHandle, file.nativeIndex, path⟩] }

def renameFile (index : ℕ) (path : FilePath) : Session :=
  match s.torrent.files[index]? with
  | none => s
  | some file => s.doRenameFile index (s.makeActualPath file path)

/-- The loop of `manageActualFilePaths`, from a file on. -/
def manageActualFilePathsFrom (s : Session) : ℕ → List TorrentFile → Session
  | _, [] => s
  | i, file :: files =>
    let targetActualPath := s.makeActualPath file file.filePath
    let s :=
      if file.actualFilePath ≠ targetActualPath then s.doRenameFile i targetActualPath else s
    s.manageActualFilePathsFrom (i + 1) files

def manageActualFilePaths : Session := s.manageActualFilePathsFrom 0 s.torrent.files

/-! ### Deferred triggers -/

def invoke (trigger : ℕ) : Session :=
  { s with
    invoked := s.invoked ++
      [⟨trigger, s.hasActiveJob s.torrent.nativeHandle, s.renames.length⟩] }

/-- The loops over `m_moveFinishedTriggers`, with what they ask each time. -/
def invokeMoveFinishedTriggers (ready : TorrentImpl → Bool) (s : Session) : List ℕ → Session
  | [] => s
  | trigger :: rest =>
    if ready s.torrent then
      (({ s with torrent := { s.torrent with moveFinishedTriggers := rest } } :
        Session).invoke trigger).invokeMoveFinishedTriggers ready rest
    else s

/-- `TorrentImpl::reload`: libtorrent has a new torrent, which it checks. -/
def reload : Session :=
  s.withTorrent
    { s.torrent with
      nativeHandle := { s.torrent.nativeHandle with index := s.torrent.nativeHandle.index + 1 }
      nativeStatus := { s.torrent.nativeStatus with state := .checkingResumeData }
      files := s.torrent.files.map fun file => { file with completed := false } }

def handleMoveStorageJobFinished (path : String) (context : MoveStorageContext)
    (hasOutstandingJob : Bool) : Session :=
  let t := s.torrent
  let t : TorrentImpl :=
    { t with
      savePath := if context = .changeSavePath then path else t.savePath
      downloadPath := if context = .changeDownloadPath then path else t.downloadPath
      storageIsMoving := hasOutstandingJob
      nativeStatus := { t.nativeStatus with savePath := path } }
  let s := s.withTorrent t
  if t.storageIsMoving = false then
    -- a torrent with missing files can be at the proper location now
    let s := if t.hasMissingFiles then (s.withTorrent { t with hasMissingFiles := false }).reload else s
    s.invokeMoveFinishedTriggers (fun t => t.renameCount = 0) s.torrent.moveFinishedTriggers
  else s

/-- The last lines of `handleFileRenamedAlert` and `handleFileRenameFailedAlert`. -/
def finishRename : Session :=
  let s := s.withTorrent { s.torrent with renameCount := s.torrent.renameCount - 1 }
  s.invokeMoveFinishedTriggers (fun t => !t.storageIsMoving && t.renameCount = 0)
    s.torrent.moveFinishedTriggers

/-- The file is the one with the index, in `m_indexMap`, that libtorrent has for it. -/
def updateFile (nativeIndex : ℕ) (f : TorrentFile → TorrentFile) : Session :=
  s.withTorrent
    { s.torrent with
      files := s.torrent.files.map fun file => if file.nativeIndex = nativeIndex then f file else file }

/-- `handleFileRenamedAlert`, for the renamed file of the torrent that libtorrent had then. -/
def handleFileRenamed (rename : Rename) (newActualFilePath : FilePath) : Session :=
  (s.updateFile rename.nativeIndex fun file =>
    { file with
      filePath := makeUserPath newActualFilePath
      actualFilePath :=
        if rename.torrentHandle = s.torrent.nativeHandle then newActualFilePath
        else file.actualFilePath }).finishRename

/-! ### Moves -/

/-- The first lines of `addMoveTorrentStorageJob`: an inactive job of the torrent is removed. -/
def cancelInactiveJob : Session :=
  let torrentHandle := s.torrent.nativeHandle
  match s.moveStorageQueue.tail.find? fun job => job.torrentHandle = torrentHandle with
  | none => s
  | some job =>
    let s := s.handleMoveStorageJobFinished s.torrent.actualStorageLocation job.context
      (s.hasActiveJob torrentHandle)
    { s with moveStorageQueue := SessionImpl.withoutInactive torrentHandle s.moveStorageQueue }

/-- `addMoveTorrentStorageJob`, of the session.  The handle and the location are those from before
the inactive job is removed. -/
def addMoveTorrentStorageJob (newPath : String) (mode : MoveStorageMode)
    (context : MoveStorageContext) : Session × Bool :=
  let torrentHandle := s.torrent.nativeHandle
  let currentLocation := s.torrent.actualStorageLocation
  let torrentHasActiveJob := s.hasActiveJob torrentHandle
  let s := s.cancelInactiveJob
  if (if torrentHasActiveJob then s.moveStorageQueue.head?.any fun job => job.path = newPath
      else decide (currentLocation = newPath)) then (s, false)
  else
    ({ s with
      moveStorageQueue := s.moveStorageQueue ++ [⟨torrentHandle, newPath, mode, context⟩] }, true)

/-- The torrent has a job in the queue. -/
def setMoving : Session := s.withTorrent { s.torrent with storageIsMoving := true }

def moveStorage (newPath : String) (context : MoveStorageContext) : Session :=
  if s.torrent.hasMetadata = false then
    s.withTorrent
      { s.torrent with
        savePath := if context = .changeSavePath then newPath else s.torrent.savePath
        downloadPath := if context = .changeDownloadPath then newPath else s.torrent.downloadPath }
  else
    let mode := if context = .adjustCurrentLocation then .overwrite else .keepExistingFiles
    let r := s.addMoveTorrentStorageJob newPath mode context
    if r.2 then r.1.setMoving else r.1

def adjustStorageLocation : Session :=
  let t := s.torrent
  let targetPath :=
    if t.isFinished ∨ t.hasFinishedStatus ∨ t.downloadPath = "" then t.savePath else t.downloadPath
  if targetPath ≠ t.actualStorageLocation ∨ t.storageIsMoving then
    s.moveStorage targetPath .adjustCurrentLocation
  else s

/-- `handleStorageMovedAlert` and `handleStorageMovedFailedAlert`, with
`handleMoveTorrentStorageJobFinished`. -/
def handleStorageAlert (success : Bool) : Session :=
  match s.moveStorageQueue with
  | [] => s
  | finishedJob :: rest =>
    let newPath := if success then finishedJob.path else s.torrent.actualStorageLocation
    let s := { s with moveStorageQueue := rest }
    let torrentHasOutstandingJob := rest.any fun job => job.torrentHandle = finishedJob.torrentHandle
    -- the torrent with the hash
    if finishedJob.torrentHandle.infoHash = s.torrent.nativeHandle.infoHash then
      s.handleMoveStorageJobFinished newPath finishedJob.context torrentHasOutstandingJob
    else s

/-! ### Checks and status updates -/

def forceRecheck : Session :=
  if s.torrent.hasMetadata then
    s.withTorrent
      { s.torrent with
        nativeStatus := { s.torrent.nativeStatus with state := .checkingResumeData }
        files := s.torrent.files.map fun file => { file with completed := false }
        unchecked := false
        hasMissingFiles := false }
  else s

/-- The trigger of `handleTorrentCheckedAlert`. -/
def checkedTrigger : Session :=
  let t := s.torrent
  if t.hasMissingFiles then s
  else
    let hasFinishedStatus :=
      if t.nativeStatus.progress = .lt ∧ 0 < t.nativeStatus.totalWanted then false
      else if t.nativeStatus.progress = .eq then true
      else t.hasFinishedStatus
    (s.withTorrent { t with
      hasFinishedStatus := hasFinishedStatus }).adjustStorageLocation.manageActualFilePaths

/-- The trigger of `handleTorrentFinishedAlert`, without the call that is not deferred. -/
def finishedTrigger : Session :=
  let s := s.adjustStorageLocation.manageActualFilePaths
  if s.recheckTorrentsOnCompletion ∧ s.torrent.unchecked then s.forceRecheck
  else
    let t : TorrentImpl := { s.torrent with hasFinishedStatus := true }
    if t.storageIsMoving ∨ 0 < t.renameCount then
      { s with
        torrent := { t with moveFinishedTriggers := t.moveFinishedTriggers ++ [s.deferred] }
        deferred := s.deferred + 1 }
    else s.withTorrent t

def invokeStatusTrigger : StatusTrigger → Session
  | .checked => s.checkedTrigger
  | .finished => s.finishedTrigger

/-- The loop of `updateStatus`. -/
def invokeStatusUpdatedTriggers (s : Session) : List StatusTrigger → Session
  | [] => s
  | trigger :: rest =>
    ((s.withTorrent { s.torrent with
      statusUpdatedTriggers := rest }).invokeStatusTrigger trigger).invokeStatusUpdatedTriggers rest

/-- `updateStatus`, which discards the status of a torrent that was reloaded. -/
def updateStatus (h : TorrentHandle) (nativeStatus : NativeStatus) : Session :=
  if h ≠ s.torrent.nativeHandle then s
  else
    let t := { s.torrent with nativeStatus := nativeStatus }
    let t :=
      if t.hasMetadata then
        { t with
          unchecked :=
            if t.isChecking then false else if nativeStatus.isDownloading then true else t.unchecked }
      else t
    (s.withTorrent t).invokeStatusUpdatedTriggers t.statusUpdatedTriggers

def handleTorrentChecked : Session :=
  if s.torrent.hasMetadata then
    s.withTorrent
      { s.torrent with statusUpdatedTriggers := s.torrent.statusUpdatedTriggers ++ [.checked] }
  else s

def handleTorrentFinished : Session :=
  let t := { s.torrent with hasMissingFiles := false }
  s.withTorrent
    (if t.hasFinishedStatus then t
      else { t with statusUpdatedTriggers := t.statusUpdatedTriggers ++ [.finished] })

/-! ### Files -/

def handleFileCompleted (nativeIndex : ℕ) : Session :=
  if s.torrent.handlesMetadata then s
  else
    let s := s.updateFile nativeIndex fun file => { file with completed := true }
    match s.torrent.files.findIdx? fun file => file.nativeIndex = nativeIndex with
    | none => s
    | some index =>
      match s.torrent.files[index]? with
      | none => s
      | some file =>
        if s.isAppendExtensionEnabled ∧ file.actualFilePath ≠ file.filePath then
          s.doRenameFile index file.filePath
        else s

def prioritizeFiles (ignored : List Bool) : Session :=
  if s.torrent.hasMetadata then
    let files := s.torrent.files.zip ignored
    let reset := files.any fun (file, ignored) => file.ignored && !ignored && !file.completed
    (s.withTorrent
      { s.torrent with
        hasFinishedStatus := s.torrent.hasFinishedStatus && !reset
        files := files.map fun (file, ignored) =>
          { file with ignored := ignored } }).manageActualFilePaths
  else s

/-- `handleAppendExtensionToggled` and `handleUnwantedFolderToggled`. -/
def handleToggled : Session := if s.torrent.hasMetadata then s.manageActualFilePaths else s

/-- `endReceivedMetadataHandling` -/
def fileSearchFinished (savePath : String) (files : List TorrentFile) : Session :=
  if s.torrent.handlesMetadata then
    (s.withTorrent
      { s.torrent with
        hasMetadata := true
        handlesMetadata := false
        files := files
        nativeStatus := { s.torrent.nativeStatus with savePath := savePath } }).reload
  else s

end Session

/-- Requests, alerts, and what happens to other torrents and to the settings. -/
inductive TorrentEvent where
  | otherMove (job : MoveStorageJob)
  | otherMoveCanceled (h : TorrentHandle)
  | storageMoved (success : Bool)
  | moveStorage (newPath : String) (context : MoveStorageContext)
  | pathsChanged (savePath downloadPath : String) (adjust : Bool)
  | renameFile (index : ℕ) (path : FilePath)
  | fileRenamed (rename : Rename) (newActualFilePath : FilePath)
  | fileRenameFailed (rename : Rename)
  | fileCompleted (nativeIndex : ℕ)
  | prioritizeFiles (ignored : List Bool)
  | toggled (isAppendExtensionEnabled isUnwantedFolderEnabled : Bool)
  | recheckToggled (recheckTorrentsOnCompletion : Bool)
  | torrentChecked
  | torrentFinished
  | stateUpdate (h : TorrentHandle) (nativeStatus : NativeStatus)
  | forceRecheck
  | fastResumeRejected
  | metadataReceived
  | fileSearchFinished (savePath : String) (files : List TorrentFile)
  | actualPathsChanged (actualFilePath : TorrentFile → FilePath)

namespace Session

variable (s : Session)

def next : TorrentEvent → Session
  | .otherMove job => { s with moveStorageQueue := s.moveStorageQueue ++ [job] }
  | .otherMoveCanceled h =>
    { s with moveStorageQueue := SessionImpl.withoutInactive h s.moveStorageQueue }
  | .storageMoved success => s.handleStorageAlert success
  | .moveStorage newPath context => s.moveStorage newPath context
  | .pathsChanged savePath downloadPath adjust =>
    let s := s.withTorrent { s.torrent with savePath := savePath, downloadPath := downloadPath }
    if adjust then s.adjustStorageLocation else s
  | .renameFile index path => s.renameFile index path
  | .fileRenamed rename newActualFilePath =>
    { s with renames := s.renames.erase rename }.handleFileRenamed rename newActualFilePath
  | .fileRenameFailed rename => { s with renames := s.renames.erase rename }.finishRename
  | .fileCompleted nativeIndex => s.handleFileCompleted nativeIndex
  | .prioritizeFiles ignored => s.prioritizeFiles ignored
  | .toggled isAppendExtensionEnabled isUnwantedFolderEnabled =>
    { s with
      isAppendExtensionEnabled := isAppendExtensionEnabled
      isUnwantedFolderEnabled := isUnwantedFolderEnabled }.handleToggled
  | .recheckToggled recheckTorrentsOnCompletion =>
    { s with recheckTorrentsOnCompletion := recheckTorrentsOnCompletion }
  | .torrentChecked => s.handleTorrentChecked
  | .torrentFinished => s.handleTorrentFinished
  | .stateUpdate h nativeStatus => s.updateStatus h nativeStatus
  | .forceRecheck => s.forceRecheck
  | .fastResumeRejected => s.withTorrent { s.torrent with hasMissingFiles := true }
  | .metadataReceived => s.withTorrent { s.torrent with handlesMetadata := true }
  | .fileSearchFinished savePath files => s.fileSearchFinished savePath files
  -- the names that libtorrent has may be others after it was given the torrent anew
  | .actualPathsChanged actualFilePath =>
    s.withTorrent
      { s.torrent with
        files := s.torrent.files.map fun file =>
          { file with actualFilePath := actualFilePath file } }

/-- libtorrent answers each rename once, and the moves of the torrents that it has; metadata is
received by a torrent that has none. -/
def Possible : TorrentEvent → Prop
  | .otherMove job => job.torrentHandle.infoHash ≠ s.torrent.nativeHandle.infoHash
  | .otherMoveCanceled h => h.infoHash ≠ s.torrent.nativeHandle.infoHash
  | .storageMoved _ => ∃ job ∈ s.moveStorageQueue.head?,
    job.torrentHandle.infoHash = s.torrent.nativeHandle.infoHash →
      job.torrentHandle = s.torrent.nativeHandle
  | .fileRenamed rename _ | .fileRenameFailed rename => rename ∈ s.renames
  | .prioritizeFiles ignored => ignored.length = s.torrent.files.length
  | .metadataReceived => s.torrent.hasMetadata = false
  | .moveStorage .. | .pathsChanged .. | .renameFile .. | .fileCompleted _ | .toggled ..
  | .recheckToggled _ | .torrentChecked | .torrentFinished | .stateUpdate .. | .forceRecheck
  | .fastResumeRejected | .fileSearchFinished .. | .actualPathsChanged _ => True

instance : DecidablePred s.Possible := fun e => by
  cases e <;> unfold Possible <;> infer_instance

/-- A torrent that is added, with metadata or without. -/
def construct (id : Digest) (files : Option (List TorrentFile)) (savePath downloadPath : String)
    (nativeStatus : NativeStatus) (hasFinishedStatus : Bool) : Session where
  torrent :=
    { nativeHandle := ⟨0, id⟩
      hasMetadata := files.isSome
      files := files.getD []
      savePath := savePath
      downloadPath := downloadPath
      nativeStatus := nativeStatus
      hasFinishedStatus := hasFinishedStatus }

end Session

/-- The runs of a torrent. -/
def machine : Machine Session TorrentEvent := .guarded Session.Possible Session.next

end QBittorrent.MoveTriggers
