import QBittorrent.Lib.Dict
import QBittorrent.Lib.Machine
import QBittorrent.Session.InfoHash

/-!
# The queue of storage moves

All torrents of a session share one queue of storage moves, of which libtorrent is given one at a
time.  A torrent that is removed with its content kept stays in libtorrent until its moves are
done.  What libtorrent holds (its torrents, the moves and the removals that it has not reported yet)
is part of the state.
-/

namespace QBittorrent.MoveQueue

/-- `lt::torrent_handle`: which torrent of libtorrent it is, and its hash. -/
structure TorrentHandle where
  index : ℕ
  infoHash : Digest
  deriving DecidableEq

inductive MoveStorageMode where
  | keepExistingFiles | overwrite

inductive MoveStorageContext where
  | adjustCurrentLocation | changeSavePath | changeDownloadPath
  deriving DecidableEq

inductive TorrentRemoveOption where
  | keepContent | removeContent
  deriving DecidableEq

structure MoveStorageJob where
  torrentHandle : TorrentHandle
  path : String
  mode : MoveStorageMode
  context : MoveStorageContext

/-- A torrent, with the path of the last request to move it. -/
structure TorrentImpl where
  nativeHandle : TorrentHandle
  hasMetadata : Bool
  savePath : String
  downloadPath : String
  /-- `actualStorageLocation` of a torrent with metadata. -/
  location : String
  storageIsMoving : Bool := false
  hasMissingFiles : Bool := false
  requested : Option String := none
  deriving DecidableEq

/-- The session, libtorrent, and a record of what was asked. -/
structure SessionImpl where
  torrents : Dict Digest TorrentImpl := ∅
  moveStorageQueue : List MoveStorageJob := []
  /-- The option of `m_removingTorrents`. -/
  removingTorrents : Dict Digest TorrentRemoveOption := ∅
  /-- The torrents of libtorrent. -/
  native : Finset TorrentHandle := ∅
  nextIndex : ℕ := 0
  /-- The moves that libtorrent has not answered. -/
  moving : List TorrentHandle := []
  /-- The removals that libtorrent has not reported. -/
  deletions : List Digest := []
  /-- The torrents that were removed from the session, and how. -/
  removed : List (TorrentHandle × TorrentRemoveOption) := []
  /-- The calls of `remove_torrent` for removed torrents. -/
  removals : List TorrentHandle := []
  /-- Every move so far has succeeded. -/
  allMoved : Bool := true

namespace SessionImpl

variable (s : SessionImpl)

/-- The state with another torrent object at `id`. -/
def withTorrent (id : Digest) (t : TorrentImpl) : SessionImpl :=
  { s with torrents := s.torrents.insert id t }

/-- `remove_torrent` takes a torrent out of libtorrent, which reports it later. -/
def takeOut (h : TorrentHandle) : SessionImpl :=
  { s with
    native := s.native.erase h
    deletions := if h ∈ s.native then s.deletions ++ [h.infoHash] else s.deletions }

def removeNative (h : TorrentHandle) : SessionImpl :=
  { s.takeOut h with removals := s.removals ++ [h] }

/-- `TorrentImpl::reload` replaces the native torrent. -/
def reload (id : Digest) (t : TorrentImpl) : SessionImpl :=
  let h : TorrentHandle := ⟨s.nextIndex, id⟩
  let s := s.takeOut t.nativeHandle
  { s.withTorrent id { t with nativeHandle := h } with
    native := insert h s.native
    nextIndex := s.nextIndex + 1 }

/-- The torrent of `TorrentImpl::handleMoveStorageJobFinished`. -/
def movedTorrent (t : TorrentImpl) (path : String) (context : MoveStorageContext)
    (hasOutstandingJob : Bool) : TorrentImpl :=
  { t with
    savePath := if context = .changeSavePath then path else t.savePath
    downloadPath := if context = .changeDownloadPath then path else t.downloadPath
    storageIsMoving := hasOutstandingJob
    location := path }

/-- `TorrentImpl::handleMoveStorageJobFinished`: a torrent with missing files is reloaded, as it
can be at the proper location now. -/
def finishJob (id : Digest) (t : TorrentImpl) (path : String) (context : MoveStorageContext)
    (hasOutstandingJob : Bool) : SessionImpl :=
  let t := movedTorrent t path context hasOutstandingJob
  if t.storageIsMoving = false ∧ t.hasMissingFiles = true then
    s.reload id { t with hasMissingFiles := false }
  else s.withTorrent id t

/-- `moveTorrentStorage`, which libtorrent answers if it has the torrent. -/
def moveTorrentStorage (job : MoveStorageJob) : SessionImpl :=
  { s with
    moving := if job.torrentHandle ∈ s.native then s.moving ++ [job.torrentHandle] else s.moving }

/-- The queue without the first job of a torrent behind the running one. -/
def withoutInactive (h : TorrentHandle) : List MoveStorageJob → List MoveStorageJob
  | [] => []
  | job :: rest => job :: rest.eraseP fun job => job.torrentHandle = h

/-- The job that is running. -/
def activeJob : Option MoveStorageJob := s.moveStorageQueue.head?

/-- The first job of a torrent behind the running one. -/
def inactiveJob (h : TorrentHandle) : Option MoveStorageJob :=
  s.moveStorageQueue.tail.find? fun job => job.torrentHandle = h

def Queued (h : TorrentHandle) : Prop := ∃ job ∈ s.moveStorageQueue, job.torrentHandle = h
  deriving Decidable

/-- A torrent has the running job. -/
def hasActiveJob (h : TorrentHandle) : Bool :=
  s.activeJob.any fun job => job.torrentHandle = h

/-- The last lines of `addMoveTorrentStorageJob`. -/
def enqueue (job : MoveStorageJob) : SessionImpl :=
  let s' := { s with moveStorageQueue := s.moveStorageQueue ++ [job] }
  if s.moveStorageQueue = [] then s'.moveTorrentStorage job else s'

/-- The first lines of `addMoveTorrentStorageJob`: an inactive job of the torrent is removed. -/
def cancelInactiveJob (id : Digest) (t : TorrentImpl) : SessionImpl :=
  match s.inactiveJob t.nativeHandle with
  | none => s
  | some job =>
    let s' := s.finishJob id t t.location job.context (s.hasActiveJob t.nativeHandle)
    { s' with moveStorageQueue := withoutInactive t.nativeHandle s'.moveStorageQueue }

/-- Where the running job of the torrent moves it, or where it is. -/
def currentTarget (t : TorrentImpl) : Option String :=
  if s.hasActiveJob t.nativeHandle then s.activeJob.map (·.path) else some t.location

/-- `addMoveTorrentStorageJob`, which does nothing if the torrent is, or is being moved, where it
should be.  The handle is that from before the inactive job is removed. -/
def addMoveTorrentStorageJob (id : Digest) (t : TorrentImpl) (newPath : String)
    (mode : MoveStorageMode) (context : MoveStorageContext) : SessionImpl × Bool :=
  let s := s.cancelInactiveJob id t
  if s.currentTarget t = some newPath then (s, false)
  else (s.enqueue ⟨t.nativeHandle, newPath, mode, context⟩, true)

/-- `TorrentImpl::moveStorage`. -/
def moveStorage (id : Digest) (newPath : String) (context : MoveStorageContext) : SessionImpl :=
  match s.torrents.lookup id with
  | none => s
  | some t =>
    if t.hasMetadata = false then
      s.withTorrent id { t with
        savePath := if context = .changeSavePath then newPath else t.savePath
        downloadPath := if context = .changeDownloadPath then newPath else t.downloadPath }
    else
      let t := { t with requested := some newPath }
      let mode := if context = .adjustCurrentLocation then .overwrite else .keepExistingFiles
      let r := (s.withTorrent id t).addMoveTorrentStorageJob id t newPath mode context
      match r.1.torrents.lookup id with
      | none => r.1
      | some t => if r.2 then r.1.withTorrent id { t with storageIsMoving := true } else r.1

def removeTorrent (id : Digest) (deleteOption : TorrentRemoveOption) : SessionImpl :=
  match s.torrents.lookup id with
  | none => s
  | some t =>
    let s :=
      { s with
        torrents := s.torrents.erase id
        removingTorrents := s.removingTorrents.insert id deleteOption
        removed := s.removed ++ [(t.nativeHandle, deleteOption)] }
    match deleteOption with
    | .keepContent => if s.Queued t.nativeHandle then s else s.removeNative t.nativeHandle
    | .removeContent =>
      -- the active job stays
      let s :=
        { s with moveStorageQueue := withoutInactive t.nativeHandle s.moveStorageQueue }
      s.removeNative t.nativeHandle

/-- `handleMoveTorrentStorageJobFinished`, where the torrent, and the way it is to be removed, are
found by the hash; a removal that is not found is one that keeps the content. -/
def handleMoveTorrentStorageJobFinished (newPath : String) : SessionImpl :=
  match s.moveStorageQueue with
  | [] => s
  | finishedJob :: rest =>
    let s := { s with moveStorageQueue := rest }
    let s :=
      match rest with
      | [] => s
      | job :: _ => s.moveTorrentStorage job
    let id := finishedJob.torrentHandle.infoHash
    match s.torrents.lookup id with
    | some t =>
      s.finishJob id t newPath finishedJob.context (decide (s.Queued finishedJob.torrentHandle))
    | none =>
      if s.Queued finishedJob.torrentHandle then s
      else
        let removeOption := (s.removingTorrents.lookup id).getD .keepContent
        let s := { s with removingTorrents := s.removingTorrents.insert id removeOption }
        if removeOption = .keepContent then s.removeNative finishedJob.torrentHandle else s

/-- The alert of a move that libtorrent has answered; where the torrent is when a move has failed is
asked of the torrent with the hash. -/
def handleStorageAlert (success : Bool) : SessionImpl :=
  match s.moveStorageQueue with
  | [] => s
  | currentJob :: _ =>
    let currentLocation :=
      ((s.torrents.lookup currentJob.torrentHandle.infoHash).map (·.location)).getD ""
    ({ s with
      moving := s.moving.erase currentJob.torrentHandle
      allMoved := s.allMoved && success } :
        SessionImpl).handleMoveTorrentStorageJobFinished
      (if success then currentJob.path else currentLocation)

def handleRemovedTorrent (id : Digest) : SessionImpl :=
  { s with
    deletions := s.deletions.erase id
    removingTorrents := s.removingTorrents.erase id }

/-- A new torrent object. -/
def addTorrent (id : Digest) (hasMetadata : Bool) (location savePath downloadPath : String) :
    SessionImpl :=
  let h : TorrentHandle := ⟨s.nextIndex, id⟩
  { s.withTorrent id
      { nativeHandle := h
        hasMetadata := hasMetadata
        savePath := savePath
        downloadPath := downloadPath
        location := location } with
    native := insert h s.native
    nextIndex := s.nextIndex + 1 }

/-- The files of a torrent are found missing, or found. -/
def setMissingFiles (id : Digest) (missing : Bool) : SessionImpl :=
  match s.torrents.lookup id with
  | none => s
  | some t => s.withTorrent id { t with hasMissingFiles := missing }

/-- `TorrentImpl::start`, of a torrent with missing files. -/
def start (id : Digest) : SessionImpl :=
  match s.torrents.lookup id with
  | none => s
  | some t =>
    if t.hasMissingFiles then s.reload id { t with hasMissingFiles := false } else s

end SessionImpl

/-- What happens: requests, and what libtorrent reports. -/
inductive MoveEvent where
  | addTorrent (id : Digest) (hasMetadata : Bool) (location savePath downloadPath : String)
  | moveStorage (id : Digest) (newPath : String) (context : MoveStorageContext)
  | removeTorrent (id : Digest) (deleteOption : TorrentRemoveOption)
  | setMissingFiles (id : Digest) (missing : Bool)
  | start (id : Digest)
  | storageMoved (success : Bool)
  | torrentDeleted (id : Digest)

namespace SessionImpl

variable (s : SessionImpl)

def next : MoveEvent → SessionImpl
  | .addTorrent id hasMetadata location savePath downloadPath =>
    s.addTorrent id hasMetadata location savePath downloadPath
  | .moveStorage id newPath context => s.moveStorage id newPath context
  | .removeTorrent id deleteOption => s.removeTorrent id deleteOption
  | .setMissingFiles id missing => s.setMissingFiles id missing
  | .start id => s.start id
  | .storageMoved success => s.handleStorageAlert success
  | .torrentDeleted id => s.handleRemovedTorrent id

/-- libtorrent refuses a hash that it has, answers the moves that it was given, and reports removals
once. -/
def Possible : MoveEvent → Prop
  | .addTorrent id _ _ _ _ => id ∉ s.torrents ∧ ∀ h ∈ s.native, h.infoHash ≠ id
  | .storageMoved _ => ∃ job ∈ s.activeJob, job.torrentHandle ∈ s.moving
  | .torrentDeleted id => id ∈ s.deletions
  | _ => True

instance : DecidablePred s.Possible := fun e => by
  cases e <;> unfold Possible <;> infer_instance

end SessionImpl

/-- The runs of a session. -/
def machine : Machine SessionImpl MoveEvent where
  step s e := if s.Possible e then some (s.next e) else none

end QBittorrent.MoveQueue
