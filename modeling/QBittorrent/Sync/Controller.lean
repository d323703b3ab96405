import QBittorrent.Lib.Machine
import QBittorrent.Sync.Session

/-!
# The maindata side of `SyncController`

The controller keeps one snapshot of the session (what the newest response describes), one buffer
(what has changed since the response the client acknowledged last) and pending sets filled by the
session's signals.  `generateMaindataSyncData` folds the pending sets into snapshot and buffer.

A `QSet` is a `Finset`, a `QHash` or `QMap` a `Dict`.  A loop over a set is the bulk operation with
the same effect (`Dict.foldl_erase`, `Dict.foldl_insert`); a list filled by such a loop has no
fixed order and is a `Multiset`, on which `+ s.val` appends each element of `s` once and `- s.val`
is `removeOne` for each.
-/

namespace QBittorrent

open Finmap (lookup)

/-- `SyncController::MaindataSyncBuf`. -/
structure MaindataSyncBuf where
  categories : Dict String VariantMap := ∅
  tags : Multiset String := 0
  torrents : Dict TorrentID VariantMap := ∅
  trackers : Dict String (Finset TorrentID) := ∅
  serverState : VariantMap := ∅
  removedCategories : Multiset String := 0
  removedTags : Multiset String := 0
  removedTorrents : Multiset TorrentID := 0
  removedTrackers : Multiset String := 0

/-- The members of `SyncController` that `/sync/maindata` uses. -/
structure SyncController where
  /-- `m_knownTrackers`. -/
  knownTrackers : Dict String (Finset TorrentID) := ∅
  updatedCategories : Finset String := ∅
  removedCategories : Finset String := ∅
  addedTags : Finset String := ∅
  removedTags : Finset String := ∅
  updatedTrackers : Finset String := ∅
  removedTrackers : Finset String := ∅
  updatedTorrents : Finset TorrentID := ∅
  removedTorrents : Finset TorrentID := ∅
  /-- `m_maindataSnapshot`. -/
  maindataSnapshot : MaindataSyncBuf := {}
  /-- `m_maindataSyncBuf`. -/
  maindataSyncBuf : MaindataSyncBuf := {}
  /-- `m_maindataLastSentID`. -/
  maindataLastSentID : ℕ := 0
  /-- `m_maindataAcceptedID`; negative until the first request connects the signals. -/
  maindataAcceptedID : ℤ := -1

/-- A response: its `rid`, whether it has `full_update`, and the buffer it is written from. -/
structure MaindataResponse where
  rid : ℕ
  fullUpdate : Bool
  data : MaindataSyncBuf

/-- Everything the maindata says about the session. -/
def Session.maindata (session : Session) : MaindataSyncBuf where
  torrents := Dict.filterMap (fun id torrent => some (serializedTorrent id torrent))
    session.torrents
  categories := Dict.filterMap (fun name options => some (serializedCategory name options))
    session.categories
  tags := session.tags.val
  trackers := session.trackers
  serverState := session.serverState.1

namespace SyncController

variable (c : SyncController)

/-! ### Signal handlers -/

def onCategoryAdded (name : String) : SyncController :=
  { c with
    removedCategories := c.removedCategories.erase name
    updatedCategories := insert name c.updatedCategories }

def onCategoryRemoved (name : String) : SyncController :=
  { c with
    updatedCategories := c.updatedCategories.erase name
    removedCategories := insert name c.removedCategories }

def onCategoryOptionsChanged (name : String) : SyncController :=
  { c with updatedCategories := insert name c.updatedCategories }

/-- Only categories missing from the snapshot are marked, whatever is pending for them. -/
def onSubcategoriesSupportChanged (session : Session) : SyncController :=
  let fresh := session.categories.keys.filter fun name => name ∉ c.maindataSnapshot.categories
  { c with
    removedCategories := c.removedCategories \ fresh
    updatedCategories := c.updatedCategories ∪ fresh }

def onTagAdded (tag : String) : SyncController :=
  { c with removedTags := c.removedTags.erase tag, addedTags := insert tag c.addedTags }

def onTagRemoved (tag : String) : SyncController :=
  { c with addedTags := c.addedTags.erase tag, removedTags := insert tag c.removedTags }

/-- `m_knownTrackers[url]`. -/
def torrentsOf (url : String) : Finset TorrentID := (lookup url c.knownTrackers).getD ∅

def onTorrentAdded (id : TorrentID) (torrent : Torrent) : SyncController :=
  let urls := torrent.trackers.toFinset
  { c with
    removedTorrents := c.removedTorrents.erase id
    updatedTorrents := insert id c.updatedTorrents
    knownTrackers := Dict.ofFinset urls (fun url => insert id (c.torrentsOf url)) ∪ c.knownTrackers
    updatedTrackers := c.updatedTrackers ∪ urls
    removedTrackers := c.removedTrackers \ urls }

/-- Take `id` from the torrents of the trackers `urls`: a tracker left without torrents is
forgotten and marked removed, the others are marked updated. -/
def dropTorrent (id : TorrentID) (urls : Finset String) : SyncController :=
  let emptied := urls.filter fun url => (c.torrentsOf url).erase id = ∅
  { c with
    knownTrackers := Dict.eraseAll emptied
      (Dict.ofFinset urls (fun url => (c.torrentsOf url).erase id) ∪ c.knownTrackers)
    updatedTrackers := (c.updatedTrackers \ emptied) ∪ (urls \ emptied)
    removedTrackers := c.removedTrackers ∪ emptied }

/-- Unknown trackers are skipped. -/
def onTorrentAboutToBeRemoved (id : TorrentID) (torrent : Torrent) : SyncController :=
  let urls := torrent.trackers.toFinset.filter fun url => url ∈ c.knownTrackers
  { c with
    updatedTorrents := c.updatedTorrents.erase id
    removedTorrents := insert id c.removedTorrents }.dropTorrent id urls

/-- `onTorrentsUpdated` and the handlers of the other signals about one torrent. -/
def onTorrentUpdated (id : TorrentID) : SyncController :=
  { c with updatedTorrents := insert id c.updatedTorrents }

/-- The walk over the known trackers drops the torrent from those it has left and adds it to those
it has joined; trackers nobody had are new. -/
def onTorrentTrackersChanged (id : TorrentID) (trackers : List String) : SyncController :=
  let currentTrackers := trackers.toFinset
  let known := c.knownTrackers.keys
  let left := known.filter fun url => id ∈ c.torrentsOf url ∧ url ∉ currentTrackers
  let joined := known.filter fun url => url ∈ currentTrackers ∧ id ∉ c.torrentsOf url
  let fresh := currentTrackers \ known
  let c' := c.dropTorrent id left
  { c' with
    knownTrackers := Dict.ofFinset (joined ∪ fresh) (fun url => insert id (c'.torrentsOf url)) ∪
      c'.knownTrackers
    updatedTrackers := c'.updatedTrackers ∪ joined ∪ fresh
    removedTrackers := c'.removedTrackers \ fresh }

/-- The handler of the signal that an event emits.  `session` is the session after the event;
`torrent` is the torrent a removal is about. -/
def handle (session : Session) (torrent : Option Torrent) : SessionEvent → SyncController
  | .categoryAdded name _ => c.onCategoryAdded name
  | .categoryRemoved name => c.onCategoryRemoved name
  | .categoryOptionsChanged name _ => c.onCategoryOptionsChanged name
  | .subcategoriesSupportChanged _ => c.onSubcategoriesSupportChanged session
  | .tagAdded tag => c.onTagAdded tag
  | .tagRemoved tag => c.onTagRemoved tag
  | .torrentAdded id torrent => c.onTorrentAdded id torrent
  | .torrentRemoved id =>
    match torrent with
    | some torrent => c.onTorrentAboutToBeRemoved id torrent
    | none => c
  | .torrentUpdated id _ => c.onTorrentUpdated id
  | .torrentRenamed _ _ => c
  | .trackersChanged id trackers => c.onTorrentTrackersChanged id trackers
  | .infoHashChanged _ _ => c
  | .serverStateChanged _ => c

/-! ### Requests -/

/-- The signals are connected. -/
def Connected : Prop := 0 ≤ c.maindataAcceptedID
  deriving Decidable

def makeMaindataSnapshot (session : Session) : SyncController :=
  { c with
    maindataAcceptedID := 0
    knownTrackers := session.trackers
    maindataSnapshot := session.maindata }

end SyncController

/-- The row a snapshot keeps at `key`; `operator[]` creates an empty one. -/
def rowOf (rows : Dict String VariantMap) (key : String) : VariantMap := (lookup key rows).getD ∅

/-- The snapshot after the loop over the updated items, `current` being their rows now: a row
without differences stays as it is. -/
def updateSnapshot (updated : Finset String) (current : String → VariantMap)
    (snapshot : Dict String VariantMap) : Dict String VariantMap :=
  Dict.ofFinset updated (fun key =>
    if processMap (rowOf snapshot key) (current key) = ∅ then rowOf snapshot key
    else current key) ∪ snapshot

/-- The buffer after the same loop: the differences found replace what is buffered. -/
def updateBuf (updated : Finset String) (current : String → VariantMap)
    (snapshot buf : Dict String VariantMap) : Dict String VariantMap :=
  Dict.ofFinset (updated.filter fun key => processMap (rowOf snapshot key) (current key) ≠ ∅)
    (fun key => processMap (rowOf snapshot key) (current key)) ∪ buf

/-- The server state is folded in like a single item. -/
def updateServerState (current snapshot buf : VariantMap) : VariantMap × VariantMap :=
  let syncData := processMap snapshot current
  if syncData = ∅ then (snapshot, buf) else (current, syncData)

namespace SyncController

variable (c : SyncController)

/-- The row of a category now. -/
def currentCategory (session : Session) (name : String) : VariantMap :=
  serializedCategory name (session.categoryOptions name)

/-- The row of a torrent now. -/
def currentTorrent (session : Session) (id : TorrentID) : VariantMap :=
  ((session.getTorrent id).map (serializedTorrent id)).getD ∅

/-- The snapshot after `generateMaindataSyncData`. -/
def nextSnapshot (session : Session) : MaindataSyncBuf :=
  let snapshot := c.maindataSnapshot
  { snapshot with
    categories := Dict.eraseAll c.removedCategories
      (updateSnapshot c.updatedCategories (currentCategory session) snapshot.categories)
    tags := snapshot.tags + c.addedTags.val - c.removedTags.val
    torrents := Dict.eraseAll c.removedTorrents
      (updateSnapshot c.updatedTorrents (currentTorrent session) snapshot.torrents)
    trackers := Dict.eraseAll c.removedTrackers
      (Dict.ofFinset c.updatedTrackers c.torrentsOf ∪ snapshot.trackers)
    serverState := (updateServerState session.serverState.1 snapshot.serverState ∅).1 }

/-- The buffer after `generateMaindataSyncData` has folded the pending sets into it: first what is
updated leaves the removed lists and what is removed leaves the updates, then the new items
are added. -/
def nextBuf (session : Session) : MaindataSyncBuf :=
  let snapshot := c.maindataSnapshot
  let buf := c.maindataSyncBuf
  { categories := updateBuf c.updatedCategories (currentCategory session) snapshot.categories
      (Dict.eraseAll c.removedCategories buf.categories)
    removedCategories :=
      buf.removedCategories - c.updatedCategories.val + c.removedCategories.val
    tags := buf.tags - c.removedTags.val + c.addedTags.val
    removedTags := buf.removedTags - c.addedTags.val + c.removedTags.val
    torrents := updateBuf c.updatedTorrents (currentTorrent session) snapshot.torrents
      (Dict.eraseAll c.removedTorrents buf.torrents)
    removedTorrents := buf.removedTorrents - c.updatedTorrents.val + c.removedTorrents.val
    trackers := Dict.ofFinset c.updatedTrackers c.torrentsOf ∪
      Dict.eraseAll c.removedTrackers buf.trackers
    removedTrackers := buf.removedTrackers - c.updatedTrackers.val + c.removedTrackers.val
    serverState :=
      (updateServerState session.serverState.1 snapshot.serverState buf.serverState).2 }

/-- `generateMaindataSyncData`.  It dereferences `session->getTorrent(id)` for every updated
torrent; `none` is a null dereference. -/
def generateMaindataSyncData (session : Session) (id : ℕ) (fullUpdate : Bool) :
    Option (MaindataResponse × SyncController) :=
  if ∀ torrentID ∈ c.updatedTorrents, torrentID ∈ session.torrents then
    let snapshot := c.nextSnapshot session
    let buf := if fullUpdate then snapshot else c.nextBuf session
    some (⟨id, fullUpdate, buf⟩,
      { c with
        -- `m_knownTrackers[tracker]` creates an entry for an unknown tracker
        knownTrackers := c.knownTrackers ∪ Dict.ofFinset c.updatedTrackers fun _ => ∅
        updatedCategories := ∅, removedCategories := ∅, addedTags := ∅, removedTags := ∅
        updatedTrackers := ∅, removedTrackers := ∅, updatedTorrents := ∅, removedTorrents := ∅
        maindataSnapshot := snapshot
        maindataSyncBuf := buf })
  else none

/-- The controller with the signals connected: the first request takes the snapshot. -/
def connect (session : Session) : SyncController :=
  if c.Connected then c else c.makeMaindataSnapshot session

/-- The response sent last has been applied, says the request. -/
def Acknowledges (rid : ℤ) : Prop :=
  0 < rid ∧ 0 < c.maindataLastSentID ∧ (c.maindataLastSentID : ℤ) = rid
  deriving Decidable

/-- The controller after `maindataAction` has looked at the `rid` parameter. -/
def acknowledge (rid : ℤ) : SyncController :=
  if c.Acknowledges rid then { c with maindataAcceptedID := rid, maindataSyncBuf := {} } else c

/-- The changes since the response `rid` can still be sent. -/
def CanSendChanges (rid : ℤ) : Prop :=
  0 < rid ∧ 0 < c.maindataLastSentID ∧ (c.acknowledge rid).maindataAcceptedID = rid
  deriving Decidable

/-- The next response ID cycles between 1 and 1000000. -/
def nextID : ℕ := c.maindataLastSentID % 1000000 + 1

/-- `maindataAction` with `rid` the value of the request's parameter. -/
def maindataAction (session : Session) (rid : ℤ) : Option (MaindataResponse × SyncController) :=
  let c := c.connect session
  ((c.acknowledge rid).generateMaindataSyncData session c.nextID
      !decide (c.CanSendChanges rid)).map
    fun (response, c') => (response, { c' with maindataLastSentID := c.nextID })

end SyncController

/-! ### The server -/

structure SyncServer where
  session : Session := {}
  controller : SyncController := {}

/-- What happens to the server: a change of the session, or a maindata request with its `rid`. -/
inductive ServerLabel where
  | event (e : SessionEvent)
  | request (rid : ℤ)

namespace SyncServer

/-- An event changes the session and, once connected, runs the handler of its signal. -/
def onEvent (s : SyncServer) (e : SessionEvent) : Option SyncServer :=
  (s.session.apply e).map fun session =>
    ⟨session,
      if s.controller.Connected then
        s.controller.handle session (s.session.removedTorrent e) e
      else s.controller⟩

/-- A request runs `maindataAction`. -/
def onRequest (s : SyncServer) (rid : ℤ) : Option (MaindataResponse × SyncServer) :=
  (s.controller.maindataAction s.session rid).map fun (response, c) => (response, ⟨s.session, c⟩)

/-- The server as a machine: events and requests in any order. -/
def machine : Machine SyncServer ServerLabel where
  step s
    | .event e => s.onEvent e
    | .request rid => (s.onRequest rid).map Prod.snd

end SyncServer

end QBittorrent
