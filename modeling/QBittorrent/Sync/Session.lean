import QBittorrent.Sync.Variant

/-!
# The session as the sync controller sees it

The parts of `BitTorrent::Session` that `/sync/maindata` serializes (torrents with their trackers,
categories, tags, the transfer information and the flags sent as server state) and the changes
the session makes to them.  A change is one `SessionEvent`; the signal it emits is handled in
`QBittorrent.Sync.Controller`.  `Session.apply` gives the state after the change, or `none` when
the session refuses it (adding a tag it has, editing a category it lacks).

Two events emit nothing the controller listens to: `torrentRenamed` stands for every change of a
serialized attribute without a connected signal (`TorrentImpl::setName`, the share limits, the time
of the last activity), and `infoHashChanged` for `SessionImpl::handleTorrentInfoHashChanged`,
which moves a torrent to a new key of `m_torrents`.
-/

namespace QBittorrent

/-- The hexadecimal text of a `BitTorrent::TorrentID`. -/
abbrev TorrentID := String

/-- The keys of `serialize` (`serialize_torrent.h`) other than the ID and the number of trackers. -/
def torrentKeys : Finset String :=
  {"infohash_v1", "infohash_v2", "name", "magnet_uri", "size", "progress", "dlspeed", "upspeed",
    "priority", "num_seeds", "num_complete", "num_leechs", "num_incomplete", "state", "eta",
    "seq_dl", "f_l_piece_prio", "category", "tags", "super_seeding", "force_start", "save_path",
    "download_path", "content_path", "root_path", "added_on", "completion_on", "tracker",
    "dl_limit", "up_limit", "downloaded", "uploaded", "downloaded_session", "uploaded_session",
    "amount_left", "completed", "max_ratio", "max_seeding_time", "max_inactive_seeding_time",
    "ratio", "ratio_limit", "popularity", "seeding_time_limit", "inactive_seeding_time_limit",
    "seen_complete", "auto_tmm", "time_active", "seeding_time", "last_activity", "availability",
    "reannounce", "comment", "private", "total_size", "has_metadata"}

/-- The keys of `getTransferInfo` and the five that the maindata adds to them. -/
def serverStateKeys : Finset String :=
  {"dl_info_speed", "dl_info_data", "up_info_speed", "up_info_data", "dl_rate_limit",
    "up_rate_limit", "alltime_dl", "alltime_ul", "total_wasted_session", "global_ratio",
    "total_peer_connections", "read_cache_hits", "total_buffers_size", "write_cache_overload",
    "read_cache_overload", "queued_io_jobs", "average_time_queue", "total_queued_size",
    "last_external_address_v4", "last_external_address_v6", "dht_nodes", "connection_status",
    "free_space_on_disk", "queueing", "use_alt_speed_limits", "refresh_interval",
    "use_subcategories"}

/-- What the session keeps of a torrent: its serialized attributes other than its ID and the
number of its trackers, and the URLs of its tracker list. -/
structure Torrent where
  fields : Row torrentKeys := .ofFun _ fun _ => .invalid
  trackers : List String := []

/-- `serialize` (`serialize_torrent.cpp`). -/
def serialize (id : TorrentID) (torrent : Torrent) : VariantMap :=
  Finmap.insert "hash" (.string id)
    (Finmap.insert "trackers_count" (.number torrent.trackers.length) torrent.fields.1)

/-- The row of a torrent: `serialize` without `KEY_TORRENT_ID`. -/
def serializedTorrent (id : TorrentID) (torrent : Torrent) : VariantMap :=
  Finmap.erase "hash" (serialize id torrent)

/-- `BitTorrent::DownloadPathOption`. -/
structure DownloadPathOption where
  enabled : Bool := false
  path : String := ""
  deriving DecidableEq

/-- `BitTorrent::CategoryOptions`. -/
structure CategoryOptions where
  savePath : String := ""
  downloadPath : Option DownloadPathOption := none
  deriving DecidableEq

/-- `CategoryOptions::toJSON`: an undefined download path leaves the key out. -/
def CategoryOptions.toJSON (options : CategoryOptions) : VariantMap :=
  Finmap.insert "save_path" (.string options.savePath) <|
    match options.downloadPath with
    | none => ∅
    | some ⟨true, path⟩ => Finmap.insert "download_path" (.string path) ∅
    | some ⟨false, _⟩ => Finmap.insert "download_path" (.bool false) ∅

/-- The row of a category: `toJSON` with `save_path` renamed to `savePath`, and the name. -/
def serializedCategory (name : String) (options : CategoryOptions) : VariantMap :=
  let category := options.toJSON
  Finmap.insert "name" (.string name) <|
    Finmap.insert "savePath" (category.value "save_path") (Finmap.erase "save_path" category)

structure Session where
  /-- `m_torrents`. -/
  torrents : Dict TorrentID Torrent := ∅
  /-- `m_categories`. -/
  categories : Dict String CategoryOptions := ∅
  /-- `m_tags`. -/
  tags : Finset String := ∅
  /-- What `getTransferInfo` and the flags next to it return now. -/
  serverState : Row serverStateKeys := .ofFun _ fun _ => .invalid

namespace Session

variable (s : Session)

/-- `Session::getTorrent`. -/
def getTorrent (id : TorrentID) : Option Torrent := Finmap.lookup id s.torrents

/-- `Session::categoryOptions`: default options for a category the session lacks. -/
def categoryOptions (name : String) : CategoryOptions :=
  (Finmap.lookup name s.categories).getD {}

/-- The URLs in the tracker list of a torrent. -/
def trackersOf (id : TorrentID) : Finset String :=
  ((s.getTorrent id).map fun torrent => torrent.trackers.toFinset).getD ∅

/-- For each tracker URL the torrents that have it. -/
def trackers : Dict String (Finset TorrentID) :=
  Dict.ofFinset (s.torrents.keys.biUnion s.trackersOf) fun url =>
    s.torrents.keys.filter fun id => url ∈ s.trackersOf id

end Session

/-- The changes of the session. -/
inductive SessionEvent where
  /-- `addCategory`, also for a parent it creates. -/
  | categoryAdded (name : String) (options : CategoryOptions)
  /-- `removeCategory`, also for a subcategory it removes. -/
  | categoryRemoved (name : String)
  /-- `editCategory`. -/
  | categoryOptionsChanged (name : String) (options : CategoryOptions)
  /-- `setSubcategoriesEnabled`: `parents` are the names `expandCategories` completes (reloading
  the stored categories adds none). -/
  | subcategoriesSupportChanged (parents : Finset String)
  | tagAdded (tag : String)
  | tagRemoved (tag : String)
  /-- `createTorrent`. -/
  | torrentAdded (id : TorrentID) (torrent : Torrent)
  | torrentRemoved (id : TorrentID)
  /-- A change with one of the signals about a torrent (`torrentsUpdated`,
  `torrentCategoryChanged`, `torrentStopped` and so on). -/
  | torrentUpdated (id : TorrentID) (fields : Row torrentKeys)
  /-- A change of a serialized attribute without such a signal. -/
  | torrentRenamed (id : TorrentID) (fields : Row torrentKeys)
  /-- `addTrackers`, `removeTrackers`, `replaceTrackers`. -/
  | trackersChanged (id : TorrentID) (trackers : List String)
  /-- `handleTorrentInfoHashChanged`: metadata has made the torrent hybrid. -/
  | infoHashChanged (prevID currentID : TorrentID)
  /-- New transfer information or flags. -/
  | serverStateChanged (state : Row serverStateKeys)

namespace Session

/-- Change the torrent `id` of the session. -/
def modifyTorrent (s : Session) (id : TorrentID) (f : Torrent → Torrent) : Option Session :=
  (s.getTorrent id).map fun torrent => { s with torrents := Finmap.insert id (f torrent) s.torrents }

/-- The session after an event, if the event can happen. -/
def apply (s : Session) : SessionEvent → Option Session
  | .categoryAdded name options =>
    if name ∈ s.categories then none
    else some { s with categories := Finmap.insert name options s.categories }
  | .categoryRemoved name => some { s with categories := Finmap.erase name s.categories }
  | .categoryOptionsChanged name options =>
    if name ∈ s.categories then
      some { s with categories := Finmap.insert name options s.categories }
    else none
  | .subcategoriesSupportChanged parents =>
    some { s with categories := s.categories ∪ Dict.ofFinset parents fun _ => {} }
  | .tagAdded tag => if tag ∈ s.tags then none else some { s with tags := insert tag s.tags }
  | .tagRemoved tag => if tag ∈ s.tags then some { s with tags := s.tags.erase tag } else none
  | .torrentAdded id torrent =>
    if id ∈ s.torrents then none
    else some { s with torrents := Finmap.insert id torrent s.torrents }
  | .torrentRemoved id =>
    if id ∈ s.torrents then some { s with torrents := Finmap.erase id s.torrents } else none
  | .torrentUpdated id fields => s.modifyTorrent id fun torrent => { torrent with fields := fields }
  | .torrentRenamed id fields => s.modifyTorrent id fun torrent => { torrent with fields := fields }
  | .trackersChanged id trackers =>
    s.modifyTorrent id fun torrent => { torrent with trackers := trackers }
  | .infoHashChanged prevID currentID =>
    -- a torrent already under the new ID is in conflict and never gets here
    if currentID ∈ s.torrents then none
    else (s.getTorrent prevID).map fun torrent =>
      { s with torrents := Finmap.insert currentID torrent (Finmap.erase prevID s.torrents) }
  | .serverStateChanged state => some { s with serverState := state }

/-- The torrent that a removal is about. -/
def removedTorrent (s : Session) : SessionEvent → Option Torrent
  | .torrentRemoved id => s.getTorrent id
  | _ => none

end Session

end QBittorrent
