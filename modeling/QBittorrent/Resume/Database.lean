import QBittorrent.Lib.Dict
import QBittorrent.Resume.Params
import Mathlib.Data.List.Sort

/-!
# Resume data in a database

`DBResumeDataStorage` keeps a row for each torrent in the table `torrents`.  Statements succeed,
and a column gives back the value bound to it (`none` is `NULL`; columns of bencoded data hold the
dictionary that they encode).

* `DBStorage.map_load_store` : **what is loaded after a store.**
-/

namespace QBittorrent

open LoadTorrentParams

/-- A row of the table `torrents`, its key apart. -/
structure TorrentRow where
  queuePosition : ℤ
  name : Option String
  category : Option String
  tags : Option String
  targetSavePath : Option String
  downloadPath : Option String
  contentLayout : String
  ratioLimit : Int32
  seedingTimeLimit : Int32
  inactiveSeedingTimeLimit : Int32
  shareLimitAction : String
  hasOuterPiecesPriority : Bool
  hasSeedStatus : Bool
  operatingMode : String
  stopped : Bool
  stopCondition : String
  sslCertificate : Option String
  sslPrivateKey : Option String
  sslDhParams : Option String
  resumeData : LtDict
  metadata : Option LtDict

/-- The table `torrents`; `torrent_id` is unique. -/
abbrev TorrentsTable (ID : Type) := Dict ID TorrentRow

namespace DBStorage

variable {ID : Type} [DecidableEq ID] {E : Platform}

/-! ### Storing -/

/-- The columns that `StoreJob::perform` binds, over what the row had before: the statement names
the metadata only if there is some, and never the position in the queue. -/
def boundRow (old : Option TorrentRow) (m_resumeData : LoadTorrentParams E) : TorrentRow :=
  let p := m_resumeData.adjusted
  let data := E.writeResumeData p
  { queuePosition := old.elim (-1) (·.queuePosition)
    name := some m_resumeData.name
    category := some m_resumeData.category
    tags := if m_resumeData.tags.tags = [] then none else some (joinTags m_resumeData.tags.tags)
    targetSavePath := if m_resumeData.useAutoTMM then none
      else some (E.data (E.toPortablePath m_resumeData.savePath))
    downloadPath := if m_resumeData.useAutoTMM then none
      else some (E.data (E.toPortablePath m_resumeData.downloadPath))
    contentLayout := fromEnum m_resumeData.contentLayout
    ratioLimit := (Binary64.mul m_resumeData.ratioLimit (.ofInt32 1000)).toInt32
    seedingTimeLimit := m_resumeData.seedingTimeLimit
    inactiveSeedingTimeLimit := m_resumeData.inactiveSeedingTimeLimit
    shareLimitAction := fromEnum m_resumeData.shareLimitAction
    hasOuterPiecesPriority := m_resumeData.firstLastPiecePriority
    hasSeedStatus := m_resumeData.hasFinishedStatus
    operatingMode := fromEnum m_resumeData.operatingMode
    stopped := m_resumeData.stopped
    stopCondition := fromEnum m_resumeData.stopCondition
    sslCertificate :=
      some (fromLatin1 (E.certificateToPem m_resumeData.sslParameters.certificate))
    sslPrivateKey := some (fromLatin1 (E.privateKeyToPem m_resumeData.sslParameters.privateKey))
    sslDhParams := some (fromLatin1 m_resumeData.sslParameters.dhParams)
    resumeData := if p.ti.isSome then data.withoutMetadata else data
    metadata := if p.ti.isSome then some data.extractMetadata else old.bind (·.metadata) }

/-- `StoreJob::perform`: the row is inserted, or updated if there is one. -/
def store (table : TorrentsTable ID) (id : ID) (m_resumeData : LoadTorrentParams E) :
    TorrentsTable ID :=
  table.insert id (boundRow (table.lookup id) m_resumeData)

/-- `RemoveJob::perform`. -/
def remove (table : TorrentsTable ID) (id : ID) : TorrentsTable ID := table.erase id

/-- The statement of `StoreQueueJob`: the position of a row is set, if there is one. -/
def updatePosition (table : TorrentsTable ID) (update : ID × ℕ) : TorrentsTable ID :=
  match table.lookup update.1 with
  | some row => table.insert update.1 { row with queuePosition := update.2 }
  | none => table

/-- `StoreQueueJob::perform`. -/
def storeQueue (table : TorrentsTable ID) (m_queue : List ID) : TorrentsTable ID :=
  m_queue.zipIdx.foldl updatePosition table

/-! ### Loading -/

/-- `parseQueryResultRow`, the columns that are not libtorrent's. -/
def parseOwned (row : TorrentRow) : OwnedParams E :=
  let tagsData := row.tags.getD ""
  let savePath := E.fromPortablePath (E.pathOf (row.targetSavePath.getD ""))
  { name := row.name.getD ""
    category := row.category.getD ""
    tags := if tagsData = "" then TagSet.empty
      else TagSet.empty.insertAll ((splitTags tagsData).map Tag.ofString)
    hasFinishedStatus := row.hasSeedStatus
    firstLastPiecePriority := row.hasOuterPiecesPriority
    ratioLimit := Binary64.div (.ofInt32 row.ratioLimit) (.ofInt32 1000)
    seedingTimeLimit := row.seedingTimeLimit
    inactiveSeedingTimeLimit := row.inactiveSeedingTimeLimit
    shareLimitAction := toEnum row.shareLimitAction .default
    contentLayout := toEnum row.contentLayout .original
    operatingMode := toEnum row.operatingMode .autoManaged
    stopped := row.stopped
    stopCondition := toEnum row.stopCondition .none
    savePath := savePath
    useAutoTMM := E.isEmpty savePath
    downloadPath := if E.isEmpty savePath then E.pathOf ""
      else E.fromPortablePath (E.pathOf (row.downloadPath.getD "")) }

/-- `parseQueryResultRow`, the torrent metadata. -/
def parseMetadata (p : AddTorrentParams E.TorrentInfo E.Rest) (metadata : Option LtDict) :
    Except String (AddTorrentParams E.TorrentInfo E.Rest) :=
  match metadata with
  | none => .ok p
  | some metadata =>
    match E.torrentInfo metadata with
    | .error e => .error ("Cannot parse torrent info: " ++ e)
    | .ok ti => .ok { p with ti := some ti }

/-- `parseQueryResultRow`, once the parameters of libtorrent and the metadata are there. -/
def finish (resumeData : OwnedParams E) (ssl : SslParameters E)
    (p : AddTorrentParams E.TorrentInfo E.Rest) : Except String (LoadTorrentParams E) :=
  let savePath := toUtf8 (E.toString (E.fromPortablePath (E.pathOf (decodeUtf8 p.savePath))))
  if savePath = [] then .error "Corrupted resume data: save_path is invalid"
  else
    let stopCondition := if p.flags.stopWhenReady then .filesChecked
      else resumeData.stopCondition
    .ok { toOwnedParams := { resumeData with stopCondition }
          ltAddTorrentParams :=
            { p with savePath, flags := { p.flags with stopWhenReady := false } }
          addToQueueTop := false
          sslParameters := ssl }

def parseQueryResultRow (row : TorrentRow) : Except String (LoadTorrentParams E) :=
  let ssl : SslParameters E :=
    { certificate := E.certificateOfPem (toUtf8 (row.sslCertificate.getD ""))
      privateKey := E.loadPrivateKey (toUtf8 (row.sslPrivateKey.getD ""))
      dhParams := toUtf8 (row.sslDhParams.getD "") }
  match E.readResumeData row.resumeData with
  | .error e => .error ("Cannot parse resume data: " ++ e)
  | .ok p =>
    match parseMetadata p row.metadata with
    | .error e => .error e
    | .ok p => finish (parseOwned row) ssl p

def load (table : TorrentsTable ID) (id : ID) : Except String (LoadTorrentParams E) :=
  match table.lookup id with
  | none => .error "Couldn't load resume data of torrent. Error: Not found."
  | some row => parseQueryResultRow row

def position (table : TorrentsTable ID) (id : ID) : ℤ :=
  (table.lookup id).elim (-1) (·.queuePosition)

/-- `registeredTorrents`: the rows, which are found in the order `scan`, by position. -/
def registeredTorrents (table : TorrentsTable ID) (scan : List ID) : List ID :=
  scan.insertionSort fun a b => position table a ≤ position table b

section Store

variable (old : Option TorrentRow) (x : LoadTorrentParams E)

/-- The metadata in the row after a store. -/
def metadataAfter : Option LtDict :=
  if x.ltAddTorrentParams.ti.isSome then some (E.writeResumeData x.adjusted).extractMetadata
  else old.bind (·.metadata)

/-- What `load` requires of the row. -/
structure Loadable : Prop where
  metadata : ∀ metadata ∈ metadataAfter old x, ∃ ti, E.torrentInfo metadata = .ok ti
  savePath : E.fromPortablePath (E.pathOf (decodeUtf8 x.adjusted.savePath)) ≠ E.pathOf ""

theorem metadata_boundRow : (boundRow old x).metadata = metadataAfter old x := by
  simp only [boundRow, metadataAfter, adjusted_ti]

theorem parseTags_boundRow (hv : ∀ t ∈ x.tags.tags, t.isValid) :
    (parseOwned (boundRow old x) : OwnedParams E).tags = x.tags := by
  by_cases ht : x.tags.tags = []
  · have : x.tags = TagSet.empty := by
      cases h : x.tags
      simp_all [TagSet.empty]
    simp [parseOwned, boundRow, this, TagSet.empty]
  · have hne := joinTags_ne_empty ht hv
    simp only [parseOwned, boundRow, ht, if_false, Option.getD_some, hne]
    rw [splitTags_joinTags ht hv, TagSet.insertAll_tags]

variable (hE : E.Faithful) {result : OwnedParams E}

include hE

theorem parseOwned_boundRow (hv : ∀ t ∈ x.tags.tags, t.isValid) :
    (parseOwned (boundRow old x) : OwnedParams E) =
      { x.reloaded with stopCondition := x.stopCondition } := by
  have hempty : E.isEmpty (E.pathOf "") = true :=
    (isEmpty_eq_true_iff hE).2 rfl
  ext1
  case tags => exact parseTags_boundRow old x hv
  all_goals
    cases ha : x.useAutoTMM <;>
      simp [parseOwned, boundRow, ha, hE.empty_portable, hE.data_portable, hempty,
        reloaded, Binary64.throughThousandths]

theorem readResumeData_boundRow :
    E.readResumeData (boundRow old x).resumeData = .ok { x.adjusted with ti := none } := by
  have hresume : (boundRow old x).resumeData =
      if x.adjusted.ti.isSome then (E.writeResumeData x.adjusted).withoutMetadata
      else E.writeResumeData x.adjusted := rfl
  rw [hresume]
  refine hE.readResumeData _ _ (fun key hm _ => ?_) fun key hm => ?_
  · split_ifs
    · exact if_neg hm
    · rfl
  · split_ifs with hti
    · exact if_pos hm
    · exact hE.noMetadata _ (by simpa using hti) key hm

theorem map_finish_adjusted (ssl : SslParameters E) {owned : OwnedParams E}
    (howned : owned = { x.reloaded with stopCondition := x.stopCondition })
    (ti : Option E.TorrentInfo) :
    (finish owned ssl { x.adjusted with ti := ti }).map (·.toOwnedParams) = .ok result ↔
      E.fromPortablePath (E.pathOf (decodeUtf8 x.adjusted.savePath)) ≠ E.pathOf "" ∧
        x.reloaded = result := by
  have hpath : toUtf8 (E.toString (E.fromPortablePath (E.pathOf (decodeUtf8 x.adjusted.savePath)))) =
      [] ↔ E.fromPortablePath (E.pathOf (decodeUtf8 x.adjusted.savePath)) = E.pathOf "" := by
    rw [toUtf8_eq_nil, hE.toString_eq_empty]
  have hfields : ({ owned with
      stopCondition := if x.adjusted.flags.stopWhenReady then .filesChecked
        else owned.stopCondition } : OwnedParams E) = x.reloaded := by
    rw [adjusted_stopWhenReady, howned]
    rfl
  dsimp only [finish]
  by_cases hp : E.fromPortablePath (E.pathOf (decodeUtf8 x.adjusted.savePath)) = E.pathOf ""
  · rw [if_pos (hpath.2 hp)]
    refine iff_of_false (by simp [Except.map]) ?_
    rintro ⟨hp', -⟩
    exact hp' hp
  · rw [if_neg (hpath.not.2 hp), hfields]
    exact ⟨fun h => ⟨hp, by simpa [Except.map] using h⟩, fun h => by simp [Except.map, h.2]⟩

theorem map_load_store (table : TorrentsTable ID) (id : ID) (hv : ∀ t ∈ x.tags.tags, t.isValid) :
    (load (store table id x) id : Except String (LoadTorrentParams E)).map (·.toOwnedParams) =
        .ok result ↔
      Loadable (table.lookup id) x ∧ x.reloaded = result := by
  have hlookup : (store table id x).lookup id = some (boundRow (table.lookup id) x) :=
    Finmap.lookup_insert _
  have howned := parseOwned_boundRow (table.lookup id) x hE hv
  unfold load
  rw [hlookup]
  simp only [parseQueryResultRow, readResumeData_boundRow (table.lookup id) x hE,
    metadata_boundRow]
  cases hm : metadataAfter (table.lookup id) x with
  | none =>
    simp only [parseMetadata]
    rw [map_finish_adjusted x hE _ howned none]
    constructor
    · rintro ⟨hp, hr⟩
      exact ⟨⟨by simp [hm], hp⟩, hr⟩
    · rintro ⟨h, hr⟩
      exact ⟨h.savePath, hr⟩
  | some metadata =>
    cases hti : E.torrentInfo metadata with
    | error e =>
      simp only [parseMetadata, hti]
      refine iff_of_false (by simp [Except.map]) ?_
      rintro ⟨h, -⟩
      obtain ⟨ti, hti'⟩ := h.metadata metadata hm
      rw [hti] at hti'
      cases hti'
    | ok ti =>
      simp only [parseMetadata, hti]
      rw [map_finish_adjusted x hE _ howned (some ti)]
      constructor
      · rintro ⟨hp, hr⟩
        exact ⟨⟨by simp [hm, hti], hp⟩, hr⟩
      · rintro ⟨h, hr⟩
        exact ⟨h.savePath, hr⟩

end Store

end DBStorage

end QBittorrent
