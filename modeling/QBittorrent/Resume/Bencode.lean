import QBittorrent.Lib.Dict
import QBittorrent.Resume.Params

/-!
# Resume data in files

`BencodeResumeDataStorage` keeps a directory with a `.fastresume` file for each torrent, a
`.torrent` file for each torrent whose metadata is known, and a `queue` file.  A file of bencoded
data is modelled by the dictionary that it encodes; files can be read and written.

* `BencodeStorage.map_load_store` : **what is loaded after a store.**
-/

namespace QBittorrent

open LoadTorrentParams

/-- The storage directory. -/
structure BencodeDir (ID : Type) where
  fastresume : Dict ID LtDict
  torrent : Dict ID LtDict
  /-- The `queue` file. -/
  queue : Option (List UInt8)

namespace BencodeStorage

variable {ID : Type} [DecidableEq ID] {E : Platform} {key k : String}

/-! ### Storing -/

/-- An entry of a dictionary is assigned. -/
def set (key : String) (value : LtEntry) (data : LtDict) : LtDict :=
  fun k => if k = key then some value else data k

def setUnless (isNull : Bool) (key : String) (value : LtEntry) (data : LtDict) : LtDict :=
  if isNull then data else set key value data

@[simp] theorem set_self (key : String) (value : LtEntry) (data : LtDict) :
    set key value data key = some value := if_pos rfl

@[simp] theorem set_of_ne (h : k ≠ key) (value : LtEntry) (data : LtDict) :
    set key value data k = data k := if_neg h

@[simp] theorem setUnless_of_ne (h : k ≠ key) (isNull : Bool) (value : LtEntry) (data : LtDict) :
    setUnless isNull key value data k = data k := by
  cases isNull
  · exact set_of_ne h value data
  · rfl

/-- The entries that `Worker::store` adds to the resume data of libtorrent. -/
def addEntries (resumeData : LoadTorrentParams E) (data : LtDict) : LtDict :=
  let data := set "qBt-ratioLimit" (.integer
    (Binary64.mul resumeData.ratioLimit (.ofInt32 1000)).toInt32.toInt) data
  let data := set "qBt-seedingTimeLimit" (.integer resumeData.seedingTimeLimit.toInt) data
  let data := set "qBt-inactiveSeedingTimeLimit"
    (.integer resumeData.inactiveSeedingTimeLimit.toInt) data
  let data := set "qBt-shareLimitAction"
    (.string (toUtf8 (fromEnum resumeData.shareLimitAction))) data
  let data := set "qBt-category" (.string (toUtf8 resumeData.category)) data
  let data := set "qBt-tags"
    (.list (resumeData.tags.tags.map fun tag => .string (toUtf8 tag.toString))) data
  let data := set "qBt-name" (.string (toUtf8 resumeData.name)) data
  let data := set "qBt-seedStatus" (.integer resumeData.hasFinishedStatus.toInt) data
  let data := set "qBt-contentLayout" (.string (toUtf8 (fromEnum resumeData.contentLayout))) data
  let data := set "qBt-firstLastPiecePriority"
    (.integer resumeData.firstLastPiecePriority.toInt) data
  let data := set "qBt-stopCondition" (.string (toUtf8 (fromEnum resumeData.stopCondition))) data
  let ssl := resumeData.sslParameters
  let data := setUnless (E.certificateIsNull ssl.certificate) "qBt-sslCertificate"
    (.string (E.certificateToPem ssl.certificate)) data
  let data := setUnless (E.privateKeyIsNull ssl.privateKey) "qBt-sslPrivateKey"
    (.string (E.privateKeyToPem ssl.privateKey)) data
  let data := setUnless ssl.dhParams.isEmpty "qBt-sslDhParams" (.string ssl.dhParams) data
  if resumeData.useAutoTMM then data
  else
    let data := set "qBt-savePath"
      (.string (toUtf8 (E.data (E.toPortablePath resumeData.savePath)))) data
    set "qBt-downloadPath"
      (.string (toUtf8 (E.data (E.toPortablePath resumeData.downloadPath)))) data

/-- `Worker::store`. -/
def store (dir : BencodeDir ID) (id : ID) (resumeData : LoadTorrentParams E) : BencodeDir ID :=
  let p := resumeData.adjusted
  let data := E.writeResumeData p
  if p.ti.isSome then
    { dir with
      torrent := dir.torrent.insert id data.extractMetadata
      fastresume := dir.fastresume.insert id (addEntries resumeData data.withoutMetadata) }
  else { dir with fastresume := dir.fastresume.insert id (addEntries resumeData data) }

/-- `Worker::remove`. -/
def remove (dir : BencodeDir ID) (id : ID) : BencodeDir ID :=
  { dir with fastresume := dir.fastresume.erase id, torrent := dir.torrent.erase id }

/-! ### Loading -/

def loadTags (tagsNode : Option LtEntry) : TagSet E.tagOrder :=
  match tagsNode with
  | some (.list es) => TagSet.empty.insertAll <| es.map fun e =>
      Tag.ofString (decodeUtf8 (match e with | .string s => s | _ => []))
  | _ => TagSet.empty

/-- The layout, with the fallback for data of older versions. -/
def loadContentLayout (data : LtDict) : TorrentContentLayout :=
  match data "qBt-contentLayout" with
  | some (.string s) => toEnum (decodeUtf8 s) .original
  | _ => if data.findIntValue "qBt-hasRootFolder" 0 ≠ 0 then .original else .noSubfolder

/-- The limit.  It is an integer number of thousandths, or a text in data of older versions, which
`toDouble` reads. -/
def loadRatioLimit (toDouble : String → Binary64) (data : LtDict) : Binary64 :=
  if data.findStringValue "qBt-ratioLimit" = [] then
    Binary64.div (.ofInt32 (Int32.ofInt (data.findIntValue "qBt-ratioLimit" (-2000))))
      (.ofInt32 1000)
  else toDouble (decodeUtf8 (data.findStringValue "qBt-ratioLimit"))

/-- `loadTorrentResumeData`, the fields that are read before the resume data of libtorrent; the
others have their defaults. -/
def loadOwned (toDouble : String → Binary64) (data : LtDict) : OwnedParams E :=
  let savePath := E.fromPortablePath (E.pathOf (decodeUtf8 (data.findStringValue "qBt-savePath")))
  { category := decodeUtf8 (data.findStringValue "qBt-category")
    name := decodeUtf8 (data.findStringValue "qBt-name")
    hasFinishedStatus := data.findIntValue "qBt-seedStatus" 0 ≠ 0
    firstLastPiecePriority := data.findIntValue "qBt-firstLastPiecePriority" 0 ≠ 0
    seedingTimeLimit := Int32.ofInt (data.findIntValue "qBt-seedingTimeLimit" (-2))
    inactiveSeedingTimeLimit := Int32.ofInt (data.findIntValue "qBt-inactiveSeedingTimeLimit" (-2))
    shareLimitAction := toEnum (decodeUtf8 (data.findStringValue "qBt-shareLimitAction")) .default
    savePath := savePath
    useAutoTMM := E.isEmpty savePath
    downloadPath := if E.isEmpty savePath then E.pathOf ""
      else E.fromPortablePath (E.pathOf (decodeUtf8 (data.findStringValue "qBt-downloadPath")))
    contentLayout := loadContentLayout data
    stopCondition := toEnum (decodeUtf8 (data.findStringValue "qBt-stopCondition")) .none
    ratioLimit := loadRatioLimit toDouble data
    tags := loadTags (data "qBt-tags")
    stopped := false
    operatingMode := .autoManaged }

/-- The mismatch that `loadTorrentResumeData` looks for. -/
def mismatching (expected actual : InfoHashes) : Prop :=
  expected.v1 ≠ 0 ∧ expected.v1 ≠ actual.v1 ∨ expected.v2 ≠ 0 ∧ expected.v2 ≠ actual.v2

instance (expected actual : InfoHashes) : Decidable (mismatching expected actual) :=
  inferInstanceAs (Decidable (_ ∨ _))

/-- The torrent metadata of the `.torrent` file, if there is one. -/
def loadMetadata (p : AddTorrentParams E.TorrentInfo E.Rest) (metadata : Option LtDict) :
    Except String (AddTorrentParams E.TorrentInfo E.Rest) :=
  match metadata with
  | none => .ok p
  | some metadata =>
    match E.torrentInfo metadata with
    | .error e => .error ("Cannot parse torrent info: " ++ e)
    | .ok ti =>
      if mismatching p.infoHashes (E.infoHashes ti) then
        .error "Mismatching info-hash detected in resume data"
      else .ok { p with ti := some ti }

/-- `loadTorrentResumeData`, once the parameters of libtorrent and the metadata are there. -/
def finish (owned : OwnedParams E) (ssl : SslParameters E) (data : LtDict)
    (p : AddTorrentParams E.TorrentInfo E.Rest) : Except String (LoadTorrentParams E) :=
  let savePath := toUtf8 (E.toString (E.fromPortablePath (E.pathOf (decodeUtf8 p.savePath))))
  if savePath = [] then .error "Corrupted resume data: save_path is invalid"
  else
    let stopped := p.flags.paused && !p.flags.autoManaged
    let operatingMode : TorrentOperatingMode :=
      if p.flags.paused || p.flags.autoManaged then .autoManaged else .forced
    let stopCondition := if p.flags.stopWhenReady then .filesChecked else owned.stopCondition
    let hasMetadata := p.ti.any E.isValid
    if !hasMetadata && (data "info-hash").isNone then
      .error "Resume data is invalid: neither metadata nor info-hash was found"
    else
      .ok { toOwnedParams := { owned with stopped, operatingMode, stopCondition }
            ltAddTorrentParams :=
              { p with savePath, flags := { p.flags with stopWhenReady := false } }
            addToQueueTop := false
            sslParameters := ssl }

/-- `loadTorrentResumeData`, from the bencoded dictionaries. -/
def loadTorrentResumeData (toDouble : String → Binary64) (data : LtDict)
    (metadata : Option LtDict) : Except String (LoadTorrentParams E) :=
  let ssl : SslParameters E :=
    { certificate := E.certificateOfPem (data.findStringValue "qBt-sslCertificate")
      privateKey := E.loadPrivateKey (data.findStringValue "qBt-sslPrivateKey")
      dhParams := data.findStringValue "qBt-sslDhParams" }
  match E.readResumeData data with
  | .error e => .error ("Cannot parse resume data: " ++ e)
  | .ok p =>
    match loadMetadata p metadata with
    | .error e => .error e
    | .ok p => finish (loadOwned toDouble data) ssl data p

def load (toDouble : String → Binary64) (dir : BencodeDir ID) (id : ID) :
    Except String (LoadTorrentParams E) :=
  match dir.fastresume.lookup id with
  | none => .error "File open error."
  | some data =>
    match dir.torrent.lookup id with
    | none => loadTorrentResumeData toDouble data none
    | some metadata =>
      if 0 ≤ E.torrentFileSizeLimit ∧ E.torrentFileSizeLimit < E.bencodedSize metadata then
        .error "File size exceeds limit."
      else loadTorrentResumeData toDouble data (some metadata)

/-! ### What is loaded after a store -/

theorem addEntries_of_notMem (x : LoadTorrentParams E) (data : LtDict) (h : key ∉ qBtKeys) :
    addEntries x data key = data key := by
  simp only [qBtKeys, List.mem_cons, List.not_mem_nil, or_false, not_or] at h
  unfold addEntries
  split <;> simp [h]

/-- A text as it is read again, without a byte order mark at its head. -/
def reread (s : String) : String := decodeUtf8 (toUtf8 s)

def rereadPath (path : E.Path) : E.Path :=
  E.fromPortablePath (E.pathOf (reread (E.data (E.toPortablePath path))))

/-- The fields after a store and a load. -/
def reloaded (x : LoadTorrentParams E) : OwnedParams E :=
  let savePath := if x.useAutoTMM then E.pathOf "" else rereadPath x.savePath
  { x.reloaded with
    name := reread x.name
    category := reread x.category
    tags := TagSet.empty.insertAll (x.tags.tags.map fun tag => Tag.ofString (reread tag.toString))
    savePath := savePath
    useAutoTMM := E.isEmpty savePath
    downloadPath := if E.isEmpty savePath then E.pathOf "" else rereadPath x.downloadPath
    operatingMode := if x.stopped then .autoManaged else x.operatingMode }

@[simp] theorem decodeUtf8_fromEnum_shareLimitAction (e : ShareLimitAction) :
    decodeUtf8 (toUtf8 (fromEnum e)) = fromEnum e :=
  decodeUtf8_toUtf8_eq_iff.2 (by cases e <;> decide)

@[simp] theorem decodeUtf8_fromEnum_contentLayout (e : TorrentContentLayout) :
    decodeUtf8 (toUtf8 (fromEnum e)) = fromEnum e :=
  decodeUtf8_toUtf8_eq_iff.2 (by cases e <;> decide)

@[simp] theorem decodeUtf8_fromEnum_stopCondition (e : StopCondition) :
    decodeUtf8 (toUtf8 (fromEnum e)) = fromEnum e :=
  decodeUtf8_toUtf8_eq_iff.2 (by cases e <;> decide)

@[simp] theorem decodeUtf8_nil : decodeUtf8 [] = "" := by simp [decodeUtf8, byteOrderMark]

theorem loadOwned_addEntries (hE : E.Faithful) (toDouble : String → Binary64)
    (x : LoadTorrentParams E) {data : LtDict} (hdata : ∀ key ∈ qBtKeys, data key = none) :
    (loadOwned toDouble (addEntries x data) : OwnedParams E) =
      { reloaded x with
        stopCondition := x.stopCondition, stopped := false, operatingMode := .autoManaged } := by
  have hsave : data "qBt-savePath" = none := hdata _ (by simp [qBtKeys])
  have htags : loadTags (addEntries x data "qBt-tags") = (reloaded x).tags := by
    have : addEntries x data "qBt-tags" =
        some (.list (x.tags.tags.map fun tag => .string (toUtf8 tag.toString))) := by
      unfold addEntries
      split <;> simp
    rw [this]
    simp [loadTags, Function.comp_def, reloaded, reread]
  have hbool : ∀ b : Bool, decide (b.toInt ≠ 0) = b := by decide
  have hempty : E.isEmpty (E.pathOf "") = true :=
    (isEmpty_eq_true_iff hE).2 rfl
  cases ha : x.useAutoTMM with
  | true =>
    ext1
    case tags => exact htags
    all_goals
      simp [loadOwned, loadContentLayout, loadRatioLimit, LtDict.findStringValue,
        LtDict.findIntValue, addEntries, ha, hsave, hE.empty_portable, hempty, hbool,
        reloaded, reread, LoadTorrentParams.reloaded, Binary64.throughThousandths]
  | false =>
    ext1
    case tags => exact htags
    all_goals
      simp [loadOwned, loadContentLayout, loadRatioLimit, LtDict.findStringValue,
        LtDict.findIntValue, addEntries, ha, hbool, reloaded, rereadPath, reread,
        LoadTorrentParams.reloaded, Binary64.throughThousandths]

/-- The metadata that a load after the store finds: that of the torrent, or what an earlier store
left, since a store does not remove the `.torrent` file. -/
def metadataAfter (dir : BencodeDir ID) (id : ID) (x : LoadTorrentParams E) : Option LtDict :=
  if x.ltAddTorrentParams.ti.isSome then some (E.writeResumeData x.adjusted).extractMetadata
  else dir.torrent.lookup id

/-- What `load` requires of the files. -/
structure Loadable (dir : BencodeDir ID) (id : ID) (x : LoadTorrentParams E) : Prop where
  size : ∀ metadata ∈ metadataAfter dir id x,
    ¬ (0 ≤ E.torrentFileSizeLimit ∧ E.torrentFileSizeLimit < E.bencodedSize metadata)
  metadata : ∀ metadata ∈ metadataAfter dir id x, ∃ ti, E.torrentInfo metadata = .ok ti ∧
    ¬ mismatching x.ltAddTorrentParams.infoHashes (E.infoHashes ti)
  savePath : E.fromPortablePath (E.pathOf (decodeUtf8 x.adjusted.savePath)) ≠ E.pathOf ""
  identified : (E.writeResumeData x.adjusted "info-hash").isSome ∨
    ∃ metadata ∈ metadataAfter dir id x, ∃ ti, E.torrentInfo metadata = .ok ti ∧ E.isValid ti

theorem stopped_adjusted (x : LoadTorrentParams E) :
    (x.adjusted.flags.paused && !x.adjusted.flags.autoManaged) = x.stopped := by
  unfold adjusted
  split_ifs with h₁ h₂ <;> simp [h₁]

theorem operatingMode_adjusted (x : LoadTorrentParams E) :
    (if x.adjusted.flags.paused || x.adjusted.flags.autoManaged then
        TorrentOperatingMode.autoManaged else .forced) =
      if x.stopped then .autoManaged else x.operatingMode := by
  unfold adjusted
  split_ifs with h₁ h₂ <;> cases hm : x.operatingMode <;> simp_all

section Store

variable (hE : E.Faithful) (toDouble : String → Binary64) (dir : BencodeDir ID) (id : ID)
  (x : LoadTorrentParams E) {result : OwnedParams E}

theorem lookup_torrent_store : (store dir id x).torrent.lookup id = metadataAfter dir id x := by
  unfold store metadataAfter
  simp only [adjusted_ti]
  split_ifs
  · exact Finmap.lookup_insert _
  · rfl

include hE

theorem lookup_fastresume_store : ∃ data : LtDict,
    (store dir id x).fastresume.lookup id = some (addEntries x data) ∧
      (∀ key ∈ qBtKeys, data key = none) ∧ (∀ key ∈ LtDict.metadataKeys, data key = none) ∧
      ∀ key ∉ LtDict.metadataKeys, data key = E.writeResumeData x.adjusted key := by
  by_cases hti : x.adjusted.ti.isSome
  · refine ⟨(E.writeResumeData x.adjusted).withoutMetadata, ?_, fun key hkey => ?_,
      fun key hkey => if_pos hkey, fun key hkey => if_neg hkey⟩
    · simp only [store, hti, if_true]
      exact Finmap.lookup_insert _
    · unfold LtDict.withoutMetadata
      split_ifs
      · rfl
      · exact hE.noOwnKeys _ key hkey
  · refine ⟨E.writeResumeData x.adjusted, ?_, hE.noOwnKeys _,
      hE.noMetadata _ (by simpa using hti), fun _ _ => rfl⟩
    simp only [store, hti]
    exact Finmap.lookup_insert _

theorem exists_readResumeData_store : ∃ data : LtDict,
    (store dir id x).fastresume.lookup id = some data ∧
      E.readResumeData data = .ok { x.adjusted with ti := none } ∧
      (loadOwned toDouble data : OwnedParams E) =
        { reloaded x with
          stopCondition := x.stopCondition, stopped := false, operatingMode := .autoManaged } ∧
      data "info-hash" = E.writeResumeData x.adjusted "info-hash" := by
  obtain ⟨data, hlookup, hown, hmeta, hrest⟩ := lookup_fastresume_store hE dir id x
  refine ⟨_, hlookup, ?_, loadOwned_addEntries hE toDouble x hown, ?_⟩
  · refine hE.readResumeData _ _ (fun key hm hq => ?_) fun key hm => ?_
    · rw [addEntries_of_notMem x data hq]
      exact hrest key hm
    · have hq : key ∉ qBtKeys := by
        simp only [LtDict.metadataKeys, List.mem_cons, List.not_mem_nil, or_false] at hm
        obtain rfl | rfl | rfl | rfl := hm <;> simp [qBtKeys]
      rw [addEntries_of_notMem x data hq]
      exact hmeta key hm
  · rw [addEntries_of_notMem x data (by simp [qBtKeys])]
    exact hrest _ (by simp [LtDict.metadataKeys])

theorem map_finish_adjusted (ssl : SslParameters E) {data : LtDict} {owned : OwnedParams E}
    (howned : owned = { reloaded x with
      stopCondition := x.stopCondition, stopped := false, operatingMode := .autoManaged })
    (hhash : data "info-hash" = E.writeResumeData x.adjusted "info-hash")
    (ti : Option E.TorrentInfo) :
    (finish owned ssl data { x.adjusted with ti := ti }).map (·.toOwnedParams) = .ok result ↔
      E.fromPortablePath (E.pathOf (decodeUtf8 x.adjusted.savePath)) ≠ E.pathOf "" ∧
        ((E.writeResumeData x.adjusted "info-hash").isSome ∨ ti.any E.isValid) ∧
        reloaded x = result := by
  have hpath : toUtf8 (E.toString (E.fromPortablePath (E.pathOf (decodeUtf8 x.adjusted.savePath)))) =
      [] ↔ E.fromPortablePath (E.pathOf (decodeUtf8 x.adjusted.savePath)) = E.pathOf "" := by
    rw [toUtf8_eq_nil, hE.toString_eq_empty]
  have hfields : ({ owned with
      stopped := x.adjusted.flags.paused && !x.adjusted.flags.autoManaged
      operatingMode := if x.adjusted.flags.paused || x.adjusted.flags.autoManaged then
        .autoManaged else .forced
      stopCondition := if x.adjusted.flags.stopWhenReady then .filesChecked
        else owned.stopCondition } : OwnedParams E) = reloaded x := by
    rw [stopped_adjusted, operatingMode_adjusted, adjusted_stopWhenReady, howned]
    rfl
  dsimp only [finish]
  by_cases hp : E.fromPortablePath (E.pathOf (decodeUtf8 x.adjusted.savePath)) = E.pathOf ""
  · rw [if_pos (hpath.2 hp)]
    refine iff_of_false (by simp [Except.map]) ?_
    rintro ⟨hp', -⟩
    exact hp' hp
  · rw [if_neg (hpath.not.2 hp), hhash, hfields]
    by_cases hv : (E.writeResumeData x.adjusted "info-hash").isSome ∨ ti.any E.isValid
    · have hc : ¬ (!ti.any E.isValid && (E.writeResumeData x.adjusted "info-hash").isNone) = true := by
        obtain hv | hv := hv
        · simp [Option.isSome_iff_ne_none.1 hv]
        · simp [hv]
      rw [if_neg hc]
      exact ⟨fun h => ⟨hp, hv, by simpa [Except.map] using h⟩, fun h => by simp [Except.map, h.2.2]⟩
    · have hc : (!ti.any E.isValid && (E.writeResumeData x.adjusted "info-hash").isNone) = true := by
        simpa [not_or, and_comm] using hv
      rw [if_pos hc]
      refine iff_of_false (by simp [Except.map]) ?_
      rintro ⟨-, hv', -⟩
      exact hv hv'

theorem map_load_store :
    (load toDouble (store dir id x) id : Except String (LoadTorrentParams E)).map
        (·.toOwnedParams) = .ok result ↔
      Loadable dir id x ∧ reloaded x = result := by
  obtain ⟨data, hlookup, hread, howned, hhash⟩ := exists_readResumeData_store hE toDouble dir id x
  unfold load
  rw [hlookup, lookup_torrent_store]
  cases hm : metadataAfter dir id x with
  | none =>
    simp only [loadTorrentResumeData, hread, loadMetadata]
    rw [map_finish_adjusted hE x _ howned hhash none]
    constructor
    · rintro ⟨hp, hv, hr⟩
      refine ⟨⟨by simp [hm], by simp [hm], hp, ?_⟩, hr⟩
      simpa [hm] using hv
    · rintro ⟨h, hr⟩
      refine ⟨h.savePath, ?_, hr⟩
      simpa [hm] using h.identified
  | some metadata =>
    by_cases hsize : 0 ≤ E.torrentFileSizeLimit ∧
        E.torrentFileSizeLimit < E.bencodedSize metadata
    · simp only [hsize]
      refine iff_of_false (by simp [Except.map]) ?_
      rintro ⟨h, -⟩
      exact h.size metadata hm hsize
    · simp only [hsize, if_false, loadTorrentResumeData, hread, loadMetadata]
      cases hti : E.torrentInfo metadata with
      | error e =>
        refine iff_of_false (by simp [Except.map]) ?_
        rintro ⟨h, -⟩
        obtain ⟨ti, hti', -⟩ := h.metadata metadata hm
        rw [hti] at hti'
        cases hti'
      | ok ti =>
        by_cases hmis : mismatching x.ltAddTorrentParams.infoHashes (E.infoHashes ti)
        · have hmis' : mismatching x.adjusted.infoHashes (E.infoHashes ti) := by
            rwa [adjusted_infoHashes]
          simp only [hmis', if_true]
          refine iff_of_false (by simp [Except.map]) ?_
          rintro ⟨h, -⟩
          obtain ⟨ti', hti', hne⟩ := h.metadata metadata hm
          rw [hti] at hti'
          cases hti'
          exact hne hmis
        · have hmis' : ¬ mismatching x.adjusted.infoHashes (E.infoHashes ti) := by
            rwa [adjusted_infoHashes]
          simp only [hmis', if_false]
          rw [map_finish_adjusted hE x _ howned hhash (some ti)]
          constructor
          · rintro ⟨hp, hv, hr⟩
            refine ⟨⟨?_, ?_, hp, ?_⟩, hr⟩
            · simpa [hm] using hsize
            · simpa [hm, hti] using hmis
            · simpa [hm, hti] using hv
          · rintro ⟨h, hr⟩
            refine ⟨h.savePath, ?_, hr⟩
            simpa [hm, hti] using h.identified

end Store

end BencodeStorage

end QBittorrent
