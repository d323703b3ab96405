import QBittorrent.Lib.Json
import QBittorrent.Resume.Params

/-!
# The parameters that a rule adds torrents with

`BitTorrent.AddTorrentParams`, with the JSON form that rules and watched folders keep it in.

* `AddTorrentParams.parse_serialize` : what is read back.
-/

namespace QBittorrent.BitTorrent

open JsonValue

inductive DownloadPriority where
  | ignored | normal | high | maximum

@[ext]
structure AddTorrentParams (E : Platform) where
  name : String
  category : String
  tags : TagSet E.tagOrder
  savePath : E.Path
  useDownloadPath : Option Bool
  downloadPath : E.Path
  sequential : Bool
  firstLastPiecePriority : Bool
  addForced : Bool
  addToQueueTop : Option Bool
  addStopped : Option Bool
  stopCondition : Option StopCondition
  filePaths : List E.Path
  filePriorities : List DownloadPriority
  skipChecking : Bool
  contentLayout : Option TorrentContentLayout
  useAutoTMM : Option Bool
  uploadLimit : Int32
  downloadLimit : Int32
  seedingTimeLimit : Int32
  inactiveSeedingTimeLimit : Int32
  ratioLimit : Binary64
  shareLimitAction : ShareLimitAction
  sslParameters : SslParameters E

/-- `QByteArray QString::toLatin1`: other characters become question marks. -/
def toLatin1 (s : String) : List UInt8 :=
  s.toList.map fun c => if c.toNat < 256 then UInt8.ofNat c.toNat else 63

theorem toNat_ofNat_toNat (x : UInt8) : (Char.ofNat x.toNat).toNat = x.toNat := by
  have hx : x.toNat.isValidChar := Or.inl (by have := x.toNat_lt; omega)
  rw [Char.ofNat, dif_pos hx]
  rfl

@[simp] theorem toLatin1_fromLatin1 (b : List UInt8) : toLatin1 (fromLatin1 b) = b := by
  have h (x : UInt8) : (if (Char.ofNat x.toNat).toNat < 256 then
      UInt8.ofNat (Char.ofNat x.toNat).toNat else 63) = x := by
    rw [toNat_ofNat_toNat, if_pos x.toNat_lt, UInt8.ofNat_toNat]
  simp [toLatin1, fromLatin1, Function.comp_def, h]

/-- `Torrent::USE_GLOBAL_RATIO`. -/
def useGlobalRatio : Binary64 := .ofInt32 (-2)

/-- `Torrent::USE_GLOBAL_SEEDING_TIME`. -/
def useGlobalSeedingTime : Int32 := -2

/-- `Torrent::USE_GLOBAL_INACTIVE_SEEDING_TIME`. -/
def useGlobalInactiveSeedingTime : Int32 := -2

/-! ### Members that may be missing -/

def parseTagSet {o : TagOrder} (jsonArr : List JsonValue) : TagSet o :=
  TagSet.empty.insertAll ((JsonValue.texts jsonArr).map Tag.ofString)

def serializeTagSet {o : TagOrder} (tags : TagSet o) : JsonValue :=
  .ofStringList (tags.tags.map (·.toString))

/-- A member that is there and not null. -/
def nonNull : Option JsonValue → Option JsonValue
  | some .null => none
  | v => v

def getOptionalBool (jsonObj : JsonObject) (key : String) : Option Bool :=
  (nonNull (jsonObj.value key)).map fun v => JsonValue.toBool false (some v)

def getOptionalEnum {E : Type} [MetaEnum E] (default : E) (jsonObj : JsonObject) (key : String) :
    Option E :=
  (nonNull (jsonObj.value key)).map fun v => toEnum (JsonValue.toText (some v)) default

def getEnum {E : Type} [MetaEnum E] (jsonObj : JsonObject) (key : String) (defaultValue : E) : E :=
  toEnum (JsonValue.toText (jsonObj.value key)) defaultValue

namespace AddTorrentParams

variable {E : Platform}

def parse (jsonObj : JsonObject) : AddTorrentParams E where
  name := ""
  category := toText (jsonObj.value "category")
  tags := parseTagSet (toArray (jsonObj.value "tags"))
  savePath := E.pathOf (toText (jsonObj.value "save_path"))
  useDownloadPath := getOptionalBool jsonObj "use_download_path"
  downloadPath := E.pathOf (toText (jsonObj.value "download_path"))
  sequential := false
  firstLastPiecePriority := false
  addForced := getEnum jsonObj "operating_mode" TorrentOperatingMode.autoManaged = .forced
  addToQueueTop := getOptionalBool jsonObj "add_to_top_of_queue"
  addStopped := getOptionalBool jsonObj "stopped"
  stopCondition := getOptionalEnum StopCondition.none jsonObj "stop_condition"
  filePaths := []
  filePriorities := []
  skipChecking := toBool false (jsonObj.value "skip_checking")
  contentLayout := getOptionalEnum TorrentContentLayout.original jsonObj "content_layout"
  useAutoTMM := getOptionalBool jsonObj "use_auto_tmm"
  uploadLimit := toInt (-1) (jsonObj.value "upload_limit")
  downloadLimit := toInt (-1) (jsonObj.value "download_limit")
  seedingTimeLimit := toInt useGlobalSeedingTime (jsonObj.value "seeding_time_limit")
  inactiveSeedingTimeLimit :=
    toInt useGlobalInactiveSeedingTime (jsonObj.value "inactive_seeding_time_limit")
  ratioLimit := toDouble useGlobalRatio (jsonObj.value "ratio_limit")
  shareLimitAction := getEnum jsonObj "share_limit_action" ShareLimitAction.default
  sslParameters :=
    { certificate := E.certificateOfPem (toLatin1 (toText (jsonObj.value "ssl_certificate")))
      privateKey := E.loadPrivateKey (toLatin1 (toText (jsonObj.value "ssl_private_key")))
      dhParams := toLatin1 (toText (jsonObj.value "ssl_dh_params")) }

/-- The members that `serializeAddTorrentParams` always writes. -/
def members (params : AddTorrentParams E) : JsonObject :=
  [("category", .string params.category),
    ("tags", serializeTagSet params.tags),
    ("save_path", .string (E.data params.savePath)),
    ("download_path", .string (E.data params.downloadPath)),
    ("operating_mode", .string (fromEnum (if params.addForced then TorrentOperatingMode.forced
      else .autoManaged))),
    ("skip_checking", .bool params.skipChecking),
    ("upload_limit", .ofInt32 params.uploadLimit),
    ("download_limit", .ofInt32 params.downloadLimit),
    ("seeding_time_limit", .ofInt32 params.seedingTimeLimit),
    ("inactive_seeding_time_limit", .ofInt32 params.inactiveSeedingTimeLimit),
    ("share_limit_action", .string (fromEnum params.shareLimitAction)),
    ("ratio_limit", .double params.ratioLimit),
    ("ssl_certificate", .string (fromLatin1 (E.certificateToPem params.sslParameters.certificate))),
    ("ssl_private_key", .string (fromLatin1 (E.privateKeyToPem params.sslParameters.privateKey))),
    ("ssl_dh_params", .string (fromLatin1 params.sslParameters.dhParams))]

def serialize (params : AddTorrentParams E) : JsonObject :=
  params.members
    |>.setOptional "add_to_top_of_queue" (params.addToQueueTop.map .bool)
    |>.setOptional "stopped" (params.addStopped.map .bool)
    |>.setOptional "stop_condition" (params.stopCondition.map fun c => .string (fromEnum c))
    |>.setOptional "content_layout" (params.contentLayout.map fun l => .string (fromEnum l))
    |>.setOptional "use_auto_tmm" (params.useAutoTMM.map .bool)
    |>.setOptional "use_download_path" (params.useDownloadPath.map .bool)

end AddTorrentParams

/-! ### What is read back -/

/-- What is assumed of the texts of paths, certificates and keys: they are read back. -/
structure KeepsTexts (E : Platform) : Prop where
  pathOf_data : ∀ path, E.pathOf (E.data path) = path
  certificate : ∀ c, E.certificateOfPem (E.certificateToPem c) = c
  privateKey : ∀ k, E.loadPrivateKey (E.privateKeyToPem k) = k

@[simp] theorem parseTagSet_serializeTagSet {o : TagOrder} (tags : TagSet o) :
    parseTagSet (toArray (some (serializeTagSet tags))) = tags := by
  have h : (tags.tags.map (·.toString)).map Tag.ofString = tags.tags := by
    simp [Function.comp_def, Tag.ofString_toString]
  rw [parseTagSet, serializeTagSet, JsonValue.texts_toArray_ofStringList, h, TagSet.insertAll_tags]

variable {o : JsonObject} {key : String}

theorem getOptionalBool_of_value {b : Option Bool} (h : o.value key = b.map .bool) :
    getOptionalBool o key = b := by
  cases b <;> simp [getOptionalBool, h, nonNull, JsonValue.toBool]

theorem getOptionalEnum_of_value {E : Type} [DecidableEq E] [MetaEnum E] {default : E}
    {e : Option E} (h : o.value key = e.map fun e => .string (fromEnum e)) :
    getOptionalEnum default o key = e := by
  cases e <;> simp [getOptionalEnum, h, nonNull, JsonValue.toText]

namespace AddTorrentParams

variable {E : Platform} {params : AddTorrentParams E}

/-- The parameters without what is not written. -/
def written (params : AddTorrentParams E) : AddTorrentParams E :=
  { params with
    name := "", sequential := false, firstLastPiecePriority := false
    filePaths := [], filePriorities := [] }

theorem value_serialize {key : String}
    (h : key ∉ ["add_to_top_of_queue", "stopped", "stop_condition", "content_layout",
      "use_auto_tmm", "use_download_path"]) :
    params.serialize.value key = params.members.value key := by
  simp only [List.mem_cons, List.not_mem_nil, or_false, not_or] at h
  obtain ⟨h₁, h₂, h₃, h₄, h₅, h₆⟩ := h
  simp only [serialize]
  rw [JsonObject.value_setOptional_ne (Ne.symm h₆), JsonObject.value_setOptional_ne (Ne.symm h₅),
    JsonObject.value_setOptional_ne (Ne.symm h₄), JsonObject.value_setOptional_ne (Ne.symm h₃),
    JsonObject.value_setOptional_ne (Ne.symm h₂), JsonObject.value_setOptional_ne (Ne.symm h₁)]

theorem getOptional_serialize (params : AddTorrentParams E) :
    getOptionalBool params.serialize "add_to_top_of_queue" = params.addToQueueTop ∧
    getOptionalBool params.serialize "stopped" = params.addStopped ∧
    getOptionalEnum StopCondition.none params.serialize "stop_condition" = params.stopCondition ∧
    getOptionalEnum TorrentContentLayout.original params.serialize "content_layout" =
      params.contentLayout ∧
    getOptionalBool params.serialize "use_auto_tmm" = params.useAutoTMM ∧
    getOptionalBool params.serialize "use_download_path" = params.useDownloadPath := by
  refine ⟨getOptionalBool_of_value ?_, getOptionalBool_of_value ?_, getOptionalEnum_of_value ?_,
    getOptionalEnum_of_value ?_, getOptionalBool_of_value ?_, getOptionalBool_of_value ?_⟩ <;>
  simp [serialize, members, JsonObject.value_setOptional_ne, JsonObject.value_setOptional_self,
    JsonObject.value_cons_ne]

theorem parse_serialize (hE : KeepsTexts E) (params : AddTorrentParams E) :
    parse params.serialize = params.written := by
  obtain ⟨htop, hstopped, hcond, hlayout, htmm, hdown⟩ := params.getOptional_serialize
  have hforced : ((if params.addForced then TorrentOperatingMode.forced else .autoManaged) =
      .forced) ↔ params.addForced = true := by
    cases params.addForced <;> simp
  ext1 <;>
    simp [parse, written, value_serialize, members, JsonObject.value_cons_ne,
      JsonObject.value_cons_self, toText, JsonValue.toBool, toDouble, getEnum, htop, hstopped,
      hcond, hlayout, htmm, hdown, hE.pathOf_data, hE.certificate, hE.privateKey, hforced]

/-- Nothing is set that is not written. -/
structure Writable (params : AddTorrentParams E) : Prop where
  name : params.name = ""
  sequential : params.sequential = false
  firstLastPiecePriority : params.firstLastPiecePriority = false
  filePaths : params.filePaths = []
  filePriorities : params.filePriorities = []

theorem written_eq_iff : params.written = params ↔ params.Writable := by
  constructor
  · intro h
    exact ⟨(congrArg name h).symm, (congrArg sequential h).symm,
      (congrArg firstLastPiecePriority h).symm, (congrArg filePaths h).symm,
      (congrArg filePriorities h).symm⟩
  · intro h
    ext1 <;> simp [written, h.name, h.sequential, h.firstLastPiecePriority, h.filePaths,
      h.filePriorities]

end AddTorrentParams

end QBittorrent.BitTorrent
