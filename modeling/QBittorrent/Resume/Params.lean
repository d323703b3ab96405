import QBittorrent.Lib.Binary64
import QBittorrent.Lib.Text
import QBittorrent.Utils.Compare

/-!
# Torrent parameters and what they are stored with

`LoadTorrentParams` is what the session hands to a resume data storage and gets back after a
restart.  This file has its fields, the enumerations and sets among them with their text forms, and
the parts of libtorrent, Qt and the profile that both storages use.

* `splitTags_joinTags` : tags survive;
* `Platform.Faithful` : what the storages rely on.
-/

namespace QBittorrent

open List

/-! ### Enumerations -/

/-- An enumeration known to the meta-object system: its values with their keys. -/
class MetaEnum (E : Type) where
  keys : List (String × E)
  nodup : (keys.map (·.1)).Nodup
  complete : ∀ e, e ∈ keys.map (·.2)

/-- `Utils::String::fromEnum`. -/
def fromEnum {E : Type} [DecidableEq E] [MetaEnum E] (value : E) : String :=
  (((MetaEnum.keys (E := E)).find? fun k => k.2 = value).map (·.1)).getD ""

/-- `Utils::String::toEnum`. -/
def toEnum {E : Type} [MetaEnum E] (serializedValue : String) (defaultValue : E) : E :=
  (((MetaEnum.keys (E := E)).find? fun k => k.1 = serializedValue).map (·.2)).getD defaultValue

@[simp] theorem toEnum_fromEnum {E : Type} [DecidableEq E] [MetaEnum E] (value defaultValue : E) :
    toEnum (fromEnum value) defaultValue = value := by
  obtain ⟨⟨key, e⟩, hmem, he⟩ := mem_map.1 (MetaEnum.complete value)
  obtain ⟨k, hk⟩ := Option.isSome_iff_exists.1 (find?_isSome.2 ⟨(key, e), hmem, by simpa using he⟩ :
    ((MetaEnum.keys (E := E)).find? fun k => k.2 = value).isSome)
  have hk₂ : k.2 = value := by simpa using find?_some hk
  have hkm := mem_of_find?_eq_some hk
  have hfrom : fromEnum value = k.1 := by simp [fromEnum, hk]
  -- the key found is the key of no other value
  have hto : (MetaEnum.keys (E := E)).find? (fun k' => k'.1 = k.1) = some k := by
    obtain ⟨k', hk'⟩ := Option.isSome_iff_exists.1 (find?_isSome.2 ⟨k, hkm, by simp⟩ :
      ((MetaEnum.keys (E := E)).find? fun k' => k'.1 = k.1).isSome)
    have hk₁ : k'.1 = k.1 := by simpa using find?_some hk'
    have : k' = k := inj_on_of_nodup_map MetaEnum.nodup (mem_of_find?_eq_some hk') hkm hk₁
    rw [hk', this]
  simp [toEnum, hfrom, hto, hk₂]

inductive TorrentContentLayout where
  | original | subfolder | noSubfolder
  deriving DecidableEq

instance : MetaEnum TorrentContentLayout where
  keys := [("Original", .original), ("Subfolder", .subfolder), ("NoSubfolder", .noSubfolder)]
  nodup := by decide
  complete e := by cases e <;> simp

inductive TorrentOperatingMode where
  | autoManaged | forced
  deriving DecidableEq

instance : MetaEnum TorrentOperatingMode where
  keys := [("AutoManaged", .autoManaged), ("Forced", .forced)]
  nodup := by decide
  complete e := by cases e <;> simp

inductive StopCondition where
  | none | metadataReceived | filesChecked
  deriving DecidableEq

instance : MetaEnum StopCondition where
  keys := [("None", .none), ("MetadataReceived", .metadataReceived),
    ("FilesChecked", .filesChecked)]
  nodup := by decide
  complete e := by cases e <;> simp

inductive ShareLimitAction where
  | default | stop | remove | removeWithContent | enableSuperSeeding
  deriving DecidableEq

instance : MetaEnum ShareLimitAction where
  keys := [("Default", .default), ("Stop", .stop), ("Remove", .remove),
    ("RemoveWithContent", .removeWithContent), ("EnableSuperSeeding", .enableSuperSeeding)]
  nodup := by decide
  complete e := by cases e <;> simp

/-! ### Tags -/

/-- `QChar::isSpace`. -/
def isSpaceChar (c : Char) : Bool :=
  (0x9 ≤ c.toNat && c.toNat ≤ 0xD) || (0x2000 ≤ c.toNat && c.toNat ≤ 0x200A) ||
    c.toNat ∈ [0x20, 0x85, 0xA0, 0x1680, 0x2028, 0x2029, 0x202F, 0x205F, 0x3000]

def cleanTag (tag : String) : String := String.ofList (trim isSpaceChar tag.toList)

/-- A tag is a text without spaces at its ends. -/
structure Tag where
  toString : String
  clean : cleanTag toString = toString
  deriving DecidableEq

def Tag.ofString (tagStr : String) : Tag := ⟨cleanTag tagStr, by simp [cleanTag]⟩

theorem Tag.ofString_toString (t : Tag) : Tag.ofString t.toString = t := by
  cases t with
  | mk s h => simp only [Tag.ofString, h]

theorem Tag.length_ofString_le (s : String) :
    (Tag.ofString s).toString.toList.length ≤ s.toList.length := by
  have hchars : (Tag.ofString s).toString.toList = trim isSpaceChar s.toList := String.toList_ofList
  rw [hchars]
  exact length_trim_le isSpaceChar s.toList

/-- `Tag::isValid`: neither empty nor with a comma. -/
def Tag.isValid (t : Tag) : Prop := t.toString ≠ "" ∧ ',' ∉ t.toString.toList

/-- `std::set::insert`: the place of the tag in the order, unless an equivalent tag is there. -/
def insertTag (less : Tag → Tag → Bool) (t : Tag) : List Tag → List Tag
  | [] => [t]
  | x :: xs => if less t x then t :: x :: xs else if less x t then x :: insertTag less t xs
      else x :: xs

/-- The code units of a `QString`. -/
def utf16 (s : String) : List Utils.Compare.QChar :=
  s.toList.flatMap fun c =>
    if c.toNat < 0x10000 then [.ofNat c.toNat]
    else [.ofNat (0xD800 + (c.toNat - 0x10000) / 0x400), .ofNat (0xDC00 + (c.toNat - 0x10000) % 0x400)]

/-- `TagLessThan` with its comparisons.  They are those of `QCollator`, or `naturalCompare`
(`TagOrder.natural`), which is an order only where no other character is between two digits; without
an order `std::set` has no meaning. -/
structure TagOrder where
  compare : String → String → ℤ
  subCompare : String → String → ℤ
  compares : Compares (fun _ => True) compare
  subCompares : Compares (fun _ => True) subCompare

namespace TagOrder

/-- `TagLessThan::operator()`. -/
def less (o : TagOrder) (left right : Tag) : Bool :=
  let result := o.compare left.toString right.toString
  if result ≠ 0 then result < 0 else o.subCompare left.toString right.toString < 0

theorem asymm (o : TagOrder) (a b : Tag) (h : o.less a b) : o.less b a = false := by
  have hswap := o.compares.swap (a := a.toString) (b := b.toString) trivial trivial
  have hswap' := o.subCompares.swap (a := a.toString) (b := b.toString) trivial trivial
  simp only [less] at h ⊢
  split_ifs at h ⊢ <;> simp only [decide_eq_true_eq, decide_eq_false_iff_not] at h ⊢ <;> omega

theorem trans (o : TagOrder) (a b c : Tag) (h : o.less a b) (h' : o.less b c) : o.less a c := by
  have hle := o.compares.trans a.toString b.toString c.toString trivial trivial trivial
  have hlt := o.compares.lt_of_lt_of_le (a := a.toString) (b := b.toString) (c := c.toString)
    trivial trivial trivial
  have hlt' := o.compares.lt_of_le_of_lt (a := a.toString) (b := b.toString) (c := c.toString)
    trivial trivial trivial
  have hsub := o.subCompares.lt_of_lt_of_le (a := a.toString) (b := b.toString) (c := c.toString)
    trivial trivial trivial
  simp only [less] at h h' ⊢
  split_ifs at h h' ⊢ <;> simp only [decide_eq_true_eq] at h h' ⊢ <;> omega

/-- The order without `QCollator`. -/
def natural (O : Utils.Compare.CharOrder)
    (h : ∀ caseSensitivity, O.NothingBetweenDigits caseSensitivity) : TagOrder where
  compare left right :=
    Utils.Compare.naturalCompare O .caseInsensitive (utf16 left) (utf16 right)
  subCompare left right :=
    Utils.Compare.naturalCompare O .caseSensitive (utf16 left) (utf16 right)
  compares := (Utils.Compare.compares_naturalCompare (h _)).of_sign (fun _ => trivial) fun _ _ => rfl
  subCompares :=
    (Utils.Compare.compares_naturalCompare (h _)).of_sign (fun _ => trivial) fun _ _ => rfl

end TagOrder

section TagSet

variable {o : TagOrder} {l : List Tag}

theorem mem_insertTag {t x : Tag} (h : x ∈ insertTag o.less t l) : x = t ∨ x ∈ l := by
  induction l with
  | nil => simpa [insertTag] using h
  | cons y ys ih =>
    unfold insertTag at h
    split_ifs at h with h₁ h₂
    · simpa using h
    · obtain rfl | hx := mem_cons.1 h
      · exact Or.inr mem_cons_self
      · exact (ih hx).imp_right (mem_cons_of_mem _)
    · exact Or.inr h

theorem pairwise_insertTag (t : Tag) (h : l.Pairwise (o.less · ·)) :
    (insertTag o.less t l).Pairwise (o.less · ·) := by
  induction l with
  | nil => simp [insertTag]
  | cons y ys ih =>
    obtain ⟨hy, hys⟩ := pairwise_cons.1 h
    unfold insertTag
    split_ifs with h₁ h₂
    · refine pairwise_cons.2 ⟨fun x hx => ?_, h⟩
      obtain rfl | hx := mem_cons.1 hx
      · exact h₁
      · exact o.trans _ _ _ h₁ (hy x hx)
    · refine pairwise_cons.2 ⟨fun x hx => ?_, ih hys⟩
      obtain rfl | hx := mem_insertTag hx
      · exact h₂
      · exact hy x hx
    · exact h

theorem insertTag_of_forall_less {t : Tag} (h : ∀ x ∈ l, o.less x t) :
    insertTag o.less t l = l ++ [t] := by
  induction l with
  | nil => rfl
  | cons y ys ih =>
    have hy : o.less y t = true := h y mem_cons_self
    have hy' : o.less t y = false := o.asymm _ _ hy
    rw [insertTag, ih fun x hx => h x (mem_cons_of_mem _ hx)]
    simp [hy, hy']

/-- `TagSet`: tags in ascending order. -/
structure TagSet (o : TagOrder) where
  tags : List Tag
  ascending : tags.Pairwise (o.less · ·)

namespace TagSet

def empty : TagSet o := ⟨[], List.Pairwise.nil⟩

def insert (s : TagSet o) (t : Tag) : TagSet o :=
  ⟨insertTag o.less t s.tags, pairwise_insertTag t s.ascending⟩

/-- The insertion of a range. -/
def insertAll (s : TagSet o) (ts : List Tag) : TagSet o := ts.foldl insert s

theorem insertAll_eq {s s' : TagSet o} {ts : List Tag} (h : s'.tags = s.tags ++ ts) :
    s.insertAll ts = s' := by
  induction ts generalizing s with
  | nil =>
    cases s
    cases s'
    simp_all [insertAll]
  | cons t ts ih =>
    refine ih ?_
    have hlt : ∀ x ∈ s.tags, o.less x t := by
      intro x hx
      have := s'.ascending
      rw [h, pairwise_append] at this
      exact this.2.2 x hx t mem_cons_self
    have hi : (s.insert t).tags = s.tags ++ [t] := insertTag_of_forall_less hlt
    rw [h, hi, append_assoc]
    rfl

theorem mem_insertAll {s : TagSet o} {ts : List Tag} {t : Tag} (h : t ∈ (s.insertAll ts).tags) :
    t ∈ s.tags ∨ t ∈ ts := by
  induction ts generalizing s with
  | nil => exact .inl h
  | cons t' ts ih =>
    obtain h | h := ih h
    · obtain rfl | h := mem_insertTag h
      · exact .inr mem_cons_self
      · exact .inl h
    · exact .inr (mem_cons_of_mem _ h)

theorem insertAll_tags (s : TagSet o) : empty.insertAll s.tags = s := insertAll_eq rfl

end TagSet

end TagSet

/-- `Utils::String::joinIntoString` of tags, with a comma between them. -/
def joinTags (ts : List Tag) : String :=
  String.ofList ([','].intercalate (ts.map (·.toString.toList)))

/-- `QString::split` at commas. -/
def splitTags (s : String) : List String := (s.toList.splitOn ',').map String.ofList

theorem joinTags_ne_empty {ts : List Tag} (hne : ts ≠ []) (hv : ∀ t ∈ ts, t.isValid) :
    joinTags ts ≠ "" := by
  cases ts with
  | nil => exact (hne rfl).elim
  | cons t ts =>
    have ht : t.toString.toList ≠ [] := by
      simpa using (hv t mem_cons_self).1
    intro h
    have h' : [','].intercalate ((t :: ts).map (·.toString.toList)) = [] := by
      simpa [joinTags] using h
    cases ts with
    | nil => simp [intercalate] at h'; exact ht (by simpa using h')
    | cons t' ts => simp [intercalate] at h'

theorem splitTags_joinTags {ts : List Tag} (hne : ts ≠ []) (hv : ∀ t ∈ ts, t.isValid) :
    (splitTags (joinTags ts)).map Tag.ofString = ts := by
  rw [splitTags, joinTags, String.toList_ofList, splitOn_intercalate]
  · simp [Function.comp_def, Tag.ofString_toString]
  · rintro l hl
    obtain ⟨t, ht, rfl⟩ := mem_map.1 hl
    exact (hv t ht).2
  · simpa using hne

/-! ### What the storages use of libtorrent, Qt and the profile -/

/-- `lt::entry`, the values that occur in resume data. -/
inductive LtEntry where
  | integer (i : ℤ)
  | string (s : List UInt8)
  | list (es : List LtEntry)

/-- A bencoded dictionary. -/
abbrev LtDict := String → Option LtEntry

namespace LtDict

variable (d : LtDict)

/-- `dict_find_string_value`. -/
def findStringValue (key : String) : List UInt8 :=
  match d key with
  | some (.string s) => s
  | _ => []

/-- `dict_find_int_value`. -/
def findIntValue (key : String) (defaultValue : ℤ) : ℤ :=
  match d key with
  | some (.integer i) => i
  | _ => defaultValue

/-- The entries that `store` moves to the torrent metadata. -/
def metadataKeys : List String := ["info", "creation date", "created by", "comment"]

def extractMetadata : LtDict := fun key => if key ∈ metadataKeys then d key else none

def withoutMetadata : LtDict := fun key => if key ∈ metadataKeys then none else d key

end LtDict

/-- `lt::torrent_flags_t`. -/
structure TorrentFlags where
  paused : Bool
  autoManaged : Bool
  stopWhenReady : Bool
  others : BitVec 64

/-- `lt::info_hash_t`; an unset hash is zero. -/
structure InfoHashes where
  v1 : BitVec 160
  v2 : BitVec 256

/-- `lt::add_torrent_params`. -/
structure AddTorrentParams (TorrentInfo Rest : Type) where
  savePath : List UInt8
  flags : TorrentFlags
  infoHashes : InfoHashes
  ti : Option TorrentInfo
  rest : Rest

/-- Libtorrent, Qt and the profile as the storages use them. -/
structure Platform where
  TorrentInfo : Type
  Rest : Type
  writeResumeData : AddTorrentParams TorrentInfo Rest → LtDict
  readResumeData : LtDict → Except String (AddTorrentParams TorrentInfo Rest)
  /-- `lt::torrent_info`, from the metadata. -/
  torrentInfo : LtDict → Except String TorrentInfo
  isValid : TorrentInfo → Bool
  infoHashes : TorrentInfo → InfoHashes
  /-- The length of the bencoded dictionary. -/
  bencodedSize : LtDict → ℕ
  Path : Type
  pathOf : String → Path
  data : Path → String
  /-- `Path::toString`, with native separators. -/
  toString : Path → String
  toPortablePath : Path → Path
  fromPortablePath : Path → Path
  tagOrder : TagOrder
  Certificate : Type
  certificateIsNull : Certificate → Bool
  certificateToPem : Certificate → List UInt8
  certificateOfPem : List UInt8 → Certificate
  PrivateKey : Type
  privateKeyIsNull : PrivateKey → Bool
  privateKeyToPem : PrivateKey → List UInt8
  /-- `Utils::SSLKey::load`. -/
  loadPrivateKey : List UInt8 → PrivateKey
  /-- `Preferences::getTorrentFileSizeLimit`. -/
  torrentFileSizeLimit : ℤ

namespace Platform

variable (E : Platform)

def isEmpty (path : E.Path) : Bool := E.data path = ""

end Platform

structure SslParameters (E : Platform) where
  certificate : E.Certificate
  privateKey : E.PrivateKey
  dhParams : List UInt8

/-- The fields of `LoadTorrentParams` that libtorrent does not know. -/
@[ext]
structure OwnedParams (E : Platform) where
  name : String
  category : String
  tags : TagSet E.tagOrder
  savePath : E.Path
  downloadPath : E.Path
  contentLayout : TorrentContentLayout
  operatingMode : TorrentOperatingMode
  useAutoTMM : Bool
  firstLastPiecePriority : Bool
  hasFinishedStatus : Bool
  stopped : Bool
  stopCondition : StopCondition
  ratioLimit : Binary64
  seedingTimeLimit : Int32
  inactiveSeedingTimeLimit : Int32
  shareLimitAction : ShareLimitAction

structure LoadTorrentParams (E : Platform) extends OwnedParams E where
  ltAddTorrentParams : AddTorrentParams E.TorrentInfo E.Rest
  addToQueueTop : Bool
  sslParameters : SslParameters E

/-- The keys that `BencodeResumeDataStorage` adds to the resume data of libtorrent. -/
def qBtKeys : List String :=
  ["qBt-ratioLimit", "qBt-seedingTimeLimit", "qBt-inactiveSeedingTimeLimit",
    "qBt-shareLimitAction", "qBt-category", "qBt-tags", "qBt-name", "qBt-seedStatus",
    "qBt-contentLayout", "qBt-firstLastPiecePriority", "qBt-stopCondition", "qBt-sslCertificate",
    "qBt-sslPrivateKey", "qBt-sslDhParams", "qBt-savePath", "qBt-downloadPath"]

/-- What is assumed of the platform: libtorrent reads the resume data that it wrote, wherever the
metadata and the keys of others went; it reads the metadata that it wrote; portable paths are
converted back, and are others without a byte order mark at their head; and only the empty path has
an empty text. -/
structure Platform.Faithful (E : Platform) : Prop where
  readResumeData : ∀ p d, (∀ key, key ∉ LtDict.metadataKeys → key ∉ qBtKeys →
      d key = E.writeResumeData p key) → (∀ key ∈ LtDict.metadataKeys, d key = none) →
    E.readResumeData d = .ok { p with ti := none }
  noOwnKeys : ∀ p, ∀ key ∈ qBtKeys, E.writeResumeData p key = none
  noMetadata : ∀ p, p.ti = none → ∀ key ∈ LtDict.metadataKeys, E.writeResumeData p key = none
  torrentInfo : ∀ p ti, p.ti = some ti →
    E.torrentInfo (E.writeResumeData p).extractMetadata = .ok ti
  data_portable : ∀ path, E.fromPortablePath (E.pathOf (E.data (E.toPortablePath path))) = path
  data_unmarked : ∀ path cs, (E.data (E.toPortablePath path)).toList = Char.ofNat 0xFEFF :: cs →
    E.fromPortablePath (E.pathOf (String.ofList cs)) ≠ path
  empty_portable : E.fromPortablePath (E.pathOf "") = E.pathOf ""
  data_eq_empty : ∀ path, E.data path = "" ↔ path = E.pathOf ""
  toString_eq_empty : ∀ path, E.toString path = "" ↔ path = E.pathOf ""

/-- `store`: the torrent parameters that libtorrent is to write. -/
def LoadTorrentParams.adjusted {E : Platform} (resumeData : LoadTorrentParams E) :
    AddTorrentParams E.TorrentInfo E.Rest :=
  let p := resumeData.ltAddTorrentParams
  let p := { p with
    savePath := toUtf8 (E.toString (E.toPortablePath (E.pathOf (decodeUtf8 p.savePath)))) }
  if resumeData.stopped then
    { p with flags := { p.flags with paused := true, autoManaged := false } }
  -- the torrent may be paused for a moment only, and is restored as running
  else if resumeData.operatingMode = .autoManaged then
    { p with flags := { p.flags with autoManaged := true } }
  else { p with flags := { p.flags with paused := false, autoManaged := false } }

variable {E : Platform}

@[simp] theorem LoadTorrentParams.adjusted_ti (x : LoadTorrentParams E) :
    x.adjusted.ti = x.ltAddTorrentParams.ti := by
  unfold LoadTorrentParams.adjusted
  split_ifs <;> rfl

@[simp] theorem LoadTorrentParams.adjusted_infoHashes (x : LoadTorrentParams E) :
    x.adjusted.infoHashes = x.ltAddTorrentParams.infoHashes := by
  unfold LoadTorrentParams.adjusted
  split_ifs <;> rfl

@[simp] theorem LoadTorrentParams.adjusted_stopWhenReady (x : LoadTorrentParams E) :
    x.adjusted.flags.stopWhenReady = x.ltAddTorrentParams.flags.stopWhenReady := by
  unfold LoadTorrentParams.adjusted
  split_ifs <;> rfl

@[simp] theorem LoadTorrentParams.adjusted_savePath (x : LoadTorrentParams E) :
    x.adjusted.savePath = toUtf8 (E.toString (E.toPortablePath
      (E.pathOf (decodeUtf8 x.ltAddTorrentParams.savePath)))) := by
  unfold LoadTorrentParams.adjusted
  split_ifs <;> rfl

/-! ### What a restart makes of the parameters -/

/-- The ratio limit as it is stored, a 32-bit number of thousandths, and read. -/
def Binary64.throughThousandths (a : Binary64) : Binary64 :=
  .div (.ofInt32 (Binary64.mul a (.ofInt32 1000)).toInt32) (.ofInt32 1000)

namespace LoadTorrentParams

variable {E : Platform}

/-- The fields as they are after a store and a load, the operating mode of stopped torrents apart:
paths are stored for manual management only, management is automatic when no save path was stored,
and a pending stop of libtorrent becomes a stop condition. -/
def reloaded (x : LoadTorrentParams E) : OwnedParams E :=
  { x.toOwnedParams with
    savePath := if x.useAutoTMM then E.pathOf "" else x.savePath
    useAutoTMM := x.useAutoTMM || E.isEmpty x.savePath
    downloadPath := if x.useAutoTMM || E.isEmpty x.savePath then E.pathOf "" else x.downloadPath
    ratioLimit := x.ratioLimit.throughThousandths
    stopCondition := if x.ltAddTorrentParams.flags.stopWhenReady then .filesChecked
      else x.stopCondition }

/-- What both storages need to load the fields as they were stored, for a ratio limit of `k`
thousandths. -/
structure Storable (x : LoadTorrentParams E) (k : ℤ) : Prop where
  automatic : x.useAutoTMM = true → x.savePath = E.pathOf "" ∧ x.downloadPath = E.pathOf ""
  manual : x.useAutoTMM = false → x.savePath ≠ E.pathOf ""
  stopWhenReady : x.ltAddTorrentParams.flags.stopWhenReady = true → x.stopCondition = .filesChecked
  ratioLimit : Binary64.KeepsMilli k

theorem isEmpty_eq_true_iff (hE : E.Faithful) {path : E.Path} :
    E.isEmpty path = true ↔ path = E.pathOf "" := by
  rw [← hE.data_eq_empty, Platform.isEmpty, decide_eq_true_eq]

theorem reloaded_eq_iff (hE : E.Faithful) {x : LoadTorrentParams E} {k : ℤ}
    (hk : x.ratioLimit = Binary64.milli k) :
    x.reloaded = x.toOwnedParams ↔ x.Storable k := by
  have hratio : x.ratioLimit.throughThousandths = x.ratioLimit ↔ Binary64.KeepsMilli k := by
    rw [hk]
    exact Binary64.div_toInt32_milli_eq_iff k
  constructor
  · intro h
    have hsave := congrArg OwnedParams.savePath h
    have hdown := congrArg OwnedParams.downloadPath h
    have htmm := congrArg OwnedParams.useAutoTMM h
    have hstop := congrArg OwnedParams.stopCondition h
    simp only [reloaded] at hsave hdown htmm hstop
    refine ⟨fun ha => ?_, fun hm hp => ?_, fun hs => ?_, ?_⟩
    · simp only [ha, Bool.true_or, if_true] at hsave hdown
      exact ⟨hsave.symm, hdown.symm⟩
    · rw [hm, (isEmpty_eq_true_iff hE).2 hp] at htmm
      cases htmm
    · rw [if_pos hs] at hstop
      exact hstop.symm
    · exact hratio.1 (congrArg OwnedParams.ratioLimit h)
  · intro h
    have hstop : (if x.ltAddTorrentParams.flags.stopWhenReady then StopCondition.filesChecked
        else x.stopCondition) = x.stopCondition := by
      split_ifs with hs
      · exact (h.stopWhenReady hs).symm
      · rfl
    have hr := hratio.2 h.ratioLimit
    cases ha : x.useAutoTMM with
    | true =>
      obtain ⟨hsave, hdown⟩ := h.automatic ha
      ext1 <;> simp [reloaded, ha, hsave, hdown, hr, hstop]
    | false =>
      have he : E.isEmpty x.savePath = false := by
        rw [Bool.eq_false_iff]
        exact fun hp => h.manual ha ((isEmpty_eq_true_iff hE).1 hp)
      ext1 <;> simp [reloaded, ha, he, hr, hstop]

end LoadTorrentParams

end QBittorrent
