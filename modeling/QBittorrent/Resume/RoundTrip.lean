import QBittorrent.Resume.Bencode
import QBittorrent.Resume.Database
import Mathlib.Data.String.Basic

/-!
# Both storages on the same torrent

* `LoadTorrentParams.bencode_reloaded_eq_iff`: what the files keep, which drop a byte order mark at
  the head of a text and do not tell the operating mode of a stopped torrent
* `LoadTorrentParams.kept_by_both_iff`: when both storages load what was stored
-/

namespace QBittorrent

open Platform

namespace LoadTorrentParams

variable {ID : Type} [DecidableEq ID] {E : Platform} {x : LoadTorrentParams E} {s : String}

/-- A text begins with a byte order mark. -/
def IsMarked (s : String) : Prop := s.toList.head? = some (Char.ofNat 0xFEFF)
  deriving Decidable

/-- No text that the files keep begins with a byte order mark, which a reader drops. -/
structure Unmarked (x : LoadTorrentParams E) : Prop where
  name : ¬ IsMarked x.name
  category : ¬ IsMarked x.category
  tags : ∀ t ∈ x.tags.tags, ¬ IsMarked t.toString
  savePath : x.useAutoTMM = false → ¬ IsMarked (E.data (E.toPortablePath x.savePath))
  downloadPath : x.useAutoTMM = false → ¬ IsMarked (E.data (E.toPortablePath x.downloadPath))

theorem reread_eq_iff : BencodeStorage.reread s = s ↔ ¬ IsMarked s :=
  decodeUtf8_toUtf8_eq_iff

theorem rereadPath_eq_iff (hE : E.Faithful) {path : E.Path} :
    BencodeStorage.rereadPath path = path ↔ ¬ IsMarked (E.data (E.toPortablePath path)) := by
  rw [BencodeStorage.rereadPath]
  constructor
  · intro h hmarked
    have hcs := (List.cons_head?_tail hmarked).symm
    rw [BencodeStorage.reread, decodeUtf8_toUtf8_of_mark hcs] at h
    exact hE.data_unmarked _ _ hcs h
  · intro h
    rw [reread_eq_iff.2 h, hE.data_portable]

theorem length_reread (h : BencodeStorage.reread s ≠ s) :
    (BencodeStorage.reread s).toList.length < s.toList.length := length_decodeUtf8_toUtf8 h

theorem length_ofString_reread {t : Tag} (h : BencodeStorage.reread t.toString ≠ t.toString) :
    (Tag.ofString (BencodeStorage.reread t.toString)).toString.toList.length <
      t.toString.toList.length :=
  lt_of_le_of_lt (Tag.length_ofString_le _) (length_reread h)

theorem reread_tags_eq_iff {o : TagOrder} {tags : TagSet o} :
    TagSet.empty.insertAll
        (tags.tags.map fun tag => Tag.ofString (BencodeStorage.reread tag.toString)) = tags ↔
      ∀ t ∈ tags.tags, ¬ IsMarked t.toString := by
  constructor
  · intro h
    have hkeep := eq_of_shortens
      (f := fun t => Tag.ofString (BencodeStorage.reread t.toString))
      (fun t => t.toString.toList.length)
      (fun t ht => length_ofString_reread fun heq => ht (by rw [heq, Tag.ofString_toString]))
      (l := tags.tags) fun t ht => by
        rw [← h] at ht
        exact List.mem_map.1 ((TagSet.mem_insertAll ht).resolve_left List.not_mem_nil)
    intro t ht hmarked
    have hlt := length_ofString_reread (mt reread_eq_iff.1 (not_not.2 hmarked))
    rw [hkeep t ht] at hlt
    exact lt_irrefl _ hlt
  · intro h
    have hmap : (tags.tags.map fun tag => Tag.ofString (BencodeStorage.reread tag.toString)) =
        tags.tags := by
      refine (List.map_congr_left fun t ht => ?_).trans (List.map_id _)
      rw [reread_eq_iff.2 (h t ht), Tag.ofString_toString, id]
    rw [hmap, TagSet.insertAll_tags]

theorem unmarked_of_reloaded (hE : E.Faithful) (h : BencodeStorage.reloaded x = x.toOwnedParams) :
    x.Unmarked := by
  have hempty := congrArg OwnedParams.useAutoTMM h
  have hsave := congrArg OwnedParams.savePath h
  have hdownload := congrArg OwnedParams.downloadPath h
  simp only [BencodeStorage.reloaded] at hempty hsave hdownload
  refine ⟨reread_eq_iff.1 (congrArg OwnedParams.name h),
    reread_eq_iff.1 (congrArg OwnedParams.category h),
    reread_tags_eq_iff.1 (congrArg OwnedParams.tags h), fun hmanual => ?_, fun hmanual => ?_⟩
  · rw [hmanual] at hsave
    exact (rereadPath_eq_iff hE).1 hsave
  · rw [hempty, hmanual] at hdownload
    exact (rereadPath_eq_iff hE).1 hdownload

theorem bencode_reloaded_of_unmarked (hE : E.Faithful) (h : x.Unmarked) :
    BencodeStorage.reloaded x =
      { x.reloaded with operatingMode := if x.stopped then .autoManaged else x.operatingMode } := by
  have hempty : E.isEmpty (E.pathOf "") = true := (isEmpty_eq_true_iff hE).2 rfl
  ext1
  case name => exact reread_eq_iff.2 h.name
  case category => exact reread_eq_iff.2 h.category
  case tags => exact reread_tags_eq_iff.2 h.tags
  all_goals
    cases ha : x.useAutoTMM with
    | true => simp [BencodeStorage.reloaded, reloaded, ha, hempty]
    | false => simp [BencodeStorage.reloaded, reloaded, ha,
        (rereadPath_eq_iff hE).2 (h.savePath ha), (rereadPath_eq_iff hE).2 (h.downloadPath ha)]

theorem bencode_reloaded_eq_iff (hE : E.Faithful) {k : ℤ} (hk : x.ratioLimit = Binary64.milli k) :
    BencodeStorage.reloaded x = x.toOwnedParams ↔
      x.Storable k ∧ x.Unmarked ∧ (x.stopped = true → x.operatingMode = .autoManaged) := by
  rw [← reloaded_eq_iff hE hk]
  constructor
  · intro h
    have hmarks := unmarked_of_reloaded hE h
    have hmode : ∀ hs : x.stopped = true, x.operatingMode = .autoManaged := by
      intro hs
      have := congrArg OwnedParams.operatingMode h
      simpa [BencodeStorage.reloaded, hs] using this.symm
    refine ⟨?_, hmarks, hmode⟩
    rw [← h, bencode_reloaded_of_unmarked hE hmarks]
    ext1
    case operatingMode =>
      by_cases hs : x.stopped = true
      · simpa [reloaded, hs] using hmode hs
      · simp [reloaded, hs]
    all_goals rfl
  · rintro ⟨h, hmarks, hmode⟩
    rw [bencode_reloaded_of_unmarked hE hmarks, h]
    ext1
    case operatingMode =>
      by_cases hs : x.stopped = true
      · simpa [hs] using (hmode hs).symm
      · simp [hs]
    all_goals rfl

/-- **Both storages load what was stored**, exactly under these conditions. -/
theorem kept_by_both_iff (hE : E.Faithful) (toDouble : String → Binary64) (dir : BencodeDir ID)
    (table : TorrentsTable ID) (id : ID) (x : LoadTorrentParams E) {k : ℤ}
    (hk : x.ratioLimit = Binary64.milli k) (hv : ∀ t ∈ x.tags.tags, t.isValid) :
    ((BencodeStorage.load toDouble (BencodeStorage.store dir id x) id :
          Except String (LoadTorrentParams E)).map (·.toOwnedParams) = .ok x.toOwnedParams ∧
        (DBStorage.load (DBStorage.store table id x) id :
          Except String (LoadTorrentParams E)).map (·.toOwnedParams) = .ok x.toOwnedParams) ↔
      x.Storable k ∧ x.Unmarked ∧ (x.stopped = true → x.operatingMode = .autoManaged) ∧
        BencodeStorage.Loadable dir id x ∧ DBStorage.Loadable (table.lookup id) x := by
  rw [BencodeStorage.map_load_store hE, DBStorage.map_load_store x hE table id hv,
    bencode_reloaded_eq_iff hE hk, reloaded_eq_iff hE hk]
  tauto

end LoadTorrentParams

/-! ### A platform -/

/-- Characters in the order of their code units, with the ASCII digits. -/
def asciiOrder : Utils.Compare.CharOrder where
  isDigit c := decide (0x30 ≤ c.toNat ∧ c.toNat ≤ 0x39)
  toCaseFolded := id
  localeAwareCompare c c' := Utils.Compare.unicode c - Utils.Compare.unicode c'
  isDigit_toCaseFolded _ := rfl
  compares := Utils.Compare.compares_unicode
  eq_of_localeAwareCompare_eq_zero := Utils.Compare.codeUnits.eq_of_localeAwareCompare_eq_zero

theorem asciiOrder_nothingBetweenDigits (caseSensitivity : Utils.Compare.CaseSensitivity) :
    asciiOrder.NothingBetweenDigits caseSensitivity := by
  intro digit c digit' hdigit hc hdigit' ⟨hless, hgreater⟩
  simp only [asciiOrder, Utils.Compare.folded, id, ite_self, Utils.Compare.unicode,
    decide_eq_true_eq, decide_eq_false_iff_not] at *
  omega

/-- The flag of a dictionary entry. -/
def flagOf (d : LtDict) (key : String) : Bool := d.findIntValue key 0 ≠ 0

/-- The hashes of the torrent metadata. -/
def infoOf (d : LtDict) : Except String InfoHashes :=
  match d "info" with
  | some (.list [.integer v1, .integer v2]) => .ok ⟨BitVec.ofInt 160 v1, BitVec.ofInt 256 v2⟩
  | _ => .error "invalid metadata"

theorem infoOf_of_eq {d : LtDict} {ti : InfoHashes}
    (h : d "info" = some (.list [.integer ti.v1.toNat, .integer ti.v2.toNat])) :
    infoOf d = .ok ti := by
  simp only [infoOf, h, BitVec.ofInt_natCast, BitVec.ofNat_toNat, BitVec.setWidth_eq]

/-- A platform that writes what libtorrent writes of the fields modelled, without portable paths. -/
def Platform.plain : Platform where
  TorrentInfo := InfoHashes
  Rest := Unit
  writeResumeData p key :=
    match key with
    | "save_path" => some (.string p.savePath)
    | "paused" => some (.integer p.flags.paused.toInt)
    | "auto_managed" => some (.integer p.flags.autoManaged.toInt)
    | "stop_when_ready" => some (.integer p.flags.stopWhenReady.toInt)
    | "flags" => some (.integer p.flags.others.toNat)
    | "info-hash" => some (.integer p.infoHashes.v1.toNat)
    | "info-hash2" => some (.integer p.infoHashes.v2.toNat)
    | "info" => p.ti.map fun ti => .list [.integer ti.v1.toNat, .integer ti.v2.toNat]
    | _ => none
  readResumeData d := .ok
    { savePath := d.findStringValue "save_path"
      flags :=
        { paused := flagOf d "paused", autoManaged := flagOf d "auto_managed"
          stopWhenReady := flagOf d "stop_when_ready"
          others := BitVec.ofInt 64 (d.findIntValue "flags" 0) }
      infoHashes :=
        { v1 := BitVec.ofInt 160 (d.findIntValue "info-hash" 0)
          v2 := BitVec.ofInt 256 (d.findIntValue "info-hash2" 0) }
      ti := none
      rest := () }
  torrentInfo := infoOf
  isValid _ := true
  infoHashes ti := ti
  bencodedSize _ := 200
  Path := String
  pathOf s := s
  data p := p
  toString p := p
  toPortablePath p := p
  fromPortablePath p := p
  tagOrder := .natural asciiOrder asciiOrder_nothingBetweenDigits
  Certificate := List UInt8
  certificateIsNull := List.isEmpty
  certificateToPem c := c
  certificateOfPem b := b
  PrivateKey := List UInt8
  privateKeyIsNull := List.isEmpty
  privateKeyToPem k := k
  loadPrivateKey b := b
  torrentFileSizeLimit := 1000

theorem flagOf_of_eq {d : LtDict} {key : String} {b : Bool} (h : d key = some (.integer b.toInt)) :
    flagOf d key = b := by
  cases b <;> simp [flagOf, LtDict.findIntValue, h]

theorem Platform.plain_faithful : Platform.plain.Faithful where
  readResumeData p d hd _ := by
    have hkey : ∀ key : String, key ∉ LtDict.metadataKeys ∧ key ∉ qBtKeys →
        d key = plain.writeResumeData p key := fun key hkey => hd key hkey.1 hkey.2
    have h₁ : d "save_path" = some (.string p.savePath) := hkey _ (by decide)
    have h₂ : d "paused" = some (.integer p.flags.paused.toInt) := hkey _ (by decide)
    have h₃ : d "auto_managed" = some (.integer p.flags.autoManaged.toInt) := hkey _ (by decide)
    have h₄ : d "stop_when_ready" = some (.integer p.flags.stopWhenReady.toInt) :=
      hkey _ (by decide)
    have h₅ : d "flags" = some (.integer p.flags.others.toNat) := hkey _ (by decide)
    have h₆ : d "info-hash" = some (.integer p.infoHashes.v1.toNat) := hkey _ (by decide)
    have h₇ : d "info-hash2" = some (.integer p.infoHashes.v2.toNat) := hkey _ (by decide)
    simp only [plain, flagOf_of_eq h₂, flagOf_of_eq h₃, flagOf_of_eq h₄,
      LtDict.findStringValue, LtDict.findIntValue, h₁, h₅, h₆, h₇, BitVec.ofInt_natCast,
      BitVec.ofNat_toNat, BitVec.setWidth_eq]
    rfl
  noOwnKeys p key hkey := by
    simp only [qBtKeys, List.mem_cons, List.not_mem_nil, or_false] at hkey
    rcases hkey with rfl | rfl | rfl | rfl | rfl | rfl | rfl | rfl | rfl | rfl | rfl | rfl | rfl |
      rfl | rfl | rfl <;> rfl
  noMetadata p hp key hkey := by
    simp only [LtDict.metadataKeys, List.mem_cons, List.not_mem_nil, or_false] at hkey
    rcases hkey with rfl | rfl | rfl | rfl
    · simp [plain, hp]
    all_goals rfl
  torrentInfo p ti hp := by
    have hinfo : (plain.writeResumeData p).extractMetadata "info" =
        p.ti.map fun ti => .list [.integer ti.v1.toNat, .integer ti.v2.toNat] := rfl
    rw [hp] at hinfo
    exact infoOf_of_eq hinfo
  data_portable _ := rfl
  data_unmarked path cs h heq := by
    have hcs : path.toList = cs := by rw [← heq]; exact String.toList_ofList
    exact List.cons_ne_self _ _ (h.symm.trans hcs)
  empty_portable := rfl
  data_eq_empty _ := Iff.rfl
  toString_eq_empty _ := Iff.rfl

/-- A torrent without metadata in forced mode. -/
def forcedTorrent (stopped : Bool) : LoadTorrentParams Platform.plain where
  name := "name"
  category := "category"
  tags := TagSet.empty.insert ⟨"tag", by decide⟩
  savePath := "/downloads"
  downloadPath := ""
  contentLayout := .original
  operatingMode := .forced
  useAutoTMM := false
  firstLastPiecePriority := true
  hasFinishedStatus := false
  stopped := stopped
  stopCondition := .none
  ratioLimit := .milli (-2000)
  seedingTimeLimit := -2
  inactiveSeedingTimeLimit := -2
  shareLimitAction := .default
  ltAddTorrentParams :=
    { savePath := toUtf8 "/downloads"
      flags := ⟨false, true, false, 0⟩, infoHashes := ⟨1, 0⟩, ti := none, rest := () }
  addToQueueTop := false
  sslParameters := ⟨[], [], []⟩

/-- The empty directory. -/
def BencodeDir.empty : BencodeDir ℕ := ⟨∅, ∅, none⟩

theorem forcedTorrent_storable (stopped : Bool) : (forcedTorrent stopped).Storable (-2000) where
  automatic h := by cases h
  manual _ := (by decide : "/downloads" ≠ "")
  stopWhenReady h := by cases h
  ratioLimit := Binary64.keepsMilli_of_dvd (n := -2) (by decide) (by decide) (by decide)

theorem forcedTorrent_unmarked (stopped : Bool) : (forcedTorrent stopped).Unmarked := by
  cases stopped <;>
    exact ⟨by decide, by decide, by decide, fun _ => by decide, fun _ => by decide⟩

theorem forcedTorrent_loadable (stopped : Bool) :
    BencodeStorage.Loadable BencodeDir.empty 0 (forcedTorrent stopped) ∧
      DBStorage.Loadable none (forcedTorrent stopped) := by
  have hpath : decodeUtf8 (forcedTorrent stopped).adjusted.savePath ≠ "" := by
    have hkeep : decodeUtf8 (toUtf8 "/downloads") = "/downloads" :=
      decodeUtf8_toUtf8_eq_iff.2 (by decide)
    simp [forcedTorrent, plain, hkeep]
  have hnone : BencodeStorage.metadataAfter BencodeDir.empty 0 (forcedTorrent stopped) = none := rfl
  have hnone' : DBStorage.metadataAfter none (forcedTorrent stopped) = none := rfl
  refine ⟨⟨?_, ?_, hpath, Or.inl ?_⟩, ⟨?_, hpath⟩⟩
  · simp [hnone]
  · simp [hnone]
  · rfl
  · simp [hnone']

theorem forcedTorrent_tags_valid (stopped : Bool) :
    ∀ t ∈ (forcedTorrent stopped).tags.tags, t.isValid := by
  intro t ht
  obtain rfl : t = ⟨"tag", by decide⟩ := by
    simpa [forcedTorrent, TagSet.insert, TagSet.empty, insertTag] using ht
  exact ⟨by decide, by decide⟩

theorem LoadTorrentParams.kept_by_both_iff_running :
    (BencodeStorage.load (fun _ => .milli 0)
          (BencodeStorage.store BencodeDir.empty 0 (forcedTorrent false)) 0 :
        Except String (LoadTorrentParams Platform.plain)).map (·.toOwnedParams) =
      .ok (forcedTorrent false).toOwnedParams ∧
    (DBStorage.load (DBStorage.store ∅ (0 : ℕ) (forcedTorrent false)) 0 :
        Except String (LoadTorrentParams Platform.plain)).map (·.toOwnedParams) =
      .ok (forcedTorrent false).toOwnedParams :=
  (LoadTorrentParams.kept_by_both_iff plain_faithful (fun _ => .milli 0) BencodeDir.empty
      ∅ 0 (forcedTorrent false) rfl (forcedTorrent_tags_valid false)).2
    ⟨forcedTorrent_storable false, forcedTorrent_unmarked false, by decide,
      forcedTorrent_loadable false⟩

theorem LoadTorrentParams.stopped_forced_differs :
    (DBStorage.load (DBStorage.store ∅ (0 : ℕ) (forcedTorrent true)) 0 :
        Except String (LoadTorrentParams Platform.plain)).map (·.toOwnedParams) =
      .ok (forcedTorrent true).toOwnedParams ∧
    (BencodeStorage.load (fun _ => .milli 0)
          (BencodeStorage.store BencodeDir.empty 0 (forcedTorrent true)) 0 :
        Except String (LoadTorrentParams Platform.plain)).map (·.toOwnedParams) ≠
      .ok (forcedTorrent true).toOwnedParams := by
  constructor
  · rw [DBStorage.map_load_store _ plain_faithful ∅ 0 (forcedTorrent_tags_valid true)]
    exact ⟨(forcedTorrent_loadable true).2,
      (reloaded_eq_iff plain_faithful rfl).2 (forcedTorrent_storable true)⟩
  · rw [Ne, BencodeStorage.map_load_store plain_faithful,
      bencode_reloaded_eq_iff plain_faithful rfl]
    rintro ⟨-, -, -, hmode⟩
    cases hmode rfl

end QBittorrent
