import Mathlib.Data.List.Lex
import QBittorrent.Lib.AssocList
import QBittorrent.Lib.Qreal
import QBittorrent.Lib.SortRoutine

/-!
# The list of torrents

The list that a client asks for holds the torrents that a filter lets through, each as a map from the
names of its fields to their values.  It is sorted by one of the fields, and cut to a page.

* `strictWeakOn_comparator_iff` : when values can be sorted;
* `right_iff_comparable` : then the list is right.
-/

namespace QBittorrent.TorrentsInfo

open List AssocList

/-! ### Values -/

/-- The code units of a text. -/
abbrev QString := List ℕ

/-- A text of the source. -/
def text (s : String) : QString := s.toList.map Char.toNat

/-- The values of fields.  What is sent of the trackers is a value of its own type. -/
inductive QVariant (Tracker : Type) where
  | invalid
  | bool (value : Bool)
  | double (value : Qreal)
  | int (value : ℤ)
  | longLong (value : ℤ)
  | string (value : QString)
  | jsonArray (items : List Tracker)

/-- `QMetaType::Type` -/
inductive MetaType where
  | unknown | bool | double | int | longLong | string | jsonArray

variable {Tracker : Type}

namespace QVariant

def userType : QVariant Tracker → MetaType
  | .invalid => .unknown
  | .bool _ => .bool
  | .double _ => .double
  | .int _ => .int
  | .longLong _ => .longLong
  | .string _ => .string
  | .jsonArray _ => .jsonArray

/-- `value<bool>()` of a value of that type, or of none. -/
def toBool : QVariant Tracker → Bool
  | .bool value => value
  | _ => false

/-- `value<double>()`, likewise. -/
def toDouble : QVariant Tracker → Qreal
  | .double value => value
  | _ => .ofRat 0

/-- `value<int>()` and `value<qlonglong>()`, likewise. -/
def toInt : QVariant Tracker → ℤ
  | .int value => value
  | .longLong value => value
  | _ => 0

/-- `value<QString>()`, likewise. -/
def toQString : QVariant Tracker → QString
  | .string value => value
  | _ => []

end QVariant

abbrev QVariantMap (Tracker : Type) := AssocList String (QVariant Tracker)

def value (map : QVariantMap Tracker) (key : String) : QVariant Tracker :=
  (map.lookup key).getD .invalid

/-- The comparison of values, by the type of the left one. -/
def lessThan (left right : QVariant Tracker) : Bool :=
  match left.userType with
  | .bool => !left.toBool && right.toBool
  | .double => left.toDouble.lt right.toDouble
  | .int => decide (left.toInt < right.toInt)
  | .longLong => decide (left.toInt < right.toInt)
  | .string => decide (left.toQString < right.toQString)
  | .unknown | .jsonArray => false

/-! ### Torrents -/

inductive TorrentState where
  | unknown | forcedDownloading | downloading | forcedDownloadingMetadata | downloadingMetadata
  | stalledDownloading | forcedUploading | uploading | stalledUploading | checkingResumeData
  | queuedDownloading | queuedUploading | checkingUploading | checkingDownloading
  | stoppedDownloading | stoppedUploading | moving | missingFiles | error

def torrentStateToString : TorrentState → String
  | .error => "error"
  | .missingFiles => "missingFiles"
  | .uploading => "uploading"
  | .stoppedUploading => "stoppedUP"
  | .queuedUploading => "queuedUP"
  | .stalledUploading => "stalledUP"
  | .checkingUploading => "checkingUP"
  | .forcedUploading => "forcedUP"
  | .downloading => "downloading"
  | .downloadingMetadata => "metaDL"
  | .forcedDownloadingMetadata => "forcedMetaDL"
  | .stoppedDownloading => "stoppedDL"
  | .queuedDownloading => "queuedDL"
  | .stalledDownloading => "stalledDL"
  | .checkingDownloading => "checkingDL"
  | .forcedDownloading => "forcedDL"
  | .checkingResumeData => "checkingResumeData"
  | .moving => "moving"
  | .unknown => "unknown"

/-- What is sent of a torrent.  A time is in seconds since the epoch, or not valid. -/
structure Torrent (Tracker : Type) where
  id : QString
  infoHashV1 : QString
  infoHashV2 : QString
  name : QString
  createMagnetURI : QString
  wantedSize : ℤ
  progress : Qreal
  downloadPayloadRate : ℤ
  uploadPayloadRate : ℤ
  queuePosition : ℤ
  seedsCount : ℤ
  totalSeedsCount : ℤ
  leechsCount : ℤ
  totalLeechersCount : ℤ
  state : TorrentState
  eta : ℤ
  isSequentialDownload : Bool
  hasFirstLastPiecePriority : Bool
  category : QString
  tags : List QString
  superSeeding : Bool
  isForced : Bool
  savePath : QString
  downloadPath : QString
  contentPath : QString
  rootPath : QString
  addedTime : Option ℤ
  completedTime : Option ℤ
  currentTracker : QString
  trackers : List Tracker
  downloadLimit : ℤ
  uploadLimit : ℤ
  totalDownload : ℤ
  totalUpload : ℤ
  totalPayloadDownload : ℤ
  totalPayloadUpload : ℤ
  remainingSize : ℤ
  completedSize : ℤ
  maxRatio : Qreal
  maxSeedingTime : ℤ
  maxInactiveSeedingTime : ℤ
  realRatio : Qreal
  ratioLimit : Qreal
  popularity : Qreal
  seedingTimeLimit : ℤ
  inactiveSeedingTimeLimit : ℤ
  lastSeenComplete : Option ℤ
  isAutoTMMEnabled : Bool
  activeTime : ℤ
  finishedTime : ℤ
  timeSinceActivity : ℤ
  distributedCopies : Qreal
  nextAnnounce : ℤ
  comment : QString
  hasMetadata : Bool
  isPrivate : Bool
  totalSize : ℤ

/-- `Utils::DateTime::toSecsSinceEpoch` -/
def toSecsSinceEpoch (dateTime : Option ℤ) : ℤ := dateTime.getD (-1)

/-- `Utils::String::joinIntoString` -/
def joinIntoString (container : List QString) (separator : QString) : QString :=
  separator.intercalate container

def adjustQueuePosition (position : ℤ) : ℤ := if position < 0 then 0 else position + 1

/-- `MAX_RATIO` is infinite. -/
def adjustRatio (ratio : Qreal) : Qreal := if ratio.ge .infinity then .ofRat (-1) else ratio

/-- `currentSecs` is the time at which it is asked for. -/
def getLastActivityTime (currentSecs : ℤ) (torrent : Torrent Tracker) : ℤ :=
  if torrent.timeSinceActivity < 0 then toSecsSinceEpoch torrent.addedTime
  else currentSecs - torrent.timeSinceActivity

def serialize (currentSecs : ℤ) (torrent : Torrent Tracker) : QVariantMap Tracker :=
  [("hash", .string torrent.id),
    ("infohash_v1", .string torrent.infoHashV1),
    ("infohash_v2", .string torrent.infoHashV2),
    ("name", .string torrent.name),
    ("magnet_uri", .string torrent.createMagnetURI),
    ("size", .longLong torrent.wantedSize),
    ("progress", .double torrent.progress),
    ("dlspeed", .int torrent.downloadPayloadRate),
    ("upspeed", .int torrent.uploadPayloadRate),
    ("priority", .int (adjustQueuePosition torrent.queuePosition)),
    ("num_seeds", .int torrent.seedsCount),
    ("num_complete", .int torrent.totalSeedsCount),
    ("num_leechs", .int torrent.leechsCount),
    ("num_incomplete", .int torrent.totalLeechersCount),
    ("state", .string (text (torrentStateToString torrent.state))),
    ("eta", .longLong torrent.eta),
    ("seq_dl", .bool torrent.isSequentialDownload),
    ("f_l_piece_prio", .bool torrent.hasFirstLastPiecePriority),
    ("category", .string torrent.category),
    ("tags", .string (joinIntoString torrent.tags (text ", "))),
    ("super_seeding", .bool torrent.superSeeding),
    ("force_start", .bool torrent.isForced),
    ("save_path", .string torrent.savePath),
    ("download_path", .string torrent.downloadPath),
    ("content_path", .string torrent.contentPath),
    ("root_path", .string torrent.rootPath),
    ("added_on", .longLong (toSecsSinceEpoch torrent.addedTime)),
    ("completion_on", .longLong (toSecsSinceEpoch torrent.completedTime)),
    ("tracker", .string torrent.currentTracker),
    ("trackers_count", .longLong torrent.trackers.length),
    ("dl_limit", .int torrent.downloadLimit),
    ("up_limit", .int torrent.uploadLimit),
    ("downloaded", .longLong torrent.totalDownload),
    ("uploaded", .longLong torrent.totalUpload),
    ("downloaded_session", .longLong torrent.totalPayloadDownload),
    ("uploaded_session", .longLong torrent.totalPayloadUpload),
    ("amount_left", .longLong torrent.remainingSize),
    ("completed", .longLong torrent.completedSize),
    ("max_ratio", .double torrent.maxRatio),
    ("max_seeding_time", .int torrent.maxSeedingTime),
    ("max_inactive_seeding_time", .int torrent.maxInactiveSeedingTime),
    ("ratio", .double (adjustRatio torrent.realRatio)),
    ("ratio_limit", .double torrent.ratioLimit),
    ("popularity", .double torrent.popularity),
    ("seeding_time_limit", .int torrent.seedingTimeLimit),
    ("inactive_seeding_time_limit", .int torrent.inactiveSeedingTimeLimit),
    ("seen_complete", .longLong (toSecsSinceEpoch torrent.lastSeenComplete)),
    ("auto_tmm", .bool torrent.isAutoTMMEnabled),
    ("time_active", .longLong torrent.activeTime),
    ("seeding_time", .longLong torrent.finishedTime),
    ("last_activity", .longLong (getLastActivityTime currentSecs torrent)),
    ("availability", .double torrent.distributedCopies),
    ("reannounce", .longLong torrent.nextAnnounce),
    ("comment", .string torrent.comment),
    ("private", if torrent.hasMetadata then .bool torrent.isPrivate else .invalid),
    ("total_size", .longLong torrent.totalSize),
    ("has_metadata", .bool torrent.hasMetadata)]

/-! ### The request -/

/-- The parameters of the request, where `match` is the filter that they make. -/
structure InfoParams (Tracker : Type) where
  filter : Torrent Tracker → Bool
  sortedColumn : String
  reverse : Bool
  limit : ℤ
  offset : ℤ
  includeTrackers : Bool

inductive APIError where
  | badParams (message : String)

variable (currentSecs : Torrent Tracker → ℤ) (params : InfoParams Tracker)

def serializedTorrent (torrent : Torrent Tracker) : QVariantMap Tracker :=
  let serializedTorrent := serialize (currentSecs torrent) torrent
  if params.includeTrackers then
    AssocList.set "trackers" (.jsonArray torrent.trackers) serializedTorrent
  else serializedTorrent

/-- The list before it is sorted. -/
def torrentList (torrents : List (Torrent Tracker)) : List (QVariantMap Tracker) :=
  (torrents.filter params.filter).map (serializedTorrent currentSecs params)

/-- The comparison that is handed to `std::sort`. -/
def comparator (torrent1 torrent2 : QVariantMap Tracker) : Bool :=
  let value1 := value torrent1 params.sortedColumn
  let value2 := value torrent2 params.sortedColumn
  if params.reverse then lessThan value2 value1 else lessThan value1 value2

/-- `QList::mid`, for a position that is not negative. -/
def mid (list : List (QVariantMap Tracker)) (pos : ℕ) (length : ℤ) : List (QVariantMap Tracker) :=
  if length < 0 then list.drop pos else (list.drop pos).take length.toNat

def page (list : List (QVariantMap Tracker)) : List (QVariantMap Tracker) :=
  let size : ℤ := list.length
  let offset := if params.offset < 0 then size + params.offset else params.offset
  let offset := if offset ≥ size ∨ offset < 0 then 0 else offset
  let limit := if params.limit ≤ 0 then -1 else params.limit
  if limit > 0 ∨ offset > 0 then mid list offset.toNat limit else list

def infoAction (S : SortRoutine (QVariantMap Tracker)) (torrents : List (Torrent Tracker)) :
    Except APIError (List (QVariantMap Tracker)) :=
  match torrentList currentSecs params torrents with
  | [] => .ok []
  | first :: rest =>
    if params.sortedColumn = "" then .ok (page params (first :: rest))
    else if (first.lookup params.sortedColumn).isNone then
      .error (.badParams "'sort' parameter is invalid")
    else .ok (page params (S.sort (comparator params) (first :: rest)))

/-! ### What is asked of it -/

variable {currentSecs params} {S : SortRoutine (QVariantMap Tracker)}
  {torrents : List (Torrent Tracker)} {torrent torrent' : Torrent Tracker}
  {map map' : QVariantMap Tracker} {key : String}

/-- Not a number. -/
def QVariant.isNaN : QVariant Tracker → Bool
  | .double .nan => true
  | _ => false

/-- The part of a list from `k` times `n`, with `n` elements at most. -/
def pageAt (list : List (QVariantMap Tracker)) (n k : ℕ) : List (QVariantMap Tracker) :=
  (list.drop (k * n)).take n

variable (currentSecs params S torrents) in
/-- The list is sorted by values that can be compared, and the pages are all of it. -/
structure Right : Prop where
  sameType : ∀ torrent₁ ∈ torrentList currentSecs params torrents,
    ∀ torrent₂ ∈ torrentList currentSecs params torrents,
      (value torrent₁ params.sortedColumn).userType = (value torrent₂ params.sortedColumn).userType
  strictWeak : StrictWeakOn (comparator params) (torrentList currentSecs params torrents)
  sorted : ∃ list, infoAction currentSecs { params with limit := 0, offset := 0 } S torrents = .ok list ∧
    list.Perm (torrentList currentSecs params torrents) ∧
    (list.Pairwise fun torrent₁ torrent₂ => comparator params torrent₂ torrent₁ = false) ∧
    ∀ n > 0, ∃ count, (∀ k, k < count ↔ k * n < list.length) ∧
      (∀ k < count, infoAction currentSecs { params with limit := n, offset := (k * n : ℕ) } S torrents =
        .ok (pageAt list n k)) ∧
      (List.range count).flatMap (pageAt list n) = list

variable (currentSecs params torrents) in
/-- Where the list is sorted by whether torrents are private, all of them have metadata or none has; and
if a value is not a number, no value is less than another one. -/
structure Comparable : Prop where
  hasMetadata : params.sortedColumn = "private" →
    (∀ torrent ∈ torrents.filter params.filter, torrent.hasMetadata = true) ∨
      ∀ torrent ∈ torrents.filter params.filter, torrent.hasMetadata = false
  isNaN : (∃ torrent ∈ torrents.filter params.filter,
      (value (serializedTorrent currentSecs params torrent) params.sortedColumn).isNaN = true) →
    ∀ torrent₁ ∈ torrents.filter params.filter, ∀ torrent₂ ∈ torrents.filter params.filter,
      lessThan (value (serializedTorrent currentSecs params torrent₁) params.sortedColumn)
        (value (serializedTorrent currentSecs params torrent₂) params.sortedColumn) = false

/-! ### The types of the values -/

/-- Maps with the same fields, of the same types but for one. -/
def Alike (map map' : QVariantMap Tracker) : Prop :=
  List.Forall₂ (fun entry entry' => entry.1 = entry'.1 ∧
    (entry.1 ≠ "private" → entry.2.userType = entry'.2.userType)) map map'

theorem Alike.userType_value (h : Alike map map') (hkey : key ≠ "private") :
    (value map key).userType = (value map' key).userType := by
  induction h with
  | nil => rfl
  | @cons entry entry' map map' hentry _ ih =>
    obtain ⟨k, v⟩ := entry
    obtain ⟨k', v'⟩ := entry'
    obtain ⟨rfl, htype⟩ := hentry
    rw [value, value, lookup_cons, lookup_cons]
    cases heq : key == k with
    | true => exact htype (fun hk => hkey ((beq_iff_eq.1 heq).trans hk))
    | false => exact ih

theorem alike_serialize (currentSecs currentSecs' : ℤ) (torrent torrent' : Torrent Tracker) :
    Alike (serialize currentSecs torrent) (serialize currentSecs' torrent') := by
  simp [Alike, serialize, QVariant.userType]

theorem alike_serializedTorrent (torrent torrent' : Torrent Tracker) :
    Alike (serializedTorrent currentSecs params torrent) (serializedTorrent currentSecs params torrent') := by
  rw [serializedTorrent, serializedTorrent]
  split_ifs
  · exact rel_append (alike_serialize ..) (.cons ⟨rfl, fun _ => rfl⟩ .nil)
  · exact alike_serialize ..

theorem value_private : value (serializedTorrent currentSecs params torrent) "private" =
    if torrent.hasMetadata then .bool torrent.isPrivate else .invalid := by
  have hserialize (n : ℤ) : (serialize n torrent).lookup "private" =
      some (if torrent.hasMetadata then .bool torrent.isPrivate else .invalid) := rfl
  rw [serializedTorrent, value]
  by_cases hinclude : params.includeTrackers = true
  · rw [if_pos hinclude, lookup_set, if_neg (by decide), hserialize]
    rfl
  · rw [if_neg hinclude, hserialize]
    rfl

theorem mem_torrentList_iff : map ∈ torrentList currentSecs params torrents ↔
    ∃ torrent ∈ torrents.filter params.filter, serializedTorrent currentSecs params torrent = map := by
  rw [torrentList, mem_map]

variable (currentSecs) in
theorem sameType_iff : (∀ torrent₁ ∈ torrentList currentSecs params torrents,
    ∀ torrent₂ ∈ torrentList currentSecs params torrents,
      (value torrent₁ params.sortedColumn).userType = (value torrent₂ params.sortedColumn).userType) ↔
    (params.sortedColumn = "private" →
      (∀ torrent ∈ torrents.filter params.filter, torrent.hasMetadata = true) ∨
        ∀ torrent ∈ torrents.filter params.filter, torrent.hasMetadata = false) := by
  have hprivate (t : Torrent Tracker) :
      (value (serializedTorrent currentSecs params t) "private").userType =
        if t.hasMetadata then .bool else .unknown := by
    rw [value_private]
    split_ifs <;> rfl
  constructor
  · intro h hcolumn
    rw [hcolumn] at h
    by_contra hnot
    rw [not_or] at hnot
    simp only [not_forall] at hnot
    obtain ⟨⟨t₁, ht₁, h₁⟩, t₂, ht₂, h₂⟩ := hnot
    have htype := h _ (mem_torrentList_iff.2 ⟨t₁, ht₁, rfl⟩) _ (mem_torrentList_iff.2 ⟨t₂, ht₂, rfl⟩)
    rw [hprivate, hprivate, if_neg h₁, if_pos (Bool.eq_true_of_not_eq_false h₂)] at htype
    cases htype
  · intro h torrent₁ h₁ torrent₂ h₂
    obtain ⟨t₁, ht₁, rfl⟩ := mem_torrentList_iff.1 h₁
    obtain ⟨t₂, ht₂, rfl⟩ := mem_torrentList_iff.1 h₂
    by_cases hcolumn : params.sortedColumn = "private"
    · rw [hcolumn, hprivate, hprivate]
      obtain hall | hall := h hcolumn
      · rw [hall t₁ ht₁, hall t₂ ht₂]
      · rw [hall t₁ ht₁, hall t₂ ht₂]
    · exact (alike_serializedTorrent t₁ t₂).userType_value hcolumn

/-! ### The comparison -/

theorem strictWeakOn_comparator_iff {list : List (QVariantMap Tracker)} :
    StrictWeakOn (comparator params) list ↔ StrictWeakOn (fun torrent₁ torrent₂ =>
      lessThan (value torrent₁ params.sortedColumn) (value torrent₂ params.sortedColumn)) list := by
  cases hreverse : params.reverse with
  | false =>
    have heq : comparator params = fun torrent₁ torrent₂ =>
        lessThan (value torrent₁ params.sortedColumn) (value torrent₂ params.sortedColumn) := by
      funext torrent₁ torrent₂
      rw [comparator, hreverse]
      rfl
    rw [heq]
  | true =>
    have heq : comparator params = fun torrent₁ torrent₂ =>
        lessThan (value torrent₂ params.sortedColumn) (value torrent₁ params.sortedColumn) := by
      funext torrent₁ torrent₂
      rw [comparator, hreverse]
      rfl
    rw [heq]
    exact ⟨StrictWeakOn.flip, StrictWeakOn.flip⟩

section Values

variable {β : Type*} {list : List β} {f : β → QVariant Tracker} {τ : MetaType}

def doubleKey : Qreal → WithBot (WithBot (WithTop ℚ))
  | .nan => ⊥
  | .number a => a

theorem isNaN_iff {v : QVariant Tracker} (h : v.userType = .double) :
    v.isNaN = true ↔ v.toDouble = .nan := by
  cases v with
  | double a => cases a <;> simp [QVariant.isNaN, QVariant.toDouble]
  | _ => cases h

theorem strictWeakOn_lessThan (htype : ∀ a ∈ list, (f a).userType = τ)
    (hnan : (∃ a ∈ list, (f a).isNaN = true) →
      ∀ a ∈ list, ∀ b ∈ list, lessThan (f a) (f b) = false) :
    StrictWeakOn (fun a b => lessThan (f a) (f b)) list := by
  cases τ with
  | unknown =>
    refine strictWeakOn_of_forall_eq_false fun a ha b _ => ?_
    rw [lessThan, htype a ha]
  | jsonArray =>
    refine strictWeakOn_of_forall_eq_false fun a ha b _ => ?_
    rw [lessThan, htype a ha]
  | bool =>
    refine strictWeakOn_of_key (fun a => (f a).toBool) fun a ha b _ => ?_
    rw [lessThan, htype a ha]
    cases (f a).toBool <;> cases (f b).toBool <;> rfl
  | int =>
    refine strictWeakOn_of_key (fun a => (f a).toInt) fun a ha b _ => ?_
    rw [lessThan, htype a ha]
  | longLong =>
    refine strictWeakOn_of_key (fun a => (f a).toInt) fun a ha b _ => ?_
    rw [lessThan, htype a ha]
  | string =>
    refine strictWeakOn_of_key (fun a => (f a).toQString) fun a ha b _ => ?_
    rw [lessThan, htype a ha]
    exact decide_eq_decide.2 Iff.rfl
  | double =>
    by_cases hsome : ∃ a ∈ list, (f a).isNaN = true
    · exact strictWeakOn_of_forall_eq_false (hnan hsome)
    · refine strictWeakOn_of_key (fun a => doubleKey (f a).toDouble) fun a ha b hb => ?_
      have hnumber {a : β} (ha : a ∈ list) : ∃ x, (f a).toDouble = .number x := by
        cases hx : (f a).toDouble with
        | nan => exact absurd ⟨a, ha, (isNaN_iff (htype a ha)).2 hx⟩ hsome
        | number x => exact ⟨x, rfl⟩
      obtain ⟨x, hx⟩ := hnumber ha
      obtain ⟨y, hy⟩ := hnumber hb
      rw [lessThan, htype a ha]
      simp only [hx, hy, Qreal.lt_number, doubleKey, WithBot.coe_lt_coe]

theorem lessThan_eq_false_of_isNaN (htype : ∀ a ∈ list, (f a).userType = τ)
    (h : StrictWeakOn (fun a b => lessThan (f a) (f b)) list) {c : β} (hc : c ∈ list)
    (hnan : (f c).isNaN = true) {a b : β} (ha : a ∈ list) (hb : b ∈ list) :
    lessThan (f a) (f b) = false := by
  have hdouble : τ = .double := by
    rw [← htype c hc]
    cases hv : f c with
    | double x => rfl
    | _ => rw [hv] at hnan; cases hnan
  subst hdouble
  have hcnan : (f c).toDouble = .nan := (isNaN_iff (htype c hc)).1 hnan
  have hleft {a : β} (ha : a ∈ list) : lessThan (f a) (f c) = false := by
    simp only [lessThan, htype a ha, hcnan, Qreal.lt_nan_right]
  have hright {a : β} : lessThan (f c) (f a) = false := by
    simp only [lessThan, htype c hc, hcnan, Qreal.lt_nan_left]
  exact h.incomparable a ha c hc b hb (hleft ha) hright hright (hleft hb)

end Values

/-! ### The pages -/

theorem page_eq {list : List (QVariantMap Tracker)} {n k : ℕ} (hn : 0 < n) (hk : k * n < list.length) :
    page { params with limit := n, offset := (k * n : ℕ) } list = pageAt list n k := by
  have hneg : ¬ ((k * n : ℕ) : ℤ) < 0 := by omega
  have hoffset : ¬ (((k * n : ℕ) : ℤ) ≥ list.length ∨ ((k * n : ℕ) : ℤ) < 0) := by omega
  have hlimit : ¬ (n : ℤ) ≤ 0 := by omega
  have hpos : (n : ℤ) > 0 ∨ ((k * n : ℕ) : ℤ) > 0 := by omega
  have hlength : ¬ (n : ℤ) < 0 := by omega
  simp only [page, if_neg hneg, if_neg hoffset, if_neg hlimit, if_pos hpos, mid, if_neg hlength]
  rfl

theorem page_all (list : List (QVariantMap Tracker)) :
    page { params with limit := 0, offset := 0 } list = list := by
  simp [page]

theorem exists_count {n : ℕ} (hn : 0 < n) (length : ℕ) : ∃ count, ∀ k, k < count ↔ k * n < length := by
  refine ⟨(length + n - 1) / n, fun k => ?_⟩
  rw [← Nat.succ_le_iff, Nat.le_div_iff_mul_le hn, Nat.succ_mul]
  omega

theorem flatMap_pageAt {list : List (QVariantMap Tracker)} {n count : ℕ}
    (hcount : ∀ k, k < count ↔ k * n < list.length) : (List.range count).flatMap (pageAt list n) = list := by
  have hlength := (not_congr (hcount count)).1 (Nat.lt_irrefl count)
  exact (flatMap_pages n count list).trans (take_of_length_le (Nat.le_of_not_lt hlength))

/-! ### The list -/

theorem lookup_empty (torrent : Torrent Tracker) :
    (serializedTorrent currentSecs params torrent).lookup "" = none := by
  have hserialize (n : ℤ) : (serialize n torrent).lookup "" = none := rfl
  rw [serializedTorrent]
  split_ifs
  · rw [lookup_set, if_neg (by decide), hserialize]
  · exact hserialize _

theorem infoAction_eq (hcolumn : ∀ torrent : Torrent Tracker, params.sortedColumn ∈
      AssocList.keys (serializedTorrent currentSecs params torrent)) (limit offset : ℤ)
    (hsort : StrictWeakOn (comparator params) (torrentList currentSecs params torrents)) :
    infoAction currentSecs { params with limit := limit, offset := offset } S torrents =
      .ok (page { params with limit := limit, offset := offset }
        (S.sort (comparator params) (torrentList currentSecs params torrents))) := by
  have hlist : torrentList currentSecs { params with limit := limit, offset := offset } torrents =
      torrentList currentSecs params torrents := rfl
  have hcomparator : comparator { params with limit := limit, offset := offset } = comparator params := rfl
  rw [infoAction, hlist, hcomparator]
  cases hrows : torrentList currentSecs params torrents with
  | nil =>
    have hnil : S.sort (comparator params) [] = [] := by
      rw [hrows] at hsort
      exact (S.perm hsort).eq_nil
    rw [hnil]
    simp [page, mid]
  | cons first rest =>
    obtain ⟨torrent, -, rfl⟩ := mem_torrentList_iff.1 (hrows ▸ mem_cons_self : first ∈ _)
    obtain ⟨v, hv⟩ := mem_keys_iff.1 (hcolumn torrent)
    have hne : params.sortedColumn ≠ "" := by
      intro hempty
      rw [hempty, lookup_empty] at hv
      cases hv
    have hnone : ¬ ((serializedTorrent currentSecs params torrent).lookup params.sortedColumn).isNone := by
      rw [hv]
      exact Bool.false_ne_true
    exact (if_neg hne).trans (if_neg hnone)

theorem strictWeakOn_of_comparable (hcomparable : Comparable currentSecs params torrents) :
    StrictWeakOn (comparator params) (torrentList currentSecs params torrents) := by
  have htype := (sameType_iff currentSecs).2 hcomparable.hasMetadata
  cases hrows : torrentList currentSecs params torrents with
  | nil => exact strictWeakOn_of_forall_eq_false (by simp)
  | cons first rest =>
    rw [← hrows, strictWeakOn_comparator_iff]
    have hfirst : first ∈ torrentList currentSecs params torrents := hrows ▸ mem_cons_self
    refine strictWeakOn_lessThan (fun a ha => htype a ha first hfirst) ?_
    rintro ⟨a, ha, hnan⟩ b hb c hc
    obtain ⟨t, ht, rfl⟩ := mem_torrentList_iff.1 ha
    obtain ⟨t₁, ht₁, rfl⟩ := mem_torrentList_iff.1 hb
    obtain ⟨t₂, ht₂, rfl⟩ := mem_torrentList_iff.1 hc
    exact hcomparable.isNaN ⟨t, ht, hnan⟩ t₁ ht₁ t₂ ht₂

theorem comparable_of_strictWeakOn (htype : ∀ torrent₁ ∈ torrentList currentSecs params torrents,
      ∀ torrent₂ ∈ torrentList currentSecs params torrents,
        (value torrent₁ params.sortedColumn).userType = (value torrent₂ params.sortedColumn).userType)
    (h : StrictWeakOn (comparator params) (torrentList currentSecs params torrents)) :
    Comparable currentSecs params torrents where
  hasMetadata := (sameType_iff currentSecs).1 htype
  isNaN := by
    rintro ⟨t, ht, hnan⟩ t₁ ht₁ t₂ ht₂
    have hmem {t : Torrent Tracker} (ht : t ∈ torrents.filter params.filter) :
        serializedTorrent currentSecs params t ∈ torrentList currentSecs params torrents :=
      mem_torrentList_iff.2 ⟨t, ht, rfl⟩
    have hlt := lessThan_eq_false_of_isNaN (fun a ha => htype a ha _ (hmem ht))
      (strictWeakOn_comparator_iff.1 h) (hmem ht) hnan (hmem ht₁) (hmem ht₂)
    exact hlt

/-- **The list of torrents is right exactly if the values are comparable**: for every field that it is
sorted by, in both directions. -/
theorem right_iff_comparable (S : SortRoutine (QVariantMap Tracker)) (torrents : List (Torrent Tracker))
    (hcolumn : ∀ torrent : Torrent Tracker,
      params.sortedColumn ∈ AssocList.keys (serializedTorrent currentSecs params torrent)) :
    Right currentSecs params S torrents ↔ Comparable currentSecs params torrents := by
  constructor
  · intro h
    exact comparable_of_strictWeakOn h.sameType h.strictWeak
  · intro hcomparable
    have hstrict := strictWeakOn_of_comparable hcomparable
    have hperm := S.perm hstrict
    refine ⟨(sameType_iff currentSecs).2 hcomparable.hasMetadata, hstrict,
      S.sort (comparator params) (torrentList currentSecs params torrents), ?_, hperm, S.sorted hstrict,
      fun n hn => ?_⟩
    · rw [infoAction_eq hcolumn 0 0 hstrict, page_all]
    · obtain ⟨count, hcount⟩ := exists_count hn
        (S.sort (comparator params) (torrentList currentSecs params torrents)).length
      refine ⟨count, hcount, fun k hk => ?_, flatMap_pageAt hcount⟩
      rw [infoAction_eq hcolumn n (k * n : ℕ) hstrict, page_eq hn ((hcount k).1 hk)]

/-! ### Private torrents -/

/-- A torrent of which nothing is known but its name. -/
def unnamed (name : String) : Torrent Unit where
  id := []
  infoHashV1 := []
  infoHashV2 := []
  name := text name
  createMagnetURI := []
  wantedSize := 0
  progress := .ofRat 0
  downloadPayloadRate := 0
  uploadPayloadRate := 0
  queuePosition := -1
  seedsCount := 0
  totalSeedsCount := 0
  leechsCount := 0
  totalLeechersCount := 0
  state := .downloadingMetadata
  eta := 8640000
  isSequentialDownload := false
  hasFirstLastPiecePriority := false
  category := []
  tags := []
  superSeeding := false
  isForced := false
  savePath := []
  downloadPath := []
  contentPath := []
  rootPath := []
  addedTime := none
  completedTime := none
  currentTracker := []
  trackers := []
  downloadLimit := 0
  uploadLimit := 0
  totalDownload := 0
  totalUpload := 0
  totalPayloadDownload := 0
  totalPayloadUpload := 0
  remainingSize := 0
  completedSize := 0
  maxRatio := .ofRat (-1)
  maxSeedingTime := -1
  maxInactiveSeedingTime := -1
  realRatio := .ofRat 0
  ratioLimit := .ofRat (-2)
  popularity := .ofRat 0
  seedingTimeLimit := -2
  inactiveSeedingTimeLimit := -2
  lastSeenComplete := none
  isAutoTMMEnabled := false
  activeTime := 0
  finishedTime := 0
  timeSinceActivity := -1
  distributedCopies := .ofRat 0
  nextAnnounce := 0
  comment := []
  hasMetadata := false
  isPrivate := false
  totalSize := 0

def mixedTorrents : List (Torrent Unit) :=
  [unnamed "a", { unnamed "b" with hasMetadata := true },
    { unnamed "c" with hasMetadata := true, isPrivate := true }]

def sortedBy (column : String) : InfoParams Unit where
  filter _ := true
  sortedColumn := column
  reverse := false
  limit := 0
  offset := 0
  includeTrackers := false

/-- Sorted by their names, they are right. -/
theorem right_name : Right (fun _ => 0) (sortedBy "name") SortRoutine.insertion mixedTorrents := by
  refine (right_iff_comparable SortRoutine.insertion mixedTorrents fun torrent => ?_).2 ⟨?_, ?_⟩
  · simp [sortedBy, serializedTorrent, serialize, AssocList.keys]
  · intro hprivate
    exact absurd hprivate (by decide)
  · rintro ⟨torrent, -, hnan⟩
    exact absurd hnan (by rw [show value (serializedTorrent (fun _ => 0) (sortedBy "name") torrent)
      (sortedBy "name").sortedColumn = .string torrent.name from rfl]; exact Bool.false_ne_true)

/-- Sorted by whether they are private, they are not: the torrent without metadata is neither less nor
greater than the others, but one of these is less than the other. -/
theorem not_right_private :
    ¬ Right (fun _ => 0) (sortedBy "private") SortRoutine.insertion mixedTorrents := by
  intro h
  have hincomparable := h.strictWeak.incomparable _ (mem_torrentList_iff.2 ⟨_, .tail _ (.head _), rfl⟩)
    _ (mem_torrentList_iff.2 ⟨_, .head _, rfl⟩)
    _ (mem_torrentList_iff.2 ⟨_, .tail _ (.tail _ (.head _)), rfl⟩) rfl rfl rfl rfl
  exact Bool.false_ne_true (hincomparable.symm.trans rfl)

end QBittorrent.TorrentsInfo
