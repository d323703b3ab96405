import QBittorrent.Lib.Machine
import QBittorrent.Torrent.TrackerEntry

/-!
# The trackers of a torrent

A torrent keeps a list of its trackers next to the one of libtorrent.  `addTrackers`,
`removeTrackers` and `replaceTrackers` change both and tell the session what was added or removed.
Entries are compared by their URLs; libtorrent has tiers of eight bits.

* `statuses_removeLoop` : removal;
* `right_iff_inRange` : when both lists agree in every state.
-/

namespace QBittorrent.BitTorrent

open List

/-! ### libtorrent -/

/-- An `announce_entry`: the URL in UTF-8, and a tier of eight bits. -/
structure NativeEntry where
  url : List UInt8
  tier : Fin 256

/-- The tracker list of libtorrent.  A torrent is added with URLs and tiers, of which empty URLs are
left out; a URL that is known is not added again; the whole list can be replaced. -/
structure NativeTrackers where
  trackers : List (List UInt8 × ℤ) → List NativeEntry
  trackers_ne_nil : ∀ l, [] ∉ (trackers l).map (·.url)
  addTracker : List NativeEntry → NativeEntry → List NativeEntry
  addTracker_known : ∀ l entry, entry.url ∈ l.map (·.url) → addTracker l entry = l
  addTracker_new : ∀ l entry, entry.url ∉ l.map (·.url) → entry.url ≠ [] →
    (addTracker l entry).Perm (entry :: l)
  replaceTrackers : List NativeEntry → List NativeEntry
  replaceTrackers_perm : ∀ l, (l.map (·.url)).Nodup → [] ∉ l.map (·.url) →
    (replaceTrackers l).Perm l

/-- `QString::toStdString`. -/
def nativeUrl (url : List Char) : List UInt8 := toUtf8 (String.ofList url)

def makeNativeAnnounceEntry (tracker : TrackerEntry) : NativeEntry where
  url := nativeUrl tracker.url
  tier := ⟨(tracker.tier % 256).toNat, by omega⟩

def ofNative (entry : NativeEntry) : TrackerEntry where
  url := (decodeUtf8 entry.url).toList
  tier := entry.tier.val

/-! ### The torrent -/

/-- What the session is told by a call. -/
inductive TrackerNotice where
  | none
  | added (trackers : List TrackerEntry)
  | removed (trackers : List (List Char))
  | changed

/-- `m_trackerEntryStatuses`, the list of libtorrent, and for the last call the entries before it
and what the session was told. -/
structure TorrentTrackers where
  statuses : List TrackerEntry
  native : List NativeEntry
  previous : List TrackerEntry
  notice : TrackerNotice

abbrev TierSort := StdSort TrackerEntry fun left right => decide (left.tier < right.tier)

def urls (trackers : List TrackerEntry) : List (List Char) := trackers.map (·.url)

instance (url : List Char) (trackers : List TrackerEntry) : Decidable (url ∈ urls trackers) :=
  decidable_of_iff (trackers.any fun tracker => tracker.url = url) (by simp [urls])

/-- A hash set of entries, which are equal if their URLs are: the first entry of each URL. -/
def toSet (trackers : List TrackerEntry) : List TrackerEntry :=
  trackers.foldl (fun set tracker => if tracker.url ∈ urls set then set else set ++ [tracker]) []

def withUrls (trackers : List TrackerEntry) : List TrackerEntry :=
  trackers.filter fun tracker => tracker.url ≠ []

/-- `newTrackerSet` of `addTrackers`. -/
def newTrackerSet (statuses trackers : List TrackerEntry) : List TrackerEntry :=
  (toSet (withUrls trackers)).filter fun tracker => tracker.url ∉ urls statuses

/-- `uniqueTrackers` of `replaceTrackers`. -/
def uniqueTrackers (trackers : List TrackerEntry) : List TrackerEntry := toSet (withUrls trackers)

/-! ### Sets of entries -/

section

variable {trackers set statuses : List TrackerEntry} {url : List Char} {tracker : TrackerEntry}

theorem mem_urls : url ∈ urls trackers ↔ ∃ tracker ∈ trackers, tracker.url = url := mem_map

theorem mem_urls_of_mem (h : tracker ∈ trackers) :
    tracker.url ∈ urls trackers := mem_urls.2 ⟨tracker, h, rfl⟩

theorem urls_append (trackers others : List TrackerEntry) :
    urls (trackers ++ others) = urls trackers ++ urls others := map_append

theorem nodup_urls_cons :
    (urls (tracker :: trackers)).Nodup ↔ tracker.url ∉ urls trackers ∧ (urls trackers).Nodup :=
  nodup_cons

theorem nodup_urls_nil : (urls []).Nodup := nodup_nil

theorem foldl_toSet (h : (urls set).Nodup) :
    (urls (trackers.foldl (fun set tracker =>
        if tracker.url ∈ urls set then set else set ++ [tracker]) set)).Nodup ∧
      ∀ tracker ∈ trackers.foldl (fun set tracker =>
        if tracker.url ∈ urls set then set else set ++ [tracker]) set,
        tracker ∈ set ∨ tracker ∈ trackers := by
  induction trackers generalizing set with
  | nil => exact ⟨h, fun tracker hmem => .inl hmem⟩
  | cons first trackers ih =>
    rw [foldl_cons]
    by_cases hfirst : first.url ∈ urls set
    · rw [if_pos hfirst]
      exact ⟨(ih h).1, fun tracker hmem => ((ih h).2 tracker hmem).imp_right
        (mem_cons_of_mem _)⟩
    · rw [if_neg hfirst]
      have hset : (urls (set ++ [first])).Nodup := by
        rw [urls_append, nodup_append]
        refine ⟨h, nodup_singleton _, fun url hurl other hother => ?_⟩
        obtain rfl : other = first.url := mem_singleton.1 hother
        exact fun heq => hfirst (heq ▸ hurl)
      refine ⟨(ih hset).1, fun tracker hmem => ?_⟩
      rcases (ih hset).2 tracker hmem with hold | hrest
      · rcases mem_append.1 hold with hold | hnew
        · exact .inl hold
        · exact .inr (mem_singleton.1 hnew ▸ mem_cons_self)
      · exact .inr (mem_cons_of_mem _ hrest)

theorem nodup_toSet : (urls (toSet trackers)).Nodup := (foldl_toSet nodup_urls_nil).1

theorem mem_of_mem_toSet (h : tracker ∈ toSet trackers) : tracker ∈ trackers :=
  ((foldl_toSet nodup_urls_nil).2 tracker h).resolve_left not_mem_nil

theorem nodup_newTrackerSet : (urls (newTrackerSet statuses trackers)).Nodup :=
  nodup_toSet.sublist (filter_sublist.map _)

theorem not_mem_of_mem_newTrackerSet (h : tracker ∈ newTrackerSet statuses trackers) :
    tracker.url ∉ urls statuses :=
  of_decide_eq_true (mem_filter.1 h).2

theorem url_ne_nil_of_mem_toSet (h : tracker ∈ toSet (withUrls trackers)) :
    tracker.url ≠ [] := of_decide_eq_true (mem_filter.1 (mem_of_mem_toSet h)).2

end

namespace TorrentTrackers

variable (N : NativeTrackers) (S : TierSort)

/-- `addTrackers`, with the order in which the set of new trackers is walked. -/
def addTrackers (s : TorrentTrackers) (trackers order : List TrackerEntry) : TorrentTrackers :=
  if newTrackerSet s.statuses trackers = [] then
    { s with previous := s.statuses, notice := .none }
  else
    { statuses := S.sort (s.statuses ++ order)
      native := order.foldl
        (fun native tracker => N.addTracker native (makeNativeAnnounceEntry tracker)) s.native
      previous := s.statuses
      notice := .added order }

/-- The loop of `removeTrackers`: the entries that stay and the URLs that are removed. -/
def removeOne (s : List TrackerEntry × List (List Char)) (tracker : List Char) :
    List TrackerEntry × List (List Char) :=
  if tracker ∈ urls s.1 then (s.1.eraseP fun status => status.url = tracker, s.2)
  else (s.1, s.2.erase tracker)

def removeTrackers (s : TorrentTrackers) (trackers : List (List Char)) : TorrentTrackers :=
  let loop := trackers.foldl removeOne (s.statuses, trackers)
  if loop.2 ≠ [] then
    { statuses := loop.1
      native := N.replaceTrackers (loop.1.map makeNativeAnnounceEntry)
      previous := s.statuses
      notice := .removed loop.2 }
  else { statuses := loop.1, native := s.native, previous := s.statuses, notice := .none }

/-- `replaceTrackers`, with the order in which the set of trackers is walked. -/
def replaceTrackers (s : TorrentTrackers) (order : List TrackerEntry) : TorrentTrackers where
  statuses := S.sort order
  native := N.replaceTrackers ((S.sort order).map makeNativeAnnounceEntry)
  previous := s.statuses
  notice := .changed

def start (descriptor : List (List UInt8 × ℤ)) : TorrentTrackers where
  statuses := (N.trackers descriptor).map ofNative
  native := N.trackers descriptor
  previous := (N.trackers descriptor).map ofNative
  notice := .none

/-- The calls, with the orders in which sets are walked. -/
inductive Call where
  | add (trackers order : List TrackerEntry)
  | remove (trackers : List (List Char))
  | replace (trackers order : List TrackerEntry)

def Possible (s : TorrentTrackers) : Call → Prop
  | .add trackers order => order.Perm (newTrackerSet s.statuses trackers)
  | .remove _ => True
  | .replace trackers order => order.Perm (uniqueTrackers trackers)

instance (s : TorrentTrackers) : DecidablePred s.Possible := fun e => by
  cases e <;> unfold Possible <;> infer_instance

def next (s : TorrentTrackers) : Call → TorrentTrackers
  | .add trackers order => addTrackers N S s trackers order
  | .remove trackers => removeTrackers N s trackers
  | .replace _ order => replaceTrackers N S s order

def machine : Machine TorrentTrackers Call := Machine.guarded Possible (next N S)

/-! ### What is meant -/

/-- The URL and the tier that libtorrent has. -/
def nativePair (entry : NativeEntry) : List UInt8 × ℤ := (entry.url, entry.tier.val)

/-- The URL and the tier that the torrent has. -/
def statusPair (tracker : TrackerEntry) : List UInt8 × ℤ := (nativeUrl tracker.url, tracker.tier)

/-- The notice is the difference that the call made. -/
def Told (before after : List TrackerEntry) : TrackerNotice → Prop
  | .none => ∀ url, url ∈ urls after ↔ url ∈ urls before
  | .added trackers => (urls trackers).Nodup ∧
      (∀ tracker, tracker ∈ trackers ↔ tracker ∈ after ∧ tracker.url ∉ urls before) ∧
      ∀ url ∈ urls before, url ∈ urls after
  | .removed trackers => trackers.Nodup ∧
      (∀ url, url ∈ trackers ↔ url ∈ urls before ∧ url ∉ urls after) ∧
      ∀ url ∈ urls after, url ∈ urls before
  | .changed => True

/-- What is to hold in every state. -/
structure Right (s : TorrentTrackers) : Prop where
  distinct : (urls s.statuses).Nodup
  sorted : s.statuses.Pairwise fun left right => left.tier ≤ right.tier
  agree : (s.native.map nativePair).Perm (s.statuses.map statusPair)
  told : Told s.previous s.statuses s.notice

/-- The tier is one of libtorrent. -/
def FitsTier (tracker : TrackerEntry) : Prop := 0 ≤ tracker.tier ∧ tracker.tier < 256

/-- No new entry has a tier that libtorrent does not have. -/
def InRange (s : TorrentTrackers) : Call → Prop
  | .add trackers _ => ∀ tracker ∈ newTrackerSet s.statuses trackers, FitsTier tracker
  | .remove _ => True
  | .replace trackers _ => ∀ tracker ∈ uniqueTrackers trackers, FitsTier tracker

/-- A list of libtorrent whose URLs are different texts, in the order of the tiers. -/
structure Orderly (native : List NativeEntry) : Prop where
  distinct : (urls (native.map ofNative)).Nodup
  sorted : native.Pairwise fun left right => left.tier ≤ right.tier
  text : (native.map nativePair).Perm ((native.map ofNative).map statusPair)

/-! ### Entries for libtorrent -/

section

variable {trackers : List TrackerEntry} {entries : List NativeEntry}

theorem nativeUrl_injective : Function.Injective nativeUrl :=
  fun _ _ h => String.ofList_injective (toUtf8_injective h)

theorem nativeUrl_ne_nil {url : List Char} (h : url ≠ []) : nativeUrl url ≠ [] :=
  fun hnil => h (nativeUrl_injective hnil)

theorem nativePair_make {tracker : TrackerEntry} (h : FitsTier tracker) :
    nativePair (makeNativeAnnounceEntry tracker) = statusPair tracker := by
  refine Prod.ext rfl ?_
  change ((tracker.tier % 256).toNat : ℤ) = tracker.tier
  have := h.1
  have := h.2
  omega

theorem perm_pairs_iff :
    ((trackers.map makeNativeAnnounceEntry).map nativePair).Perm (trackers.map statusPair) ↔
      ∀ tracker ∈ trackers, FitsTier tracker := by
  constructor
  · intro hperm tracker hmem
    obtain ⟨entry, hentry, hpair⟩ :=
      mem_map.1 (hperm.mem_iff.2 (mem_map.2 ⟨tracker, hmem, rfl⟩))
    have htier : (entry.tier.val : ℤ) = tracker.tier := congrArg Prod.snd hpair
    exact ⟨by omega, by omega⟩
  · intro hfits
    rw [map_map]
    exact Perm.of_eq (map_congr_left fun tracker hmem => nativePair_make (hfits _ hmem))

theorem map_url_make :
    (trackers.map makeNativeAnnounceEntry).map (·.url) = (urls trackers).map nativeUrl := by
  rw [map_map, urls, map_map]
  rfl

theorem perm_foldl_addTracker (hnodup : (urls trackers).Nodup)
    (hnew : ∀ tracker ∈ trackers, nativeUrl tracker.url ∉ entries.map (·.url))
    (hne : ∀ tracker ∈ trackers, tracker.url ≠ []) :
    (trackers.foldl (fun native tracker => N.addTracker native (makeNativeAnnounceEntry tracker))
      entries).Perm (trackers.map makeNativeAnnounceEntry ++ entries) := by
  induction trackers generalizing entries with
  | nil => exact Perm.refl _
  | cons first trackers ih =>
    rw [forall_mem_cons] at hnew hne
    obtain ⟨hfirst, hrest⟩ := nodup_urls_cons.1 hnodup
    have hadd := N.addTracker_new entries (makeNativeAnnounceEntry first) hnew.1
      (nativeUrl_ne_nil hne.1)
    refine (ih hrest (fun tracker hmem => ?_) hne.2).trans ?_
    · rw [(hadd.map (·.url)).mem_iff, map_cons, mem_cons, not_or]
      refine ⟨fun heq => hfirst ?_, hnew.2 tracker hmem⟩
      rw [← nativeUrl_injective heq]
      exact mem_urls_of_mem hmem
    · exact (hadd.append_left _).trans perm_middle

end

/-! ### Removal -/

section

variable {statuses : List TrackerEntry} {removed trackers : List (List Char)} {url : List Char}

theorem eraseP_eq_filter (h : (urls statuses).Nodup) (url : List Char) :
    statuses.eraseP (fun status => status.url = url) =
      statuses.filter fun status => status.url ≠ url := by
  induction statuses with
  | nil => rfl
  | cons first statuses ih =>
    obtain ⟨hfirst, hrest⟩ := nodup_urls_cons.1 h
    by_cases heq : first.url = url
    · rw [eraseP_cons_of_pos (by simpa using heq),
        filter_cons_of_neg (by simpa using heq)]
      refine (filter_eq_self.2 fun status hmem => ?_).symm
      refine decide_eq_true fun hurl => hfirst ?_
      rw [heq, ← hurl]
      exact mem_urls_of_mem hmem
    · rw [eraseP_cons_of_neg (by simpa using heq),
        filter_cons_of_pos (by simpa using heq), ih hrest]

theorem statuses_removeLoop (h : (urls statuses).Nodup) (trackers : List (List Char)) :
    (trackers.foldl removeOne (statuses, removed)).1 =
      statuses.filter fun status => status.url ∉ trackers := by
  induction trackers generalizing statuses removed with
  | nil => simp
  | cons tracker trackers ih =>
    rw [foldl_cons]
    by_cases hmem : tracker ∈ urls statuses
    · have hstep : removeOne (statuses, removed) tracker =
          (statuses.filter fun status => status.url ≠ tracker, removed) := by
        rw [removeOne, if_pos hmem, eraseP_eq_filter h]
      rw [hstep, ih (h.sublist (filter_sublist.map _)), filter_filter]
      simp [Bool.and_comm]
    · have hstep : removeOne (statuses, removed) tracker = (statuses, removed.erase tracker) := by
        rw [removeOne, if_neg hmem]
      rw [hstep, ih h]
      refine filter_congr fun status hstatus => ?_
      have hne : status.url ≠ tracker := fun heq => hmem (heq ▸ mem_urls_of_mem hstatus)
      simp [hne]

theorem urls_eraseP (statuses : List TrackerEntry) (url : List Char) :
    urls (statuses.eraseP fun status => status.url = url) = (urls statuses).erase url := by
  induction statuses with
  | nil => rfl
  | cons first statuses ih =>
    by_cases heq : first.url = url
    · rw [eraseP_cons_of_pos (by simpa using heq), urls, urls, map_cons, heq,
        erase_cons_head]
    · rw [eraseP_cons_of_neg (by simpa using heq), urls, urls, map_cons, map_cons,
        erase_cons_tail (by simpa using heq), ← urls, ih, urls]

theorem count_removeLoop (trackers : List (List Char)) (url : List Char) :
    (urls (trackers.foldl removeOne (statuses, removed)).1).count url =
        (urls statuses).count url - trackers.count url ∧
      (trackers.foldl removeOne (statuses, removed)).2.count url =
        removed.count url - (trackers.count url - (urls statuses).count url) := by
  induction trackers generalizing statuses removed with
  | nil => simp
  | cons tracker trackers ih =>
    rw [foldl_cons, count_cons]
    by_cases hmem : tracker ∈ urls statuses
    · have hstep : removeOne (statuses, removed) tracker =
          (statuses.eraseP fun status => status.url = tracker, removed) := by
        rw [removeOne, if_pos hmem]
      rw [hstep, ih.1, ih.2, urls_eraseP, count_erase]
      split_ifs with heq
      · have hpos := count_pos_iff.2 (eq_of_beq heq ▸ hmem)
        omega
      · exact ⟨rfl, rfl⟩
    · have hstep : removeOne (statuses, removed) tracker = (statuses, removed.erase tracker) := by
        rw [removeOne, if_neg hmem]
      rw [hstep, ih.1, ih.2, count_erase]
      split_ifs with heq
      · have hzero := count_eq_zero_of_not_mem (eq_of_beq heq ▸ hmem)
        omega
      · exact ⟨rfl, rfl⟩

theorem mem_of_mem_remaining (h : url ∈ urls (trackers.foldl removeOne (statuses, removed)).1) :
    url ∈ urls statuses := by
  rw [← count_pos_iff, (count_removeLoop trackers url).1] at h
  exact count_pos_iff.1 (by omega)

theorem mem_of_mem_removed (h : url ∈ (trackers.foldl removeOne (statuses, trackers)).2) :
    url ∈ urls statuses := by
  rw [← count_pos_iff, (count_removeLoop trackers url).2] at h
  exact count_pos_iff.1 (by omega)

theorem mem_remaining_or_removed (trackers : List (List Char)) (h : url ∈ urls statuses) :
    url ∈ urls (trackers.foldl removeOne (statuses, trackers)).1 ∨
      url ∈ (trackers.foldl removeOne (statuses, trackers)).2 := by
  rw [← count_pos_iff] at h
  rw [← count_pos_iff, ← count_pos_iff, (count_removeLoop trackers url).1,
    (count_removeLoop trackers url).2]
  omega

theorem count_removed (h : (urls statuses).Nodup) (trackers : List (List Char)) (url : List Char) :
    (trackers.foldl removeOne (statuses, trackers)).2.count url =
      if url ∈ urls statuses ∧ url ∈ trackers then 1 else 0 := by
  rw [(count_removeLoop trackers url).2, h.count]
  by_cases hmem : url ∈ urls statuses
  · by_cases hin : url ∈ trackers
    · have hpos := count_pos_iff.2 hin
      rw [if_pos hmem, if_pos ⟨hmem, hin⟩]
      omega
    · rw [count_eq_zero_of_not_mem hin, if_pos hmem, if_neg fun hboth => hin hboth.2]
  · rw [if_neg hmem, if_neg fun hboth => hmem hboth.1, Nat.sub_zero, Nat.sub_self]

end

/-! ### One call -/

section

variable {N S} {s : TorrentTrackers} {trackers order : List TrackerEntry} {tracker : TrackerEntry}

theorem Right.perm_urls (h : Right s) :
    (s.native.map (·.url)).Perm ((urls s.statuses).map nativeUrl) := by
  have hfst := h.agree.map Prod.fst
  rw [map_map, map_map] at hfst
  rw [urls, map_map]
  exact hfst

theorem Right.fits (h : Right s) (hmem : tracker ∈ s.statuses) : FitsTier tracker := by
  obtain ⟨entry, -, hpair⟩ :=
    mem_map.1 (h.agree.mem_iff.2 (mem_map.2 ⟨tracker, hmem, rfl⟩))
  have htier : (entry.tier.val : ℤ) = tracker.tier := congrArg Prod.snd hpair
  exact ⟨by omega, by omega⟩

/-- What holds between the calls. -/
structure Kept (s : TorrentTrackers) : Prop where
  right : Right s
  ne_nil : [] ∉ s.native.map (·.url)

theorem Kept.url_ne_nil (h : Kept s) (hmem : tracker ∈ s.statuses) : tracker.url ≠ [] := by
  intro hnil
  refine h.ne_nil (h.right.perm_urls.mem_iff.2 (mem_map.2 ⟨[], ?_, rfl⟩))
  rw [← hnil]
  exact mem_urls_of_mem hmem

theorem Kept.not_mem_native (h : Kept s) {url : List Char} (hnew : url ∉ urls s.statuses) :
    nativeUrl url ∉ s.native.map (·.url) := by
  intro hmem
  obtain ⟨other, hother, heq⟩ := mem_map.1 (h.right.perm_urls.mem_iff.1 hmem)
  exact hnew (nativeUrl_injective heq ▸ hother)

theorem tiers_sorted (l : List TrackerEntry) :
    (S.sort l).Pairwise fun left right => left.tier ≤ right.tier := S.sorted_le l

theorem addTrackers_of_nil (h : newTrackerSet s.statuses trackers = []) :
    addTrackers N S s trackers order = { s with previous := s.statuses, notice := .none } := by
  rw [addTrackers, if_pos h]

theorem Right.unchanged (h : Right s) :
    Right { s with previous := s.statuses, notice := .none } :=
  { h with told := fun _ => Iff.rfl }

section Add

variable (h : Kept s) (horder : order.Perm (newTrackerSet s.statuses trackers))
  {tracker : TrackerEntry}
include horder

theorem nodup_order : (urls order).Nodup :=
  (horder.map _).nodup_iff.2 nodup_newTrackerSet

theorem not_mem_of_mem_order (hmem : tracker ∈ order) :
    tracker.url ∉ urls s.statuses := not_mem_of_mem_newTrackerSet (horder.mem_iff.1 hmem)

theorem url_ne_nil_of_mem_order (hmem : tracker ∈ order) : tracker.url ≠ [] :=
  url_ne_nil_of_mem_toSet (mem_filter.1 (horder.mem_iff.1 hmem)).1

include h

theorem perm_native_addTrackers :
    (order.foldl (fun native tracker => N.addTracker native (makeNativeAnnounceEntry tracker))
      s.native).Perm (order.map makeNativeAnnounceEntry ++ s.native) := by
  refine perm_foldl_addTracker N (nodup_order horder)
    (fun tracker hmem => h.not_mem_native (not_mem_of_mem_order horder hmem))
    fun tracker hmem => url_ne_nil_of_mem_order horder hmem

theorem nodup_statuses_addTrackers : (urls (S.sort (s.statuses ++ order))).Nodup := by
  refine ((S.perm _).map _).nodup_iff.2 ?_
  change (urls (s.statuses ++ order)).Nodup
  rw [urls_append, nodup_append]
  refine ⟨h.right.distinct, nodup_order horder, fun url hurl other hother heq => ?_⟩
  obtain ⟨tracker, hmem, rfl⟩ := mem_urls.1 hother
  exact not_mem_of_mem_order horder hmem (heq ▸ hurl)

theorem right_addTrackers_iff : Right (addTrackers N S s trackers order) ↔
    ∀ tracker ∈ newTrackerSet s.statuses trackers, FitsTier tracker := by
  by_cases hnil : newTrackerSet s.statuses trackers = []
  · rw [addTrackers_of_nil hnil, hnil]
    exact iff_of_true h.right.unchanged fun _ hmem => absurd hmem not_mem_nil
  have hfits : (∀ tracker ∈ newTrackerSet s.statuses trackers, FitsTier tracker) ↔
      ∀ tracker ∈ order, FitsTier tracker := by
    simp only [horder.mem_iff]
  have hnative := (perm_native_addTrackers h horder (N := N)).map nativePair
  have hstatuses := (S.perm (s.statuses ++ order)).map statusPair
  rw [map_append] at hnative hstatuses
  rw [hfits, ← perm_pairs_iff, addTrackers, if_neg hnil]
  constructor
  · intro hright
    have hperm := (hnative.symm.trans hright.agree).trans hstatuses
    refine (perm_append_right_iff (s.statuses.map statusPair)).1 ?_
    exact ((h.right.agree.symm.append_left _).trans hperm).trans perm_append_comm
  · intro hagree
    refine ⟨nodup_statuses_addTrackers h horder, tiers_sorted _, ?_, nodup_order horder,
      fun tracker => ⟨fun hmem => ⟨(S.perm _).mem_iff.2 (mem_append_right _ hmem),
        not_mem_of_mem_order horder hmem⟩, ?_⟩, fun url hurl => ?_⟩
    · refine (hnative.trans ?_).trans hstatuses.symm
      exact (hagree.append h.right.agree).trans perm_append_comm
    · rintro ⟨hmem, hnew⟩
      rcases mem_append.1 ((S.perm _).mem_iff.1 hmem) with hold | hmem
      · exact absurd (mem_urls_of_mem hold) hnew
      · exact hmem
    · obtain ⟨tracker, hmem, rfl⟩ := mem_urls.1 hurl
      exact mem_urls_of_mem ((S.perm _).mem_iff.2 (mem_append_left _ hmem))

theorem ne_nil_addTrackers : [] ∉ (addTrackers N S s trackers order).native.map (·.url) := by
  by_cases hnil : newTrackerSet s.statuses trackers = []
  · rw [addTrackers_of_nil hnil]
    exact h.ne_nil
  rw [addTrackers, if_neg hnil]
  intro hmem
  rw [((perm_native_addTrackers h horder (N := N)).map (·.url)).mem_iff, map_append,
    map_url_make, mem_append] at hmem
  rcases hmem with hmem | hmem
  · obtain ⟨url, hurl, hempty⟩ := mem_map.1 hmem
    obtain ⟨tracker, htracker, rfl⟩ := mem_urls.1 hurl
    exact nativeUrl_ne_nil (url_ne_nil_of_mem_order horder htracker) hempty
  · exact h.ne_nil hmem

end Add

variable {l : List TrackerEntry}

theorem perm_replaceTrackers (hnodup : (urls l).Nodup) (hne : ∀ tracker ∈ l, tracker.url ≠ []) :
    (N.replaceTrackers (l.map makeNativeAnnounceEntry)).Perm (l.map makeNativeAnnounceEntry) := by
  refine N.replaceTrackers_perm _ ?_ ?_
  · rw [map_url_make]
    exact hnodup.map nativeUrl_injective
  · rw [map_url_make]
    intro hmem
    obtain ⟨url, hurl, hempty⟩ := mem_map.1 hmem
    obtain ⟨tracker, htracker, rfl⟩ := mem_urls.1 hurl
    exact nativeUrl_ne_nil (hne tracker htracker) hempty

theorem ne_nil_replaceTrackers (hnodup : (urls l).Nodup) (hne : ∀ tracker ∈ l, tracker.url ≠ []) :
    [] ∉ (N.replaceTrackers (l.map makeNativeAnnounceEntry)).map (·.url) := by
  intro hmem
  rw [((perm_replaceTrackers hnodup hne).map (·.url)).mem_iff, map_url_make] at hmem
  obtain ⟨url, hurl, hempty⟩ := mem_map.1 hmem
  obtain ⟨tracker, htracker, rfl⟩ := mem_urls.1 hurl
  exact nativeUrl_ne_nil (hne tracker htracker) hempty

theorem kept_removeTrackers (h : Kept s) (trackers : List (List Char)) :
    Kept (removeTrackers N s trackers) := by
  have hstatuses : (trackers.foldl removeOne (s.statuses, trackers)).1 =
      s.statuses.filter fun status => status.url ∉ trackers :=
    statuses_removeLoop h.right.distinct trackers
  have hcount := count_removed h.right.distinct trackers
  have hmem : ∀ url, url ∈ (trackers.foldl removeOne (s.statuses, trackers)).2 ↔
      url ∈ urls s.statuses ∧ url ∈ trackers := by
    intro url
    rw [← count_pos_iff, hcount]
    split_ifs with hboth
    · exact iff_of_true Nat.one_pos hboth
    · exact iff_of_false (Nat.lt_irrefl 0) hboth
  have hstay : ∀ url, url ∈ urls (s.statuses.filter fun status => status.url ∉ trackers) ↔
      url ∈ urls s.statuses ∧ url ∉ trackers := by
    intro url
    simp only [mem_urls, mem_filter, decide_eq_true_eq]
    constructor
    · rintro ⟨status, ⟨hstatus, hnot⟩, rfl⟩
      exact ⟨⟨status, hstatus, rfl⟩, hnot⟩
    · rintro ⟨⟨status, hstatus, rfl⟩, hnot⟩
      exact ⟨status, ⟨hstatus, hnot⟩, rfl⟩
  rw [removeTrackers, hstatuses]
  by_cases hremoved : (trackers.foldl removeOne (s.statuses, trackers)).2 = []
  · -- nothing was found
    have hsame : s.statuses.filter (fun status => status.url ∉ trackers) = s.statuses := by
      refine filter_eq_self.2 fun status hstatus => decide_eq_true fun hin => ?_
      have hfound := (hmem status.url).2 ⟨mem_urls_of_mem hstatus, hin⟩
      rw [hremoved] at hfound
      exact not_mem_nil hfound
    rw [hsame, if_neg (not_not.2 hremoved)]
    exact ⟨h.right.unchanged, h.ne_nil⟩
  · rw [if_pos hremoved]
    have hsub := filter_sublist (l := s.statuses) (p := fun status => status.url ∉ trackers)
    have hnodup := h.right.distinct.sublist (hsub.map _)
    have hne : ∀ status ∈ s.statuses.filter (fun status => status.url ∉ trackers),
        status.url ≠ [] := fun status hstatus => h.url_ne_nil (hsub.subset hstatus)
    refine ⟨⟨hnodup, h.right.sorted.sublist hsub, ?_, ?_, ?_, ?_⟩,
      ne_nil_replaceTrackers hnodup hne⟩
    · refine ((perm_replaceTrackers hnodup hne).map nativePair).trans (perm_pairs_iff.2 ?_)
      exact fun status hstatus => h.right.fits (hsub.subset hstatus)
    · refine nodup_iff_count_le_one.2 fun url => ?_
      rw [hcount]
      split_ifs <;> decide
    · intro url
      rw [hmem, hstay]
      tauto
    · exact fun url hurl => ((hstay url).1 hurl).1

section Replace

variable (horder : order.Perm (uniqueTrackers trackers))
include horder

theorem nodup_sort_order : (urls (S.sort order)).Nodup :=
  (((S.perm order).trans horder).map _).nodup_iff.2 nodup_toSet

theorem url_ne_nil_of_mem_sort_order : ∀ tracker ∈ S.sort order, tracker.url ≠ [] :=
  fun _ hmem => url_ne_nil_of_mem_toSet (horder.mem_iff.1 ((S.perm order).mem_iff.1 hmem))

theorem right_replaceTrackers_iff : Right (replaceTrackers N S s order) ↔
    ∀ tracker ∈ uniqueTrackers trackers, FitsTier tracker := by
  have hfits : (∀ tracker ∈ uniqueTrackers trackers, FitsTier tracker) ↔
      ∀ tracker ∈ S.sort order, FitsTier tracker := by
    simp only [(S.perm order).mem_iff, horder.mem_iff]
  have hnative := (perm_replaceTrackers (N := N) (nodup_sort_order (S := S) horder)
    (url_ne_nil_of_mem_sort_order horder)).map nativePair
  rw [hfits, ← perm_pairs_iff]
  constructor
  · exact fun hright => hnative.symm.trans hright.agree
  · exact fun hagree => ⟨nodup_sort_order horder, tiers_sorted _, hnative.trans hagree, trivial⟩

end Replace

/-! ### Runs -/

theorem right_next_iff (h : Kept s) {call : Call} (hcall : s.Possible call) :
    Right (next N S s call) ↔ InRange s call := by
  cases call with
  | add trackers order => exact right_addTrackers_iff h hcall
  | remove trackers => exact iff_of_true (kept_removeTrackers h trackers).right trivial
  | replace trackers order => exact right_replaceTrackers_iff hcall

theorem ne_nil_next (h : Kept s) {call : Call} (hcall : s.Possible call) :
    [] ∉ (next N S s call).native.map (·.url) := by
  cases call with
  | add trackers order => exact ne_nil_addTrackers h hcall
  | remove trackers => exact (kept_removeTrackers h trackers).ne_nil
  | replace trackers order =>
    exact ne_nil_replaceTrackers (nodup_sort_order hcall) (url_ne_nil_of_mem_sort_order hcall)

theorem right_start_iff {descriptor : List (List UInt8 × ℤ)} :
    Right (start N descriptor) ↔ Orderly (N.trackers descriptor) := by
  have hsorted : ((N.trackers descriptor).map ofNative).Pairwise
      (fun left right => left.tier ≤ right.tier) ↔
        (N.trackers descriptor).Pairwise fun left right => left.tier ≤ right.tier := by
    rw [pairwise_map]
    simp only [ofNative, Nat.cast_le]
    exact Iff.rfl
  constructor
  · exact fun h => ⟨h.distinct, hsorted.1 h.sorted, h.agree⟩
  · exact fun h => ⟨h.distinct, hsorted.2 h.sorted, h.text, fun _ => Iff.rfl⟩

/-- **The trackers of a torrent.**  The lists agree, and the session is told the differences, in
every state of a run exactly when libtorrent starts with an orderly list and no tier that is added
is out of range. -/
theorem right_iff_inRange {descriptor : List (List UInt8 × ℤ)} {calls : List Call}
    (hrun : ((machine N S).run (start N descriptor) calls).isSome) :
    (machine N S).Always Right (start N descriptor) calls ↔
      Orderly (N.trackers descriptor) ∧
        (machine N S).Meets InRange (start N descriptor) calls := by
  by_cases hstart : Orderly (N.trackers descriptor)
  · rw [and_iff_right hstart]
    have hkept : Kept (start N descriptor) :=
      ⟨right_start_iff.2 hstart, N.trackers_ne_nil descriptor⟩
    refine Machine.guarded_always_iff_meets (I := Kept) hkept (fun s h => h.right)
      (fun s call h hcall hin => ?_) (fun s call h hcall hout hright => ?_) hrun
    · exact ⟨(right_next_iff h hcall).2 hin, ne_nil_next h hcall⟩
    · exact hout ((right_next_iff h hcall).1 hright)
  · refine iff_of_false (fun hright => hstart ?_) fun h => hstart h.1
    exact right_start_iff.1 hright.at_start

end

/-- A list of libtorrent that is kept in the order of the calls. -/
def plainTrackers : NativeTrackers where
  trackers l := (l.filter fun tracker => tracker.1 ≠ []).map fun tracker =>
    ⟨tracker.1, ⟨(tracker.2 % 256).toNat, by omega⟩⟩
  trackers_ne_nil l h := by
    obtain ⟨entry, hentry, hnil⟩ := List.mem_map.1 h
    obtain ⟨tracker, htracker, rfl⟩ := List.mem_map.1 hentry
    exact of_decide_eq_true (List.mem_filter.1 htracker).2 hnil
  addTracker l entry := if entry.url ∈ l.map (·.url) then l else entry :: l
  addTracker_known _ _ h := if_pos h
  addTracker_new _ _ h _ := by rw [if_neg h]
  replaceTrackers l := l
  replaceTrackers_perm _ _ _ := List.Perm.refl _

def tierSort : TierSort := StdSort.insertion TrackerEntry.tier

def addAndRemove : List Call := [.add [⟨['a'], 0⟩] [⟨['a'], 0⟩], .remove [['a']]]

theorem right_addAndRemove :
    (machine plainTrackers tierSort).Always Right (start plainTrackers []) addAndRemove ↔
      Orderly (plainTrackers.trackers []) ∧
        (machine plainTrackers tierSort).Meets InRange (start plainTrackers []) addAndRemove :=
  right_iff_inRange (by decide)

/-- A tracker of the tier 256. -/
def farTracker : TrackerEntry := ⟨['a'], 256⟩

/-- The tracker of tier 256 has the tier 0 in the list of libtorrent. -/
theorem tier_cut_off : ¬ (machine plainTrackers tierSort).Always Right (start plainTrackers [])
    [.add [farTracker] [farTracker]] := by
  intro hright
  have hkept : Kept (start plainTrackers []) :=
    ⟨right_start_iff.2 ⟨nodup_nil, Pairwise.nil, Perm.refl _⟩, not_mem_nil⟩
  have hcall : (start plainTrackers []).Possible (.add [farTracker] [farTracker]) := by decide
  have hin := (right_next_iff hkept hcall).1
    (hright.2 _ (Machine.guarded_step_eq_some.2 ⟨hcall, rfl⟩)).at_start
  have hfits : FitsTier farTracker := hin _ (by decide)
  exact absurd hfits.2 (by decide)

/-! ### The dialog -/

/-- What `editTorrentTrackers` shows: the trackers of the first torrent that all torrents have. -/
def commonTrackers : List TorrentTrackers → List TrackerEntry
  | [] => []
  | first :: rest => (first :: rest).foldl (fun common torrent =>
      common.filter fun entry => entry.url ∈ urls torrent.statuses) first.statuses

section Dialog

variable {N : NativeTrackers} {S : TierSort} {trackers order : List TrackerEntry}
  {first : TorrentTrackers} {rest : List TorrentTrackers}

theorem commonTrackers_eq : commonTrackers (first :: rest) = first.statuses.filter fun entry =>
    (first :: rest).all fun torrent => entry.url ∈ urls torrent.statuses := by
  rw [commonTrackers]
  generalize first :: rest = torrents
  generalize first.statuses = common
  induction torrents generalizing common with
  | nil => simp
  | cons torrent torrents ih =>
    rw [foldl_cons, ih, filter_filter]
    refine filter_congr fun entry _ => ?_
    rw [all_cons, Bool.and_comm]

theorem toSet_eq_self (h : (urls trackers).Nodup) : toSet trackers = trackers := by
  have hfold (trackers set : List TrackerEntry) (h : (urls (set ++ trackers)).Nodup) :
      trackers.foldl (fun set tracker => if tracker.url ∈ urls set then set else set ++ [tracker])
        set = set ++ trackers := by
    induction trackers generalizing set with
    | nil => simp
    | cons tracker trackers ih =>
      have hnot : tracker.url ∉ urls set := by
        rw [urls_append, nodup_append] at h
        exact fun hmem => h.2.2 _ hmem _ mem_cons_self rfl
      rw [foldl_cons, if_neg hnot, ih _ (by simpa using h), append_assoc, singleton_append]
  exact hfold trackers [] h

variable (N S first rest) in
/-- The dialog shows a text.  Accepted as it is, it leaves each torrent with exactly the trackers that all
of them have, in the tiers of the first one. -/
def LeavesCommon : Prop :=
  ∃ text, TrackerEntriesDialog.setTrackers (commonTrackers (first :: rest)) = some text ∧
    ∀ torrent ∈ first :: rest, ∀ order,
      order.Perm (uniqueTrackers (TrackerEntriesDialog.trackers text)) →
        Right (replaceTrackers N S torrent order) ∧
          ∀ entry, entry ∈ (replaceTrackers N S torrent order).statuses ↔
            entry ∈ first.statuses ∧ ∀ other ∈ rest, entry.url ∈ urls other.statuses

/-- **Accepting the dialog without a change.**  A single torrent keeps its trackers. -/
theorem leavesCommon (h : Right first)
    (hplain : ∀ entry ∈ commonTrackers (first :: rest), entry.Plain) :
    LeavesCommon N S first rest := by
  have hsub : commonTrackers (first :: rest) <+ first.statuses := by
    rw [commonTrackers_eq]
    exact filter_sublist
  have hfits : ∀ entry ∈ commonTrackers (first :: rest), FitsTier entry :=
    fun entry hentry => h.fits (hsub.subset hentry)
  have hmem (entry : TrackerEntry) : entry ∈ commonTrackers (first :: rest) ↔
      entry ∈ first.statuses ∧ ∀ other ∈ rest, entry.url ∈ urls other.statuses := by
    rw [commonTrackers_eq, mem_filter, all_cons, Bool.and_eq_true, decide_eq_true_eq, all_eq_true]
    simp only [decide_eq_true_eq]
    exact and_congr_right fun hentry => and_iff_right (mem_urls_of_mem hentry)
  rw [LeavesCommon]
  generalize commonTrackers (first :: rest) = common at hplain hsub hfits hmem ⊢
  obtain ⟨n, hle, hn, htext⟩ := setTrackers_eq fun entry hentry =>
    (hfits entry hentry).2.trans (by decide)
  refine ⟨_, htext, fun torrent _ order horder => ?_⟩
  -- the text is read as the entries, which are sorted already
  have hread : TrackerEntriesDialog.trackers (tierText (ofTier common 0) ++ tailText common 1 n) =
      common := by
    rw [TrackerEntriesDialog.trackers, parseTrackerEntries,
      parse_tierText (fun e he => hplain e (mem_ofTier.1 he).1) fun e he => (mem_ofTier.1 he).2]
    refine (parse_tailText hplain n (by omega) _).trans ?_
    refine (tailEntries_eq_insertionSort (fun e he => (hplain e he).tier_nonneg) hle).trans ?_
    exact (h.sorted.sublist hsub).insertionSort_eq
  have hurls : withUrls common = common :=
    filter_eq_self.2 fun entry hentry => decide_eq_true (hplain entry hentry).url_ne_nil
  have hunique : uniqueTrackers common = common := by
    rw [uniqueTrackers, hurls, toSet_eq_self (h.distinct.sublist (hsub.map _))]
  rw [hread] at horder
  refine ⟨(right_replaceTrackers_iff horder).2 (by rwa [hunique]), fun entry => ?_⟩
  rw [hunique] at horder
  rw [← hmem, ← horder.mem_iff]
  exact (S.perm order).mem_iff

end Dialog

/-- A torrent with the trackers `a` and `b`, in two tiers. -/
def abTrackers : TorrentTrackers :=
  replaceTrackers plainTrackers tierSort (start plainTrackers []) [⟨['a'], 0⟩, ⟨['b'], 1⟩]

/-- One with the trackers `b` and `c`, in one tier. -/
def bcTrackers : TorrentTrackers :=
  replaceTrackers plainTrackers tierSort (start plainTrackers []) [⟨['b'], 0⟩, ⟨['c'], 0⟩]

/-- Two torrents that share one of two trackers. -/
theorem leavesCommon_two : LeavesCommon plainTrackers tierSort abTrackers [bcTrackers] := by
  have hab : ([⟨['a'], 0⟩, ⟨['b'], 1⟩] : List TrackerEntry).Perm
      (uniqueTrackers [⟨['a'], 0⟩, ⟨['b'], 1⟩]) := .refl _
  refine leavesCommon ((right_replaceTrackers_iff hab).2 ?_) ?_
  · simp [uniqueTrackers, toSet, withUrls, urls, FitsTier]
  · have hcommon : commonTrackers [abTrackers, bcTrackers] = [⟨['b'], 1⟩] := by decide
    rw [hcommon, forall_mem_singleton]
    exact plain_of_letter (by decide) (by decide) (by decide) (by decide)

end TorrentTrackers

end QBittorrent.BitTorrent
