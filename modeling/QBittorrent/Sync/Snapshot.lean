import QBittorrent.Sync.Invariant

/-!
# The snapshot follows the session

What a request leaves behind, and when it is the live data.

* `snapshot_eq_maindata` : after a request the snapshot is the live data;
* `idsLive_iff` : when pending IDs are of torrents.
-/

namespace QBittorrent

open SyncController Option Dict Multiset Session Finset

open Finmap (lookup)
open VariantMap Pending

/-! ### Serialized rows -/

theorem lookup_maindata_torrents (s : Session) (id : TorrentID) :
    lookup id s.maindata.torrents = s.torrentRow id := by
  rw [maindata, lookup_filterMap, torrentRow, getTorrent]
  cases lookup id s.torrents <;> rfl

theorem lookup_maindata_categories (s : Session) (name : String) :
    lookup name s.maindata.categories = s.categoryRow name := by
  rw [maindata, lookup_filterMap, categoryRow]
  cases lookup name s.categories <;> rfl

theorem keys_serializedTorrent (id : TorrentID) (torrent : Torrent) :
    (serializedTorrent id torrent).keys = insert "trackers_count" torrentKeys := by
  ext key
  have hhash : "hash" ∉ torrentKeys := by simp [torrentKeys]
  have hfields : key ∈ torrent.fields.1 ↔ key ∈ torrentKeys := by
    rw [← Finmap.mem_keys, torrent.fields.2]
  rw [Finmap.mem_keys, serializedTorrent, serialize, Finmap.mem_erase, Finmap.mem_insert,
    Finmap.mem_insert, mem_insert, hfields]
  constructor
  · rintro ⟨hne, rfl | h⟩
    · exact (hne rfl).elim
    · exact h
  · rintro (rfl | h)
    · exact ⟨by decide, .inr (.inl rfl)⟩
    · exact ⟨fun he => hhash (he ▸ h), .inr (.inr h)⟩

theorem value_trackers_count (id : TorrentID) (torrent : Torrent) :
    value (serializedTorrent id torrent) "trackers_count" = .number torrent.trackers.length := by
  rw [value, serializedTorrent, serialize, lookup_erase_eq, lookup_insert_eq,
    lookup_insert_eq]
  rfl

/-- The `download_path` of a category row, if it has one. -/
def CategoryOptions.downloadPathValue (options : CategoryOptions) : Option Variant :=
  options.downloadPath.map fun option => if option.enabled then .string option.path else .bool false

theorem lookup_serializedCategory (name key : String) (options : CategoryOptions) :
    lookup key (serializedCategory name options) =
      if key = "name" then some (.string name)
      else if key = "savePath" then some (.string options.savePath)
      else if key = "download_path" then options.downloadPathValue
      else none := by
  have hsave : value options.toJSON "save_path" = .string options.savePath := by
    rw [CategoryOptions.toJSON, value_insert]
    rfl
  rw [serializedCategory, hsave, lookup_insert_eq, lookup_insert_eq,
    lookup_erase_eq, CategoryOptions.toJSON, lookup_insert_eq]
  split_ifs with h1 h2 h3 h4 h5
  · rfl
  · rfl
  · subst h3; simp at h4
  · rfl
  · subst h5
    obtain ⟨savePath, _ | ⟨_ | _, path⟩⟩ := options <;> simp [CategoryOptions.downloadPathValue]
  · obtain ⟨savePath, _ | ⟨_ | _, path⟩⟩ := options <;> simp [h5]

theorem isSome_downloadPathValue (options : CategoryOptions) :
    options.downloadPathValue.isSome = options.downloadPath.isSome := by
  simp [CategoryOptions.downloadPathValue]

variable {name : String} {options prev : CategoryOptions}

theorem mem_serializedCategory {key : String} :
    key ∈ serializedCategory name options ↔
      key = "name" ∨ key = "savePath" ∨ key = "download_path" ∧ options.downloadPath.isSome := by
  rw [← Finmap.lookup_isSome, lookup_serializedCategory]
  split_ifs with h1 h2 h3
  · simp [h1]
  · simp [h2]
  · simp [h3, isSome_downloadPathValue]
  · simp [h1, h2, h3]

theorem value_downloadPath_eq_invalid (name : String) :
    value (serializedCategory name options) "download_path" = .invalid ↔
      options.downloadPath = none := by
  obtain ⟨savePath, _ | ⟨_ | _, path⟩⟩ := options <;>
    simp [value, lookup_serializedCategory, CategoryOptions.downloadPathValue]

theorem value_savePath (name : String) (options : CategoryOptions) :
    value (serializedCategory name options) "savePath" = .string options.savePath := by
  simp [value, lookup_serializedCategory]

theorem covers_serializedCategory (h : prev.downloadPath.isSome → options.downloadPath.isSome) :
    Covers (serializedCategory name prev) (serializedCategory name options) := fun key hv => by
  have hmem := mem_serializedCategory.1 (mem_of_value hv)
  exact mem_serializedCategory.2 (hmem.imp_right (Or.imp_right (And.imp_right h)))

theorem eq_of_processMap_category
    (h : processMap (serializedCategory name prev) (serializedCategory name options) = ∅)
    (hkept : prev.downloadPath.isSome → prev.savePath = options.savePath →
      options.downloadPath.isSome) :
    serializedCategory name prev = serializedCategory name options := by
  have hsame := processMap_eq_empty_iff.1 h
  have hsave : prev.savePath = options.savePath := by
    have := hsame "savePath" (mem_serializedCategory.2 (.inr (.inl rfl)))
    rw [value_savePath, value_savePath] at this
    exact Variant.string.inj this
  have hpath : prev.downloadPath.isSome ↔ options.downloadPath.isSome := by
    refine ⟨fun hp => hkept hp hsave, fun hp => ?_⟩
    rw [isSome_iff_ne_none, Ne, ← value_downloadPath_eq_invalid name,
      hsame "download_path" (mem_serializedCategory.2 (.inr (.inr ⟨rfl, hp⟩))),
      value_downloadPath_eq_invalid]
    exact isSome_iff_ne_none.1 hp
  refine eq_of_processMap_eq_empty h (ext fun key => ?_)
  rw [Finmap.mem_keys, Finmap.mem_keys, mem_serializedCategory, mem_serializedCategory, hpath]

section Flush

variable {s s₀ : Session} {c : SyncController} {R : VariantMap → VariantMap → Prop}
  {rows : Dict String VariantMap} {key : String}

theorem rowOf_of_lookup {row : VariantMap} (h : lookup key rows = some row) :
    rowOf rows key = row := by simp [rowOf, h]

theorem rowOf_of_lookup_none (h : lookup key rows = none) : rowOf rows key = ∅ := by simp [rowOf, h]

theorem currentTorrent_of_getTorrent {id : TorrentID} {torrent : Torrent}
    (h : s.getTorrent id = some torrent) :
    SyncController.currentTorrent s id = serializedTorrent id torrent := by
  simp [currentTorrent, h]

theorem categoryRow_of_mem {name : String} (h : name ∈ s.categories) :
    s.categoryRow name = some (SyncController.currentCategory s name) := by
  obtain ⟨options, ho⟩ := Finmap.mem_iff.1 h
  simp [categoryRow, currentCategory, categoryOptions, ho]

theorem torrents_flush (h : TorrentsTracked R s c)
    (hR : ∀ id ∈ c.updatedTorrents, ∀ torrent, s.getTorrent id = some torrent →
      R (if processMap (rowOf c.maindataSnapshot.torrents id) (serializedTorrent id torrent) = ∅
        then rowOf c.maindataSnapshot.torrents id else serializedTorrent id torrent)
        (serializedTorrent id torrent)) (id : TorrentID) :
    Option.Rel R (lookup id (c.nextSnapshot s).torrents) (s.torrentRow id) := by
  refine Tracks.flush h (fun id => lookup id (c.nextSnapshot s).torrents) (fun id hid => ?_) (fun id hid => ?_) (fun id hu hr => ?_) id
  · obtain ⟨row, hrow⟩ := isSome_iff_exists.1 (h.isSome_of_updated id hid)
    obtain ⟨torrent, ht, rfl⟩ := map_eq_some_iff.1 hrow
    have hr := h.notMem_removed_of_updated hid
    rw [hrow, rel_some_right]
    refine ⟨_, ?_, hR id hid torrent ht⟩
    simp [nextSnapshot, updateSnapshot, lookup_union, hid, hr,
      currentTorrent_of_getTorrent ht]
  · simp [nextSnapshot, hid]
  · simp [nextSnapshot, updateSnapshot, lookup_union, hu, hr]

theorem torrents_flush_eq (hs : c.maindataSnapshot.torrents = s₀.maindata.torrents)
    (h : TorrentsTracked Eq s c) :
    (c.nextSnapshot s).torrents = s.maindata.torrents := by
  refine Finmap.ext_lookup fun id => ?_
  rw [lookup_maindata_torrents, ← rel_eq_iff]
  refine torrents_flush h (fun id hid torrent ht => ?_) id
  split_ifs with hp
  · cases hrow : lookup id c.maindataSnapshot.torrents with
    | none =>
      rw [rowOf_of_lookup_none hrow] at hp
      refine (processMap_empty_ne "trackers_count" ?_ hp).elim
      rw [value_trackers_count]
      exact Variant.noConfusion
    | some row =>
      rw [rowOf_of_lookup hrow] at hp ⊢
      rw [hs, lookup_maindata_torrents] at hrow
      obtain ⟨prev, -, rfl⟩ := map_eq_some_iff.1 hrow
      refine eq_of_processMap_eq_empty hp ?_
      rw [keys_serializedTorrent, keys_serializedTorrent]
  · rfl

/-- No pending category has lost the download path it has in the snapshot while keeping its save
path. -/
def KeepsDownloadPaths (s : Session) (c : SyncController) : Prop :=
  ∀ name ∈ c.updatedCategories, ∀ row ∈ lookup name c.maindataSnapshot.categories,
    "download_path" ∈ row → value row "savePath" = .string (s.categoryOptions name).savePath →
      (s.categoryOptions name).downloadPath.isSome

instance : Decidable (KeepsDownloadPaths s c) := by unfold KeepsDownloadPaths; infer_instance

theorem categories_flush_eq (hs : c.maindataSnapshot.categories = s₀.maindata.categories)
    (h : CategoriesTracked s c) (hk : KeepsDownloadPaths s c) : (c.nextSnapshot s).categories = s.maindata.categories := by
  refine Finmap.ext_lookup fun name => ?_
  rw [lookup_maindata_categories, ← rel_eq_iff]
  refine Tracks.flush h (fun name => lookup name (c.nextSnapshot s).categories) (fun name hname => ?_) (fun name hname => ?_) (fun name hu hr => ?_) name
  · have hr := h.notMem_removed_of_updated hname
    have hmem := isSome_categoryRow.1 (h.isSome_of_updated name hname)
    rw [categoryRow_of_mem hmem, rel_eq_iff]
    simp only [nextSnapshot, updateSnapshot, lookup_eraseAll, if_neg hr,
      lookup_union, lookup_ofFinset, if_pos hname, some_or, some_inj]
    split_ifs with hp
    · cases hrow : lookup name c.maindataSnapshot.categories with
      | none =>
        rw [rowOf_of_lookup_none hrow] at hp
        refine (processMap_empty_ne "savePath" ?_ hp).elim
        rw [currentCategory, value_savePath]
        exact Variant.noConfusion
      | some row =>
        have hkept := hk name hname row hrow
        rw [rowOf_of_lookup hrow] at hp ⊢
        rw [hs, lookup_maindata_categories] at hrow
        obtain ⟨prev, -, rfl⟩ := map_eq_some_iff.1 hrow
        refine eq_of_processMap_category hp fun hsome hsave => hkept ?_ ?_
        · exact mem_serializedCategory.2 (.inr (.inr ⟨rfl, hsome⟩))
        · rw [value_savePath, hsave]
    · rfl
  · simp [nextSnapshot, hname]
  · simp [nextSnapshot, updateSnapshot, lookup_union, hu, hr]

/-- No tag to be removed is twice in the list of the snapshot, where `removeOne` leaves one. -/
def RemovesWholeTags (c : SyncController) : Prop :=
  ∀ tag ∈ c.removedTags, c.maindataSnapshot.tags.count tag ≤ 1

instance : Decidable (RemovesWholeTags c) := by unfold RemovesWholeTags; infer_instance

theorem mem_tags_flush (h : TagsTracked s c) (hw : RemovesWholeTags c) (tag : String) :
    tag ∈ (c.nextSnapshot s).tags ↔ tag ∈ s.tags := by
  have hlive : tag ∈ s.tags ↔ s.tagRow tag = some () := by simp [tagRow]
  change tag ∈ c.maindataSnapshot.tags + c.addedTags.val - c.removedTags.val ↔ _
  rw [hlive, ← Multiset.count_pos, count_add_sub_val]
  by_cases hu : tag ∈ c.addedTags
  · have hr := h.notMem_removed_of_updated hu
    obtain ⟨⟨⟩, hrow⟩ := isSome_iff_exists.1 (h.isSome_of_updated tag hu)
    simp [hu, hr, hrow]
  · by_cases hr : tag ∈ c.removedTags
    · have hcount : c.maindataSnapshot.tags.count tag - 1 = 0 := by
        have := hw tag hr
        omega
      simp [hu, hr, h.eq_none_of_removed tag hr, hcount]
    · have := rel_eq_iff.1 (h.rel tag hu hr)
      rw [← this, snapshotTag]
      simp [hu, hr, Multiset.count_pos]

theorem trackers_flush_eq (h : TrackersTracked s c) :
    (c.nextSnapshot s).trackers = s.maindata.trackers := by
  refine Finmap.ext_lookup fun url => ?_
  change _ = lookup url s.trackers
  rw [lookup_trackers, ← rel_eq_iff]
  refine Tracks.flush h.tracks (fun url => lookup url (c.nextSnapshot s).trackers) (fun url hurl => ?_) (fun url hurl => ?_) (fun url hu hr => ?_) url
  · have hr := h.tracks.notMem_removed_of_updated hurl
    have hne := isSome_present.1 (h.tracks.isSome_of_updated url hurl)
    simp [nextSnapshot, lookup_union, hurl, hr, h.torrentsOf, present, hne]
  · simp [nextSnapshot, hurl]
  · simp [nextSnapshot, lookup_union, hu, hr]

theorem serverState_flush_eq
    (hs : c.maindataSnapshot.serverState = s₀.maindata.serverState) :
    (c.nextSnapshot s).serverState = s.maindata.serverState := by
  have hkeys : c.maindataSnapshot.serverState.keys = s.serverState.1.keys := by
    rw [hs, s.serverState.2]
    exact s₀.serverState.2
  change (updateServerState s.serverState.1 c.maindataSnapshot.serverState ∅).1 = s.serverState.1
  simp only [updateServerState]
  split_ifs with hp
  · exact eq_of_processMap_eq_empty hp hkeys
  · rfl

end Flush

section Requests

variable {s : Session} {c : SyncController} {rid : ℤ}

/-- Two sets of maindata with the same items, the tags in any number. -/
structure SameItems (data data' : MaindataSyncBuf) : Prop where
  torrents : data.torrents = data'.torrents
  categories : data.categories = data'.categories
  tags : ∀ tag, tag ∈ data.tags ↔ tag ∈ data'.tags
  trackers : data.trackers = data'.trackers
  serverState : data.serverState = data'.serverState
  removedCategories : data.removedCategories = data'.removedCategories
  removedTags : data.removedTags = data'.removedTags
  removedTorrents : data.removedTorrents = data'.removedTorrents
  removedTrackers : data.removedTrackers = data'.removedTrackers

theorem SameItems.symm {data data' : MaindataSyncBuf} (h : SameItems data data') :
    SameItems data' data :=
  ⟨h.torrents.symm, h.categories.symm, fun tag => (h.tags tag).symm, h.trackers.symm,
    h.serverState.symm, h.removedCategories.symm, h.removedTags.symm, h.removedTorrents.symm,
    h.removedTrackers.symm⟩

/-- The rows are those of some session, and nothing is listed as removed. -/
structure Serialized (data : MaindataSyncBuf) : Prop where
  rows : ∃ s₀ : Session, data.torrents = s₀.maindata.torrents ∧
    data.categories = s₀.maindata.categories ∧ data.serverState = s₀.maindata.serverState
  removedCategories : data.removedCategories = 0
  removedTags : data.removedTags = 0
  removedTorrents : data.removedTorrents = 0
  removedTrackers : data.removedTrackers = 0

/-- The controller follows the session: the rows of its snapshot are serializations, and the
pending sets explain what has changed since. -/
structure Synced (s : Session) (c : SyncController) : Prop where
  serialized : Serialized c.maindataSnapshot
  torrents : TorrentsTracked Eq s c
  categories : CategoriesTracked s c
  tags : TagsTracked s c
  trackers : TrackersTracked s c

/-- Nothing is pending. -/
structure Flushed (c : SyncController) : Prop where
  updatedCategories : c.updatedCategories = ∅
  removedCategories : c.removedCategories = ∅
  addedTags : c.addedTags = ∅
  removedTags : c.removedTags = ∅
  updatedTrackers : c.updatedTrackers = ∅
  removedTrackers : c.removedTrackers = ∅
  updatedTorrents : c.updatedTorrents = ∅
  removedTorrents : c.removedTorrents = ∅

theorem Synced.of_flushed (hf : Flushed c) (hs : SameItems c.maindataSnapshot s.maindata)
    (hk : ∀ url, lookup url c.knownTrackers = present (s.torrentsWith url)) : Synced s c := by
  refine ⟨{ hs with rows := ⟨s, hs.torrents, hs.categories, hs.serverState⟩ }, ?_, ?_, ?_, hk, ?_⟩
  · rw [TorrentsTracked, hf.updatedTorrents, hf.removedTorrents, hs.torrents]
    exact .of_rel fun id => rel_eq_iff.2 (lookup_maindata_torrents s id)
  · rw [CategoriesTracked, hf.updatedCategories, hf.removedCategories, hs.categories]
    exact .of_rel fun name => rel_eq_iff.2 (lookup_maindata_categories s name)
  · rw [TagsTracked, hf.addedTags, hf.removedTags]
    refine .of_rel fun tag => rel_eq_iff.2 ?_
    simp only [snapshotTag, hs.tags]
    rfl
  · rw [hf.updatedTrackers, hf.removedTrackers, hs.trackers]
    exact .of_rel fun url => rel_eq_iff.2 (lookup_trackers s url)

namespace SyncController

theorem acknowledge_eq (c : SyncController) (rid : ℤ) :
    c.acknowledge rid = { c with
      maindataAcceptedID := (c.acknowledge rid).maindataAcceptedID
      maindataSyncBuf := (c.acknowledge rid).maindataSyncBuf } := by
  unfold acknowledge
  split_ifs <;> rfl

/-- What a request answers and leaves behind, once the signals are connected. -/
structure Answers (s : Session) (c : SyncController) (rid : ℤ) (response : MaindataResponse)
    (c' : SyncController) : Prop where
  response_eq : response = ⟨c.nextID, !decide (c.CanSendChanges rid),
    if c.CanSendChanges rid then (c.acknowledge rid).nextBuf s else c.nextSnapshot s⟩
  snapshot : c'.maindataSnapshot = c.nextSnapshot s
  syncBuf : c'.maindataSyncBuf = response.data
  lastSentID : c'.maindataLastSentID = c.nextID
  acceptedID : c'.maindataAcceptedID = (c.acknowledge rid).maindataAcceptedID
  flushed : Flushed c'
  knownTrackers : c'.knownTrackers =
    c.knownTrackers ∪ Dict.ofFinset c.updatedTrackers fun _ => ∅

theorem maindataAction_eq_some (rid : ℤ) (hc : c.Connected)
    (hlive : ∀ id ∈ c.updatedTorrents, id ∈ s.torrents) :
    ∃ response c', c.maindataAction s rid = some (response, c') ∧
      Answers s c rid response c' := by
  have hconn : c.connect s = c := if_pos hc
  have hack := acknowledge_eq c rid
  have hgen : ∀ id ∈ (c.acknowledge rid).updatedTorrents, id ∈ s.torrents := by rwa [hack]
  have hsnap : (c.acknowledge rid).nextSnapshot s = c.nextSnapshot s := by rw [hack]; rfl
  have hknown : (c.acknowledge rid).knownTrackers ∪
      ofFinset (c.acknowledge rid).updatedTrackers (fun _ => ∅) =
      c.knownTrackers ∪ ofFinset c.updatedTrackers fun _ => ∅ := by rw [hack]
  unfold maindataAction
  simp only [hconn, generateMaindataSyncData, if_pos hgen, map_some]
  refine ⟨_, _, rfl, ⟨?_, hsnap, rfl, rfl, rfl, ⟨rfl, rfl, rfl, rfl, rfl, rfl, rfl, rfl⟩, hknown⟩⟩
  by_cases h : c.CanSendChanges rid <;> simp [h, hsnap]

end SyncController

end Requests

section Events

variable {s s' : Session} {c : SyncController} {e : SessionEvent}

theorem SyncController.handle_frame (torrent : Option Torrent) :
    (c.handle s torrent e).maindataSnapshot = c.maindataSnapshot ∧
    (c.handle s torrent e).maindataSyncBuf = c.maindataSyncBuf ∧
    (c.handle s torrent e).maindataLastSentID = c.maindataLastSentID ∧
    (c.handle s torrent e).maindataAcceptedID = c.maindataAcceptedID := by
  cases e with
  | torrentRemoved id => cases torrent <;> exact ⟨rfl, rfl, rfl, rfl⟩
  | _ => exact ⟨rfl, rfl, rfl, rfl⟩

/-- The event makes no change behind the controller's back: a torrent changed without a signal is
pending already or has the same row, torrents keep their IDs, and subcategory support creates no
parent that is still in the snapshot. -/
def Signalled (s : Session) (c : SyncController) : SessionEvent → Prop
  | .torrentRenamed id fields =>
    id ∈ c.updatedTorrents ∨ ∀ torrent ∈ s.getTorrent id, fields = torrent.fields
  | .trackersChanged id trackers =>
    id ∈ c.updatedTorrents ∨
      ∀ torrent ∈ s.getTorrent id, trackers.length = torrent.trackers.length
  | .infoHashChanged _ _ => False
  | .subcategoriesSupportChanged parents =>
    ∀ name ∈ parents, name ∉ s.categories → name ∉ c.maindataSnapshot.categories
  | _ => True

instance : Decidable (Signalled s c e) := by cases e <;> unfold Signalled <;> infer_instance

theorem Signalled.respectsSilent (h : Signalled s c e) : RespectsSilent Eq s c e := by
  cases e with
  | torrentRenamed id fields =>
    refine Or.imp_right (fun h torrent row ht hrow => ?_) h
    rw [h torrent ht]
    exact hrow
  | trackersChanged id trackers =>
    refine Or.imp_right (fun h torrent row ht hrow => ?_) h
    rw [hrow, serializedTorrent, serializedTorrent, serialize, serialize, h torrent ht]
  | infoHashChanged prevID currentID => exact h
  | _ => trivial

theorem Signalled.freshParents (h : Signalled s c e) : FreshParents s c e := by
  cases e with
  | subcategoriesSupportChanged parents => exact h
  | _ => trivial

theorem Synced.handle (h : Synced s c) (he : Signalled s c e) (ha : s.apply e = some s') :
    Synced s' (c.handle s' (s.removedTorrent e) e) where
  serialized := by
    rw [(handle_frame _).1]
    exact h.serialized
  torrents := torrents_handle h.torrents he.respectsSilent ha
  categories := categories_handle h.categories he.freshParents ha
  tags := tags_handle h.tags ha
  trackers := trackers_handle h.trackers (by rintro _ _ rfl; exact he) ha

end Events

section Exactness

variable {s : Session} {c : SyncController} {rid : ℤ}

theorem Synced.makeMaindataSnapshot : Synced s (SyncController.makeMaindataSnapshot {} s) :=
  .of_flushed ⟨rfl, rfl, rfl, rfl, rfl, rfl, rfl, rfl⟩ 
    ⟨rfl, rfl, fun _ => Iff.rfl, rfl, rfl, rfl, rfl, rfl, rfl⟩ (lookup_trackers s)

/-- What a request must find so that folding the pending sets gives the live items. -/
def Foldable (s : Session) (c : SyncController) : Prop :=
  KeepsDownloadPaths s c ∧ RemovesWholeTags c
  deriving Decidable

theorem Synced.nextSnapshot (h : Synced s c) (hf : Foldable s c) :
    SameItems (c.nextSnapshot s) s.maindata := by
  obtain ⟨⟨s₀, htorrents, hcategories, hserverState⟩, h1, h2, h3, h4⟩ := h.serialized
  exact ⟨torrents_flush_eq htorrents h.torrents, categories_flush_eq hcategories h.categories hf.1,
    mem_tags_flush h.tags hf.2, trackers_flush_eq h.trackers, serverState_flush_eq hserverState,
    h1, h2, h3, h4⟩

theorem SameItems.eq {data data' : MaindataSyncBuf} (h : SameItems data data')
    (ht : data.tags.Nodup) (ht' : data'.tags.Nodup) : data = data' := by
  have htags : data.tags = data'.tags := (Multiset.Nodup.ext ht ht').2 h.tags
  obtain ⟨_, _, _, _, _, _, _, _, _⟩ := data'
  obtain ⟨rfl, rfl, -, rfl, rfl, rfl, rfl, rfl, rfl⟩ := h
  obtain rfl := htags
  rfl

/-- No tag to be added is already in the list of the snapshot. -/
def AddsFreshTags (c : SyncController) : Prop :=
  ∀ tag ∈ c.addedTags, tag ∉ c.maindataSnapshot.tags

instance : Decidable (AddsFreshTags c) := by unfold AddsFreshTags; infer_instance

theorem nodup_nextSnapshot_tags (h : c.maindataSnapshot.tags.Nodup) (hf : AddsFreshTags c) :
    (c.nextSnapshot s).tags.Nodup := by
  refine nodup_of_le (Multiset.sub_le_self _ _) (nodup_add.2 ⟨h,
    c.addedTags.nodup, ?_⟩)
  rw [Multiset.disjoint_left]
  exact fun ht ht' => hf _ ht' ht

theorem removesWholeTags_of_nodup (h : c.maindataSnapshot.tags.Nodup) : RemovesWholeTags c :=
  fun tag _ => nodup_iff_count_le_one.1 h tag

end Exactness

namespace SyncServer

variable {P : Session → SyncController → Prop} {s s' : SyncServer} {rid : ℤ} {e : SessionEvent}
  {l : ServerLabel}

/-- The server before its first request, or with signals connected and `P` between session and
controller. -/
def Following (P : Session → SyncController → Prop) (s : SyncServer) : Prop :=
  s.controller = {} ∨ s.controller.Connected ∧ P s.session s.controller

theorem Following.connect (h : Following P s)
    (h₀ : P s.session (SyncController.makeMaindataSnapshot {} s.session)) :
    (s.controller.connect s.session).Connected ∧
      P s.session (s.controller.connect s.session) := by
  rcases h with h | h
  · have hconn : s.controller.connect s.session = makeMaindataSnapshot {} s.session := by
      rw [h]; rfl
    rw [hconn]
    exact ⟨le_refl (0 : ℤ), h₀⟩
  · have hconn : s.controller.connect s.session = s.controller := if_pos h.1
    rwa [hconn]

theorem Following.onEvent (h : Following P s)
    (hP : s.controller.Connected → ∀ session, s.session.apply e = some session →
      P s.session s.controller →
      P session (s.controller.handle session (s.session.removedTorrent e) e))
    (hstep : s.onEvent e = some s') : Following P s' := by
  obtain ⟨session, ha, rfl⟩ := map_eq_some_iff.1 hstep
  rcases h with h | ⟨hc, h⟩
  · refine .inl ?_
    rw [h]
    rfl
  · refine .inr ?_
    simp only [if_pos hc]
    refine ⟨?_, hP hc session ha h⟩
    rw [Connected, (handle_frame _).2.2.2]
    exact hc

theorem onRequest_connect :
    s.onRequest rid = (SyncServer.mk s.session (s.controller.connect s.session)).onRequest rid := by
  have : (s.controller.connect s.session).connect s.session = s.controller.connect s.session := by
    by_cases hc : s.controller.Connected
    · simp only [connect, if_pos hc]
    · simp only [connect, if_neg hc]
      exact if_pos (le_refl (0 : ℤ))
  simp only [onRequest, maindataAction, this]

theorem Connected.acknowledge {c : SyncController} (hc : c.Connected) :
    0 ≤ (c.acknowledge rid).maindataAcceptedID := by
  unfold SyncController.acknowledge
  split_ifs with h
  · exact h.1.le
  · exact hc

theorem Following.onRequest (h : Following Synced s) (rid : ℤ) (hf : Foldable s.session s.controller) :
    ∃ response c', s.onRequest rid = some (response, ⟨s.session, c'⟩) ∧
      SyncController.Answers s.session (s.controller.connect s.session) rid response c' ∧
      c'.Connected ∧ Synced s.session c' ∧ SameItems c'.maindataSnapshot s.session.maindata := by
  have hf' : Foldable s.session (s.controller.connect s.session) := by
    rcases h with h | h
    · rw [h]
      exact ⟨fun _ hn => (notMem_empty _ hn).elim,
        fun _ ht => (notMem_empty _ ht).elim⟩
    · rwa [SyncController.connect, if_pos h.1]
  obtain ⟨hc, hsync⟩ := h.connect .makeMaindataSnapshot
  rw [onRequest_connect]
  generalize s.controller.connect s.session = c at *
  have hlive : ∀ id ∈ c.updatedTorrents, id ∈ s.session.torrents := fun id hid =>
    isSome_torrentRow.1 (hsync.torrents.isSome_of_updated id hid)
  obtain ⟨response, c', hact, hans⟩ := maindataAction_eq_some rid hc hlive
  have hsame : SameItems c'.maindataSnapshot s.session.maindata := by
    rw [hans.snapshot]
    exact hsync.nextSnapshot hf'
  refine ⟨response, c', by simp [SyncServer.onRequest, hact], hans, ?_, ?_, hsame⟩
  · rw [Connected, hans.acceptedID]
    exact Connected.acknowledge hc
  · refine .of_flushed hans.flushed hsame fun url => ?_
    rw [hans.knownTrackers, lookup_union, lookup_ofFinset, hsync.trackers.known]
    split_ifs with hu
    · obtain ⟨ids, hids⟩ :=
        isSome_iff_exists.1 (hsync.trackers.tracks.isSome_of_updated url hu)
      rw [hids, some_or]
    · rw [or_none]

/-- Steps after which the controller follows the session. -/
def FollowSafe (s : SyncServer) : ServerLabel → Prop
  | .event e => s.controller.Connected → Signalled s.session s.controller e
  | .request _ => Foldable s.session s.controller

instance (l : ServerLabel) : Decidable (FollowSafe s l) := by
  cases l <;> unfold FollowSafe <;> infer_instance

theorem following_step (h : Following Synced s) (hs : FollowSafe s l)
    (hstep : machine.step s l = some s') : Following Synced s' := by
  cases l with
  | event e => exact h.onEvent (fun hc _ ha h => h.handle (hs hc) ha) hstep
  | request rid =>
    obtain ⟨response, c', hreq, -, hconn, hsync, -⟩ := h.onRequest rid hs
    simp only [machine, hreq, map_some, some_inj] at hstep
    exact hstep ▸ .inr ⟨hconn, hsync⟩

/-- Following the session with every tag once in the snapshot. -/
def Exact (s : Session) (c : SyncController) : Prop := Synced s c ∧ c.maindataSnapshot.tags.Nodup

/-- The condition of `snapshot_eq_maindata` on a step. -/
def SnapshotSafe (s : SyncServer) : ServerLabel → Prop
  | .event e => s.controller.Connected → Signalled s.session s.controller e
  | .request _ => KeepsDownloadPaths s.session s.controller ∧ AddsFreshTags s.controller

instance (l : ServerLabel) : Decidable (SnapshotSafe s l) := by
  cases l <;> unfold SnapshotSafe <;> infer_instance

theorem Following.onRequest_exact (h : Following Exact s) (rid : ℤ)
    (hs : SnapshotSafe s (.request rid)) :
    ∃ response s', s.onRequest rid = some (response, s') ∧ s'.session = s.session ∧
      s'.controller.maindataSnapshot = s.session.maindata ∧ Following Exact s' := by
  have hsync : Following Synced s := h.imp_right fun h => ⟨h.1, h.2.1⟩
  have hwhole : RemovesWholeTags s.controller := by
    rcases h with h | h
    · rw [h]
      exact fun _ ht => (notMem_empty _ ht).elim
    · exact removesWholeTags_of_nodup h.2.2
  have hfresh : AddsFreshTags (s.controller.connect s.session) := by
    rcases h with h | h
    · rw [h]
      exact fun _ ht => (notMem_empty _ ht).elim
    · rw [SyncController.connect, if_pos h.1]
      exact hs.2
  obtain ⟨response, c', hreq, hans, hc, hsync', hsame⟩ :=
    hsync.onRequest rid ⟨hs.1, hwhole⟩
  have hnodup : c'.maindataSnapshot.tags.Nodup := by
    rw [hans.snapshot]
    refine nodup_nextSnapshot_tags ?_ hfresh
    exact (h.connect ⟨.makeMaindataSnapshot, s.session.tags.nodup⟩).2.2
  exact ⟨response, _, hreq, rfl, hsame.eq hnodup s.session.tags.nodup,
    .inr ⟨hc, hsync', hnodup⟩⟩

theorem following_exact_step (h : Following Exact s) (hs : SnapshotSafe s l)
    (hstep : machine.step s l = some s') : Following Exact s' := by
  cases l with
  | event e =>
    refine h.onEvent (fun hc _ ha h => ⟨h.1.handle (hs hc) ha, ?_⟩) hstep
    rw [(handle_frame _).1]
    exact h.2
  | request rid =>
    obtain ⟨response, s₁, hreq, -, -, hfoll⟩ := h.onRequest_exact rid hs
    simp only [machine, hreq, map_some, some_inj] at hstep
    exact hstep ▸ hfoll

end SyncServer

/-! ### Liveness of IDs -/

/-- The response tells the client that the torrent `id` is gone: a full update lacks it, a list of
changes has it among the removed. -/
def MaindataResponse.ReportsRemoved (response : MaindataResponse) (id : TorrentID) : Prop :=
  if response.fullUpdate then id ∉ response.data.torrents else id ∈ response.data.removedTorrents

namespace SyncServer

variable {s s' : SyncServer} {rid : ℤ} {e : SessionEvent}

/-- The pending torrents resolve, so that every request is answered, and the answer reports every
torrent of the snapshot that has left the session. -/
def IDsLive (s : SyncServer) : Prop :=
  (∀ id ∈ s.controller.updatedTorrents, id ∈ s.session.torrents) ∧
    ∀ rid, ∃ response s', s.onRequest rid = some (response, s') ∧
      ∀ id ∈ s.controller.maindataSnapshot.torrents, id ∉ s.session.torrents →
        response.ReportsRemoved id

/-- The step does not change the ID of a torrent under connected signals. -/
def KeepsIDs (s : SyncServer) : ServerLabel → Prop
  | .event (.infoHashChanged _ _) => ¬ s.controller.Connected
  | _ => True

instance (l : ServerLabel) : Decidable (KeepsIDs s l) := by
  unfold KeepsIDs
  split <;> infer_instance

/-- Pending torrents, whatever their rows. -/
abbrev IDsTracked : Session → SyncController → Prop := TorrentsTracked fun _ _ => True

theorem idsTracked_makeMaindataSnapshot (s : Session) :
    IDsTracked s (SyncController.makeMaindataSnapshot {} s) :=
  Synced.makeMaindataSnapshot.torrents.mono fun _ _ _ => trivial

theorem Following.onRequest_ids (h : Following IDsTracked s) (rid : ℤ) :
    ∃ response s', s.onRequest rid = some (response, s') ∧ Following IDsTracked s' ∧
      ∀ id ∈ s.controller.maindataSnapshot.torrents, id ∉ s.session.torrents →
        response.ReportsRemoved id := by
  have hsame : s.controller.connect s.session = s.controller ∨
      s.controller.maindataSnapshot.torrents = ∅ := by
    rcases h with h | h
    · right; rw [h]
    · exact .inl (if_pos h.1)
  obtain ⟨hc, hids⟩ := h.connect (idsTracked_makeMaindataSnapshot _)
  rw [onRequest_connect]
  generalize s.controller.connect s.session = c at *
  have hlive : ∀ id ∈ c.updatedTorrents, id ∈ s.session.torrents := fun id hid =>
    isSome_torrentRow.1 (hids.isSome_of_updated id hid)
  obtain ⟨response, c', hact, hans⟩ := maindataAction_eq_some rid hc hlive
  have hflushed := torrents_flush hids fun _ _ _ _ => trivial
  refine ⟨response, ⟨s.session, c'⟩, by simp [SyncServer.onRequest, hact], .inr ⟨?_, ?_⟩,
    fun id hid hgone => ?_⟩
  · rw [Connected, hans.acceptedID]
    exact Connected.acknowledge hc
  · change TorrentsTracked _ s.session c'
    rw [TorrentsTracked, hans.flushed.updatedTorrents, hans.flushed.removedTorrents, hans.snapshot]
    exact .of_rel hflushed
  · rcases hsame with hsame | hsame
    · subst hsame
      have hnone := torrentRow_eq_none.2 hgone
      have hrem : id ∈ s.controller.removedTorrents :=
        hids.mem_removed_of_gone (Finmap.lookup_isSome.2 hid) hnone
      rw [MaindataResponse.ReportsRemoved, hans.response_eq]
      by_cases hsend : s.controller.CanSendChanges rid
      · have hack : (s.controller.acknowledge rid).removedTorrents =
            s.controller.removedTorrents := by
          rw [acknowledge_eq]
        simp [hsend, nextBuf, hack, hrem]
      · have := hflushed id
        rw [hnone, rel_none_right, Finmap.lookup_eq_none] at this
        simpa [hsend] using this
    · rw [hsame] at hid
      exact (Finmap.notMem_empty hid).elim

theorem Following.idsLive (h : Following IDsTracked s) : IDsLive s := by
  refine ⟨fun id hid => ?_, fun rid => ?_⟩
  · rcases h with h | h
    · rw [h] at hid
      exact (notMem_empty _ hid).elim
    · exact isSome_torrentRow.1 (h.2.isSome_of_updated id hid)
  · obtain ⟨response, s', hreq, -, hrep⟩ := h.onRequest_ids rid
    exact ⟨response, s', hreq, hrep⟩

theorem following_ids_step {l : ServerLabel} (h : Following IDsTracked s) (hk : KeepsIDs s l)
    (hstep : machine.step s l = some s') : Following IDsTracked s' := by
  cases l with
  | event e =>
    refine h.onEvent (fun hc _ ha hids => torrents_handle hids ?_ ha) hstep
    cases e with
    | infoHashChanged prevID currentID => exact hk hc
    | torrentRenamed id fields => exact .inr fun _ _ _ _ => trivial
    | trackersChanged id trackers => exact .inr fun _ _ _ _ => trivial
    | _ => trivial
  | request rid =>
    obtain ⟨response, s₁, hreq, hfoll, -⟩ := h.onRequest_ids rid
    simp only [machine, hreq, map_some, some_inj] at hstep
    exact hstep ▸ hfoll

theorem not_idsLive_of_infoHashChanged {prevID currentID : TorrentID} (h : Following IDsTracked s)
    (hc : s.controller.Connected)
    (hstep : machine.step s (.event (.infoHashChanged prevID currentID)) = some s') :
    ¬ IDsLive s' := by
  have hids : IDsTracked s.session s.controller := by
    rcases h with h | h
    · rw [h] at hc
      exact absurd hc (by decide)
    · exact h.2
  obtain ⟨session, ha, rfl⟩ := map_eq_some_iff.1 hstep
  simp only [apply] at ha
  split_ifs at ha with hcur
  obtain ⟨torrent, ht, rfl⟩ := map_eq_some_iff.1 ha
  simp only [if_pos hc, handle]
  have hlive : prevID ∈ s.session.torrents := Finmap.mem_of_lookup_eq_some ht
  have hrow : (s.session.torrentRow prevID).isSome := isSome_torrentRow.2 hlive
  have hgone : prevID ∉
      Finmap.insert currentID torrent (Finmap.erase prevID s.session.torrents) := by
    rw [Finmap.mem_insert, Finmap.mem_erase]
    rintro (rfl | ⟨hne, -⟩)
    · exact hcur hlive
    · exact hne rfl
  rintro ⟨hupd, hreq⟩
  have hu : prevID ∉ s.controller.updatedTorrents := fun hu => hgone (hupd prevID hu)
  have hr : prevID ∉ s.controller.removedTorrents := fun hr => by
    rw [hids.eq_none_of_removed prevID hr] at hrow
    cases hrow
  have hsnap : prevID ∈ s.controller.maindataSnapshot.torrents := by
    by_contra hn
    exact hu (hids.mem_updated_of_fresh (Finmap.lookup_eq_none.2 hn) hrow)
  obtain ⟨response, s'', hresp, hrep⟩ := hreq 0
  obtain ⟨response', c', hact, hans⟩ := maindataAction_eq_some 0 hc hupd
  have hfull : ¬ s.controller.CanSendChanges 0 := fun hs => absurd hs.1 (lt_irrefl 0)
  simp only [onRequest, hact, map_some, some_inj, Prod.mk.injEq] at hresp
  have hrep := hrep prevID hsnap hgone
  rw [← hresp.1, hans.response_eq, MaindataResponse.ReportsRemoved] at hrep
  simp only [hfull, decide_false, Bool.not_false, if_true, if_false] at hrep
  refine hrep (Finmap.lookup_isSome.1 ?_)
  simp only [nextSnapshot, lookup_eraseAll, if_neg hr, updateSnapshot,
    lookup_union, lookup_ofFinset, if_neg hu, none_or]
  exact Finmap.lookup_isSome.2 hsnap

/-- **Liveness of IDs.**  Pending torrents resolve and lost torrents are reported throughout a run
exactly if no torrent changes its ID in it once the signals are connected. -/
theorem idsLive_iff {s₀ : Session} {ls : List ServerLabel}
    (hr : (machine.run ⟨s₀, {}⟩ ls).isSome) :
    machine.Always IDsLive ⟨s₀, {}⟩ ls ↔ machine.Meets KeepsIDs ⟨s₀, {}⟩ ls := by
  refine Machine.always_iff_meets (I := Following IDsTracked) (.inl rfl)
    (fun _ => Following.idsLive) (fun _ _ _ => following_ids_step) (fun s l s' h hk hstep => ?_) hr
  cases l with
  | event e =>
    cases e with
    | infoHashChanged prevID currentID =>
      exact not_idsLive_of_infoHashChanged h (not_not.1 hk) hstep
    | _ => exact (hk trivial).elim
  | request rid => exact (hk trivial).elim

theorem idsLive_torrentRemoved :
    machine.Always IDsLive ⟨{}, {}⟩
      [.event (.torrentAdded "a" {}), .request 0, .event (.torrentRemoved "a"), .request 1] :=
  (idsLive_iff (by decide)).2 (by decide)

/-- Metadata makes the torrent `a` hybrid and gives it the ID `b`; `a` is still pending. -/
theorem not_always_idsLive :
    ¬ ∀ s, machine.Reachable ⟨{}, {}⟩ s → IDsLive s := by
  intro h
  have hlive := h _ ⟨[.request 0, .event (.torrentAdded "a" {}), .event (.infoHashChanged "a" "b")],
    (some_get (by decide)).symm⟩
  exact absurd hlive.1 (by decide)

end SyncServer

end QBittorrent
