import QBittorrent.Lib.Pending
import QBittorrent.Sync.Controller

/-!
# What the pending sets of the controller track

For each kind of item (torrents, categories, tags, trackers) the pending sets of the controller
track the distance between the maindata snapshot and the session in the sense of
`Pending.Tracks`.  This file proves it of the handlers, one kind at a time.

* `torrents_handle`, `categories_handle`, `tags_handle`, `trackers_handle` : each kind of item.
-/

namespace QBittorrent

open Session Finset SyncController Dict

open Finmap (lookup)
open Pending

namespace Session

variable (s : Session)

/-- The row of the torrent `id`, if the session has it. -/
def torrentRow (id : TorrentID) : Option VariantMap := (s.getTorrent id).map (serializedTorrent id)

/-- The row of the category `name`, if the session has it. -/
def categoryRow (name : String) : Option VariantMap :=
  (lookup name s.categories).map (serializedCategory name)

/-- `tag` is a tag of the session. -/
def tagRow (tag : String) : Option Unit := if tag ∈ s.tags then some () else none

/-- The torrents that have the tracker `url`. -/
def torrentsWith (url : String) : Finset TorrentID :=
  s.torrents.keys.filter fun id => url ∈ s.trackersOf id

variable {s} {id : TorrentID} {name : String}

theorem isSome_torrentRow : (s.torrentRow id).isSome ↔ id ∈ s.torrents := by
  simp [torrentRow, getTorrent, Finmap.lookup_isSome]

theorem isSome_categoryRow : (s.categoryRow name).isSome ↔ name ∈ s.categories := by
  simp [categoryRow, Finmap.lookup_isSome]

theorem torrentRow_eq_none : s.torrentRow id = none ↔ id ∉ s.torrents := by
  simp [torrentRow, getTorrent, Finmap.lookup_eq_none]

theorem categoryRow_eq_none : s.categoryRow name = none ↔ name ∉ s.categories := by
  simp [categoryRow, Finmap.lookup_eq_none]

theorem mem_torrentsWith {url : String} : id ∈ s.torrentsWith url ↔ url ∈ s.trackersOf id := by
  simp only [torrentsWith, mem_filter, Finmap.mem_keys, and_iff_right_iff_imp]
  intro h
  by_contra hn
  rw [trackersOf, getTorrent, Finmap.lookup_eq_none.2 hn] at h
  simp at h

end Session

/-- The entry of a tracker map that drops trackers without torrents. -/
def present (ids : Finset TorrentID) : Option (Finset TorrentID) := if ids = ∅ then none else some ids

@[simp] theorem getD_present (ids : Finset TorrentID) : (present ids).getD ∅ = ids := by
  unfold present; split_ifs with h <;> simp [h]

theorem lookup_trackers (s : Session) (url : String) :
    lookup url s.trackers = present (s.torrentsWith url) := by
  have hmem : url ∈ s.torrents.keys.biUnion s.trackersOf ↔ s.torrentsWith url ≠ ∅ := by
    rw [mem_biUnion, ← nonempty_iff_ne_empty, torrentsWith,
      filter_nonempty_iff]
  rw [trackers, lookup_ofFinset, present]
  by_cases h : s.torrentsWith url = ∅
  · rw [if_neg (fun hm => hmem.1 hm h), if_pos h]
  · rw [if_pos (hmem.2 h), if_neg h, torrentsWith]

namespace Session

variable {s s' : Session}

theorem modifyTorrent_eq_some {id : TorrentID} {f : Torrent → Torrent} :
    s.modifyTorrent id f = some s' ↔ ∃ torrent, s.getTorrent id = some torrent ∧
      s' = { s with torrents := Finmap.insert id (f torrent) s.torrents } := by
  simp [modifyTorrent, eq_comm]

theorem torrentRow_insert (id id' : TorrentID) (torrent : Torrent) :
    torrentRow { s with torrents := Finmap.insert id torrent s.torrents } id' =
      if id' = id then some (serializedTorrent id torrent) else s.torrentRow id' := by
  simp only [torrentRow, getTorrent, lookup_insert_eq]
  split_ifs with h
  · subst h; rfl
  · rfl

theorem torrentRow_erase (id id' : TorrentID) :
    torrentRow { s with torrents := Finmap.erase id s.torrents } id' =
      if id' = id then none else s.torrentRow id' := by
  simp only [torrentRow, getTorrent, lookup_erase_eq]
  split_ifs <;> rfl

theorem trackersOf_insert (id id' : TorrentID) (torrent : Torrent) :
    trackersOf { s with torrents := Finmap.insert id torrent s.torrents } id' =
      if id' = id then torrent.trackers.toFinset else s.trackersOf id' := by
  simp only [trackersOf, getTorrent, lookup_insert_eq]
  split_ifs <;> rfl

theorem trackersOf_erase (id id' : TorrentID) :
    trackersOf { s with torrents := Finmap.erase id s.torrents } id' =
      if id' = id then ∅ else s.trackersOf id' := by
  simp only [trackersOf, getTorrent, lookup_erase_eq]
  split_ifs <;> rfl

theorem categoryRow_insert (name name' : String) (options : CategoryOptions) :
    categoryRow { s with categories := Finmap.insert name options s.categories } name' =
      if name' = name then some (serializedCategory name options) else s.categoryRow name' := by
  simp only [categoryRow, lookup_insert_eq]
  split_ifs with h
  · subst h; rfl
  · rfl

theorem categoryRow_erase (name name' : String) :
    categoryRow { s with categories := Finmap.erase name s.categories } name' =
      if name' = name then none else s.categoryRow name' := by
  simp only [categoryRow, lookup_erase_eq]
  split_ifs <;> rfl

end Session

section Torrents

variable {R : VariantMap → VariantMap → Prop} {s s' : Session} {c : SyncController} {e : SessionEvent}

/-- The pending torrents explain how far the snapshot is from the session, under `R`. -/
def TorrentsTracked (R : VariantMap → VariantMap → Prop) (s : Session) (c : SyncController) : Prop :=
  Tracks R c.updatedTorrents c.removedTorrents (lookup · c.maindataSnapshot.torrents) s.torrentRow

/-- `R` does not see the change that `e` makes to a torrent row without marking the torrent. -/
def RespectsSilent (R : VariantMap → VariantMap → Prop) (s : Session) (c : SyncController)
    (e : SessionEvent) : Prop :=
  match e with
  | .torrentRenamed id fields => id ∈ c.updatedTorrents ∨ ∀ torrent row,
      s.getTorrent id = some torrent → R row (serializedTorrent id torrent) →
        R row (serializedTorrent id { torrent with fields := fields })
  | .trackersChanged id trackers => id ∈ c.updatedTorrents ∨ ∀ torrent row,
      s.getTorrent id = some torrent → R row (serializedTorrent id torrent) →
        R row (serializedTorrent id { torrent with trackers := trackers })
  | .infoHashChanged _ _ => False
  | _ => True

theorem torrents_silent (h : TorrentsTracked R s c) {id : TorrentID} {torrent torrent' : Torrent}
    (ht : s.getTorrent id = some torrent)
    (hR : id ∈ c.updatedTorrents ∨
      ∀ row, R row (serializedTorrent id torrent) → R row (serializedTorrent id torrent')) :
    TorrentsTracked R { s with torrents := Finmap.insert id torrent' s.torrents } c := by
  have hrow : s.torrentRow id = some (serializedTorrent id torrent) := by
    simp [torrentRow, ht]
  refine ⟨fun k hk => ?_, fun k hk => ?_, fun k hu hr => ?_⟩ <;> rw [torrentRow_insert]
  · split_ifs
    · rfl
    · exact h.isSome_of_updated k hk
  · have hk' := h.eq_none_of_removed k hk
    rw [if_neg, hk']
    rintro rfl
    rw [hrow] at hk'
    cases hk'
  · have hrel := h.rel k hu hr
    split_ifs with hki
    · subst hki
      rw [hrow, rel_some_right] at hrel
      obtain ⟨row, ho, hR'⟩ := hrel
      exact rel_some_right.2 ⟨row, ho, (hR.resolve_left hu) _ hR'⟩
    · exact hrel

theorem torrents_handle (h : TorrentsTracked R s c) (hR : RespectsSilent R s c e)
    (ha : s.apply e = some s') :
    TorrentsTracked R s' (c.handle s' (s.removedTorrent e) e) := by
  cases e with
  | torrentAdded id torrent =>
    simp only [apply] at ha
    split_ifs at ha
    cases ha
    refine Tracks.update h (k := id) ?_ fun k hk => ?_ <;> rw [torrentRow_insert]
    · simp
    · rw [if_neg hk]
  | torrentRemoved id =>
    simp only [apply] at ha
    split_ifs at ha with hid
    cases ha
    obtain ⟨torrent, ht⟩ := Finmap.mem_iff.1 hid
    simp only [handle, removedTorrent, getTorrent, ht]
    refine Tracks.remove h (k := id) ?_ fun k hk => ?_ <;> rw [torrentRow_erase]
    · simp
    · rw [if_neg hk]
  | torrentUpdated id fields =>
    obtain ⟨torrent, ht, rfl⟩ := modifyTorrent_eq_some.1 ha
    refine Tracks.touch h (k := id) ?_ ?_ fun k hk => ?_
    · rw [torrentRow_insert]; simp
    · simp [torrentRow, ht]
    · rw [torrentRow_insert, if_neg hk]
  | torrentRenamed id fields =>
    obtain ⟨torrent, ht, rfl⟩ := modifyTorrent_eq_some.1 ha
    exact torrents_silent h ht (hR.imp_right fun hR row => hR torrent row ht)
  | trackersChanged id trackers =>
    obtain ⟨torrent, ht, rfl⟩ := modifyTorrent_eq_some.1 ha
    exact torrents_silent (c := c) h ht (hR.imp_right fun hR row => hR torrent row ht)
  | infoHashChanged prevID currentID => exact hR.elim
  | categoryAdded name options =>
    simp only [apply] at ha
    split_ifs at ha
    cases ha
    exact h
  | categoryOptionsChanged name options =>
    simp only [apply] at ha
    split_ifs at ha
    cases ha
    exact h
  | tagAdded tag | tagRemoved tag =>
    simp only [apply] at ha
    split_ifs at ha
    cases ha
    exact h
  | categoryRemoved name | subcategoriesSupportChanged parents | serverStateChanged state =>
    cases ha
    exact h

end Torrents

section Categories

variable {s s' : Session} {c : SyncController} {e : SessionEvent}

/-- The pending categories explain how far the snapshot is from the session. -/
def CategoriesTracked (s : Session) (c : SyncController) : Prop :=
  Tracks Eq c.updatedCategories c.removedCategories (lookup · c.maindataSnapshot.categories)
    s.categoryRow

/-- No category that subcategory support creates is still in the snapshot. -/
def FreshParents (s : Session) (c : SyncController) (e : SessionEvent) : Prop :=
  match e with
  | .subcategoriesSupportChanged parents =>
    ∀ name ∈ parents, name ∉ s.categories → name ∉ c.maindataSnapshot.categories
  | _ => True

theorem categories_subcategories (h : CategoriesTracked s c) {parents : Finset String}
    (hp : ∀ name ∈ parents, name ∉ s.categories → name ∉ c.maindataSnapshot.categories)
    (hs : s' = { s with categories := s.categories ∪ Dict.ofFinset parents fun _ => {} }) :
    CategoriesTracked s' (c.onSubcategoriesSupportChanged s') := by
  have hold : ∀ k, k ∈ s.categories → s'.categoryRow k = s.categoryRow k := by
    intro k hk
    rw [hs, categoryRow, Finmap.lookup_union_left hk, categoryRow]
  have hmem : ∀ k, k ∈ s'.categories ↔ k ∈ s.categories ∨ k ∈ parents := by
    intro k
    rw [hs, Finmap.mem_union, ← Finmap.lookup_isSome (s := ofFinset _ _), lookup_ofFinset]
    by_cases hk : k ∈ parents <;> simp [hk]
  refine Tracks.step h (fun k hk => ?_) (fun k hk => ?_) fun k hu hr => ?_
  · rw [isSome_categoryRow]
    rcases mem_union.1 hk with hk | hk
    · exact (hmem k).2 (.inl (isSome_categoryRow.1 (h.isSome_of_updated k hk)))
    · exact Finmap.mem_keys.1 (mem_filter.1 hk).1
  · -- still marked removed: not marked by the handler, so in the snapshot or not in the session
    obtain ⟨hkr, hkf⟩ := mem_sdiff.1 hk
    have hks := categoryRow_eq_none.1 (h.eq_none_of_removed k hkr)
    rw [categoryRow_eq_none, hmem]
    rintro (hk' | hk')
    · exact hks hk'
    · exact hkf (mem_filter.2 ⟨Finmap.mem_keys.2 ((hmem k).2 (.inr hk')), hp k hk' hks⟩)
  · simp only [onSubcategoriesSupportChanged, mem_union, not_or,
      mem_sdiff, not_and, not_not] at hu hr
    have hkr : k ∉ c.removedCategories := fun hkr => hu.2 (hr hkr)
    refine ⟨hu.1, hkr, ?_⟩
    by_cases hk : k ∈ s.categories
    · exact hold k hk
    · -- not in the session before: not in the snapshot, so it would have been marked
      have hnone := categoryRow_eq_none.2 hk
      rw [hnone, categoryRow_eq_none]
      intro hk'
      have hsnap := h.rel k hu.1 hkr
      rw [hnone, rel_none_right, Finmap.lookup_eq_none] at hsnap
      exact hu.2 (mem_filter.2 ⟨Finmap.mem_keys.2 hk', hsnap⟩)

theorem categories_handle (h : CategoriesTracked s c) (hf : FreshParents s c e)
    (ha : s.apply e = some s') : CategoriesTracked s' (c.handle s' (s.removedTorrent e) e) := by
  cases e with
  | categoryAdded name options =>
    simp only [apply] at ha
    split_ifs at ha
    cases ha
    refine Tracks.update h (k := name) ?_ fun k hk => ?_ <;> rw [categoryRow_insert]
    · simp
    · rw [if_neg hk]
  | categoryRemoved name =>
    cases ha
    refine Tracks.remove h (k := name) ?_ fun k hk => ?_ <;> rw [categoryRow_erase]
    · simp
    · rw [if_neg hk]
  | categoryOptionsChanged name options =>
    simp only [apply] at ha
    split_ifs at ha with hname
    cases ha
    refine Tracks.touch h (k := name) ?_ (isSome_categoryRow.2 hname) fun k hk => ?_ <;>
      rw [categoryRow_insert]
    · simp
    · rw [if_neg hk]
  | subcategoriesSupportChanged parents =>
    cases ha
    exact categories_subcategories h hf rfl
  | tagAdded tag | tagRemoved tag | torrentAdded id torrent =>
    simp only [apply] at ha
    split_ifs at ha
    cases ha
    exact h
  | torrentRemoved id =>
    simp only [apply] at ha
    split_ifs at ha
    cases ha
    cases ht : s.getTorrent id <;> simp only [handle, removedTorrent, ht] <;>
      exact h
  | torrentUpdated id fields | torrentRenamed id fields | trackersChanged id trackers =>
    obtain ⟨torrent, -, rfl⟩ := modifyTorrent_eq_some.1 ha
    exact h
  | infoHashChanged prevID currentID =>
    simp only [apply] at ha
    split_ifs at ha
    obtain ⟨torrent, -, rfl⟩ := Option.map_eq_some_iff.1 ha
    exact h
  | serverStateChanged state =>
    cases ha
    exact h

end Categories

section Tags

variable {s s' : Session} {c : SyncController} {e : SessionEvent}

/-- `tag` is in the tag list of the snapshot. -/
def snapshotTag (c : SyncController) (tag : String) : Option Unit :=
  if tag ∈ c.maindataSnapshot.tags then some () else none

/-- The pending tags explain how far the snapshot is from the session. -/
def TagsTracked (s : Session) (c : SyncController) : Prop :=
  Tracks Eq c.addedTags c.removedTags (snapshotTag c) s.tagRow

theorem tags_handle (h : TagsTracked s c) (ha : s.apply e = some s') :
    TagsTracked s' (c.handle s' (s.removedTorrent e) e) := by
  cases e with
  | tagAdded tag =>
    simp only [apply] at ha
    split_ifs at ha
    cases ha
    refine Tracks.update h (k := tag) ?_ fun k hk => ?_
    · simp [tagRow]
    · simp [tagRow, hk]
  | tagRemoved tag =>
    simp only [apply] at ha
    split_ifs at ha
    cases ha
    refine Tracks.remove h (k := tag) ?_ fun k hk => ?_
    · simp [tagRow]
    · simp [tagRow, hk]
  | categoryAdded name options | categoryOptionsChanged name options | torrentAdded id torrent =>
    simp only [apply] at ha
    split_ifs at ha
    cases ha
    exact h
  | torrentRemoved id =>
    simp only [apply] at ha
    split_ifs at ha
    cases ha
    cases ht : s.getTorrent id <;> simp only [handle, removedTorrent, ht] <;>
      exact h
  | torrentUpdated id fields | torrentRenamed id fields | trackersChanged id trackers =>
    obtain ⟨torrent, -, rfl⟩ := modifyTorrent_eq_some.1 ha
    exact h
  | infoHashChanged prevID currentID =>
    simp only [apply] at ha
    split_ifs at ha
    obtain ⟨torrent, -, rfl⟩ := Option.map_eq_some_iff.1 ha
    exact h
  | categoryRemoved name | subcategoriesSupportChanged parents | serverStateChanged state =>
    cases ha
    exact h

end Tags

section Trackers

variable {s s' : Session} {c c' : SyncController} {e : SessionEvent}
  {tw tw' : String → Finset TorrentID} {id : TorrentID} {urls : Finset String}
  {ids : Finset TorrentID}

/-- The known trackers have the torrents `tw`, and the pending trackers explain how far the
snapshot is from `tw`. -/
structure KnownTracked (tw : String → Finset TorrentID) (c : SyncController) : Prop where
  known : ∀ url, lookup url c.knownTrackers = present (tw url)
  tracks : Tracks Eq c.updatedTrackers c.removedTrackers (lookup · c.maindataSnapshot.trackers)
    fun url => present (tw url)

/-- The tracker side of the controller follows the session. -/
def TrackersTracked (s : Session) (c : SyncController) : Prop := KnownTracked s.torrentsWith c

theorem present_eq_none : present ids = none ↔ ids = ∅ := by
  unfold present; split_ifs with h <;> simp [h]

theorem isSome_present : (present ids).isSome ↔ ids ≠ ∅ := by
  unfold present; split_ifs with h <;> simp [h]

theorem present_insert (ids : Finset TorrentID) : present (insert id ids) = some (insert id ids) :=
  if_neg (insert_ne_empty id ids)

namespace KnownTracked

section

variable (h : KnownTracked tw c)

include h

theorem torrentsOf (url : String) : c.torrentsOf url = tw url := by
  rw [SyncController.torrentsOf, h.known, getD_present]

theorem mem_known {url : String} : url ∈ c.knownTrackers ↔ tw url ≠ ∅ := by
  rw [← Finmap.lookup_isSome, h.known, isSome_present]

theorem congr (htw : ∀ url, tw' url = tw url) : KnownTracked tw' c := by
  rwa [funext htw]

theorem drop (id : TorrentID) (urls : Finset String) :
    KnownTracked (fun url => if url ∈ urls then (tw url).erase id else tw url)
      (c.dropTorrent id urls) := by
  have hemp : ∀ url, url ∈ urls.filter (fun url => (c.torrentsOf url).erase id = ∅) ↔
      url ∈ urls ∧ (tw url).erase id = ∅ := by
    intro url
    rw [mem_filter, h.torrentsOf]
  refine ⟨fun url => ?_, Tracks.step h.tracks (fun k hk => ?_) (fun k hk => ?_) fun k hu hr => ?_⟩
  · simp only [dropTorrent, lookup_eraseAll, lookup_union,
      lookup_ofFinset, mem_filter, h.torrentsOf, h.known]
    by_cases hurl : url ∈ urls
    · by_cases he : (tw url).erase id = ∅ <;> simp [hurl, he, present]
    · simp [hurl]
  · simp only [dropTorrent, mem_union, mem_sdiff, hemp] at hk
    rcases hk with ⟨hk, hne⟩ | ⟨hk, hne⟩
    · by_cases hurl : k ∈ urls
      · simpa [hurl, isSome_present] using fun he => hne ⟨hurl, he⟩
      · simpa [hurl] using h.tracks.isSome_of_updated k hk
    · simpa [hk, isSome_present] using fun he => hne ⟨hk, he⟩
  · simp only [dropTorrent, mem_union, hemp] at hk
    rcases hk with hk | ⟨hk, he⟩
    · have hnone : tw k = ∅ := present_eq_none.1 (h.tracks.eq_none_of_removed k hk)
      simp [hnone, present]
    · simp [hk, he, present]
  · simp only [dropTorrent, mem_union, mem_sdiff, hemp, not_or] at hu hr
    have hurl : k ∉ urls := fun hurl => hu.2 ⟨hurl, hr.2⟩
    exact ⟨fun hk => hu.1 ⟨hk, hr.2⟩, hr.1, by simp [hurl]⟩

theorem join (c' : SyncController) (id : TorrentID) (urls : Finset String)
    (hs : c'.maindataSnapshot = c.maindataSnapshot) (hk : c'.knownTrackers =
      Dict.ofFinset urls (fun url => insert id (c.torrentsOf url)) ∪ c.knownTrackers)
    (hu : c'.updatedTrackers = c.updatedTrackers ∪ urls)
    (hr : c'.removedTrackers = c.removedTrackers \ urls) :
    KnownTracked (fun url => if url ∈ urls then insert id (tw url) else tw url) c' := by
  refine ⟨fun url => ?_, ?_⟩
  · rw [hk, lookup_union, lookup_ofFinset, h.torrentsOf, h.known]
    by_cases hurl : url ∈ urls <;> simp [hurl, present_insert]
  rw [hs, hu, hr]
  refine Tracks.step h.tracks (fun k hk => ?_) (fun k hk => ?_) fun k hu hr => ?_
  · rcases mem_union.1 hk with hk | hk
    · by_cases hurl : k ∈ urls
      · simp [hurl, present_insert]
      · simpa [hurl] using h.tracks.isSome_of_updated k hk
    · simp [hk, present_insert]
  · obtain ⟨hk, hurl⟩ := mem_sdiff.1 hk
    simpa [hurl] using h.tracks.eq_none_of_removed k hk
  · rw [mem_union, not_or] at hu
    exact ⟨hu.1, fun hk => hr (mem_sdiff.2 ⟨hk, hu.2⟩), by simp [hu.2]⟩

end

end KnownTracked

variable {torrent : Torrent}

section

variable (h : TrackersTracked s c)

include h

theorem trackers_added (hid : id ∉ s.torrents) :
    TrackersTracked { s with torrents := Finmap.insert id torrent s.torrents }
      (c.onTorrentAdded id torrent) := by
  refine (KnownTracked.join h (c.onTorrentAdded id torrent) id torrent.trackers.toFinset rfl rfl rfl
    rfl).congr fun url => ?_
  have hno : id ∉ s.torrentsWith url := by
    rw [mem_torrentsWith, trackersOf, getTorrent,
      Finmap.lookup_eq_none.2 hid]
    simp
  ext k
  rw [mem_torrentsWith, trackersOf_insert]
  by_cases hk : k = id
  · subst hk
    by_cases hurl : url ∈ torrent.trackers <;> simp [hurl, hno]
  · by_cases hurl : url ∈ torrent.trackers <;> simp [hurl, hk, mem_torrentsWith]

theorem trackers_removed (ht : s.getTorrent id = some torrent) :
    TrackersTracked { s with torrents := Finmap.erase id s.torrents }
      (c.onTorrentAboutToBeRemoved id torrent) := by
  refine KnownTracked.congr (KnownTracked.drop (c := { c with
    updatedTorrents := c.updatedTorrents.erase id
    removedTorrents := insert id c.removedTorrents }) ⟨h.known, h.tracks⟩ id _) fun url => ?_
  have hid : id ∈ s.torrentsWith url ↔ url ∈ torrent.trackers := by
    simp [mem_torrentsWith, trackersOf, ht]
  have hurl : url ∈ torrent.trackers.toFinset.filter (fun url => url ∈ c.knownTrackers) ↔
      url ∈ torrent.trackers := by
    rw [mem_filter, h.mem_known, List.mem_toFinset, and_iff_left_iff_imp]
    exact fun hm => ne_empty_of_mem (hid.2 hm)
  ext k
  rw [mem_torrentsWith, trackersOf_erase]
  simp only [hurl]
  by_cases hk : k = id
  · subst hk
    by_cases hm : url ∈ torrent.trackers <;> simp [hm, hid]
  · by_cases hm : url ∈ torrent.trackers <;> simp [hm, hk, mem_torrentsWith]

theorem trackers_changed {trackers : List String} (ht : s.getTorrent id = some torrent) :
    TrackersTracked
      { s with torrents := Finmap.insert id { torrent with trackers := trackers } s.torrents }
      (c.onTorrentTrackersChanged id trackers) := by
  set left := c.knownTrackers.keys.filter fun url =>
    id ∈ c.torrentsOf url ∧ url ∉ trackers.toFinset with hleft
  set joined := c.knownTrackers.keys.filter fun url =>
    url ∈ trackers.toFinset ∧ id ∉ c.torrentsOf url with hjoined
  set fresh := trackers.toFinset \ c.knownTrackers.keys with hfresh
  have hdrop := KnownTracked.drop h id left
  have hmemleft : ∀ url, url ∈ left ↔ id ∈ s.torrentsWith url ∧ url ∉ trackers := by
    intro url
    rw [hleft, mem_filter, Finmap.mem_keys, h.mem_known, h.torrentsOf, List.mem_toFinset,
      and_iff_right_iff_imp]
    exact fun hm => ne_empty_of_mem hm.1
  have hmemjoined : ∀ url, url ∈ joined ↔
      s.torrentsWith url ≠ ∅ ∧ url ∈ trackers ∧ id ∉ s.torrentsWith url := by
    intro url
    rw [hjoined, mem_filter, Finmap.mem_keys, h.mem_known, h.torrentsOf, List.mem_toFinset]
  have hmemfresh : ∀ url, url ∈ fresh ↔ url ∈ trackers ∧ s.torrentsWith url = ∅ := by
    intro url
    rw [hfresh, mem_sdiff, Finmap.mem_keys, h.mem_known, List.mem_toFinset, not_not]
  -- a joined tracker has torrents, so it is not marked removed
  have hremoved : (c.dropTorrent id left).removedTrackers \ fresh =
      (c.dropTorrent id left).removedTrackers \ (joined ∪ fresh) := by
    ext url
    simp only [mem_sdiff, mem_union, not_or, and_congr_right_iff]
    intro hr
    have hnone := present_eq_none.1 (hdrop.tracks.eq_none_of_removed url hr)
    refine ⟨fun hf => ⟨fun hj => ?_, hf⟩, And.right⟩
    obtain ⟨hne, hmem, -⟩ := (hmemjoined url).1 hj
    rw [if_neg fun hl => ((hmemleft url).1 hl).2 hmem] at hnone
    exact hne hnone
  refine (KnownTracked.join hdrop (c.onTorrentTrackersChanged id trackers) id (joined ∪ fresh) rfl rfl
    ?_ hremoved).congr fun url => ?_
  · exact union_assoc _ _ _
  ext k
  rw [mem_torrentsWith, trackersOf_insert]
  simp only [mem_union, hmemleft, hmemjoined, hmemfresh]
  by_cases hk : k = id
  · subst hk
    by_cases hmem : url ∈ trackers <;> by_cases hid : k ∈ s.torrentsWith url
    · simp [hmem, hid, ne_empty_of_mem hid]
    · by_cases he : s.torrentsWith url = ∅ <;> simp [hmem, hid, he]
    · simp [hmem, hid]
    · simp [hmem, hid]
  · by_cases hmem : url ∈ trackers <;> by_cases hid : id ∈ s.torrentsWith url <;>
      by_cases he : s.torrentsWith url = ∅ <;>
      simp [hmem, hid, he, hk, ← mem_torrentsWith]

theorem trackers_handle (he : ∀ prevID currentID,
    e ≠ .infoHashChanged prevID currentID) (ha : s.apply e = some s') :
    TrackersTracked s' (c.handle s' (s.removedTorrent e) e) := by
  have hsame : ∀ {id : TorrentID} {torrent : Torrent} {fields : Row torrentKeys},
      s.getTorrent id = some torrent →
      TrackersTracked { s with
        torrents := Finmap.insert id { torrent with fields := fields } s.torrents } c := by
    intro id torrent fields ht
    refine KnownTracked.congr h fun url => Finset.ext fun k => ?_
    rw [mem_torrentsWith, mem_torrentsWith, trackersOf_insert]
    split_ifs with hk
    · rw [hk, trackersOf, ht]; rfl
    · rfl
  cases e with
  | torrentAdded id torrent =>
    simp only [apply] at ha
    split_ifs at ha with hid
    cases ha
    exact trackers_added h hid
  | torrentRemoved id =>
    simp only [apply] at ha
    split_ifs at ha with hid
    cases ha
    obtain ⟨torrent, ht⟩ := Finmap.mem_iff.1 hid
    simp only [handle, removedTorrent, getTorrent, ht]
    exact trackers_removed h ht
  | torrentUpdated id fields | torrentRenamed id fields =>
    obtain ⟨torrent, ht, rfl⟩ := modifyTorrent_eq_some.1 ha
    exact ⟨(hsame ht).known, (hsame ht).tracks⟩
  | trackersChanged id trackers =>
    obtain ⟨torrent, ht, rfl⟩ := modifyTorrent_eq_some.1 ha
    exact trackers_changed h ht
  | infoHashChanged prevID currentID => exact (he _ _ rfl).elim
  | categoryAdded name options | categoryOptionsChanged name options | tagAdded tag
  | tagRemoved tag =>
    simp only [apply] at ha
    split_ifs at ha
    cases ha
    exact ⟨h.known, h.tracks⟩
  | categoryRemoved name | subcategoriesSupportChanged parents | serverStateChanged state =>
    cases ha
    exact ⟨h.known, h.tracks⟩

end

end Trackers

end QBittorrent
