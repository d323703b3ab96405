import QBittorrent.Sync.Snapshot

/-!
# Convergence of a maindata client under lost responses

A client that always sends the `rid` of the last response it applied, a network that loses
responses, and the server of `QBittorrent.Sync.Controller`.  `SyncHistory` has any number of
clients: it remembers what each response described.

A response that is not a full update is the buffer: what has changed since the response
acknowledged last.  The invariant behind the convergence is that applying the buffer to what the
client shows gives the snapshot (`Caught`).  Its one-step lemma for a row is `merge_row`, whose
condition `MergesRow` is what the buffer gets wrong otherwise: the differences found now replace
those buffered for the same row.

* `client_shows_maindata` : responses make the client show the live data;
* `client_misses_change` : a loss can hide a change.
-/

namespace QBittorrent

open Dict SyncController Option

open Finmap (lookup)
open VariantMap Pending

/-! ### The client -/

/-- What a client shows, and the ID of the response it applied last. -/
structure SyncClient where
  rid : ℕ := 0
  torrents : Dict TorrentID VariantMap := ∅
  categories : Dict String VariantMap := ∅
  tags : Finset String := ∅
  trackers : Dict String (Finset TorrentID) := ∅
  serverState : VariantMap := ∅

/-- Merge changed rows field by field. -/
def mergeRows (changes rows : Dict String VariantMap) : Dict String VariantMap :=
  Dict.filterMap (fun key row => some (row ∪ rowOf rows key)) changes ∪ rows

namespace SyncClient

variable (client : SyncClient)

/-- Apply a list of changes: rows are merged, tags added, trackers set, and then what is removed
is deleted. -/
def applyChanges (data : MaindataSyncBuf) : SyncClient :=
  { client with
    torrents := Dict.eraseAll data.removedTorrents.toFinset (mergeRows data.torrents client.torrents)
    categories :=
      Dict.eraseAll data.removedCategories.toFinset (mergeRows data.categories client.categories)
    tags := (client.tags ∪ data.tags.toFinset) \ data.removedTags.toFinset
    trackers := Dict.eraseAll data.removedTrackers.toFinset (data.trackers ∪ client.trackers)
    serverState := data.serverState ∪ client.serverState }

/-- Replace everything by a full update. -/
def replace (data : MaindataSyncBuf) : SyncClient :=
  { client with
    torrents := data.torrents
    categories := data.categories
    tags := data.tags.toFinset
    trackers := data.trackers
    serverState := data.serverState }

def applyResponse (response : MaindataResponse) : SyncClient :=
  { (if response.fullUpdate then client.replace response.data
      else client.applyChanges response.data) with rid := response.rid }

/-- The client shows the items of `data`: the same rows up to fields without a value, the same
tags and trackers. -/
structure Shows (client : SyncClient) (data : MaindataSyncBuf) : Prop where
  torrents : ∀ id, Option.Rel Agree (lookup id client.torrents) (lookup id data.torrents)
  categories : ∀ name, Option.Rel Agree (lookup name client.categories) (lookup name data.categories)
  tags : ∀ tag, tag ∈ client.tags ↔ tag ∈ data.tags
  trackers : client.trackers = data.trackers
  serverState : Agree client.serverState data.serverState

variable {client} {data data' : MaindataSyncBuf}

theorem Shows.congr (h : client.Shows data) (hs : SameItems data data') : client.Shows data' where
  torrents := hs.torrents ▸ h.torrents
  categories := hs.categories ▸ h.categories
  tags tag := (h.tags tag).trans (hs.tags tag)
  trackers := h.trackers.trans hs.trackers
  serverState := hs.serverState ▸ h.serverState

theorem Shows.setRid (h : client.Shows data) (rid : ℕ) : { client with rid := rid }.Shows data :=
  { h with }

theorem rel_agree_refl (row : Option VariantMap) : Option.Rel Agree row row := by
  cases row with
  | none => exact .none
  | some row => exact .some (Agree.refl row)

theorem value_of_rel_agree {row row' : Option VariantMap} (h : Option.Rel Agree row row')
    (key : String) : value (row.getD ∅) key = value (row'.getD ∅) key := by
  cases h with
  | some h => exact h key
  | none => rfl

theorem shows_replace (client : SyncClient) (data : MaindataSyncBuf) :
    (client.replace data).Shows data :=
  ⟨fun _ => rel_agree_refl _, fun _ => rel_agree_refl _, fun _ => Multiset.mem_toFinset, rfl,
    Agree.refl _⟩

theorem applyChanges_empty (client : SyncClient) : client.applyChanges {} = client := by
  have hrows : ∀ rows : Dict String VariantMap,
      eraseAll (0 : Multiset String).toFinset (mergeRows ∅ rows) = rows := by
    intro rows
    refine Finmap.ext_lookup fun key => ?_
    simp [mergeRows, lookup_union]
  have htrackers : eraseAll (0 : Multiset String).toFinset (∅ ∪ client.trackers) =
      client.trackers := by
    refine Finmap.ext_lookup fun key => ?_
    simp
  obtain ⟨rid, torrents, categories, tags, trackers, serverState⟩ := client
  simp only [applyChanges, hrows, mk.injEq, true_and]
  exact ⟨by simp, htrackers, Finmap.empty_union⟩

end SyncClient

/-! ### One row -/

/-- What a client shows at a key after a list of changes: `buffered` is the changed row, `removed`
how often the key is listed as removed. -/
def deliverRow (buffered : Option VariantMap) (removed : ℕ) (row : Option VariantMap) :
    Option VariantMap :=
  if 0 < removed then none
  else match buffered with
    | none => row
    | some d => some (d ∪ row.getD ∅)

theorem lookup_mergeRows (changes rows : Dict String VariantMap) (removed : Multiset String)
    (key : String) :
    lookup key (Dict.eraseAll removed.toFinset (mergeRows changes rows)) =
      deliverRow (lookup key changes) (removed.count key) (lookup key rows) := by
  simp only [lookup_eraseAll, Multiset.mem_toFinset, deliverRow, Multiset.count_pos, mergeRows,
    lookup_union, lookup_filterMap]
  by_cases h : key ∈ removed
  · rw [if_pos h, if_pos h]
  · cases lookup key changes <;> rfl

/-- The buffer keeps up with a change of a row from `prev` to `cur`: the row is listed as removed at
most once; what is buffered for it has only keys that the new differences have, or the row is as it
was; and if it was removed and is there again, the client has no field that it now lacks. -/
def MergesRow (prev cur : VariantMap) (buffered row : Option VariantMap) (removed : ℕ) : Prop :=
  removed ≤ 1 ∧
  (removed = 0 → processMap prev cur ≠ ∅ → ∀ d ∈ buffered, ∀ key ∈ d.keys,
    key ∈ processMap prev cur) ∧
  (removed = 1 → ∀ fields ∈ row, ∀ key ∈ fields.keys,
    value fields key ≠ .invalid → value cur key ≠ .invalid)

instance (prev cur : VariantMap) (buffered row : Option VariantMap) (removed : ℕ) :
    Decidable (MergesRow prev cur buffered row removed) := by
  unfold MergesRow
  infer_instance

section Row

variable {prev cur : VariantMap} {buffered row stored : Option VariantMap} {removed : ℕ}

theorem merge_row (h : Option.Rel Agree (deliverRow buffered removed row) stored)
    (hprev : stored.getD ∅ = prev) (hm : MergesRow prev cur buffered row removed)
    (hcov : Covers prev cur) (hfresh : stored = none → processMap ∅ cur ≠ ∅) :
    Option.Rel Agree
      (deliverRow (if processMap prev cur = ∅ then buffered else some (processMap prev cur))
        (removed - 1) row)
      (some (if processMap prev cur = ∅ then prev else cur)) := by
  obtain ⟨hle, hkeys, hfields⟩ := hm
  rcases Nat.le_one_iff_eq_zero_or_eq_one.1 hle with rfl | rfl
  · by_cases hd : processMap prev cur = ∅
    · cases stored with
      | none =>
        rw [← hprev] at hd
        exact (hfresh rfl hd).elim
      | some stored =>
        obtain rfl : stored = prev := hprev
        simpa only [if_pos hd] using h
    · simp only [if_neg hd]
      refine .some (merge_processMap_of hcov fun key hk => ?_)
      cases buffered with
      | none =>
        rw [← hprev]
        cases h with
        | some h => exact h key
        | none => rfl
      | some d =>
        have hkd : key ∉ d := fun hm => hk (hkeys rfl hd d rfl key (Finmap.mem_keys.2 hm))
        cases h with
        | some h =>
          rw [← value_union_of_notMem hkd, h key, ← hprev]
          rfl
  · -- listed as removed once: the stored row is gone, and the buffer gets the whole row
    cases h
    obtain rfl : ∅ = prev := hprev
    simp only [if_neg (hfresh rfl), Nat.sub_self]
    refine .some fun key => ?_
    by_cases hk : key ∈ processMap ∅ cur
    · rw [value_union_of_mem hk, value_processMap hk]
    · have hcur : value cur key = .invalid := by
        rw [← value_eq_of_notMem_processMap hcov hk, value_empty]
      rw [value_union_of_notMem hk, hcur]
      by_contra hv
      cases row with
      | none => exact hv value_empty
      | some fields =>
        exact hfields rfl fields rfl key (Finmap.mem_keys.2 (mem_of_value hv)) hv hcur

theorem merge_rows {updated removed : Finset String} {current : String → VariantMap}
    {rows snapshot buf : Dict String VariantMap} {removedKeys : Multiset String}
    (hdisj : ∀ key ∈ updated, key ∉ removed)
    (h : ∀ key, Option.Rel Agree
      (lookup key (Dict.eraseAll removedKeys.toFinset (mergeRows buf rows))) (lookup key snapshot))
    (hm : ∀ key ∈ updated, MergesRow (rowOf snapshot key) (current key) (lookup key buf)
      (lookup key rows) (removedKeys.count key))
    (hcov : ∀ key ∈ updated, Covers (rowOf snapshot key) (current key))
    (hfresh : ∀ key ∈ updated, processMap ∅ (current key) ≠ ∅) (key : String) :
    Option.Rel Agree
      (lookup key (Dict.eraseAll (removedKeys - updated.val + removed.val).toFinset
        (mergeRows (updateBuf updated current snapshot (Dict.eraseAll removed buf)) rows)))
      (lookup key (Dict.eraseAll removed (updateSnapshot updated current snapshot))) := by
  have hkey := h key
  rw [lookup_mergeRows] at hkey ⊢
  have hbuf : lookup key (updateBuf updated current snapshot (eraseAll removed buf)) =
      if key ∈ updated ∧ processMap (rowOf snapshot key) (current key) ≠ ∅ then
        some (processMap (rowOf snapshot key) (current key))
      else if key ∈ removed then none else lookup key buf := by
    rw [updateBuf, lookup_union, lookup_ofFinset, lookup_eraseAll]
    simp only [Finset.mem_filter]
    split_ifs <;> rfl
  have hsnap : lookup key (eraseAll removed (updateSnapshot updated current snapshot)) =
      if key ∈ removed then none else if key ∈ updated then
        some (if processMap (rowOf snapshot key) (current key) = ∅ then rowOf snapshot key
          else current key)
      else lookup key snapshot := by
    rw [lookup_eraseAll, updateSnapshot, lookup_union, lookup_ofFinset]
    split_ifs <;> rfl
  rw [count_sub_add_val, hbuf, hsnap]
  by_cases hu : key ∈ updated
  · have hr := hdisj key hu
    have hprev : (lookup key snapshot).getD ∅ = rowOf snapshot key := rfl
    have := merge_row hkey hprev (hm key hu) (hcov key hu) fun _ => hfresh key hu
    by_cases hd : processMap (rowOf snapshot key) (current key) = ∅ <;>
      simpa [hu, hr, hd] using this
  · by_cases hr : key ∈ removed
    · simp [hu, hr, deliverRow]
    · simpa [hu, hr] using hkey

end Row

section Items

variable {s : Session} {c : SyncController} {client : SyncClient}

/-- The buffer keeps up with everything that is pending. -/
structure MergeSafe (s : Session) (c : SyncController) (client : SyncClient) : Prop where
  torrents : ∀ id ∈ c.updatedTorrents, MergesRow (rowOf c.maindataSnapshot.torrents id)
    (SyncController.currentTorrent s id) (lookup id c.maindataSyncBuf.torrents)
    (lookup id client.torrents) (c.maindataSyncBuf.removedTorrents.count id)
  categories : ∀ name ∈ c.updatedCategories, MergesRow (rowOf c.maindataSnapshot.categories name)
    (SyncController.currentCategory s name) (lookup name c.maindataSyncBuf.categories)
    (lookup name client.categories) (c.maindataSyncBuf.removedCategories.count name)
  downloadPaths : ∀ name ∈ c.updatedCategories,
    ∀ row ∈ lookup name c.maindataSnapshot.categories, "download_path" ∈ row →
      (s.categoryOptions name).downloadPath.isSome
  tags : ∀ tag ∈ c.addedTags, c.maindataSyncBuf.removedTags.count tag ≤ 1
  trackers : ∀ url ∈ c.updatedTrackers, c.maindataSyncBuf.removedTrackers.count url ≤ 1
  serverState : MergesRow c.maindataSnapshot.serverState s.serverState.1
    (some c.maindataSyncBuf.serverState) none 0

theorem mergeSafe_iff : MergeSafe s c client ↔
    (∀ id ∈ c.updatedTorrents, MergesRow (rowOf c.maindataSnapshot.torrents id)
      (SyncController.currentTorrent s id) (lookup id c.maindataSyncBuf.torrents)
      (lookup id client.torrents) (c.maindataSyncBuf.removedTorrents.count id)) ∧
    (∀ name ∈ c.updatedCategories, MergesRow (rowOf c.maindataSnapshot.categories name)
      (SyncController.currentCategory s name) (lookup name c.maindataSyncBuf.categories)
      (lookup name client.categories) (c.maindataSyncBuf.removedCategories.count name)) ∧
    (∀ name ∈ c.updatedCategories,
      ∀ row ∈ lookup name c.maindataSnapshot.categories, "download_path" ∈ row →
        (s.categoryOptions name).downloadPath.isSome) ∧
    (∀ tag ∈ c.addedTags, c.maindataSyncBuf.removedTags.count tag ≤ 1) ∧
    (∀ url ∈ c.updatedTrackers, c.maindataSyncBuf.removedTrackers.count url ≤ 1) ∧
    MergesRow c.maindataSnapshot.serverState s.serverState.1
      (some c.maindataSyncBuf.serverState) none 0 :=
  ⟨fun h => ⟨h.1, h.2, h.3, h.4, h.5, h.6⟩, fun ⟨h1, h2, h3, h4, h5, h6⟩ => ⟨h1, h2, h3, h4, h5, h6⟩⟩

instance : Decidable (MergeSafe s c client) := decidable_of_iff _ mergeSafe_iff.symm

section

variable (hs : Serialized c.maindataSnapshot)

include hs

theorem covers_torrent (id : TorrentID) (torrent : Torrent) :
    Covers (rowOf c.maindataSnapshot.torrents id) (serializedTorrent id torrent) := by
  obtain ⟨⟨s₀, hs, -⟩, -⟩ := hs
  rw [rowOf, hs, lookup_maindata_torrents, Session.torrentRow]
  cases s₀.getTorrent id with
  | none => exact fun key hv => (hv value_empty).elim
  | some prev =>
    refine covers_of_keys_eq ?_
    simp only [map_some, getD_some, keys_serializedTorrent]

theorem covers_category (name : String) (options : CategoryOptions)
    (h : ∀ row ∈ lookup name c.maindataSnapshot.categories, "download_path" ∈ row →
      options.downloadPath.isSome) :
    Covers (rowOf c.maindataSnapshot.categories name) (serializedCategory name options) := by
  obtain ⟨⟨s₀, -, hs, -⟩, -⟩ := hs
  rw [hs, lookup_maindata_categories, Session.categoryRow] at h
  rw [rowOf, hs, lookup_maindata_categories, Session.categoryRow]
  cases hl : lookup name s₀.categories with
  | none => exact fun key hv => (hv value_empty).elim
  | some prev =>
    rw [hl] at h
    refine covers_serializedCategory fun hp => h _ rfl ?_
    exact mem_serializedCategory.2 (.inr (.inr ⟨rfl, hp⟩))

theorem covers_serverState (s : Session) :
    Covers c.maindataSnapshot.serverState s.serverState.1 := by
  obtain ⟨⟨s₀, -, -, hs⟩, -⟩ := hs
  refine covers_of_keys_eq ?_
  rw [hs, s.serverState.2]
  exact s₀.serverState.2

end

theorem caught_next (h : Synced s c) (hm : MergeSafe s c client)
    (hcaught : (client.applyChanges c.maindataSyncBuf).Shows c.maindataSnapshot)
    (hw : RemovesWholeTags c) :
    (client.applyChanges (c.nextBuf s)).Shows (c.nextSnapshot s) where
  torrents := by
    refine merge_rows (fun id => h.torrents.notMem_removed_of_updated) hcaught.torrents hm.torrents
      (fun id hid => ?_) fun id hid => ?_
    all_goals
      obtain ⟨torrent, ht⟩ := isSome_iff_exists.1
        ((isSome_map ..).symm.trans (h.torrents.isSome_of_updated id hid))
      rw [currentTorrent_of_getTorrent ht]
    · exact covers_torrent h.serialized id torrent
    · refine processMap_empty_ne "trackers_count" ?_
      rw [value_trackers_count]
      exact Variant.noConfusion
  categories := by
    refine merge_rows (fun name => h.categories.notMem_removed_of_updated) hcaught.categories
      hm.categories (fun name hname => ?_) fun name hname => ?_
    · exact covers_category h.serialized name _ (hm.downloadPaths name hname)
    · refine processMap_empty_ne "savePath" ?_
      rw [currentCategory, value_savePath]
      exact Variant.noConfusion
  tags tag := by
    have htag := hcaught.tags tag
    change tag ∈ (client.tags ∪
        (c.maindataSyncBuf.tags - c.removedTags.val + c.addedTags.val).toFinset) \
        (c.maindataSyncBuf.removedTags - c.addedTags.val + c.removedTags.val).toFinset ↔
      tag ∈ c.maindataSnapshot.tags + c.addedTags.val - c.removedTags.val
    simp only [SyncClient.applyChanges, Finset.mem_sdiff, Finset.mem_union, Multiset.mem_toFinset,
      ← Multiset.count_pos, count_sub_add_val, count_add_sub_val] at htag ⊢
    by_cases hu : tag ∈ c.addedTags
    · have hr := h.tags.notMem_removed_of_updated hu
      have := hm.tags tag hu
      simp only [hu, hr, if_true, if_false]
      omega
    · by_cases hr : tag ∈ c.removedTags
      · have := hw tag hr
        simp only [hu, hr, if_true, if_false]
        omega
      · simpa [hu, hr] using htag
  trackers := by
    refine Finmap.ext_lookup fun url => ?_
    have hurl := congrArg (lookup url) hcaught.trackers
    change lookup url (eraseAll
        (c.maindataSyncBuf.removedTrackers - c.updatedTrackers.val + c.removedTrackers.val).toFinset
        (ofFinset c.updatedTrackers c.torrentsOf ∪
          eraseAll c.removedTrackers c.maindataSyncBuf.trackers ∪ client.trackers)) =
      lookup url (eraseAll c.removedTrackers
        (ofFinset c.updatedTrackers c.torrentsOf ∪ c.maindataSnapshot.trackers))
    simp only [SyncClient.applyChanges, lookup_eraseAll, lookup_union,
      lookup_ofFinset, Multiset.mem_toFinset, ← Multiset.count_pos,
      count_sub_add_val] at hurl ⊢
    by_cases hu : url ∈ c.updatedTrackers
    · have hr := h.trackers.tracks.notMem_removed_of_updated hu
      have hzero : c.maindataSyncBuf.removedTrackers.count url - 1 = 0 := by
        have := hm.trackers url hu
        omega
      simp [hu, hr, hzero]
    · by_cases hr : url ∈ c.removedTrackers
      · simp [hu, hr]
      · simpa [hu, hr] using hurl
  serverState := by
    have hrow := @merge_row c.maindataSnapshot.serverState s.serverState.1
      (some c.maindataSyncBuf.serverState) (some client.serverState)
      (some c.maindataSnapshot.serverState) 0 (.some hcaught.serverState) rfl
      ⟨hm.serverState.1, hm.serverState.2.1, by rintro ⟨⟩⟩ (covers_serverState h.serialized s)
      (by rintro ⟨⟩)
    change Agree ((updateServerState s.serverState.1 c.maindataSnapshot.serverState
        c.maindataSyncBuf.serverState).2 ∪ client.serverState)
      (updateServerState s.serverState.1 c.maindataSnapshot.serverState ∅).1
    simp only [updateServerState]
    by_cases hd : processMap c.maindataSnapshot.serverState s.serverState.1 = ∅
    all_goals
      simp only [hd, if_true, if_false] at hrow ⊢
      obtain ⟨row, hrow, hagree⟩ := rel_some_right.1 hrow
      cases hrow
      exact hagree

end Items

/-! ### The system -/

/-- One client and the server it asks. -/
structure SyncSystem where
  server : SyncServer := {}
  client : SyncClient := {}

/-- What happens in the system: a change of the session, or a request of the client whose response
arrives or is lost. -/
inductive SyncLabel where
  | event (e : SessionEvent)
  | request (delivered : Bool)

namespace SyncSystem

/-- The client always sends the ID of the response it applied last. -/
def machine : Machine SyncSystem SyncLabel where
  step sys
    | .event e => (sys.server.onEvent e).map fun server => { sys with server := server }
    | .request delivered => (sys.server.onRequest sys.client.rid).map fun (response, server) =>
      ⟨server, if delivered then sys.client.applyResponse response else sys.client⟩

variable {sys sys' : SyncSystem}

/-- The condition of `client_shows_maindata` on a step: events are signalled, the pending sets are
foldable, the buffer keeps up with them, and no lost response repeats the ID that the client will
send. -/
def ConvergenceSafe (sys : SyncSystem) : SyncLabel → Prop
  | .event e => sys.server.controller.Connected → Signalled sys.server.session sys.server.controller e
  | .request delivered =>
    Foldable sys.server.session sys.server.controller ∧
      (sys.client.rid ≠ 0 →
        MergeSafe sys.server.session (sys.server.controller.acknowledge sys.client.rid) sys.client ∧
          (delivered = false → sys.server.controller.nextID ≠ sys.client.rid))

instance (l : SyncLabel) : Decidable (ConvergenceSafe sys l) := by
  cases l <;> unfold ConvergenceSafe <;> infer_instance

/-- The client shows the snapshot, having applied the response sent last, or the buffer would bring
it there and holds the changes since the response the client has. -/
structure Caught (c : SyncController) (client : SyncClient) : Prop where
  connected : c.Connected
  lastSentID_pos : 0 < c.maindataLastSentID
  shows : (c.maindataLastSentID = client.rid ∧ client.Shows c.maindataSnapshot) ∨
    (c.maindataLastSentID ≠ client.rid ∧ c.maindataAcceptedID = client.rid ∧
      (client.applyChanges c.maindataSyncBuf).Shows c.maindataSnapshot)

/-- The invariant of the system. -/
structure Converging (sys : SyncSystem) : Prop where
  following : sys.server.Following Synced
  caught : sys.client.rid ≠ 0 → Caught sys.server.controller sys.client

theorem Caught.acknowledge {c : SyncController} {client : SyncClient} (h : Caught c client)
    (hrid : client.rid ≠ 0) :
    c.CanSendChanges client.rid ∧ (c.acknowledge client.rid).maindataAcceptedID = client.rid ∧
      (client.applyChanges (c.acknowledge client.rid).maindataSyncBuf).Shows c.maindataSnapshot := by
  have hpos := h.lastSentID_pos
  rcases h.shows with ⟨hlast, hshows⟩ | ⟨hlast, hacc, hshows⟩
  · have hack : c.acknowledge client.rid =
        { c with maindataAcceptedID := client.rid, maindataSyncBuf := {} } :=
      if_pos ⟨by omega, by omega, by omega⟩
    refine ⟨⟨by omega, hpos, by rw [hack]⟩, by rw [hack], ?_⟩
    rw [hack, SyncClient.applyChanges_empty]
    exact hshows
  · have hack : c.acknowledge client.rid = c := if_neg fun ha => hlast (by have := ha.2.2; omega)
    exact ⟨⟨by omega, hpos, by rw [hack, hacc]⟩, by rw [hack, hacc], by rwa [hack]⟩

theorem Converging.event {e : SessionEvent} (h : Converging sys)
    (hs : ConvergenceSafe sys (.event e)) (hstep : machine.step sys (.event e) = some sys') :
    Converging sys' := by
  obtain ⟨server, hev, rfl⟩ := map_eq_some_iff.1 hstep
  refine ⟨h.following.onEvent (fun hc _ ha hsync => hsync.handle (hs hc) ha) hev, fun hrid => ?_⟩
  have hcaught := h.caught hrid
  obtain ⟨session, ha, rfl⟩ := map_eq_some_iff.1 hev
  simp only [if_pos hcaught.connected]
  obtain ⟨hsnap, hbuf, hlast, hacc⟩ := handle_frame (c := sys.server.controller)
    (s := session) (e := e) (sys.server.session.removedTorrent e)
  generalize sys.server.controller.handle session (sys.server.session.removedTorrent e) e = c at *
  refine ⟨?_, hlast ▸ hcaught.lastSentID_pos, ?_⟩
  · rw [Connected, hacc]
    exact hcaught.connected
  · rw [hlast, hsnap, hacc, hbuf]
    exact hcaught.shows

theorem Converging.connect_eq (h : Converging sys) (hrid : sys.client.rid ≠ 0) :
    sys.server.controller.connect sys.server.session = sys.server.controller :=
  if_pos (h.caught hrid).connected

theorem Converging.shows_response (h : Converging sys) (delivered : Bool)
    (hs : ConvergenceSafe sys (.request delivered)) {response : MaindataResponse}
    {c' : SyncController}
    (hans : SyncController.Answers sys.server.session
      (sys.server.controller.connect sys.server.session) sys.client.rid response c') :
    (response.fullUpdate = decide (sys.client.rid = 0)) ∧
      (if response.fullUpdate then sys.client.replace response.data
        else sys.client.applyChanges response.data).Shows c'.maindataSnapshot := by
  by_cases hrid : sys.client.rid = 0
  · have hcan : ¬ (sys.server.controller.connect sys.server.session).CanSendChanges
        sys.client.rid := fun hcan => by have := hcan.1; omega
    rw [hans.snapshot, hans.response_eq]
    simp only [hcan, decide_eq_true hrid, decide_false, Bool.not_false, if_true, if_false, true_and]
    exact SyncClient.shows_replace _ _
  · rw [h.connect_eq hrid] at hans
    obtain ⟨hcan, -, hshows⟩ := (h.caught hrid).acknowledge hrid
    rw [hans.snapshot, hans.response_eq]
    simp only [hcan, hrid, decide_true, decide_false, Bool.not_true, if_true, Bool.false_eq_true,
      if_false, true_and]
    have hsync : Synced sys.server.session sys.server.controller := by
      rcases h.following with hf | hf
      · have hconn := (h.caught hrid).connected
        rw [hf] at hconn
        exact absurd hconn (by decide)
      · exact hf.2
    have hmerge := (hs.2 hrid).1
    have hwhole := hs.1.2
    have hack := acknowledge_eq sys.server.controller sys.client.rid
    generalize sys.server.controller.acknowledge sys.client.rid = ca at *
    obtain ⟨acceptedID, buf, rfl⟩ : ∃ acceptedID buf, ca = { sys.server.controller with
        maindataAcceptedID := acceptedID, maindataSyncBuf := buf } := ⟨_, _, hack⟩
    exact caught_next (c := { sys.server.controller with
        maindataAcceptedID := acceptedID, maindataSyncBuf := buf })
      ⟨hsync.serialized, hsync.torrents, hsync.categories, hsync.tags,
        hsync.trackers.known, hsync.trackers.tracks⟩ hmerge hshows hwhole

theorem Converging.request (h : Converging sys) {delivered : Bool}
    (hs : ConvergenceSafe sys (.request delivered)) :
    ∃ sys', machine.step sys (.request delivered) = some sys' ∧ Converging sys' ∧
      sys'.server.session = sys.server.session ∧
      (delivered → sys'.client.Shows sys'.server.session.maindata) := by
  obtain ⟨response, c', hreq, hans, hconn, hsync, hsame⟩ :=
    h.following.onRequest sys.client.rid hs.1
  obtain ⟨hfull, hshows⟩ := h.shows_response delivered hs hans
  refine ⟨⟨⟨sys.server.session, c'⟩,
    if delivered then sys.client.applyResponse response else sys.client⟩,
    by simp [machine, hreq], ⟨.inr ⟨hconn, hsync⟩, fun hrid => ⟨hconn, ?_, ?_⟩⟩, rfl, ?_⟩
  · rw [hans.lastSentID]
    exact Nat.succ_pos _
  · cases delivered with
    | true =>
      refine .inl ⟨?_, hshows.setRid _⟩
      change c'.maindataLastSentID = response.rid
      rw [hans.lastSentID, hans.response_eq]
    | false =>
      -- the response is lost: the client keeps its ID, which the server has accepted
      have hrid : sys.client.rid ≠ 0 := hrid
      refine .inr ⟨?_, ?_, ?_⟩
      · rw [hans.lastSentID, h.connect_eq hrid]
        exact (hs.2 hrid).2 rfl
      · rw [hans.acceptedID, h.connect_eq hrid]
        exact ((h.caught hrid).acknowledge hrid).2.1
      · rw [hfull, decide_eq_false hrid] at hshows
        rw [hans.syncBuf]
        exact hshows
  · rintro rfl
    exact (hshows.setRid _).congr hsame

theorem converging_step {l : SyncLabel} (h : Converging sys) (hs : ConvergenceSafe sys l)
    (hstep : machine.step sys l = some sys') : Converging sys' := by
  cases l with
  | event e => exact h.event hs hstep
  | request delivered =>
    obtain ⟨sys₁, hreq, hconv, -⟩ := h.request hs
    exact some.inj (hreq.symm.trans hstep) ▸ hconv

end SyncSystem

/-! ### Any number of clients -/

/-- The server and, as a history variable, the session that the last response with each ID
described.  Requests come from any client and their responses may be lost. -/
structure SyncHistory where
  server : SyncServer
  stateAt : ℕ → Option Session := fun _ => none

/-- The client that shows the state of the response `rid`. -/
def clientAt (rid : ℕ) (s : Session) : SyncClient := SyncClient.replace { rid := rid } s.maindata

/-- The session `s` still has everything that `s₀` had. -/
def KeepsAll (s₀ s : Session) : Prop :=
  (∀ id ∈ s₀.torrents.keys, id ∈ s.torrents) ∧
  (∀ name ∈ s₀.categories.keys, name ∈ s.categories ∧
    ((s₀.categoryOptions name).downloadPath.isSome →
      (s.categoryOptions name).downloadPath.isSome)) ∧
  s₀.tags ⊆ s.tags ∧ ∀ url ∈ s₀.trackers.keys, url ∈ s.trackers
  deriving Decidable

namespace SyncHistory

def onRequest (t : SyncHistory) (rid : ℤ) : Option (MaindataResponse × SyncHistory) :=
  (t.server.onRequest rid).map fun (response, server) =>
    (response, ⟨server, Function.update t.stateAt response.rid (some server.session)⟩)

def machine : Machine SyncHistory ServerLabel where
  step t
    | .event e => (t.server.onEvent e).map fun server => { t with server := server }
    | .request rid => (t.onRequest rid).map Prod.snd

/-- The condition on a step: the controller goes on following the session, and the buffer keeps up
with the state of the response accepted last.  A list of changes has to merge with what is buffered;
a full update, for another client, replaces the buffer, and then nothing may be gone. -/
def Safe (t : SyncHistory) (l : ServerLabel) : Prop :=
  SyncServer.FollowSafe t.server l ∧ match l with
    | .event _ => True
    | .request rid =>
      let c := t.server.controller
      ∀ s₀ ∈ t.stateAt (c.acknowledge rid).maindataAcceptedID.toNat,
        if c.CanSendChanges rid then
          MergeSafe t.server.session (c.acknowledge rid) (clientAt rid.toNat s₀)
        else KeepsAll s₀ t.server.session

instance (t : SyncHistory) : ∀ l, Decidable (Safe t l)
  | .event _ | .request _ => by unfold Safe; infer_instance

/-- The invariant: a client that shows the state of the response sent or accepted last is caught up
by the buffer. -/
structure Remembers (t : SyncHistory) : Prop where
  following : t.server.Following Synced
  pos : ∀ n s₀, t.stateAt n = some s₀ → n ≠ 0
  caught : ∀ n s₀, t.stateAt n = some s₀ → (t.server.controller.maindataLastSentID = n ∨
    t.server.controller.maindataAcceptedID = n) → SyncSystem.Caught t.server.controller (clientAt n s₀)

variable {t t' : SyncHistory} {n : ℕ} {s₀ s : Session} {e : SessionEvent} {rid : ℤ}

theorem agree_union_of_covers {old row : VariantMap} (h : Covers old row) :
    Agree (row ∪ old) row := by
  intro key
  by_cases hk : key ∈ row
  · exact value_union_of_mem hk
  · rw [value_union_of_notMem hk, value_eq_invalid_of_notMem hk]
    by_contra hv
    exact hk (h key hv)

theorem rel_deliverRow {old row : Option VariantMap} (hgone : row = none → old = none)
    (hcov : ∀ r ∈ row, ∀ r₀ ∈ old, Covers r₀ r) :
    Option.Rel Agree (deliverRow row 0 old) row := by
  cases row with
  | none => rw [hgone rfl]; exact .none
  | some row =>
    refine .some (agree_union_of_covers ?_)
    cases old with
    | none => exact fun key hv => (hv value_empty).elim
    | some old => exact hcov row rfl old rfl

/-- All of the maindata, taken as a list of changes, brings a client up to date if nothing is
gone. -/
theorem shows_applyChanges_all {data : MaindataSyncBuf} (hkeeps : KeepsAll s₀ s)
    (hsame : SameItems data s.maindata) : ((clientAt n s₀).applyChanges data).Shows data where
  torrents id := by
    simp only [SyncClient.applyChanges]
    rw [lookup_mergeRows, hsame.removedTorrents, hsame.torrents]
    change Option.Rel Agree (deliverRow _ 0 (lookup id s₀.maindata.torrents)) _
    rw [lookup_maindata_torrents, lookup_maindata_torrents]
    refine rel_deliverRow (fun hnone => ?_) fun row hrow row₀ hrow₀ => ?_
    · rw [Session.torrentRow_eq_none] at hnone ⊢
      exact fun hid => hnone (hkeeps.1 id (Finmap.mem_keys.2 hid))
    · obtain ⟨torrent, -, rfl⟩ := map_eq_some_iff.1 hrow
      obtain ⟨torrent₀, -, rfl⟩ := map_eq_some_iff.1 hrow₀
      exact covers_of_keys_eq (by rw [keys_serializedTorrent, keys_serializedTorrent])
  categories name := by
    simp only [SyncClient.applyChanges]
    rw [lookup_mergeRows, hsame.removedCategories, hsame.categories]
    change Option.Rel Agree (deliverRow _ 0 (lookup name s₀.maindata.categories)) _
    rw [lookup_maindata_categories, lookup_maindata_categories]
    have hkept : name ∈ s₀.categories → _ := fun h => hkeeps.2.1 name (Finmap.mem_keys.2 h)
    refine rel_deliverRow (fun hnone => ?_) fun row hrow row₀ hrow₀ => ?_
    · rw [Session.categoryRow, Option.map_eq_none_iff, Finmap.lookup_eq_none] at hnone ⊢
      exact fun hname => hnone (hkept hname).1
    · obtain ⟨options, ho, rfl⟩ := map_eq_some_iff.1 hrow
      obtain ⟨options₀, ho₀, rfl⟩ := map_eq_some_iff.1 hrow₀
      have := (hkept (Finmap.mem_of_lookup_eq_some ho₀)).2
      rw [Session.categoryOptions, ho₀, Session.categoryOptions, ho] at this
      exact covers_serializedCategory this
  tags tag := by
    have hdata : tag ∈ data.tags ↔ tag ∈ s.tags := hsame.tags tag
    simp only [SyncClient.applyChanges, hsame.removedTags]
    change tag ∈ (s₀.tags.val.toFinset ∪ data.tags.toFinset) \ ∅ ↔ _
    simp only [Finset.val_toFinset, Finset.sdiff_empty, Finset.mem_union, Multiset.mem_toFinset]
    exact ⟨fun h => h.elim (fun h => hdata.2 (hkeeps.2.2.1 h)) id, .inr⟩
  trackers := by
    simp only [SyncClient.applyChanges, hsame.removedTrackers, hsame.trackers]
    change eraseAll (0 : Multiset String).toFinset (s.trackers ∪ s₀.trackers) = s.trackers
    refine Finmap.ext_lookup fun url => ?_
    rw [lookup_eraseAll, if_neg (by simp), lookup_union]
    cases hurl : lookup url s.trackers with
    | some ids => rfl
    | none =>
      rw [none_or, Finmap.lookup_eq_none]
      exact fun h => Finmap.lookup_eq_none.1 hurl (hkeeps.2.2.2 url (Finmap.mem_keys.2 h))
  serverState := by
    refine agree_union_of_covers (covers_of_keys_eq ?_)
    rw [hsame.serverState]
    exact s₀.serverState.2.trans s.serverState.2.symm

theorem onEvent_frame {server server' : SyncServer} (h : server.onEvent e = some server') :
    server'.controller.maindataLastSentID = server.controller.maindataLastSentID ∧
      server'.controller.maindataAcceptedID = server.controller.maindataAcceptedID := by
  obtain ⟨session, -, rfl⟩ := map_eq_some_iff.1 h
  dsimp only
  split_ifs
  · exact (handle_frame _).2.2
  · exact ⟨rfl, rfl⟩

theorem Remembers.converging (h : Remembers t) (hn : t.stateAt n = some s₀)
    (hlast : t.server.controller.maindataLastSentID = n ∨
      t.server.controller.maindataAcceptedID = n) :
    SyncSystem.Converging ⟨t.server, clientAt n s₀⟩ := ⟨h.following, fun _ => h.caught n s₀ hn hlast⟩

theorem Remembers.event (h : Remembers t) (hs : Safe t (.event e))
    (hstep : machine.step t (.event e) = some t') : Remembers t' := by
  obtain ⟨server, hev, rfl⟩ := map_eq_some_iff.1 hstep
  obtain ⟨hsent, haccepted⟩ := onEvent_frame hev
  refine ⟨SyncServer.following_step h.following hs.1 hev, h.pos, fun n s₀ hn hlast => ?_⟩
  rw [hsent, haccepted] at hlast
  have hstep' : SyncSystem.machine.step ⟨t.server, clientAt n s₀⟩ (.event e) =
      some ⟨server, clientAt n s₀⟩ := by simp [SyncSystem.machine, hev]
  exact ((h.converging hn hlast).event hs.1 hstep').caught (h.pos n s₀ hn)

/-- The response accepted after a request, if it is known, was sent or accepted last before it. -/
theorem Remembers.last_of_accepted (h : Remembers t) (hn : t.stateAt n = some s₀)
    (haccepted : ((t.server.controller.connect t.server.session).acknowledge rid).maindataAcceptedID =
      n) :
    t.server.controller.Connected ∧ (t.server.controller.maindataLastSentID = n ∨
      t.server.controller.maindataAcceptedID = n) := by
  have hpos := h.pos n s₀ hn
  obtain hc | ⟨hc, -⟩ := h.following
  · -- before the first request nothing has been sent
    rw [hc, acknowledge, if_neg fun hack => absurd hack.2.1 (lt_irrefl 0)] at haccepted
    exact absurd (Int.ofNat.inj haccepted).symm hpos
  · rw [connect, if_pos hc, acknowledge] at haccepted
    refine ⟨hc, ?_⟩
    split_ifs at haccepted with hack
    · exact .inl (by exact_mod_cast hack.2.2.trans haccepted)
    · exact .inr haccepted

theorem Remembers.request (h : Remembers t) (hs : Safe t (.request rid)) :
    ∃ response t', t.onRequest rid = some (response, t') ∧ Remembers t' ∧
      t'.server.session = t.server.session ∧
      SyncController.Answers t.server.session (t.server.controller.connect t.server.session) rid
        response t'.server.controller ∧
      SameItems t'.server.controller.maindataSnapshot t.server.session.maindata := by
  obtain ⟨response, c', hreq, hans, hconn, hsync, hsame⟩ := h.following.onRequest rid hs.1
  have hid : c'.maindataLastSentID = response.rid := by rw [hans.lastSentID, hans.response_eq]
  have hpos : response.rid ≠ 0 := by rw [hans.response_eq]; exact Nat.succ_ne_zero _
  refine ⟨response, ⟨⟨t.server.session, c'⟩, Function.update t.stateAt response.rid
    (some t.server.session)⟩, by simp [onRequest, hreq], ⟨.inr ⟨hconn, hsync⟩, ?_, ?_⟩, rfl, hans,
    hsame⟩
  all_goals
    intro n s₀ hn
    dsimp only at hn
  · obtain rfl | hne := eq_or_ne n response.rid
    · exact hpos
    · exact h.pos n s₀ (by rwa [Function.update_of_ne hne] at hn)
  · intro hlast
    obtain rfl | hne := eq_or_ne n response.rid
    · -- the state that the new response describes
      rw [Function.update_self] at hn
      obtain rfl := some.inj hn
      refine ⟨hconn, by rw [hid]; omega, .inl ⟨hid, ?_⟩⟩
      exact (SyncClient.shows_replace _ _).congr hsame.symm
    · rw [Function.update_of_ne hne] at hn
      have haccepted := hlast.resolve_left fun he => hne (he.symm.trans hid)
      rw [hans.acceptedID] at haccepted
      obtain ⟨hc, hlast'⟩ := h.last_of_accepted hn haccepted
      have hconnect : t.server.controller.connect t.server.session = t.server.controller := if_pos hc
      rw [hconnect] at haccepted hans
      have hsafe := hs.2 s₀ (by rw [haccepted]; exact hn)
      split_ifs at hsafe with hcan
      · -- a list of changes, as if the client of that response had lost it
        have hrid : rid = n := hcan.2.2.symm.trans haccepted
        subst hrid
        have hnext : t.server.controller.nextID ≠ n := by
          rw [hans.response_eq] at hne
          exact hne.symm
        have hlost : SyncSystem.ConvergenceSafe ⟨t.server, clientAt n s₀⟩ (.request false) :=
          ⟨hs.1, fun _ => ⟨hsafe, fun _ => hnext⟩⟩
        obtain ⟨sys, hstep, hconv, -⟩ := (h.converging hn hlast').request hlost
        simp only [SyncSystem.machine, clientAt, SyncClient.replace, hreq, map_some,
          some_inj] at hstep
        subst hstep
        exact hconv.caught (h.pos n s₀ hn)
      · -- a full update is in the buffer now
        refine ⟨hconn, by rw [hid]; omega, .inr ⟨fun he => hne (he.symm.trans hid), ?_, ?_⟩⟩
        · rw [hans.acceptedID, haccepted]
          rfl
        · have hdata : c'.maindataSyncBuf = c'.maindataSnapshot := by
            rw [hans.syncBuf, hans.snapshot, hans.response_eq, if_neg hcan]
          rw [hdata]
          exact shows_applyChanges_all hsafe hsame

theorem Remembers.shows_response {rid : ℕ} {response : MaindataResponse} {c' : SyncController}
    (h : Remembers t) (hs : Safe t (.request rid)) (hn : t.stateAt rid = some s₀)
    (hans : SyncController.Answers t.server.session
      (t.server.controller.connect t.server.session) rid response c')
    (hfull : response.fullUpdate = false) :
    ((clientAt rid s₀).applyChanges response.data).Shows c'.maindataSnapshot := by
  have hcan : (t.server.controller.connect t.server.session).CanSendChanges rid := by
    rw [hans.response_eq] at hfull
    simpa using hfull
  obtain ⟨hc, hlast⟩ := h.last_of_accepted hn hcan.2.2
  have hconnect : t.server.controller.connect t.server.session = t.server.controller := if_pos hc
  have hsafe := hs.2 s₀ (by rw [← hconnect, hcan.2.2]; exact hn)
  rw [hconnect] at hcan
  rw [if_pos hcan] at hsafe
  have hshows := ((h.converging hn hlast).shows_response true
    ⟨hs.1, fun _ => ⟨hsafe, nofun⟩⟩ hans).2
  rwa [hfull] at hshows

theorem remembers_step {l : ServerLabel} (h : Remembers t) (hs : Safe t l)
    (hstep : machine.step t l = some t') : Remembers t' := by
  cases l with
  | event e => exact h.event hs hstep
  | request rid =>
    obtain ⟨response, t₁, hreq, hrem, -⟩ := h.request hs
    simp only [machine, hreq, map_some, some_inj] at hstep
    exact hstep ▸ hrem

theorem remembers_of_reachable (h : machine.ReachableUnder Safe ⟨⟨s₀, {}⟩, fun _ => none⟩ t) :
    Remembers t :=
  h.invariant ⟨.inl rfl, nofun, nofun⟩ fun _ _ _ => remembers_step

end SyncHistory

end QBittorrent
