import QBittorrent.Lib.Superseding
import QBittorrent.Session.Category
import QBittorrent.Session.InfoHash

/-!
# Restoring torrents at the start

`processNextResumeData` walks over the stored entries and starts one add operation for most of them.
A hybrid torrent may have two entries, one under the ID of its v1 hash and one under that of its v2
hash; the entry that comes first is restored under the v2 ID, and the other one is skipped.

* `adds_processAll` : which entries are added;
* `startsOnce_iff` : when every torrent is restored once.
-/

namespace QBittorrent

open InfoHash List Option Finset

/-! ### The walk -/

/-- Loaded parameters, as far as the start depends on them. -/
structure ResumeData extends LoadParams where
  /-- The info-hashes of `ltAddTorrentParams.ti`, the metadata. -/
  ti : Option InfoHash
  infoHashes : InfoHash
  /-- `ltAddTorrentParams.save_path`. -/
  storageLocation : String

/-- The info-hashes of the metadata, if there is any. -/
def ResumeData.infoHash (data : ResumeData) : InfoHash := data.ti.getD data.infoHashes

/-- `LoadedResumeData`: an entry, or why it cannot be loaded. -/
structure LoadedResumeData where
  torrentID : Digest
  result : Except String ResumeData

inductive StorageChange where
  | store (id : Digest) (data : ResumeData)
  | remove (id : Digest)

/-- An `async_add_torrent`: the ID it is for, the ID and the info-hashes of its entry, and the
parameters. -/
structure AddOperation where
  torrentID : Digest
  entryID : Digest
  infoHash : InfoHash
  data : ResumeData

/-- What does not change during the start. -/
structure StartupSettings where
  paths : PathSettings
  indexedTorrents : Finset Digest
  /-- `startupStorage->load`. -/
  load : Digest → Except String ResumeData
  /-- `m_resumeDataStorage` is not the storage that is read. -/
  storageChanged : Bool
  /-- `m_needUpgradeDownloadPath`. -/
  needUpgradeDownloadPath : Bool

/-- The session and `ResumeSessionContext`. -/
structure Startup where
  session : SessionImpl
  recoveredCategories : Finset String
  skippedIDs : Finset Digest
  storageChanges : List StorageChange
  /-- The keys of `m_hybridTorrentsByAltID`, which have no torrent yet. -/
  hybridTorrentsByAltID : Finset Digest
  adds : List AddOperation

namespace Startup

variable (S : StartupSettings) (c : Startup)

/-- The parameters with the metadata of other ones, if they have none themselves. -/
def withMetadataOf (data : ResumeData) (other : Option InfoHash) : ResumeData :=
  { data with ti := data.ti.or other }

/-- The ID and the parameters that an entry is restored with, whether they are to be stored, and what
becomes of the entries of the storage; nothing if the ID is not one of the torrent. -/
def reconcile (torrentID : Digest) (resumeData : ResumeData) :
    Option (Startup × Digest × ResumeData × Bool) :=
  let infoHash := resumeData.infoHash
  let torrentIDv2 := infoHash.toTorrentID
  let torrentIDv1 := infoHash.altID
  if torrentID = torrentIDv2 then
    if infoHash.isHybrid ∧ torrentIDv1 ∈ S.indexedTorrents then
      -- the other entry may have the metadata, and is not needed any more
      let other := match S.load torrentIDv1 with
        | .ok data => data.ti
        | .error _ => none
      some ({ c with
          storageChanges := c.storageChanges ++ [.remove torrentIDv1]
          skippedIDs := insert torrentIDv1 c.skippedIDs },
        torrentID, withMetadataOf resumeData other, false)
    else some (c, torrentID, resumeData, false)
  else if torrentID = torrentIDv1 then
    let c' := { c with storageChanges := c.storageChanges ++ [.remove torrentIDv1] }
    if torrentIDv2 ∈ S.indexedTorrents then
      let preferred := match S.load torrentIDv2 with
        | .ok data => withMetadataOf data resumeData.ti
        | .error _ => resumeData
      some ({ c' with skippedIDs := insert torrentIDv2 c'.skippedIDs }, torrentIDv2, preferred, true)
    else some (c', torrentIDv2, resumeData, true)
  else none

/-- The second half of `processNextResumeData`: parameters are stored if they changed, category and
tags are put back, and the torrent is added. -/
def restore (entryID torrentID : Digest) (infoHash : InfoHash) (resumeData : ResumeData)
    (needStore : Bool) : Startup :=
  let needStore := needStore || S.storageChanged
  let upgrade := !needStore && S.needUpgradeDownloadPath && c.session.isDownloadPathEnabled &&
    !resumeData.useAutoTMM
  let resumeData : ResumeData :=
    if upgrade then { resumeData with downloadPath := c.session.downloadPath } else resumeData
  let params := (c.session.recoverCategory S.paths c.recoveredCategories resumeData.toLoadParams
    resumeData.storageLocation).2.1
  let r := c.session.restoreTorrent S.paths c.recoveredCategories torrentID.toHex
    resumeData.toLoadParams resumeData.storageLocation
  { c with
    session := r.1.session
    recoveredCategories := r.2
    storageChanges := c.storageChanges ++
      if needStore || upgrade then [.store torrentID resumeData] else []
    hybridTorrentsByAltID :=
      if infoHash.isHybrid then insert infoHash.altID c.hybridTorrentsByAltID
      else c.hybridTorrentsByAltID
    adds := c.adds ++ [⟨torrentID, entryID, infoHash, { resumeData with toLoadParams := params }⟩] }

/-- `processNextResumeData` for an entry. -/
def processNextResumeData (item : LoadedResumeData) : Startup :=
  if item.torrentID ∈ c.skippedIDs then c else
    match item.result with
    | .error _ => c
    | .ok resumeData =>
      match c.reconcile S item.torrentID resumeData with
      | none => c
      | some (c', torrentID, data, needStore) =>
        c'.restore S item.torrentID torrentID resumeData.infoHash data needStore

/-- All entries, in the order in which they are fetched. -/
def processAll (items : List LoadedResumeData) : Startup :=
  items.foldl (processNextResumeData S) c

end Startup

/-- The start of a session with given entries; their IDs are indexed when loading begins. -/
def startup (S : StartupSettings) (session : SessionImpl) (items : List LoadedResumeData) : Startup :=
  Startup.processAll { S with indexedTorrents := (items.map LoadedResumeData.torrentID).toFinset }
    { session := session
      recoveredCategories := ∅
      skippedIDs := ∅
      storageChanges := []
      hybridTorrentsByAltID := ∅
      adds := [] } items

/-! ### The walk over IDs and info-hashes -/

/-- The other ID of a torrent with an entry under `torrentID`. -/
def otherIDs (torrentID : Digest) (h : InfoHash) : Finset Digest :=
  if torrentID = h.toTorrentID then if h.isHybrid then {h.altID} else ∅ else {h.toTorrentID}

namespace LoadedResumeData

variable (item : LoadedResumeData)

/-- The info-hashes of an entry that can be loaded. -/
def infoHash : Option InfoHash :=
  match item.result with
  | .ok data => some data.infoHash
  | .error _ => none

/-- The entry can be loaded, and is stored under an ID of its torrent. -/
def Valid : Prop :=
  ∃ h, item.infoHash = some h ∧ (item.torrentID = h.toTorrentID ∨ item.torrentID = h.altID)

instance : Decidable item.Valid :=
  match hh : item.infoHash with
  | none => isFalse fun ⟨_, h, _⟩ => by rw [hh] at h; cases h
  | some h => decidable_of_iff (item.torrentID = h.toTorrentID ∨ item.torrentID = h.altID)
    ⟨fun hid => ⟨h, hh, hid⟩, fun ⟨h', hh', hid⟩ => by cases hh.symm.trans hh'; exact hid⟩

def supersedes : Finset Digest := item.infoHash.elim ∅ (otherIDs item.torrentID)

/-- What is known of the operation that is started for the entry. -/
def operation : Option (Digest × Digest × InfoHash) :=
  item.infoHash.map fun h => (h.toTorrentID, item.torrentID, h)

end LoadedResumeData

/-- The entries that are restored. -/
def restored (items : List LoadedResumeData) : List LoadedResumeData :=
  kept LoadedResumeData.torrentID LoadedResumeData.supersedes LoadedResumeData.Valid ∅ items

namespace Startup

variable {S : StartupSettings} {c : Startup} {torrentID : Digest} {data : ResumeData}
  {item : LoadedResumeData}

theorem reconcile_eq_none
    (h : ¬ (torrentID = data.infoHash.toTorrentID ∨ torrentID = data.infoHash.altID)) :
    c.reconcile S torrentID data = none := by
  rw [not_or] at h
  rw [reconcile]
  simp only [if_neg h.1, if_neg h.2]

theorem reconcile_eq_some
    (h : torrentID = data.infoHash.toTorrentID ∨ torrentID = data.infoHash.altID) :
    ∃ c' data' needStore,
      c.reconcile S torrentID data = some (c', data.infoHash.toTorrentID, data', needStore) ∧
      c'.adds = c.adds ∧ ∀ id ∈ S.indexedTorrents,
        id ∈ c'.skippedIDs ↔ id ∈ c.skippedIDs ∨ id ∈ otherIDs torrentID data.infoHash := by
  rw [reconcile, otherIDs]
  by_cases hbest : torrentID = data.infoHash.toTorrentID
  · simp only [if_pos hbest]
    rw [← hbest]
    split_ifs with hother hhybrid hhybrid
    · refine ⟨_, _, _, rfl, rfl, fun id _ => ?_⟩
      rw [mem_insert, Finset.mem_singleton, or_comm]
    · exact absurd hother.1 hhybrid
    · refine ⟨_, _, _, rfl, rfl, fun id hid => ?_⟩
      rw [Finset.mem_singleton]
      refine ⟨.inl, fun hmem => hmem.resolve_right ?_⟩
      rintro rfl
      exact hother ⟨hhybrid, hid⟩
    · exact ⟨_, _, _, rfl, rfl, fun id _ => by simp⟩
  · simp only [if_neg hbest, if_pos (h.resolve_left hbest)]
    split_ifs with hother
    · refine ⟨_, _, _, rfl, rfl, fun id _ => ?_⟩
      rw [mem_insert, Finset.mem_singleton, or_comm]
    · refine ⟨_, _, _, rfl, rfl, fun id hid => ?_⟩
      rw [Finset.mem_singleton]
      refine ⟨.inl, fun hmem => hmem.resolve_right ?_⟩
      rintro rfl
      exact hother hid

def known (a : AddOperation) : Option (Digest × Digest × InfoHash) :=
  some (a.torrentID, a.entryID, a.infoHash)

theorem processNextResumeData_of_valid (hvalid : item.Valid)
    (hskipped : item.torrentID ∉ c.skippedIDs) :
    (c.processNextResumeData S item).adds.map known = c.adds.map known ++ [item.operation] ∧
      ∀ id ∈ S.indexedTorrents, id ∈ (c.processNextResumeData S item).skippedIDs ↔
        id ∈ c.skippedIDs ∨ id ∈ item.supersedes := by
  obtain ⟨h, hh, hid⟩ := hvalid
  rw [LoadedResumeData.infoHash] at hh
  cases hresult : item.result with
  | error e =>
    rw [hresult] at hh
    cases hh
  | ok data =>
    rw [hresult] at hh
    obtain rfl := some.inj hh
    obtain ⟨c', data', needStore, hrec, hadds, hids⟩ := reconcile_eq_some (S := S) (c := c) hid
    have hnext : c.processNextResumeData S item =
        c'.restore S item.torrentID data.infoHash.toTorrentID data.infoHash data' needStore := by
      rw [processNextResumeData, if_neg hskipped, hresult]
      simp only [hrec]
    have hinfo : item.infoHash = some data.infoHash := by rw [LoadedResumeData.infoHash, hresult]
    rw [hnext]
    constructor
    · show (c'.adds ++ [_]).map known = _
      rw [hadds, map_append, LoadedResumeData.operation, hinfo]
      rfl
    · rw [LoadedResumeData.supersedes, hinfo]
      exact hids

theorem processNextResumeData_of_not (h : ¬ (item.Valid ∧ item.torrentID ∉ c.skippedIDs)) :
    c.processNextResumeData S item = c := by
  rw [processNextResumeData]
  split_ifs with hskipped
  · rfl
  · cases hresult : item.result with
    | error e => rfl
    | ok data =>
      have hnone : c.reconcile S item.torrentID data = none := by
        refine reconcile_eq_none fun hid => h ⟨⟨data.infoHash, ?_, hid⟩, hskipped⟩
        rw [LoadedResumeData.infoHash, hresult]
      simp only [hnone]

theorem adds_processAll (items : List LoadedResumeData)
    (hindexed : ∀ item ∈ items, item.torrentID ∈ S.indexedTorrents) (skipped : Finset Digest)
    (hskipped : ∀ id ∈ S.indexedTorrents, id ∈ c.skippedIDs ↔ id ∈ skipped) :
    (c.processAll S items).adds.map known = c.adds.map known ++
      (kept LoadedResumeData.torrentID LoadedResumeData.supersedes LoadedResumeData.Valid skipped
        items).map LoadedResumeData.operation := by
  induction items generalizing c skipped with
  | nil => simp [processAll, kept]
  | cons item items ih =>
    have hitem := hindexed item mem_cons_self
    have hrest := fun i hi => hindexed i (mem_cons_of_mem _ hi)
    rw [kept]
    show ((c.processNextResumeData S item).processAll S items).adds.map known = _
    by_cases hvalid : item.Valid ∧ item.torrentID ∉ skipped
    · have hnot : item.torrentID ∉ c.skippedIDs := fun hmem => hvalid.2 ((hskipped _ hitem).1 hmem)
      obtain ⟨hadds, hids⟩ := processNextResumeData_of_valid (S := S) hvalid.1 hnot
      rw [if_pos hvalid, ih hrest (skipped ∪ item.supersedes) fun id hid => ?_, hadds]
      · simp
      · rw [hids id hid, mem_union, hskipped id hid]
    · rw [if_neg hvalid, processNextResumeData_of_not fun h =>
        hvalid ⟨h.1, fun hmem => h.2 ((hskipped _ hitem).2 hmem)⟩]
      exact ih hrest skipped hskipped

end Startup

theorem adds_startup (S : StartupSettings) (session : SessionImpl) (items : List LoadedResumeData) :
    (startup S session items).adds.map Startup.known =
      (restored items).map LoadedResumeData.operation := by
  rw [startup, Startup.adds_processAll items (fun item hitem => ?_) ∅ fun _ _ => Iff.rfl]
  · rfl
  · exact mem_toFinset.2 (mem_map_of_mem hitem)

/-! ### Restored once -/

/-- No ID and no torrent is added twice, and an entry that is not corrupted is added, or shares a hash
with one that is. -/
structure StartsOnce (items : List LoadedResumeData) (adds : List AddOperation) : Prop where
  ids : (adds.map AddOperation.torrentID).Nodup
  torrents : adds.Pairwise fun a b => ¬ a.infoHash.Shares b.infoHash
  added : ∀ item ∈ items, item.Valid → ∃ a ∈ adds,
    a.entryID = item.torrentID ∨ ∃ h, item.infoHash = some h ∧ h.Shares a.infoHash

namespace LoadedResumeData

variable (i j : LoadedResumeData)

/-- The two entries are of the same torrent. -/
def SameTorrent : Prop := ∃ h h', i.infoHash = some h ∧ j.infoHash = some h' ∧ h.Shares h'

/-- The torrents of the two entries have the same ID. -/
def SameID : Prop :=
  ∃ h h', i.infoHash = some h ∧ j.infoHash = some h' ∧ h.toTorrentID = h'.toTorrentID

variable {i j}

theorem SameTorrent.symm (h : i.SameTorrent j) : j.SameTorrent i := by
  obtain ⟨h, h', hi, hj, hs⟩ := h
  exact ⟨h', h, hj, hi, hs.symm⟩

end LoadedResumeData

/-- The entries that are not superseded are of different torrents, and the others share a hash with
one of them. -/
structure Orderly (items : List LoadedResumeData) : Prop where
  different : (restored items).Pairwise fun i j => ¬ i.SameID j ∧ ¬ i.SameTorrent j
  superseded : ∀ item ∈ items, item.Valid → ∃ j ∈ restored items,
    j.torrentID = item.torrentID ∨ item.SameTorrent j

variable {S : StartupSettings} {session : SessionImpl} {items : List LoadedResumeData}

theorem exists_mem_adds_iff (P : Digest → InfoHash → Prop) :
    (∃ a ∈ (startup S session items).adds, P a.entryID a.infoHash) ↔
      ∃ j ∈ restored items, ∃ h, j.infoHash = some h ∧ P j.torrentID h := by
  have hadds := adds_startup S session items
  constructor
  · rintro ⟨a, ha, hP⟩
    obtain ⟨j, hj, hja⟩ := mem_map.1 (hadds ▸ mem_map_of_mem ha)
    obtain ⟨h, hh, heq⟩ := map_eq_some_iff.1 hja
    simp only [Prod.mk.injEq] at heq
    obtain ⟨-, hid, rfl⟩ := heq
    exact ⟨j, hj, _, hh, hid ▸ hP⟩
  · rintro ⟨j, hj, h, hh, hP⟩
    obtain ⟨a, ha, haj⟩ := mem_map.1 (hadds ▸ mem_map_of_mem hj)
    rw [LoadedResumeData.operation, hh, map_some, Startup.known] at haj
    simp only [some.injEq, Prod.mk.injEq] at haj
    obtain ⟨-, hid, hinfo⟩ := haj
    exact ⟨a, ha, by rwa [hid, hinfo]⟩

theorem pairwise_adds_iff (R : Digest × InfoHash → Digest × InfoHash → Prop) :
    ((startup S session items).adds.Pairwise fun a b =>
        R (a.torrentID, a.infoHash) (b.torrentID, b.infoHash)) ↔
      (restored items).Pairwise fun i j => ∀ h h', i.infoHash = some h → j.infoHash = some h' →
        R (h.toTorrentID, h) (h'.toTorrentID, h') := by
  have hmap : ((startup S session items).adds.map Startup.known).Pairwise (fun x y =>
      ∀ a b, x = some a → y = some b → R (a.1, a.2.2) (b.1, b.2.2)) ↔
      ((restored items).map LoadedResumeData.operation).Pairwise fun x y =>
        ∀ a b, x = some a → y = some b → R (a.1, a.2.2) (b.1, b.2.2) := by
    rw [adds_startup]
  rw [pairwise_map, pairwise_map] at hmap
  refine Iff.trans (iff_of_eq ?_) (hmap.trans (iff_of_eq ?_))
  · congr 1
    funext a b
    refine propext ⟨fun hR x y hx hy => ?_, fun hR => hR _ _ rfl rfl⟩
    cases hx
    cases hy
    exact hR
  · congr 1
    funext i j
    refine propext ⟨fun hR h h' hh hh' => ?_, fun hR x y hx hy => ?_⟩
    · refine hR (h.toTorrentID, i.torrentID, h) (h'.toTorrentID, j.torrentID, h') ?_ ?_
      · rw [LoadedResumeData.operation, hh, map_some]
      · rw [LoadedResumeData.operation, hh', map_some]
    · obtain ⟨h, hh, rfl⟩ := map_eq_some_iff.1 hx
      obtain ⟨h', hh', rfl⟩ := map_eq_some_iff.1 hy
      exact hR h h' hh hh'

theorem startsOnce_iff_orderly (S : StartupSettings) (session : SessionImpl)
    (items : List LoadedResumeData) :
    StartsOnce items (startup S session items).adds ↔ Orderly items := by
  have hids := @pairwise_adds_iff S session items
    fun x y => x.1 ≠ y.1
  have htorrents := @pairwise_adds_iff S session items
    fun x y => ¬ x.2.Shares y.2
  have hadded : ∀ item : LoadedResumeData, (∃ a ∈ (startup S session items).adds,
      a.entryID = item.torrentID ∨ ∃ h, item.infoHash = some h ∧ h.Shares a.infoHash) ↔
      ∃ j ∈ restored items, j.torrentID = item.torrentID ∨ item.SameTorrent j := by
    intro item
    rw [exists_mem_adds_iff fun id h' =>
      id = item.torrentID ∨ ∃ h, item.infoHash = some h ∧ h.Shares h']
    refine exists_congr fun j => and_congr_right fun hj => ?_
    obtain ⟨h', hh', -⟩ := (mem_of_mem_kept hj).2.1
    constructor
    · rintro ⟨h'', hh'', hid | ⟨h, hh, hs⟩⟩
      · exact .inl hid
      · exact .inr ⟨h, h'', hh, hh'', hs⟩
    · rintro (hid | ⟨h, h'', hh, hh'', hs⟩)
      · exact ⟨h', hh', .inl hid⟩
      · exact ⟨h'', hh'', .inr ⟨h, hh, hs⟩⟩
  constructor
  · intro h
    refine ⟨?_, fun item hitem hvalid => (hadded item).1 (h.added item hitem hvalid)⟩
    refine ((hids.1 (pairwise_map.1 h.ids)).and (htorrents.1 h.torrents)).imp ?_
    rintro i j ⟨hne, hs⟩
    constructor
    · rintro ⟨h, h', hh, hh', heq⟩
      exact hne h h' hh hh' heq
    · rintro ⟨h, h', hh, hh', hshares⟩
      exact hs h h' hh hh' hshares
  · intro h
    refine ⟨pairwise_map.2 (hids.2 (h.different.imp ?_)), htorrents.2 (h.different.imp ?_),
      fun item hitem hvalid => (hadded item).2 (h.superseded item hitem hvalid)⟩
    · rintro i j ⟨hne, -⟩ h h' hh hh' heq
      exact hne ⟨h, h', hh, hh', heq⟩
    · rintro i j ⟨-, hne⟩ h h' hh hh' hshares
      exact hne ⟨h, h', hh, hh', hshares⟩

/-! ### Entries of real torrents -/

/-- The entry has both hashes. -/
def LoadedResumeData.IsHybrid (item : LoadedResumeData) : Prop :=
  ∃ h, item.infoHash = some h ∧ h.isHybrid = true

/-- Entries have different IDs, each from a hash of its torrent; hashes of different torrents
differ, and so do v1 hashes and truncated v2 hashes. -/
structure Genuine (items : List LoadedResumeData) : Prop where
  ids : (items.map LoadedResumeData.torrentID).Nodup
  own : ∀ i ∈ items, ∀ h, i.Valid → i.infoHash = some h →
    (h.hasV1 = true ∧ i.torrentID = h.v1) ∨ (h.hasV2 = true ∧ i.torrentID = h.truncatedV2)
  ofV1 : ∀ i ∈ items, ∀ j ∈ items, ∀ h h', i.infoHash = some h → j.infoHash = some h' →
    h.isHybrid = true → h'.isHybrid = true → h.v1 = h'.v1 → h.v2 = h'.v2
  ofV2 : ∀ i ∈ items, ∀ j ∈ items, ∀ h h', i.infoHash = some h → j.infoHash = some h' →
    h.isHybrid = true → h'.isHybrid = true → h.v2 = h'.v2 → h.v1 = h'.v1
  truncated : ∀ i ∈ items, ∀ j ∈ items, ∀ h h', i.infoHash = some h → j.infoHash = some h' →
    h.hasV2 = true → h'.hasV2 = true → h.truncatedV2 = h'.truncatedV2 → h.v2 = h'.v2
  apart : ∀ i ∈ items, ∀ j ∈ items, ∀ h h', i.infoHash = some h → j.infoHash = some h' →
    h.hasV1 = true → h'.hasV2 = true → h.v1 ≠ h'.truncatedV2

/-- No entry with one hash comes before one of the same torrent with both. -/
def HybridFirst (items : List LoadedResumeData) : Prop :=
  items.Pairwise fun i j => i.Valid → j.Valid → i.SameTorrent j → j.IsHybrid → i.IsHybrid

namespace Genuine

variable {items : List LoadedResumeData} {i j k : LoadedResumeData} {h h' : InfoHash}

theorem eq_of_shares (g : Genuine items) (hi : i ∈ items) (hj : j ∈ items)
    (hih : i.infoHash = some h) (hjh : j.infoHash = some h') (hb : h.isHybrid = true)
    (hb' : h'.isHybrid = true) (hs : h.Shares h') : h = h' := by
  obtain ⟨-, he⟩ | ⟨-, he⟩ := hs
  · have := g.ofV1 i hi j hj h h' hih hjh hb hb' he
    cases h
    cases h'
    simp_all
  · have := g.ofV2 i hi j hj h h' hih hjh hb hb' he
    cases h
    cases h'
    simp_all

theorem of_mem_supersedes (g : Genuine items) (hk : k ∈ items) (hvalid : k.Valid)
    (hkh : k.infoHash = some h) {id : Digest} (hid : id ∈ k.supersedes) :
    h.isHybrid = true ∧ ((k.torrentID = h.truncatedV2 ∧ id = h.v1) ∨
      (k.torrentID = h.v1 ∧ id = h.truncatedV2)) := by
  rw [LoadedResumeData.supersedes, hkh, elim_some, otherIDs] at hid
  split_ifs at hid with hbest hhybrid
  · have hv2 := (isHybrid_iff.1 hhybrid).2
    refine ⟨hhybrid, .inl ⟨?_, Finset.mem_singleton.1 hid⟩⟩
    rw [hbest, toTorrentID_of_hasV2 hv2]
  · cases hid
  · by_cases hv2 : h.hasV2 = true
    · rw [toTorrentID_of_hasV2 hv2] at hbest hid
      obtain ⟨hv1, he⟩ | ⟨-, he⟩ := g.own k hk h hvalid hkh
      · exact ⟨isHybrid_iff.2 ⟨hv1, hv2⟩, .inr ⟨he, Finset.mem_singleton.1 hid⟩⟩
      · exact absurd he hbest
    · rw [toTorrentID_of_not_hasV2 hv2] at hbest
      obtain ⟨-, he⟩ | ⟨hv2', -⟩ := g.own k hk h hvalid hkh
      · exact absurd he hbest
      · exact absurd hv2' hv2

theorem torrentID_eq (g : Genuine items) (hi : i ∈ items) (hj : j ∈ items) (hvalid : i.Valid)
    (hjh : j.infoHash = some h') (hb : h'.isHybrid = true) (hs : i.SameTorrent j) :
    i.torrentID = h'.v1 ∨ i.torrentID = h'.truncatedV2 := by
  obtain ⟨h, h'', hih, hjh', hshares⟩ := hs
  obtain rfl := some.inj (hjh.symm.trans hjh')
  by_cases hbi : h.isHybrid = true
  · obtain rfl := g.eq_of_shares hi hj hih hjh hbi hb hshares
    exact (g.own i hi h hvalid hih).imp And.right And.right
  · rw [isHybrid_iff, not_and] at hbi
    obtain ⟨hv, he⟩ | ⟨hv, he⟩ := hshares
    · obtain ⟨-, hid⟩ | ⟨hv2, -⟩ := g.own i hi h hvalid hih
      · exact .inl (hid.trans he)
      · exact absurd hv2 (hbi hv)
    · obtain ⟨hv1, -⟩ | ⟨-, hid⟩ := g.own i hi h hvalid hih
      · exact absurd hv (hbi hv1)
      · exact .inr (by rw [hid, truncatedV2, he]; rfl)

theorem sameTorrent_of_mem_supersedes (g : Genuine items) (hk : k ∈ items) (hi : i ∈ items)
    (hkv : k.Valid) (hiv : i.Valid) (hid : i.torrentID ∈ k.supersedes) :
    k.IsHybrid ∧ k.SameTorrent i := by
  obtain ⟨h, hkh, -⟩ := id hkv
  obtain ⟨h', hih, -⟩ := id hiv
  obtain ⟨hb, hids⟩ := g.of_mem_supersedes hk hkv hkh hid
  obtain ⟨hv1, hv2⟩ := isHybrid_iff.1 hb
  refine ⟨⟨h, hkh, hb⟩, h, h', hkh, hih, ?_⟩
  obtain ⟨hv, he⟩ | ⟨hv, he⟩ := g.own i hi h' hiv hih
  · obtain ⟨-, hi'⟩ | ⟨-, hi'⟩ := hids
    · exact .inl ⟨hv1, by rw [← hi', he]⟩
    · exact absurd (he.symm.trans hi') (g.apart i hi k hk h' h hih hkh hv hv2)
  · obtain ⟨-, hi'⟩ | ⟨-, hi'⟩ := hids
    · exact absurd (hi'.symm.trans he) (g.apart k hk i hi h h' hkh hih hv1 hv)
    · exact .inr ⟨hv2, g.truncated k hk i hi h h' hkh hih hv2 hv (by rw [← hi', he])⟩

theorem mem_supersedes (g : Genuine items) (hi : i ∈ items) (hih : i.infoHash = some h)
    (hb : h.isHybrid = true) :
    (i.torrentID = h.truncatedV2 → h.v1 ∈ i.supersedes) ∧
      (i.torrentID = h.v1 → h.truncatedV2 ∈ i.supersedes) := by
  obtain ⟨hv1, hv2⟩ := isHybrid_iff.1 hb
  rw [LoadedResumeData.supersedes, hih, elim_some, otherIDs,
    toTorrentID_of_hasV2 hv2]
  refine ⟨fun he => ?_, fun he => ?_⟩
  · rw [if_pos he, if_pos hb]
    exact Finset.mem_singleton_self _
  · rw [if_neg fun he' => g.apart i hi i hi h h hih hih hv1 hv2 (he.symm.trans he')]
    exact Finset.mem_singleton_self _

theorem torrentID_eq_of_not_hybrid (g : Genuine items) (hi : i ∈ items) (hj : j ∈ items)
    (hiv : i.Valid) (hjv : j.Valid) (hni : ¬ i.IsHybrid) (hnj : ¬ j.IsHybrid)
    (hs : i.SameTorrent j) : i.torrentID = j.torrentID := by
  obtain ⟨h, h', hih, hjh, hshares⟩ := hs
  have hbi : h.hasV1 = true → ¬ h.hasV2 = true := fun h₁ h₂ =>
    hni ⟨h, hih, isHybrid_iff.2 ⟨h₁, h₂⟩⟩
  have hbj : h'.hasV1 = true → ¬ h'.hasV2 = true := fun h₁ h₂ =>
    hnj ⟨h', hjh, isHybrid_iff.2 ⟨h₁, h₂⟩⟩
  obtain ⟨hv, he⟩ | ⟨hv, he⟩ := hshares
  · have hv' : h'.hasV1 = true := by rwa [hasV1, ← he]
    obtain ⟨-, hid⟩ | ⟨hv2, -⟩ := g.own i hi h hiv hih
    · obtain ⟨-, hid'⟩ | ⟨hv2, -⟩ := g.own j hj h' hjv hjh
      · rw [hid, hid', he]
      · exact absurd hv2 (hbj hv')
    · exact absurd hv2 (hbi hv)
  · have hv' : h'.hasV2 = true := by rwa [hasV2, ← he]
    obtain ⟨hv1, -⟩ | ⟨-, hid⟩ := g.own i hi h hiv hih
    · exact absurd hv (hbi hv1)
    · obtain ⟨hv1, -⟩ | ⟨-, hid'⟩ := g.own j hj h' hjv hjh
      · exact absurd hv' (hbj hv1)
      · rw [hid, hid', truncatedV2, he]
        rfl

theorem not_sameTorrent (g : Genuine items) (hi : i ∈ items) (hj : j ∈ items)
    (hne : i.torrentID ≠ j.torrentID) (hiv : i.Valid) (hjv : j.Valid)
    (hfirst : i.SameTorrent j → j.IsHybrid → i.IsHybrid)
    (hnot : j.torrentID ∉ i.supersedes) : ¬ i.SameTorrent j := by
  intro hs
  by_cases hb : i.IsHybrid
  · -- the two entries are under the two IDs of the torrent
    obtain ⟨h, hih, hhybrid⟩ := hb
    have hj' := g.torrentID_eq hj hi hjv hih hhybrid hs.symm
    have hi' := g.torrentID_eq hi hi hiv hih hhybrid
      ⟨h, h, hih, hih, .inl ⟨(isHybrid_iff.1 hhybrid).1, rfl⟩⟩
    obtain ⟨hsup₁, hsup₂⟩ := g.mem_supersedes hi hih hhybrid
    obtain hi' | hi' := hi' <;> obtain hj' | hj' := hj'
    · exact hne (hi'.trans hj'.symm)
    · exact hnot (hj' ▸ hsup₂ hi')
    · exact hnot (hj' ▸ hsup₁ hi')
    · exact hne (hi'.trans hj'.symm)
  · exact hne (g.torrentID_eq_of_not_hybrid hi hj hiv hjv hb (fun h => hb (hfirst hs h)) hs)

theorem sameTorrent_of_sameID (g : Genuine items) (hi : i ∈ items) (hj : j ∈ items)
    (hiv : i.Valid) (hjv : j.Valid) (hid : i.SameID j) : i.SameTorrent j := by
  obtain ⟨h, h', hih, hjh, he⟩ := hid
  refine ⟨h, h', hih, hjh, ?_⟩
  have hone : ∀ {k : LoadedResumeData} {h : InfoHash}, k ∈ items → k.Valid →
      k.infoHash = some h → ¬ h.hasV2 = true → h.hasV1 = true := fun hk hkv hkh hv2 =>
    ((g.own _ hk _ hkv hkh).resolve_right fun h => hv2 h.1).1
  by_cases hv2 : h.hasV2 = true <;> by_cases hv2' : h'.hasV2 = true
  · rw [toTorrentID_of_hasV2 hv2, toTorrentID_of_hasV2 hv2'] at he
    exact .inr ⟨hv2, g.truncated i hi j hj h h' hih hjh hv2 hv2' he⟩
  · rw [toTorrentID_of_hasV2 hv2, toTorrentID_of_not_hasV2 hv2'] at he
    exact absurd he.symm (g.apart j hj i hi h' h hjh hih (hone hj hjv hjh hv2') hv2)
  · rw [toTorrentID_of_not_hasV2 hv2, toTorrentID_of_hasV2 hv2'] at he
    exact absurd he (g.apart i hi j hj h h' hih hjh (hone hi hiv hih hv2) hv2')
  · rw [toTorrentID_of_not_hasV2 hv2, toTorrentID_of_not_hasV2 hv2'] at he
    exact .inl ⟨hone hi hiv hih hv2, he⟩

theorem orderly_of_hybridFirst (g : Genuine items) (h : HybridFirst items) : Orderly items := by
  have hne : items.Pairwise fun i j => i.torrentID ≠ j.torrentID := pairwise_map.1 g.ids
  refine ⟨pairwise_kept ((hne.and h).imp_of_mem ?_), fun i hi hiv => ?_⟩
  · rintro i j hi hj ⟨hne, hfirst⟩ hiv hjv hnot
    have hdifferent := g.not_sameTorrent hi hj hne hiv hjv (hfirst hiv hjv) hnot
    exact ⟨fun hid => hdifferent (g.sameTorrent_of_sameID hi hj hiv hjv hid), hdifferent⟩
  · have hcases : i ∈ restored items ∨ i.torrentID ∈ (∅ : Finset Digest) ∨
        ∃ k ∈ restored items, i.torrentID ∈ k.supersedes := mem_kept_or hi hiv
    obtain hkept | hempty | ⟨k, hk, hid⟩ := hcases
    · exact ⟨i, hkept, .inl rfl⟩
    · cases hempty
    · obtain ⟨hmem, hkv, -⟩ := mem_of_mem_kept hk
      exact ⟨k, hk, .inr (g.sameTorrent_of_mem_supersedes hmem hi hkv hiv hid).2.symm⟩

theorem not_three (g : Genuine items) (hi : i ∈ items) (hj : j ∈ items) (hk : k ∈ items)
    (hiv : i.Valid) (hjv : j.Valid) (hkv : k.Valid) (hb : j.IsHybrid) (his : i.SameTorrent j)
    (hks : k.SameTorrent j) (hij : i.torrentID ≠ j.torrentID) (hkj : k.torrentID ≠ j.torrentID)
    (hki : k.torrentID ≠ i.torrentID) : False := by
  obtain ⟨h, hjh, hhybrid⟩ := hb
  have hj' := g.torrentID_eq hj hj hjv hjh hhybrid
    ⟨h, h, hjh, hjh, .inl ⟨(isHybrid_iff.1 hhybrid).1, rfl⟩⟩
  obtain hi' | hi' := g.torrentID_eq hi hj hiv hjh hhybrid his <;>
    obtain hk' | hk' := g.torrentID_eq hk hj hkv hjh hhybrid hks <;>
    obtain hj' | hj' := hj'
  all_goals simp_all

theorem hybridFirst_of_orderly (g : Genuine items) (h : Orderly items) : HybridFirst items := by
  suffices hsuffix : ∀ post pre, items = pre ++ post → HybridFirst post from hsuffix items [] rfl
  intro post
  induction post with
  | nil => exact fun _ _ => .nil
  | cons i post ih =>
    intro pre hitems
    refine pairwise_cons.2 ⟨fun j hj hiv hjv hs hb => ?_, ih (pre ++ [i]) (by simpa using hitems)⟩
    by_contra hni
    obtain ⟨mid, post, rfl⟩ := append_of_mem hj
    have hids := pairwise_map.1 g.ids
    rw [hitems, pairwise_append, List.pairwise_cons, pairwise_append,
      List.pairwise_cons] at hids
    obtain ⟨-, ⟨hi₁, -, -, hmid⟩, hpre⟩ := hids
    have himem : i ∈ items := by rw [hitems]; simp
    have hjmem : j ∈ items := by rw [hitems]; simp
    have hij : i.torrentID ≠ j.torrentID := hi₁ j (by simp)
    -- nothing before it supersedes the first entry
    have hkeepi : i.torrentID ∉ skippedAfter LoadedResumeData.torrentID
        LoadedResumeData.supersedes LoadedResumeData.Valid ∅ pre := by
      intro hmem
      obtain hempty | ⟨k, hk, hid⟩ := mem_skippedAfter.1 hmem
      · cases hempty
      · obtain ⟨hkpre, hkv, -⟩ := mem_of_mem_kept hk
        have hkmem : k ∈ items := by rw [hitems]; simp [hkpre]
        obtain ⟨-, hki⟩ := g.sameTorrent_of_mem_supersedes hkmem himem hkv hiv hid
        refine g.not_three himem hjmem hkmem hiv hjv hkv hb hs ?_ hij (hpre k hkpre j (by simp))
          (hpre k hkpre i (by simp))
        obtain ⟨h₁, h₂, hk₁, hi₂, hshares⟩ := hki
        obtain ⟨h₂', h₃, hi₂', hj₃, hshares'⟩ := hs
        obtain rfl := some.inj (hi₂.symm.trans hi₂')
        exact ⟨h₁, h₃, hk₁, hj₃, hshares.trans hshares' fun hb => hni ⟨h₂, hi₂, hb⟩⟩
    have hnone : i.supersedes = ∅ := by
      obtain ⟨hi, hih, -⟩ := id hiv
      refine eq_empty_of_forall_notMem fun id hid => hni ⟨hi, hih, ?_⟩
      exact (g.of_mem_supersedes himem hiv hih hid).1
    -- nor does anything between the two supersede the second
    have hkeepj : j.torrentID ∉ skippedAfter LoadedResumeData.torrentID
        LoadedResumeData.supersedes LoadedResumeData.Valid
        (skippedAfter LoadedResumeData.torrentID LoadedResumeData.supersedes
          LoadedResumeData.Valid ∅ pre) mid := by
      intro hmem
      have hsuperseded : ∃ k ∈ pre ++ mid, k.Valid ∧ j.torrentID ∈ k.supersedes := by
        obtain hmem | ⟨k, hk, hid⟩ := mem_skippedAfter.1 hmem
        · obtain hempty | ⟨k, hk, hid⟩ := mem_skippedAfter.1 hmem
          · cases hempty
          · exact ⟨k, mem_append_left _ (mem_of_mem_kept hk).1, (mem_of_mem_kept hk).2.1, hid⟩
        · exact ⟨k, mem_append_right _ (mem_of_mem_kept hk).1, (mem_of_mem_kept hk).2.1, hid⟩
      obtain ⟨k, hk, hkv, hid⟩ := hsuperseded
      have hkmem : k ∈ items := by
        rw [hitems]
        obtain hk | hk := mem_append.1 hk <;> simp [hk]
      have hne : k.torrentID ≠ j.torrentID ∧ k.torrentID ≠ i.torrentID := by
        obtain hk | hk := mem_append.1 hk
        · exact ⟨hpre k hk j (by simp), hpre k hk i (by simp)⟩
        · exact ⟨hmid k hk j (by simp), (hi₁ k (by simp [hk])).symm⟩
      exact g.not_three himem hjmem hkmem hiv hjv hkv hb hs
        (g.sameTorrent_of_mem_supersedes hkmem hjmem hkv hjv hid).2 hij hne.1 hne.2
    have hdifferent := h.different
    rw [restored, hitems, kept_append, kept, if_pos ⟨hiv, hkeepi⟩, hnone, union_empty,
      kept_append, kept, if_pos ⟨hjv, hkeepj⟩, pairwise_append, List.pairwise_cons] at hdifferent
    exact (hdifferent.2.1.1 j (by simp)).2 hs

end Genuine

/-- **Restored once.**  For all entries, settings and sessions: each torrent is restored once exactly
when the entries are orderly, and entries of real torrents are orderly exactly when hybrid ones
come first. -/
theorem startsOnce_iff (S : StartupSettings) (session : SessionImpl)
    (items : List LoadedResumeData) :
    (StartsOnce items (startup S session items).adds ↔ Orderly items) ∧
      (Genuine items → (Orderly items ↔ HybridFirst items)) :=
  ⟨startsOnce_iff_orderly S session items,
    fun g => ⟨g.hybridFirst_of_orderly, g.orderly_of_hybridFirst⟩⟩

/-! ### A hybrid torrent with an old entry -/

/-- An entry under the first ID of its torrent, or under the second. -/
def entryOf (torrentID : Digest) (infoHashes : InfoHash) : LoadedResumeData where
  torrentID := torrentID
  result := .ok ⟨⟨"", ∅, false, "/home/user/Downloads", ""⟩, none, infoHashes, "/home/user/Downloads"⟩

/-- What a magnet link with the v1 hash left behind. -/
def oldEntry : LoadedResumeData := entryOf 1 ⟨1, 0⟩

/-- The same torrent with its metadata, by which it is hybrid. -/
def hybridEntry : LoadedResumeData := entryOf 5 ⟨1, 5 <<< 96⟩

theorem infoHash_hybridEntry_oldEntry {i : LoadedResumeData} (hi : i ∈ [hybridEntry, oldEntry])
    {h : InfoHash} (hh : i.infoHash = some h) : h = ⟨1, 5 <<< 96⟩ ∨ h = ⟨1, 0⟩ := by
  obtain rfl | rfl : i = hybridEntry ∨ i = oldEntry := by simpa using hi
  · cases hh
    exact .inl rfl
  · cases hh
    exact .inr rfl

theorem eq_of_hybridEntry_oldEntry {i j : LoadedResumeData} (hi : i ∈ [hybridEntry, oldEntry])
    (hj : j ∈ [hybridEntry, oldEntry]) {h h' : InfoHash} (hh : i.infoHash = some h)
    (hh' : j.infoHash = some h') (hb : h.hasV2 = true) (hb' : h'.hasV2 = true) : h = h' := by
  obtain rfl | rfl := infoHash_hybridEntry_oldEntry hi hh
  · obtain rfl | rfl := infoHash_hybridEntry_oldEntry hj hh'
    · rfl
    · exact absurd hb' (by decide)
  · exact absurd hb (by decide)

theorem genuine_hybridEntry_oldEntry : Genuine [hybridEntry, oldEntry] where
  ids := by decide
  own := by
    intro i hi h _ hh
    obtain rfl | rfl : i = hybridEntry ∨ i = oldEntry := by simpa using hi
    · cases hh
      exact .inr (by decide)
    · cases hh
      exact .inl (by decide)
  ofV1 i hi j hj h h' hh hh' hb hb' _ := congrArg _ (eq_of_hybridEntry_oldEntry hi hj hh hh'
    (Bool.and_eq_true_iff.1 hb).2 (Bool.and_eq_true_iff.1 hb').2)
  ofV2 i hi j hj h h' hh hh' hb hb' _ := congrArg _ (eq_of_hybridEntry_oldEntry hi hj hh hh'
    (Bool.and_eq_true_iff.1 hb).2 (Bool.and_eq_true_iff.1 hb').2)
  truncated i hi j hj h h' hh hh' hb hb' _ :=
    congrArg _ (eq_of_hybridEntry_oldEntry hi hj hh hh' hb hb')
  apart := by
    intro i hi j hj h h' hh hh' hb hb'
    obtain rfl | rfl := infoHash_hybridEntry_oldEntry hj hh'
    · obtain rfl | rfl := infoHash_hybridEntry_oldEntry hi hh <;> decide
    · exact absurd hb' (by decide)

/-- The storage of the example, in which nothing else is found. -/
def exampleSettings : StartupSettings where
  paths := ⟨id, "/home/user/Downloads"⟩
  indexedTorrents := ∅
  load _ := .error "No such file"
  storageChanged := false
  needUpgradeDownloadPath := false

/-- The hybrid entry comes first. -/
theorem startsOnce_hybridEntry_oldEntry :
    StartsOnce [hybridEntry, oldEntry] (startup exampleSettings (.initial exampleSettings.paths)
      [hybridEntry, oldEntry]).adds := by
  obtain ⟨hstarts, horder⟩ := startsOnce_iff exampleSettings (.initial exampleSettings.paths)
    [hybridEntry, oldEntry]
  refine hstarts.2 ((horder genuine_hybridEntry_oldEntry).2 ?_)
  refine pairwise_pair.2 fun _ _ _ hb => ?_
  obtain ⟨h, hh, hhybrid⟩ := hb
  cases hh
  exact absurd hhybrid (by decide)

/-- The old entry comes first: both are added. -/
theorem starts_twice :
    ¬ ∀ (S : StartupSettings) (session : SessionImpl) (items : List LoadedResumeData),
      StartsOnce items (startup S session items).adds := by
  intro h
  have horderly := (startsOnce_iff_orderly exampleSettings (.initial exampleSettings.paths)
    [oldEntry, hybridEntry]).1 (h _ _ _)
  have hrestored : restored [oldEntry, hybridEntry] = [oldEntry, hybridEntry] := by
    rw [restored, kept, if_pos (by decide), kept, if_pos (by decide), kept]
  have hdifferent := horderly.different
  rw [hrestored, pairwise_pair] at hdifferent
  exact hdifferent.2 ⟨⟨1, 0⟩, ⟨1, 5 <<< 96⟩, rfl, rfl, .inl (by decide)⟩

end QBittorrent
