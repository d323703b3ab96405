import QBittorrent.Lib.Dict
import QBittorrent.Session.InfoHash

/-!
# The maps of the session

The maps by which the session finds a torrent: `m_torrents` under the IDs of the torrents,
`m_loadingTorrents` under the IDs of those that are being added, and `m_hybridTorrentsByAltID` under
the v1 hash of hybrid torrents, where a torrent that is being added has a null pointer.  With them
goes `m_changedTorrentIDs`, the IDs that torrents had before their metadata came.

libtorrent never has two torrents with a common hash, the first 20 bytes of a v2 hash taken for it;
`Tables.Possible` says which of its alerts that leaves.

* `Tables.Keyed.next` : torrents are under their IDs, which they do not share.
-/

namespace QBittorrent

open Option Finset Finmap Dict

/-- The IDs that libtorrent has a torrent under. -/
def InfoHash.ids (h : InfoHash) : Finset Digest :=
  if h.isHybrid then {h.v1, h.truncatedV2} else {h.toTorrentID}

/-! ### The maps -/

/-- The maps of the session; a torrent is a `TorrentImpl`, which has an info-hash. -/
structure Tables where
  /-- The torrents that exist. -/
  objects : Dict ℕ InfoHash := ∅
  /-- The next torrent that is created. -/
  nextTorrent : ℕ := 0
  /-- `m_torrents`. -/
  torrents : Dict Digest ℕ := ∅
  /-- `m_loadingTorrents`, with the info-hashes of the requests. -/
  loadingTorrents : Dict Digest InfoHash := ∅
  /-- `m_hybridTorrentsByAltID`. -/
  hybridTorrentsByAltID : Dict Digest (Option ℕ) := ∅
  /-- `m_changedTorrentIDs`. -/
  changedTorrentIDs : Dict Digest Digest := ∅

namespace Tables

variable (s : Tables)

/-- `Session::findTorrent`. -/
def findTorrent (infoHash : InfoHash) : Option ℕ :=
  match s.torrents.lookup infoHash.toTorrentID with
  | some torrent => some torrent
  | none =>
    if ¬ infoHash.isHybrid then (s.hybridTorrentsByAltID.lookup infoHash.toTorrentID).join
    else s.torrents.lookup infoHash.altID

/-- The torrent is being added. -/
def isLoading (infoHash : InfoHash) : Bool :=
  infoHash.toTorrentID ∈ s.loadingTorrents ||
    (infoHash.isHybrid && decide (infoHash.altID ∈ s.loadingTorrents))

/-- `addTorrent_impl`: the tables with the new request, or nothing if the torrent is known. -/
def addTorrent (infoHash : InfoHash) : Option Tables :=
  if s.isLoading infoHash then none
  else if (s.findTorrent infoHash).isSome then none
  else some
    { s with
      loadingTorrents := s.loadingTorrents.insert infoHash.toTorrentID infoHash
      hybridTorrentsByAltID :=
        if infoHash.isHybrid then s.hybridTorrentsByAltID.insert infoHash.altID none
        else s.hybridTorrentsByAltID }

def createTorrent (infoHash : InfoHash) : Tables :=
  { s with
    objects := s.objects.insert s.nextTorrent infoHash
    nextTorrent := s.nextTorrent + 1
    torrents := s.torrents.insert infoHash.toTorrentID s.nextTorrent
    hybridTorrentsByAltID :=
      if infoHash.isHybrid then s.hybridTorrentsByAltID.insert infoHash.altID (some s.nextTorrent)
      else s.hybridTorrentsByAltID }

def handleAddTorrentAlert (infoHash : InfoHash) : Tables :=
  if infoHash.toTorrentID ∈ s.loadingTorrents then
    { s with loadingTorrents := s.loadingTorrents.erase infoHash.toTorrentID }.createTorrent infoHash
  else s

/-- `handleAddTorrentAlert` with an error. -/
def handleAddTorrentError (infoHash : InfoHash) : Tables :=
  { s with
    loadingTorrents := s.loadingTorrents.erase infoHash.toTorrentID
    hybridTorrentsByAltID :=
      if infoHash.isHybrid then s.hybridTorrentsByAltID.erase infoHash.altID
      else s.hybridTorrentsByAltID }

def handleTorrentInfoHashChanged (torrent : ℕ) (infoHash prevInfoHash : InfoHash) : Tables :=
  let s' : Tables :=
    { s with
      hybridTorrentsByAltID := s.hybridTorrentsByAltID.insert infoHash.altID (some torrent) }
  if infoHash.toTorrentID ≠ prevInfoHash.toTorrentID then
    match s.torrents.lookup prevInfoHash.toTorrentID with
    | some torrent =>
      { s' with
        torrents := (s.torrents.erase prevInfoHash.toTorrentID).insert infoHash.toTorrentID torrent
        changedTorrentIDs :=
          s.changedTorrentIDs.insert infoHash.toTorrentID prevInfoHash.toTorrentID }
    | none => s'
  else s'

/-- The torrent that `dispatchTorrentAlert` gives the metadata to. -/
def metadataTarget (infoHash : InfoHash) : Option ℕ :=
  match s.torrents.lookup infoHash.toTorrentID with
  | some torrent => some torrent
  | none => if infoHash.isHybrid then s.torrents.lookup infoHash.altID else none

/-- `TorrentImpl::handleMetadataReceivedAlert`; `infoHash` is what the native torrent has now. -/
def handleMetadataReceived (infoHash : InfoHash) : Tables :=
  match s.metadataTarget infoHash with
  | none => s
  | some torrent =>
    match s.objects.lookup torrent with
    | none => s
    | some prevInfoHash =>
      let s' := { s with objects := s.objects.insert torrent infoHash }
      if prevInfoHash ≠ infoHash then s'.handleTorrentInfoHashChanged torrent infoHash prevInfoHash
      else s'

def removeTorrent (id : Digest) : Tables :=
  match s.torrents.lookup id with
  | none => s
  | some torrent =>
    { s with
      torrents := s.torrents.erase id
      objects := s.objects.erase torrent
      hybridTorrentsByAltID :=
        match s.objects.lookup torrent with
        | none => s.hybridTorrentsByAltID
        | some infoHash =>
          if infoHash.isHybrid then s.hybridTorrentsByAltID.erase infoHash.altID
          else s.hybridTorrentsByAltID }

/-! ### Torrents of the session -/

/-- The info-hash of the torrent under an ID. -/
def infoHashOf (id : Digest) : Option InfoHash := (s.torrents.lookup id).bind s.objects.lookup

def live : Finset InfoHash :=
  s.torrents.keys.biUnion fun id => (s.infoHashOf id).toFinset

variable {s}

theorem mem_live {h : InfoHash} : h ∈ s.live ↔ ∃ id, s.infoHashOf id = some h := by
  rw [live, mem_biUnion]
  constructor
  · rintro ⟨id, -, hid⟩
    exact ⟨id, mem_toFinset.1 hid⟩
  · rintro ⟨id, hid⟩
    refine ⟨id, mem_keys.2 ?_, mem_toFinset.2 hid⟩
    obtain ⟨torrent, ht, -⟩ := bind_eq_some_iff.1 hid
    exact mem_of_lookup_eq_some ht

end Tables

/-! ### Steps -/

/-- What happens to the maps. -/
inductive TableEvent where
  | addTorrent (infoHash : InfoHash)
  | findTorrent (infoHash : InfoHash)
  | addTorrentAlert (infoHash : InfoHash)
  | addTorrentError (infoHash : InfoHash)
  | metadataReceived (prevInfoHash infoHash : InfoHash)
  | removeTorrent (id : Digest)

namespace Tables

variable (s : Tables)

/-- The maps after an event. -/
def next : TableEvent → Tables
  | .addTorrent infoHash => (s.addTorrent infoHash).getD s
  | .findTorrent _ => s
  | .addTorrentAlert infoHash => s.handleAddTorrentAlert infoHash
  | .addTorrentError infoHash => s.handleAddTorrentError infoHash
  | .metadataReceived _ infoHash => s.handleMetadataReceived infoHash
  | .removeTorrent id => s.removeTorrent id

/-- An alert that libtorrent can give: a torrent that is added, or becomes hybrid with its metadata,
has no ID in common with another one. -/
def Possible : TableEvent → Prop
  | .addTorrentAlert infoHash => ∀ h ∈ s.live, Disjoint h.ids infoHash.ids
  | .metadataReceived prevInfoHash infoHash =>
    prevInfoHash ∈ s.live ∧ ¬ prevInfoHash.isHybrid = true ∧ infoHash.isHybrid = true ∧
      prevInfoHash.Shares infoHash ∧
      ∀ h ∈ s.live, h ≠ prevInfoHash → Disjoint h.ids infoHash.ids
  | _ => True

instance : DecidablePred s.Possible := fun e => by
  cases e <;> unfold Possible <;> infer_instance

end Tables

namespace InfoHash

variable {h h' : InfoHash}

theorem toTorrentID_mem_ids (h : InfoHash) : h.toTorrentID ∈ h.ids := by
  rw [ids]
  split_ifs with hb
  · rw [toTorrentID_of_hasV2 (isHybrid_iff.1 hb).2]
    exact mem_insert_of_mem (mem_singleton_self _)
  · exact mem_singleton_self _

theorem toTorrentID_of_hasV1 (hb : ¬ h.isHybrid = true) (hv : h.hasV1 = true) :
    h.toTorrentID = h.v1 :=
  toTorrentID_of_not_hasV2 fun hv2 => hb (isHybrid_iff.2 ⟨hv, hv2⟩)

theorem v1_mem_ids (hv : h.hasV1 = true) : h.v1 ∈ h.ids := by
  by_cases hb : h.isHybrid = true
  · rw [ids, if_pos hb]
    exact mem_insert_self _ _
  · rw [← toTorrentID_of_hasV1 hb hv]
    exact toTorrentID_mem_ids h

theorem hasV1_congr (he : h.v1 = h'.v1) : h.hasV1 = h'.hasV1 := by rw [hasV1, hasV1, he]

theorem hasV2_congr (he : h.v2 = h'.v2) : h.hasV2 = h'.hasV2 := by rw [hasV2, hasV2, he]

theorem toTorrentID_congr (hv : h.hasV2 = true) (he : h.v2 = h'.v2) :
    h.toTorrentID = h'.toTorrentID := by
  rw [toTorrentID_of_hasV2 hv, toTorrentID_of_hasV2 (hasV2_congr he ▸ hv), truncatedV2, truncatedV2,
    he]

theorem Shares.not_disjoint (hs : h.Shares h') : ¬ Disjoint h.ids h'.ids := by
  rw [not_disjoint_iff]
  obtain ⟨hv, he⟩ | ⟨hv, he⟩ := hs
  · exact ⟨h.v1, v1_mem_ids hv, he ▸ v1_mem_ids (hasV1_congr he ▸ hv)⟩
  · refine ⟨h.toTorrentID, toTorrentID_mem_ids h, ?_⟩
    rw [toTorrentID_congr hv he]
    exact toTorrentID_mem_ids h'

theorem mem_ids_iff {id : Digest} :
    id ∈ h.ids ↔ id = h.toTorrentID ∨ (h.isHybrid = true ∧ id = h.v1) := by
  rw [ids]
  split_ifs with hb
  · rw [toTorrentID_of_hasV2 (isHybrid_iff.1 hb).2, Finset.mem_insert, Finset.mem_singleton]
    tauto
  · rw [Finset.mem_singleton]
    exact ⟨.inl, fun h => h.resolve_right fun h => hb h.1⟩

end InfoHash

namespace Tables

variable {s s' : Tables} {h h' : InfoHash} {id id' : Digest} {torrent torrent' : ℕ}

theorem infoHashOf_eq (ht : s.torrents.lookup id = some torrent)
    (ho : s.objects.lookup torrent = some h) : s.infoHashOf id = some h :=
  bind_eq_some_iff.2 ⟨torrent, ht, ho⟩

theorem eq_of_addTorrent (ha : s.addTorrent h = some s') :
    s' = { s with
      loadingTorrents := s.loadingTorrents.insert h.toTorrentID h
      hybridTorrentsByAltID :=
        if h.isHybrid then s.hybridTorrentsByAltID.insert h.altID none
        else s.hybridTorrentsByAltID } := by
  rw [addTorrent] at ha
  by_cases hl : s.isLoading h = true
  · rw [if_pos hl] at ha
    cases ha
  · rw [if_neg hl] at ha
    by_cases hf : (s.findTorrent h).isSome = true
    · rw [if_pos hf] at ha
      cases ha
    · rw [if_neg hf] at ha
      exact (some.inj ha).symm

/-- Torrents are under their IDs and have no ID in common. -/
structure Keyed (s : Tables) : Prop where
  exist : ∀ id torrent, s.torrents.lookup id = some torrent →
    ∃ h, s.objects.lookup torrent = some h ∧ h.toTorrentID = id
  apart : ∀ id id' h h', s.infoHashOf id = some h → s.infoHashOf id' = some h' → id ≠ id' →
    Disjoint h.ids h'.ids
  fresh : ∀ torrent, s.nextTorrent ≤ torrent → s.objects.lookup torrent = none

namespace Keyed

theorem keyed (k : Keyed s) (hid : s.infoHashOf id = some h) : h.toTorrentID = id := by
  obtain ⟨torrent, ht, ho⟩ := bind_eq_some_iff.1 hid
  obtain ⟨h', ho', hid'⟩ := k.exist id torrent ht
  cases ho.symm.trans ho'
  exact hid'

theorem lookup_of_mem_live (k : Keyed s) (hlive : h ∈ s.live) :
    ∃ torrent, s.torrents.lookup h.toTorrentID = some torrent ∧
      s.objects.lookup torrent = some h := by
  obtain ⟨id, hid⟩ := mem_live.1 hlive
  obtain rfl := k.keyed hid
  exact bind_eq_some_iff.1 hid

theorem mem_live_of_lookup (k : Keyed s) (ht : s.torrents.lookup id = some torrent) :
    ∃ h, s.objects.lookup torrent = some h ∧ h.toTorrentID = id ∧ h ∈ s.live := by
  obtain ⟨h, ho, hid⟩ := k.exist id torrent ht
  exact ⟨h, ho, hid, mem_live.2 ⟨id, infoHashOf_eq ht ho⟩⟩

theorem eq_of_mem_ids (k : Keyed s) (hlive : h ∈ s.live) (hlive' : h' ∈ s.live) (hid : id ∈ h.ids)
    (hid' : id ∈ h'.ids) : h = h' := by
  obtain ⟨a, ha⟩ := mem_live.1 hlive
  obtain ⟨b, hb⟩ := mem_live.1 hlive'
  by_cases hab : a = b
  · subst hab
    exact some.inj (ha.symm.trans hb)
  · exact absurd (k.apart a b h h' ha hb hab) (not_disjoint_iff.2 ⟨id, hid, hid'⟩)

theorem eq_of_torrent_eq (k : Keyed s) (ht : s.torrents.lookup id = some torrent)
    (ht' : s.torrents.lookup id' = some torrent) : id = id' := by
  obtain ⟨h, ho, hid⟩ := k.exist id torrent ht
  obtain ⟨h', ho', hid'⟩ := k.exist id' torrent ht'
  cases ho.symm.trans ho'
  exact hid.symm.trans hid'

theorem live_mem (k : Keyed s) (hl : h ∈ s.live) : h.toTorrentID ∈ s.torrents := by
  obtain ⟨torrent, ht, -⟩ := k.lookup_of_mem_live hl
  exact mem_of_lookup_eq_some ht

theorem empty : Keyed {} where
  exist _ _ h := by cases h
  apart _ _ _ _ h := by cases h
  fresh _ _ := rfl

theorem congr (k : Keyed s) (htorrents : s'.torrents = s.torrents)
    (hobjects : s'.objects = s.objects) (hnext : s'.nextTorrent = s.nextTorrent) : Keyed s' := by
  refine ⟨?_, ?_, ?_⟩
  · rw [htorrents, hobjects]
    exact k.exist
  · simp only [infoHashOf, htorrents, hobjects]
    exact k.apart
  · rw [hnext, hobjects]
    exact k.fresh

end Keyed

/-! ### Torrents that come and change -/

/-- A torrent gets an info-hash without an ID in common with another torrent, and goes under its
new ID. -/
structure Put (s s' : Tables) (torrent : ℕ) (h : InfoHash) : Prop where
  disjoint : ∀ id torrent' x, s.torrents.lookup id = some torrent' → torrent' ≠ torrent →
    s.objects.lookup torrent' = some x → Disjoint x.ids h.ids
  torrents : ∀ id torrent', s'.torrents.lookup id = some torrent' ↔
    (id = h.toTorrentID ∧ torrent' = torrent) ∨
      (s.torrents.lookup id = some torrent' ∧ torrent' ≠ torrent)
  objects : s'.objects = s.objects.insert torrent h
  next : ∀ torrent', s'.nextTorrent ≤ torrent' → torrent' ≠ torrent ∧ s.nextTorrent ≤ torrent'

namespace Put

theorem lookup_objects (p : Put s s' torrent h) : s'.objects.lookup torrent = some h := by
  rw [p.objects]
  exact lookup_insert _

theorem lookup_objects_of_ne (p : Put s s' torrent h) (hne : torrent' ≠ torrent) :
    s'.objects.lookup torrent' = s.objects.lookup torrent' := by
  rw [p.objects]
  exact lookup_insert_of_ne _ hne

theorem infoHashOf (p : Put s s' torrent h) {x : InfoHash} (hx : s'.infoHashOf id = some x) :
    (id = h.toTorrentID ∧ x = h) ∨ (s.infoHashOf id = some x ∧ Disjoint x.ids h.ids) := by
  obtain ⟨torrent', ht, ho⟩ := bind_eq_some_iff.1 hx
  obtain ⟨rfl, rfl⟩ | ⟨ht, hne⟩ := (p.torrents id torrent').1 ht
  · exact .inl ⟨rfl, some.inj (ho.symm.trans p.lookup_objects)⟩
  · rw [p.lookup_objects_of_ne hne] at ho
    exact .inr ⟨infoHashOf_eq ht ho, p.disjoint id torrent' x ht hne ho⟩

end Put

namespace Keyed

theorem of_put (k : Keyed s) (p : Put s s' torrent h) : Keyed s' := by
  refine ⟨fun id torrent' ht => ?_, fun id id' x x' hx hx' hne => ?_, fun torrent' hle => ?_⟩
  · obtain ⟨rfl, rfl⟩ | ⟨ht, hne⟩ := (p.torrents id torrent').1 ht
    · exact ⟨h, p.lookup_objects, rfl⟩
    · rw [p.lookup_objects_of_ne hne]
      exact k.exist id torrent' ht
  · obtain ⟨rfl, rfl⟩ | ⟨hx, hd⟩ := p.infoHashOf hx <;>
      obtain ⟨rfl, rfl⟩ | ⟨hx', hd'⟩ := p.infoHashOf hx'
    · exact absurd rfl hne
    · exact hd'.symm
    · exact hd
    · exact k.apart id id' x x' hx hx' hne
  · obtain ⟨hne, hle⟩ := p.next torrent' hle
    rw [p.lookup_objects_of_ne hne]
    exact k.fresh torrent' hle

theorem createTorrent (k : Keyed s) (hp : s.Possible (.addTorrentAlert h)) :
    Put s (s.createTorrent h) s.nextTorrent h := by
  have hold : ∀ {id torrent}, s.torrents.lookup id = some torrent →
      torrent ≠ s.nextTorrent ∧ id ≠ h.toTorrentID := by
    intro id torrent ht
    obtain ⟨x, ho, hid, hx⟩ := k.mem_live_of_lookup ht
    constructor
    · rintro rfl
      rw [k.fresh _ le_rfl] at ho
      cases ho
    · rintro rfl
      refine not_disjoint_iff.2 ⟨h.toTorrentID, ?_, h.toTorrentID_mem_ids⟩ (hp x hx)
      rw [← hid]
      exact x.toTorrentID_mem_ids
  refine ⟨fun id torrent x ht _ ho => ?_, fun id torrent => ?_, rfl,
    fun torrent hle => ⟨?_, le_trans (Nat.le_succ _) hle⟩⟩
  · exact hp x (mem_live.2 ⟨id, infoHashOf_eq ht ho⟩)
  · rw [show (s.createTorrent h).torrents = s.torrents.insert h.toTorrentID s.nextTorrent from rfl,
      lookup_insert_eq]
    split_ifs with hid
    · constructor
      · rintro ⟨⟩
        exact .inl ⟨hid, rfl⟩
      · rintro (⟨-, rfl⟩ | ⟨ht, -⟩)
        · rfl
        · exact absurd hid (hold ht).2
    · exact ⟨fun ht => .inr ⟨ht, (hold ht).1⟩,
        fun ht => (ht.resolve_left fun h => hid h.1).1⟩
  · rintro rfl
    exact absurd hle (Nat.not_succ_le_self _)

theorem addTorrentAlert_put (k : Keyed s) (hl : h.toTorrentID ∈ s.loadingTorrents)
    (hp : s.Possible (.addTorrentAlert h)) :
    Put s (s.handleAddTorrentAlert h) s.nextTorrent h := by
  have hloaded : Keyed { s with loadingTorrents := s.loadingTorrents.erase h.toTorrentID } :=
    k.congr rfl rfl rfl
  have hput := hloaded.createTorrent hp
  rw [handleAddTorrentAlert, if_pos hl]
  exact { hput with }

theorem metadataTarget_eq (k : Keyed s) (hp : s.Possible (.metadataReceived h' h)) :
    ∃ torrent, s.metadataTarget h = some torrent ∧
      s.torrents.lookup h'.toTorrentID = some torrent ∧ s.objects.lookup torrent = some h' := by
  obtain ⟨hlive, hone, hb, hs, hdisjoint⟩ := hp
  obtain ⟨torrent, ht, ho⟩ := k.lookup_of_mem_live hlive
  refine ⟨torrent, ?_, ht, ho⟩
  rw [metadataTarget]
  cases hbest : s.torrents.lookup h.toTorrentID with
  | some torrent' =>
    -- no other torrent has the new ID
    obtain ⟨x, hox, hid, hx⟩ := k.mem_live_of_lookup hbest
    by_cases hxh : x = h'
    · rw [hxh] at hid
      rw [← hid, ht] at hbest
      exact hbest.symm
    · refine absurd (hdisjoint x hx hxh) (not_disjoint_iff.2 ⟨h.toTorrentID, ?_, ?_⟩)
      · rw [← hid]
        exact x.toTorrentID_mem_ids
      · exact h.toTorrentID_mem_ids
  | none =>
    simp only [if_pos hb]
    obtain ⟨hv, he⟩ | ⟨hv, he⟩ := hs
    · rwa [InfoHash.altID, ← he, ← InfoHash.toTorrentID_of_hasV1 hone hv]
    · rw [← InfoHash.toTorrentID_congr hv he, ht] at hbest
      cases hbest

theorem handleMetadataReceived_eq (k : Keyed s) (hp : s.Possible (.metadataReceived h' h)) :
    ∃ torrent, s.torrents.lookup h'.toTorrentID = some torrent ∧
      s.objects.lookup torrent = some h' ∧
      s.handleMetadataReceived h =
        if h.toTorrentID ≠ h'.toTorrentID then
          { s with
            objects := s.objects.insert torrent h
            torrents := (s.torrents.erase h'.toTorrentID).insert h.toTorrentID torrent
            hybridTorrentsByAltID := s.hybridTorrentsByAltID.insert h.altID (some torrent)
            changedTorrentIDs := s.changedTorrentIDs.insert h.toTorrentID h'.toTorrentID }
        else
          { s with
            objects := s.objects.insert torrent h
            hybridTorrentsByAltID := s.hybridTorrentsByAltID.insert h.altID (some torrent) } := by
  obtain ⟨torrent, htarget, ht, ho⟩ := k.metadataTarget_eq hp
  have hchanged : h' ≠ h := fun he => hp.2.1 (he ▸ hp.2.2.1)
  refine ⟨torrent, ht, ho, ?_⟩
  rw [handleMetadataReceived, htarget]
  simp only [ho, if_pos hchanged]
  rw [handleTorrentInfoHashChanged]
  split_ifs
  · simp only [ht]
  · rfl

theorem lookup_handleMetadataReceived (k : Keyed s) (hp : s.Possible (.metadataReceived h' h))
    (ht : s.torrents.lookup h'.toTorrentID = some torrent) :
    (s.handleMetadataReceived h).torrents.lookup id =
      if id = h.toTorrentID then some torrent
      else if id = h'.toTorrentID then none else s.torrents.lookup id := by
  obtain ⟨torrent', ht', -, heq⟩ := k.handleMetadataReceived_eq hp
  obtain rfl : torrent' = torrent := some.inj (ht'.symm.trans ht)
  rw [heq]
  by_cases hid : h.toTorrentID = h'.toTorrentID
  · rw [if_neg (not_not.2 hid), hid]
    split_ifs with hkey
    · rw [hkey]
      exact ht
    · rfl
  · rw [if_pos hid]
    rw [lookup_insert_eq, lookup_erase_eq]

theorem metadataReceived (k : Keyed s) (hp : s.Possible (.metadataReceived h' h)) :
    ∃ torrent, s.torrents.lookup h'.toTorrentID = some torrent ∧
      s.objects.lookup torrent = some h' ∧ Put s (s.handleMetadataReceived h) torrent h ∧
      (s.handleMetadataReceived h).hybridTorrentsByAltID =
        s.hybridTorrentsByAltID.insert h.altID (some torrent) ∧
      (s.handleMetadataReceived h).loadingTorrents = s.loadingTorrents := by
  obtain ⟨torrent, ht, ho, heq⟩ := k.handleMetadataReceived_eq hp
  have hother : ∀ {id torrent'}, s.torrents.lookup id = some torrent' → id ≠ h'.toTorrentID →
      torrent' ≠ torrent := fun ht' hne he => hne (k.eq_of_torrent_eq (he ▸ ht') ht)
  have happart : ∀ {id torrent' x}, s.torrents.lookup id = some torrent' → torrent' ≠ torrent →
      s.objects.lookup torrent' = some x → Disjoint x.ids h.ids := by
    intro id torrent' x ht' hne hox
    refine hp.2.2.2.2 x (mem_live.2 ⟨id, infoHashOf_eq ht' hox⟩) ?_
    rintro rfl
    rw [← k.keyed (infoHashOf_eq ht' hox), ht] at ht'
    exact hne (some.inj ht').symm
  refine ⟨torrent, ht, ho, ⟨fun _ _ _ => happart, fun id torrent' => ?_, ?_,
    fun torrent' hle => ?_⟩, ?_, ?_⟩
  · rw [k.lookup_handleMetadataReceived hp ht]
    split_ifs with hnew hold
    · constructor
      · rintro ⟨⟩
        exact .inl ⟨hnew, rfl⟩
      · rintro (⟨-, rfl⟩ | ⟨ht', hne⟩)
        · rfl
        · -- no other torrent has the new ID
          obtain ⟨x, hox, hid⟩ := k.exist id torrent' ht'
          refine absurd (happart ht' hne hox) (not_disjoint_iff.2 ⟨x.toTorrentID, ?_, ?_⟩)
          · exact x.toTorrentID_mem_ids
          · rw [hid, hnew]
            exact h.toTorrentID_mem_ids
    · refine ⟨nofun, ?_⟩
      rintro (⟨hid, -⟩ | ⟨ht', hne⟩)
      · exact absurd hid hnew
      · rw [hold, ht] at ht'
        exact absurd (some.inj ht').symm hne
    · exact ⟨fun ht' => .inr ⟨ht', hother ht' hold⟩, fun h => (h.resolve_left fun h => hnew h.1).1⟩
  · rw [heq]
    split_ifs <;> rfl
  · rw [heq] at hle
    have hle' : s.nextTorrent ≤ torrent' := by
      split_ifs at hle <;> exact hle
    refine ⟨?_, hle'⟩
    rintro rfl
    rw [k.fresh torrent' hle'] at ho
    cases ho
  · rw [heq]
    split_ifs <;> rfl
  · rw [heq]
    split_ifs <;> rfl

theorem metadataReceived_put (k : Keyed s) (hlive : h' ∈ s.live)
    (hchange : h = h' ∨ s.Possible (.metadataReceived h' h)) :
    ∃ torrent, s.torrents.lookup h'.toTorrentID = some torrent ∧
      s.metadataTarget h = some torrent ∧ Put s (s.handleMetadataReceived h) torrent h ∧
      (s.handleMetadataReceived h).loadingTorrents = s.loadingTorrents ∧
      (s.handleMetadataReceived h).nextTorrent = s.nextTorrent := by
  rcases hchange with rfl | hp
  · obtain ⟨torrent, ht, ho⟩ := k.lookup_of_mem_live hlive
    have htarget : s.metadataTarget h = some torrent := by
      rw [metadataTarget, ht]
    have hsame : s.handleMetadataReceived h =
        { s with objects := s.objects.insert torrent h } := by
      rw [handleMetadataReceived, htarget]
      dsimp only
      rw [ho]
      exact if_neg (not_not.2 rfl)
    refine ⟨torrent, ht, htarget, ?_, by rw [hsame], by rw [hsame]⟩
    rw [hsame]
    refine ⟨fun id torrent' x ht' hne hx => ?_, fun id torrent' => ?_, rfl, fun torrent' hle => ?_⟩
    · refine k.apart id _ x h (infoHashOf_eq ht' hx) (infoHashOf_eq ht ho) ?_
      rintro rfl
      exact hne (some.inj (ht'.symm.trans ht))
    · constructor
      · intro ht'
        by_cases heq : torrent' = torrent
        · subst heq
          exact .inl ⟨k.eq_of_torrent_eq ht' ht, rfl⟩
        · exact .inr ⟨ht', heq⟩
      · rintro (⟨rfl, rfl⟩ | ⟨ht', -⟩)
        · exact ht
        · exact ht'
    · refine ⟨?_, hle⟩
      rintro rfl
      cases ho.symm.trans (k.fresh torrent' hle)
  · obtain ⟨torrent, htarget, ht, -⟩ := k.metadataTarget_eq hp
    obtain ⟨torrent', ht', -, hput, -, hloading⟩ := k.metadataReceived hp
    cases ht.symm.trans ht'
    refine ⟨torrent, ht, htarget, hput, hloading, ?_⟩
    obtain ⟨torrent', -, -, heq⟩ := k.handleMetadataReceived_eq hp
    rw [heq]
    split_ifs <;> rfl

theorem lookup_removeTorrent (k : Keyed s) (ht : s.torrents.lookup id = some torrent) :
    (s.removeTorrent id).torrents.lookup id' = some torrent' ↔
      s.torrents.lookup id' = some torrent' ∧ torrent' ≠ torrent := by
  rw [Tables.removeTorrent, ht]
  simp only [lookup_erase_eq]
  split_ifs with hid
  · refine ⟨nofun, ?_⟩
    rintro ⟨ht', hne⟩
    rw [hid, ht] at ht'
    exact absurd (some.inj ht').symm hne
  · exact ⟨fun ht' => ⟨ht', fun he => hid (k.eq_of_torrent_eq (he ▸ ht') ht)⟩, And.left⟩

theorem lookup_objects_removeTorrent (ht : s.torrents.lookup id = some torrent)
    (hne : torrent' ≠ torrent) :
    (s.removeTorrent id).objects.lookup torrent' = s.objects.lookup torrent' := by
  rw [Tables.removeTorrent, ht]
  exact lookup_erase_ne hne

theorem removeTorrent_of_eq_none (ht : s.torrents.lookup id = none) : s.removeTorrent id = s := by
  rw [Tables.removeTorrent, ht]

theorem removeTorrent (k : Keyed s) (id : Digest) : Keyed (s.removeTorrent id) := by
  cases ht : s.torrents.lookup id with
  | none =>
    rw [removeTorrent_of_eq_none ht]
    exact k
  | some torrent =>
    have hinfo : ∀ {id' x}, (s.removeTorrent id).infoHashOf id' = some x →
        s.infoHashOf id' = some x := by
      intro id' x hx
      obtain ⟨torrent', ht', ho⟩ := bind_eq_some_iff.1 hx
      obtain ⟨ht', hne⟩ := (k.lookup_removeTorrent ht).1 ht'
      exact infoHashOf_eq ht' ((lookup_objects_removeTorrent ht hne).symm.trans ho)
    refine ⟨fun id' torrent' ht' => ?_,
      fun a b x y hx hy => k.apart a b x y (hinfo hx) (hinfo hy), fun torrent' hle => ?_⟩
    · obtain ⟨ht', hne⟩ := (k.lookup_removeTorrent ht).1 ht'
      rw [lookup_objects_removeTorrent ht hne]
      exact k.exist id' torrent' ht'
    · rw [Tables.removeTorrent, ht] at hle ⊢
      rw [lookup_erase_eq]
      split_ifs
      · rfl
      · exact k.fresh torrent' hle

theorem next {e : TableEvent} (k : Keyed s) (hp : s.Possible e) : Keyed (s.next e) := by
  cases e with
  | addTorrent h =>
    rw [Tables.next]
    cases ha : s.addTorrent h with
    | none => exact k
    | some s' =>
      rw [getD_some, eq_of_addTorrent ha]
      exact k.congr rfl rfl rfl
  | findTorrent h => exact k
  | addTorrentAlert h =>
    show Keyed (s.handleAddTorrentAlert h)
    rw [handleAddTorrentAlert]
    split_ifs
    · have hloaded : Keyed { s with loadingTorrents := s.loadingTorrents.erase h.toTorrentID } :=
        k.congr rfl rfl rfl
      exact hloaded.of_put (hloaded.createTorrent hp)
    · exact k
  | addTorrentError h => exact k.congr rfl rfl rfl
  | metadataReceived h' h =>
    obtain ⟨torrent, -, -, p, -⟩ := k.metadataReceived hp
    exact k.of_put p
  | removeTorrent id => exact k.removeTorrent id

end Keyed

/-! ### Torrents that exist -/

/-- Every torrent that exists is under its ID. -/
def Owned (s : Tables) : Prop :=
  ∀ torrent h, s.objects.lookup torrent = some h → s.torrents.lookup h.toTorrentID = some torrent

namespace Owned

theorem empty : Owned {} := fun _ _ ho => by cases ho

theorem congr (o : Owned s) (htorrents : s'.torrents = s.torrents)
    (hobjects : s'.objects = s.objects) : Owned s' := by
  rw [Owned, htorrents, hobjects]
  exact o

theorem of_put (o : Owned s) (p : Put s s' torrent h) : Owned s' := by
  intro torrent' h' ho
  by_cases heq : torrent' = torrent
  · subst heq
    cases p.lookup_objects.symm.trans ho
    exact (p.torrents _ _).2 (.inl ⟨rfl, rfl⟩)
  · rw [p.lookup_objects_of_ne heq] at ho
    exact (p.torrents _ _).2 (.inr ⟨o torrent' h' ho, heq⟩)

theorem removeTorrent (o : Owned s) (k : Keyed s) (id : Digest) : Owned (s.removeTorrent id) := by
  cases ht : s.torrents.lookup id with
  | none =>
    rw [Keyed.removeTorrent_of_eq_none ht]
    exact o
  | some torrent =>
    intro torrent' h ho
    have herase : (s.removeTorrent id).objects = s.objects.erase torrent := by
      rw [Tables.removeTorrent, ht]
    rw [herase, lookup_erase_eq] at ho
    split_ifs at ho with heq
    exact (k.lookup_removeTorrent ht).2 ⟨o torrent' h ho, heq⟩

end Owned

end Tables

end QBittorrent
