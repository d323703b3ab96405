import QBittorrent.Sync.Convergence

/-!
# The peer tables of `/sync/torrentPeers`

`generateSyncData` keeps two responses for the whole web session, the last one and the one it
takes for accepted, and recognizes them by their `rid`.  Any number of clients (tabs) ask it, each
with the `rid` of the response it applied last.

The ids start again at 1 with every request that carries no `rid`, so two clients can hold the
same `rid` for different responses.  Each response here carries a serial number that the code does
not have; `PeersSafe` asks that a `rid` which the server recognizes belongs to the response the
client has applied, and that no field of a peer vanishes between the two.

* `table_shows_peers` : the table is that of the response;
* `table_keeps_gone_peer` : two tabs on one ID.
-/

namespace QBittorrent

open Option Dict Function

open Finmap (lookup)
open VariantMap Pending

/-! ### `generateSyncData` -/

/-- `processHash` on tables of rows: new and changed rows, and the keys that are gone. -/
def processHash (prevData data : Dict String VariantMap) : Dict String VariantMap × Finset String :=
  if prevData = ∅ then (data, ∅)
  else
    (Dict.filterMap (fun key row =>
      match lookup key prevData with
      | none => some row
      | some prev => if processMap prev row = ∅ then none else some (processMap prev row)) data,
      prevData.keys \ data.keys)

/-- The data of a torrent's peers, with the `rid` of the response it was sent with.  `serial` counts
the responses; the code does not read it. -/
structure PeersData where
  peers : Dict String VariantMap := ∅
  showFlags : Variant := .invalid
  rid : ℕ := 0
  serial : ℕ := 0

/-- A response of `/sync/torrentPeers`. -/
structure PeersResponse where
  rid : ℕ
  fullUpdate : Bool
  peers : Dict String VariantMap
  peersRemoved : Finset String
  showFlags : Option Variant

/-- `m_lastPeersResponse` and `m_lastAcceptedPeersResponse`. -/
structure PeersController where
  lastData : PeersData := {}
  lastAcceptedData : PeersData := {}

namespace PeersController

variable (c : PeersController) (acceptedResponseId : ℕ)

/-- The id of the last response, if the request carries one. -/
def lastResponseId : ℕ := if 0 < acceptedResponseId then c.lastData.rid else 0

/-- The data that `acceptedResponseId` is taken to accept. -/
def acceptedData : PeersData :=
  if 0 < c.lastResponseId acceptedResponseId ∧ c.lastResponseId acceptedResponseId = acceptedResponseId
  then c.lastData else c.lastAcceptedData

/-- The response will hold the changes since the accepted data. -/
def SendsChanges : Prop :=
  0 < c.lastResponseId acceptedResponseId ∧
    (c.acceptedData acceptedResponseId).rid = acceptedResponseId
  deriving Decidable

def generateSyncData (data : PeersData) : PeersResponse × PeersController :=
  let accepted := c.acceptedData acceptedResponseId
  let responseId := c.lastResponseId acceptedResponseId % 1000000 + 1
  if c.SendsChanges acceptedResponseId then
    let (peers, removedItems) := processHash accepted.peers data.peers
    (⟨responseId, false, peers, removedItems,
      if accepted.showFlags ≠ data.showFlags then some data.showFlags else none⟩,
      ⟨{ data with rid := responseId }, accepted⟩)
  else
    (⟨responseId, true, data.peers, ∅, some data.showFlags⟩,
      ⟨{ data with rid := responseId }, {}⟩)

end PeersController

/-! ### The clients -/

/-- What a tab keeps (`prop-peers.js`). -/
structure PeersClient where
  syncTorrentPeersLastResponseId : ℕ := 0
  torrentPeersTable : Dict String VariantMap := ∅
  showFlags : Variant := .bool true
  /-- The serial number of the response applied last. -/
  applied : ℕ := 0

/-- A response on its way, with the data it was generated from. -/
structure PeersInFlight where
  response : PeersResponse
  source : PeersData

/-- The success handler of `loadTorrentPeersData`. -/
def PeersClient.loadTorrentPeersData (client : PeersClient) (p : PeersInFlight) : PeersClient :=
  let table := if p.response.fullUpdate then ∅ else client.torrentPeersTable
  { syncTorrentPeersLastResponseId :=
      if p.response.rid ≠ 0 then p.response.rid else client.syncTorrentPeersLastResponseId
    torrentPeersTable := Dict.eraseAll p.response.peersRemoved (mergeRows p.response.peers table)
    showFlags :=
      match p.response.showFlags with
      | some (.bool true) => .bool true
      | _ => client.showFlags
    applied := p.source.serial }

/-- The tabs of a web session and their server.  Each tab has at most one response on its way. -/
structure PeersSystem (ι : Type*) where
  controller : PeersController := {}
  generated : ℕ := 0
  clients : ι → PeersClient := fun _ => {}
  inFlight : ι → Option PeersInFlight := fun _ => none

/-- What happens: a tab starts (again), asks while the torrent has the given peers, or gets the
response on its way.  A response that the tab does not wait for is lost. -/
inductive PeersLabel (ι : Type*) where
  | start (i : ι)
  | request (i : ι) (peers : Dict String VariantMap) (showFlags : Bool)
  | deliver (i : ι)

namespace PeersSystem

variable {ι : Type*}

/-- The response to a request of the tab `i`, the data it is generated from and the server after
it. -/
def answer (sys : PeersSystem ι) (i : ι) (peers : Dict String VariantMap) (showFlags : Bool) :
    PeersInFlight × PeersController :=
  let data : PeersData := { peers := peers, showFlags := .bool showFlags, serial := sys.generated + 1 }
  let (response, controller) :=
    sys.controller.generateSyncData (sys.clients i).syncTorrentPeersLastResponseId data
  (⟨response, data⟩, controller)

/-- The tabs and the server as a machine. -/
def machine [DecidableEq ι] : Machine (PeersSystem ι) (PeersLabel ι) where
  step sys
    | .start i => some { sys with
        clients := Function.update sys.clients i {}
        inFlight := Function.update sys.inFlight i none }
    | .request i peers showFlags => some { sys with
        controller := (sys.answer i peers showFlags).2
        generated := sys.generated + 1
        inFlight := Function.update sys.inFlight i (some (sys.answer i peers showFlags).1) }
    | .deliver i => (sys.inFlight i).map fun p => { sys with
        clients := Function.update sys.clients i ((sys.clients i).loadTorrentPeersData p)
        inFlight := Function.update sys.inFlight i none }

end PeersSystem

section Table

variable {prevData data table : Dict String VariantMap}

theorem lookup_processHash (h : prevData ≠ ∅) (key : String) :
    lookup key (processHash prevData data).1 = (lookup key data).bind fun row =>
      match lookup key prevData with
      | none => some row
      | some prev => if processMap prev row = ∅ then none else some (processMap prev row) := by
  rw [processHash, if_neg h, lookup_filterMap]

theorem merge_processHash
    (h : ∀ key, Option.Rel Agree (lookup key table) (lookup key prevData))
    (hcov : ∀ key, ∀ prev ∈ lookup key prevData, ∀ row ∈ lookup key data, Covers prev row)
    (key : String) :
    Option.Rel Agree
      (lookup key (Dict.eraseAll (processHash prevData data).2
        (mergeRows (processHash prevData data).1 table)))
      (lookup key data) := by
  have hkey := h key
  have hmerge : ∀ changes : Dict String VariantMap, lookup key (mergeRows changes table) =
      ((lookup key changes).map fun row => row ∪ rowOf table key).or (lookup key table) := by
    intro changes
    rw [mergeRows, lookup_union, lookup_filterMap]
    cases lookup key changes <;> rfl
  rw [lookup_eraseAll, hmerge]
  by_cases hp : prevData = ∅
  · subst hp
    simp only [Finmap.lookup_empty, rel_none_right] at hkey
    simp only [processHash, if_true, Finset.notMem_empty, if_false, hkey, or_none]
    cases lookup key data with
    | none => exact .none
    | some row =>
      simp only [map_some, rowOf_of_lookup_none hkey, Finmap.union_empty]
      exact .some (Agree.refl row)
  · rw [lookup_processHash hp]
    have hremoved : key ∈ (processHash prevData data).2 ↔
        (lookup key prevData).isSome ∧ lookup key data = none := by
      rw [processHash, if_neg hp, Finset.mem_sdiff, Finmap.mem_keys, Finmap.mem_keys,
        Finmap.lookup_isSome, Finmap.lookup_eq_none]
    have hcov := hcov key
    simp only [hremoved]
    cases hd : lookup key data with
    | none =>
      cases hprev : lookup key prevData with
      | none =>
        rw [hprev, rel_none_right] at hkey
        simp [hkey]
      | some prev => simp
    | some row =>
      cases hprev : lookup key prevData with
      | none =>
        rw [hprev, rel_none_right] at hkey
        simp only [isSome_none, Bool.false_eq_true, false_and, if_false, bind_some,
          map_some, some_or, rowOf_of_lookup_none hkey, Finmap.union_empty]
        exact .some (Agree.refl row)
      | some prev =>
        rw [hprev, rel_some_right] at hkey
        obtain ⟨shown, hshown, hagree⟩ := hkey
        have hcov := hcov prev hprev row hd
        by_cases he : processMap prev row = ∅
        · simp only [reduceCtorEq, and_false, if_false, bind_some, he, if_true,
            map_none, none_or, hshown]
          exact .some (hagree.trans (agree_of_processMap_eq_empty he hcov))
        · simp only [reduceCtorEq, and_false, if_false, bind_some, he, map_some,
            some_or]
          exact .some (by rw [rowOf_of_lookup hshown]; exact merge_processMap hcov hagree)

end Table

namespace PeersSystem

variable {ι : Type*} {sys sys' : PeersSystem ι} {peers : Dict String VariantMap} {i : ι}
  {showFlags : Bool}

def ShowsPeers (table peers : Dict String VariantMap) : Prop :=
  ∀ key, Option.Rel Agree (lookup key table) (lookup key peers)

/-- No peer that stays loses a field. -/
def KeepsFields (prevPeers peers : Dict String VariantMap) : Prop :=
  ∀ key ∈ prevPeers.keys, ∀ prev ∈ lookup key prevPeers, ∀ row ∈ lookup key peers,
    ∀ field ∈ prev.keys, field ∈ row

instance (prevPeers peers : Dict String VariantMap) : Decidable (KeepsFields prevPeers peers) := by
  unfold KeepsFields
  infer_instance

theorem KeepsFields.covers {prevPeers : Dict String VariantMap} (h : KeepsFields prevPeers peers)
    (key : String) : ∀ prev ∈ lookup key prevPeers, ∀ row ∈ lookup key peers, Covers prev row :=
  fun prev hprev row hrow field hv =>
    h key (Finmap.mem_keys.2 (Finmap.mem_of_lookup_eq_some hprev)) prev hprev row hrow field
      (Finmap.mem_keys.2 (mem_of_value hv))

/-- The condition of `table_shows_peers` on a step: a request that gets changes carries the id of the
response that its tab has applied, and every peer that stays keeps the fields it had in that
response. -/
def PeersSafe (sys : PeersSystem ι) : PeersLabel ι → Prop
  | .request i peers _ =>
    let rid := (sys.clients i).syncTorrentPeersLastResponseId
    let accepted := sys.controller.acceptedData rid
    sys.controller.SendsChanges rid →
      accepted.serial = (sys.clients i).applied ∧ KeepsFields accepted.peers peers
  | _ => True

instance (l : PeersLabel ι) : Decidable (PeersSafe sys l) := by
  cases l <;> unfold PeersSafe <;> infer_instance

/-- Stored data that is the data of the response `serial` has its peers. -/
def StoredAs (c : PeersController) (serial : ℕ) (P : Dict String VariantMap → Prop) : Prop :=
  (c.lastData.serial = serial → P c.lastData.peers) ∧
    (c.lastAcceptedData.serial = serial → P c.lastAcceptedData.peers)

/-- The invariant of a tab: if the response it has applied is stored, the tab shows its peers; and
the response on its way, once applied, makes it show the peers it was generated from. -/
structure TabInv (sys : PeersSystem ι) (i : ι) : Prop where
  applied_le : (sys.clients i).applied ≤ sys.generated
  shows : 0 < (sys.clients i).syncTorrentPeersLastResponseId →
    0 < (sys.clients i).applied ∧
      StoredAs sys.controller (sys.clients i).applied
        (ShowsPeers (sys.clients i).torrentPeersTable)
  inFlight : ∀ p ∈ sys.inFlight i, 0 < p.source.serial ∧ p.source.serial ≤ sys.generated ∧
    ShowsPeers ((sys.clients i).loadTorrentPeersData p).torrentPeersTable p.source.peers ∧
    StoredAs sys.controller p.source.serial (· = p.source.peers)

/-- The invariant of the system. -/
structure Inv (sys : PeersSystem ι) : Prop where
  last_le : sys.controller.lastData.serial ≤ sys.generated
  accepted_le : sys.controller.lastAcceptedData.serial ≤ sys.generated
  tab : ∀ i, TabInv sys i

theorem answer_controller (sys : PeersSystem ι) (i : ι) (peers : Dict String VariantMap) (showFlags : Bool) :
    ∃ rid accepted, (sys.answer i peers showFlags).2 =
        ⟨{ (sys.answer i peers showFlags).1.source with rid := rid }, accepted⟩ ∧
      (accepted = sys.controller.lastData ∨ accepted = sys.controller.lastAcceptedData ∨
        accepted = {}) := by
  simp only [answer, PeersController.generateSyncData]
  by_cases hsend : sys.controller.SendsChanges (sys.clients i).syncTorrentPeersLastResponseId
  · simp only [if_pos hsend]
    refine ⟨_, _, rfl, ?_⟩
    unfold PeersController.acceptedData
    split_ifs
    · exact .inl rfl
    · exact .inr (.inl rfl)
  · simp only [if_neg hsend]
    exact ⟨_, _, rfl, .inr (.inr rfl)⟩

@[simp] theorem answer_source (i : ι) (peers : Dict String VariantMap) (showFlags : Bool) :
    (sys.answer i peers showFlags).1.source =
      { peers := peers, showFlags := .bool showFlags, serial := sys.generated + 1 } := rfl

theorem StoredAs.answer {serial : ℕ} {P : Dict String VariantMap → Prop}
    (h : StoredAs sys.controller serial P) (hpos : 0 < serial) (hle : serial ≤ sys.generated) (i : ι)
    (peers : Dict String VariantMap) (showFlags : Bool) :
    StoredAs (sys.answer i peers showFlags).2 serial P := by
  obtain ⟨rid, accepted, hc, hacc⟩ := answer_controller sys i peers showFlags
  rw [hc]
  refine ⟨fun hs => ?_, fun hs => ?_⟩
  · simp only [answer_source] at hs
    omega
  · rcases hacc with rfl | rfl | rfl
    · exact h.1 hs
    · exact h.2 hs
    · simp only at hs
      omega

theorem TabInv.shows_answer (h : TabInv sys i) (hs : PeersSafe sys (.request i peers showFlags)) :
    ShowsPeers ((sys.clients i).loadTorrentPeersData
      (sys.answer i peers showFlags).1).torrentPeersTable peers := by
  simp only [answer, PeersController.generateSyncData, PeersClient.loadTorrentPeersData]
  by_cases hsend : sys.controller.SendsChanges (sys.clients i).syncTorrentPeersLastResponseId
  · obtain ⟨hserial, hcov⟩ := hs hsend
    have hrid : 0 < (sys.clients i).syncTorrentPeersLastResponseId := by
      by_contra hn
      have := hsend.1
      rw [PeersController.lastResponseId, if_neg hn] at this
      omega
    obtain ⟨-, hlast, haccepted⟩ := h.shows hrid
    simp only [if_pos hsend, Bool.false_eq_true, if_false]
    refine merge_processHash ?_ hcov.covers
    unfold PeersController.acceptedData at hserial ⊢
    split_ifs at hserial ⊢ with hl
    · exact hlast hserial
    · exact haccepted hserial
  · simp only [if_neg hsend, if_true]
    -- a full update: the difference to an empty table
    have : ShowsPeers (eraseAll (processHash ∅ peers).2
        (mergeRows (processHash ∅ peers).1 ∅)) peers :=
      merge_processHash (fun key => by simp) (fun key prev hprev => by simp at hprev)
    simpa only [processHash, if_true, ShowsPeers] using this

theorem inv_init : Inv ({} : PeersSystem ι) :=
  ⟨le_refl _, le_refl _, fun _ => ⟨le_refl _, fun h => absurd h (lt_irrefl 0), fun _ hp => by cases hp⟩⟩

variable [DecidableEq ι]

theorem Inv.start (h : Inv sys) (i : ι) : Inv { sys with
    clients := Function.update sys.clients i {}
    inFlight := Function.update sys.inFlight i none } := by
  refine ⟨h.last_le, h.accepted_le, fun j => ?_⟩
  by_cases hj : j = i
  · subst hj
    refine ⟨?_, ?_, ?_⟩ <;> simp
  · have := h.tab j
    refine ⟨?_, ?_, ?_⟩
    · simpa [hj] using this.applied_le
    · simpa [hj] using this.shows
    · simpa [hj] using this.inFlight

theorem Inv.request (h : Inv sys) (hs : PeersSafe sys (.request i peers showFlags)) : Inv { sys with
      controller := (sys.answer i peers showFlags).2
      generated := sys.generated + 1
      inFlight := Function.update sys.inFlight i (some (sys.answer i peers showFlags).1) } := by
  obtain ⟨rid, accepted, hc, hacc⟩ := answer_controller sys i peers showFlags
  have haccepted : accepted.serial ≤ sys.generated := by
    rcases hacc with rfl | rfl | rfl
    · exact h.last_le
    · exact h.accepted_le
    · exact Nat.zero_le _
  refine ⟨by simp [hc], by simp only [hc]; omega, fun j => ?_⟩
  have hj := h.tab j
  refine ⟨Nat.le_succ_of_le hj.applied_le, fun hrid => ?_, fun p hp => ?_⟩
  · obtain ⟨hpos, hstored⟩ := hj.shows hrid
    exact ⟨hpos, hstored.answer hpos hj.applied_le i peers showFlags⟩
  · by_cases hji : j = i
    · subst hji
      simp only [update_self, mem_def, some_inj] at hp
      subst hp
      refine ⟨Nat.succ_pos _, le_refl _, hj.shows_answer hs, ?_⟩
      rw [hc]
      refine ⟨fun _ => rfl, fun he => ?_⟩
      simp only [answer_source] at he
      omega
    · simp only [update_of_ne hji] at hp
      obtain ⟨hpos, hle, hshows, hstored⟩ := hj.inFlight p hp
      exact ⟨hpos, Nat.le_succ_of_le hle, hshows, hstored.answer hpos hle i peers showFlags⟩

theorem Inv.deliver (h : Inv sys) {p : PeersInFlight} (hp : sys.inFlight i = some p) :
    Inv { sys with
      clients := Function.update sys.clients i ((sys.clients i).loadTorrentPeersData p)
      inFlight := Function.update sys.inFlight i none } := by
  refine ⟨h.last_le, h.accepted_le, fun j => ?_⟩
  by_cases hj : j = i
  · subst hj
    obtain ⟨hpos, hle, hshows, hstored⟩ := (h.tab j).inFlight p hp
    refine ⟨?_, fun _ => ?_, ?_⟩
    · simp only [update_self]
      exact hle
    · simp only [update_self]
      refine ⟨hpos, fun he => ?_, fun he => ?_⟩
      · rw [hstored.1 he]
        exact hshows
      · rw [hstored.2 he]
        exact hshows
    · simp
  · have := h.tab j
    refine ⟨?_, ?_, ?_⟩
    · simpa [hj] using this.applied_le
    · simpa [hj] using this.shows
    · simpa [hj] using this.inFlight

theorem inv_step {l : PeersLabel ι} (h : Inv sys) (hs : PeersSafe sys l)
    (hstep : machine.step sys l = some sys') : Inv sys' := by
  cases l with
  | start i => exact Option.some.inj hstep ▸ h.start i
  | request i peers showFlags => exact Option.some.inj hstep ▸ h.request hs
  | deliver i =>
    obtain ⟨p, hp, rfl⟩ := map_eq_some_iff.1 hstep
    exact h.deliver hp

end PeersSystem

end QBittorrent
