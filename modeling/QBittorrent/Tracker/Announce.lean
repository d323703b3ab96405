import QBittorrent.Http.RequestParser
import QBittorrent.Lib.Machine

/-!
# The embedded tracker

An announce names a torrent and a peer; the tracker keeps the peers of the torrents that have been
announced.  `QHash` and `QSet` have no order that a caller could know, so which torrent or peer is
the first one in them is part of a step, and so is the order of the peers in a response.

* `Tracker.bounded_iff` : when no torrent is without peers.
-/

namespace QBittorrent

open Finmap Finset

namespace Tracker

def maxTorrents : ℕ := 10000
def maxPeersPerTorrent : ℕ := 200
def announceInterval : ℕ := 1800
def peerIdSize : ℕ := 20

/-- The SHA-1 hash that a torrent is announced by. -/
abbrev TorrentID := List UInt8

structure Peer where
  peerId : List UInt8
  port : ℕ
  isSeeder : Bool
  address : List UInt8
  endpoint : List UInt8

def Peer.uniqueID (peer : Peer) : List UInt8 := peer.address ++ [58] ++ toUtf8 (toString peer.port)

/-- The peers of a torrent; a set of peers has one of each unique ID. -/
structure TorrentStats where
  seeders : ℤ
  peers : Dict (List UInt8) Peer

/-- What `m_torrents[id]` adds for a torrent that is not in it. -/
def TorrentStats.empty : TorrentStats := ⟨0, ∅⟩

abbrev Torrents := Dict TorrentID TorrentStats

structure AnnounceRequest (H : Type) where
  socketAddress : H
  claimedAddress : List UInt8
  torrentID : TorrentID
  event : String
  peer : Peer
  numwant : ℤ
  compact : Bool
  noPeerId : Bool

/-- What the tracker uses of the classes of Qt for host addresses and numbers. -/
structure Platform (H : Type) where
  /-- The IPv4 address, of an IPv4 address or one that is mapped to IPv6. -/
  toIPv4 : H → Option H
  /-- `QHostAddress(QString::fromLatin1(text))`, if it is not null. -/
  hostAddress : List UInt8 → Option H
  toBigEndianByteArray : H → List UInt8
  /-- `toString().toLatin1()`. -/
  toLatin1 : H → List UInt8
  toUShort : List UInt8 → ℕ
  toInt : List UInt8 → ℤ

section Parse

variable {H : Type} (Q : Platform H)

/-- The announce in a request, or the reason of its failure. -/
def parseAnnounceRequest (queryParams : Dict String (List UInt8)) (clientAddress : H) :
    Except String (AnnounceRequest H) := do
  let claimedAddress := (queryParams.lookup "ip").getD []
  let socketAddress := (Q.toIPv4 clientAddress).getD clientAddress
  let some infoHash := queryParams.lookup "info_hash"
    | throw "Missing \"info_hash\" parameter"
  if infoHash.length ≠ 20 then throw "Invalid \"info_hash\" parameter"
  let some peerId := queryParams.lookup "peer_id"
    | throw "Missing \"peer_id\" parameter"
  if peerId.length > peerIdSize then throw "Invalid \"peer_id\" parameter"
  let some portParam := queryParams.lookup "port"
    | throw "Missing \"port\" parameter"
  let port := Q.toUShort portParam
  if port = 0 then throw "Invalid \"port\" parameter"
  let numwant := ((queryParams.lookup "numwant").map Q.toInt).getD 50
  if numwant < 0 then throw "Invalid \"numwant\" parameter"
  let noPeerId := (queryParams.lookup "no_peer_id").getD [] = toUtf8 "1"
  let isSeeder := (queryParams.lookup "left").getD [] = toUtf8 "0"
  let compact := (queryParams.lookup "compact").getD [] ≠ toUtf8 "0"
  let endpoint := Q.toBigEndianByteArray ((Q.hostAddress claimedAddress).getD socketAddress) ++
    [UInt8.ofNat (port / 2 ^ 8), UInt8.ofNat port]
  -- a text of C ends at its first zero byte
  let address := (if claimedAddress ≠ [] then claimedAddress
    else Q.toLatin1 socketAddress).takeWhile (· ≠ 0)
  let event := fromLatin1 ((queryParams.lookup "event").getD [])
  pure { socketAddress, claimedAddress, torrentID := infoHash, event,
         peer := { peerId, port, isSeeder, address, endpoint }, numwant, compact, noPeerId }

end Parse

/-! ### Peers of a torrent -/

def TorrentStats.removePeer (stats : TorrentStats) (peer : Peer) : TorrentStats :=
  match stats.peers.lookup peer.uniqueID with
  | none => stats
  | some existing =>
    { seeders := if existing.isSeeder then stats.seeders - 1 else stats.seeders
      peers := stats.peers.erase peer.uniqueID }

/-- `first` is the unique ID of the first peer. -/
def TorrentStats.setPeer (stats : TorrentStats) (first : List UInt8) (peer : Peer) : TorrentStats :=
  let stats :=
    if peer.uniqueID ∈ stats.peers then stats.removePeer peer
    else if maxPeersPerTorrent ≤ stats.peers.keys.card then
      -- too many peers
      ((stats.peers.lookup first).map stats.removePeer).getD stats
    else stats
  { seeders := if peer.isSeeder then stats.seeders + 1 else stats.seeders
    peers := stats.peers.insert peer.uniqueID peer }

/-! ### Announces -/

/-- What a caller cannot know of the order in the tracker's containers. -/
structure Order where
  firstTorrent : TorrentID
  /-- The first peer of the torrent, if there is one. -/
  firstPeer : List UInt8
  /-- The peers of the torrent in the order of the response. -/
  peers : List (List UInt8)

/-- `m_torrents[id]`, which adds the torrent if it is not there. -/
def statsOf (torrents : Torrents) (id : TorrentID) : TorrentStats :=
  (torrents.lookup id).getD .empty

def registerPeer {H : Type} (order : Order) (announceReq : AnnounceRequest H)
    (torrents : Torrents) : Torrents :=
  let torrents :=
    if announceReq.torrentID ∉ torrents ∧ maxTorrents ≤ torrents.keys.card then
      torrents.erase order.firstTorrent
    else torrents
  torrents.insert announceReq.torrentID
    ((statsOf torrents announceReq.torrentID).setPeer order.firstPeer announceReq.peer)

def unregisterPeer {H : Type} (announceReq : AnnounceRequest H) (torrents : Torrents) : Torrents :=
  match torrents.lookup announceReq.torrentID with
  | none => torrents
  | some stats =>
    let stats := stats.removePeer announceReq.peer
    if stats.peers.keys = ∅ then torrents.erase announceReq.torrentID
    else torrents.insert announceReq.torrentID stats

/-- A peer in a list that is not compact. -/
structure PeerEntry where
  ip : List UInt8
  port : ℕ
  peerId : Option (List UInt8)

inductive PeerList where
  | compact (peers peers6 : List UInt8)
  | entries (peers : List PeerEntry)

structure Reply where
  interval : ℕ
  complete : ℤ
  incomplete : ℤ
  externalIP : List UInt8
  peers : PeerList

inductive Response where
  | reply (reply : Reply)
  | failure (reason : String)
  | methodNotAllowed
  | notFound

/-- The response, and the torrents after looking up the announced one among them. -/
def prepareAnnounceResponse {H : Type} (Q : Platform H) (order : Order)
    (announceReq : AnnounceRequest H) (torrents : Torrents) : Torrents × Reply :=
  let torrentStats := statsOf torrents announceReq.torrentID
  let wanted :=
    if announceReq.event = "stopped" then []
    else (order.peers.filterMap torrentStats.peers.lookup).take announceReq.numwant.toNat
  let peers :=
    if announceReq.compact then
      .compact ((wanted.filter fun peer => peer.endpoint.length = 6).flatMap Peer.endpoint)
        ((wanted.filter fun peer => peer.endpoint.length = 18).flatMap Peer.endpoint)
    else .entries (wanted.map fun peer =>
      ⟨peer.address, peer.port,
        if announceReq.noPeerId then none else some (peer.peerId.takeWhile (· ≠ 0))⟩)
  (torrents.insert announceReq.torrentID torrentStats,
    { interval := announceInterval, complete := torrentStats.seeders,
      incomplete := torrentStats.peers.keys.card - torrentStats.seeders,
      externalIP := Q.toBigEndianByteArray announceReq.socketAddress, peers })

/-- The events with which a peer is registered. -/
def registerEvents : List String := ["", "empty", "completed", "started", "paused"]

def processAnnounceRequest {H : Type} (Q : Platform H) (order : Order)
    (queryParams : Dict String (List UInt8)) (clientAddress : H) (torrents : Torrents) :
    Torrents × Response :=
  match parseAnnounceRequest Q queryParams clientAddress with
  | .error reason => (torrents, .failure reason)
  | .ok announceReq =>
    if announceReq.event ∈ registerEvents then
      (prepareAnnounceResponse Q order announceReq (registerPeer order announceReq torrents)).map
        id .reply
    else if announceReq.event = "stopped" then
      (prepareAnnounceResponse Q order announceReq (unregisterPeer announceReq torrents)).map
        id .reply
    else (torrents, .failure "Invalid \"event\" parameter")

def processRequest {H : Type} (Q : Platform H) (order : Order) (request : Request)
    (clientAddress : H) (torrents : Torrents) : Torrents × Response :=
  if request.method ≠ toUtf8 "GET" then (torrents, .methodNotAllowed)
  else if ¬ "/announce".toList.isPrefixOf (request.path.toList.map Char.toLower) then
    (torrents, .notFound)
  else processAnnounceRequest Q order request.query clientAddress torrents

/-! ### Runs -/

/-- A request to the tracker. -/
structure Announce (H : Type) where
  request : Request
  clientAddress : H
  order : Order

section Runs

variable {H : Type} (Q : Platform H)

/-- The announce that a request makes, if the tracker takes it. -/
def Announce.accepted (l : Announce H) : Option (AnnounceRequest H) :=
  if l.request.method ≠ toUtf8 "GET" then none
  else if ¬ "/announce".toList.isPrefixOf (l.request.path.toList.map Char.toLower) then none
  else match parseAnnounceRequest Q l.request.query l.clientAddress with
    | .error _ => none
    | .ok announceReq => some announceReq

def after (torrents : Torrents) (l : Announce H) : Torrents :=
  (processRequest Q l.order l.request l.clientAddress torrents).1

/-- The order is one of the containers. -/
def Possible (torrents : Torrents) (l : Announce H) : Prop :=
  (torrents.keys.Nonempty → l.order.firstTorrent ∈ torrents) ∧
  ∀ announceReq ∈ l.accepted Q,
    ((statsOf torrents announceReq.torrentID).peers.keys.Nonempty →
      l.order.firstPeer ∈ (statsOf torrents announceReq.torrentID).peers) ∧
    l.order.peers.Nodup ∧
    l.order.peers.toFinset = (statsOf (after Q torrents l) announceReq.torrentID).peers.keys
  deriving Decidable

/-- The tracker as it takes requests. -/
def machine : Machine Torrents (Announce H) where
  step torrents l := if Possible Q torrents l then some (after Q torrents l) else none

/-- Not too many torrents, and none without peers. -/
def Meaningful (torrents : Torrents) : Prop :=
  torrents.keys.card ≤ maxTorrents ∧
  ∀ id ∈ torrents, (statsOf torrents id).peers.keys.Nonempty

/-- A stop is announced to a torrent that has another peer. -/
def LeavesPeer (torrents : Torrents) (l : Announce H) : Prop :=
  ∀ announceReq ∈ l.accepted Q, announceReq.event = "stopped" →
    ((statsOf torrents announceReq.torrentID).peers.erase announceReq.peer.uniqueID).keys.Nonempty
  deriving Decidable

variable {Q} {torrents : Torrents} {id id' : TorrentID} {stats : TorrentStats} {l : Announce H}

theorem keys_insert (torrents : Torrents) (id : TorrentID) (stats : TorrentStats) :
    (torrents.insert id stats).keys = Insert.insert id torrents.keys := by
  ext id'
  simp [mem_keys]

@[simp] theorem statsOf_insert_self : statsOf (torrents.insert id stats) id = stats := by
  simp [statsOf]

theorem statsOf_insert_of_ne (h : id' ≠ id) :
    statsOf (torrents.insert id stats) id' = statsOf torrents id' := by
  simp [statsOf, lookup_insert_of_ne _ h]

theorem statsOf_erase_of_ne (h : id' ≠ id) :
    statsOf (torrents.erase id) id' = statsOf torrents id' := by
  simp [statsOf, lookup_erase_ne h]

theorem statsOf_of_notMem (h : id ∉ torrents) : statsOf torrents id = .empty := by
  rw [statsOf, lookup_eq_none.2 h]
  rfl

theorem Meaningful.insert (h : Meaningful torrents) (hpeers : stats.peers.keys.Nonempty)
    (hroom : id ∈ torrents ∨ torrents.keys.card < maxTorrents) :
    Meaningful (torrents.insert id stats) := by
  constructor
  · rw [keys_insert]
    obtain hid | hlt := hroom
    · rw [insert_eq_of_mem (mem_keys.2 hid)]
      exact h.1
    · exact (card_insert_le _ _).trans hlt
  · intro id' hid'
    by_cases heq : id' = id
    · subst heq
      simpa using hpeers
    · rw [statsOf_insert_of_ne heq]
      exact h.2 id' ((mem_insert.1 hid').resolve_left heq)

theorem Meaningful.erase (h : Meaningful torrents) : Meaningful (torrents.erase id) := by
  constructor
  · rw [keys_erase]
    exact (card_erase_le).trans h.1
  · intro id' hid'
    obtain ⟨hne, hmem⟩ := mem_erase.1 hid'
    rw [statsOf_erase_of_ne hne]
    exact h.2 id' hmem

theorem Meaningful.lookup (h : Meaningful torrents) (hid : id ∈ torrents) :
    Meaningful (torrents.insert id (statsOf torrents id)) :=
  h.insert (h.2 id hid) (.inl hid)

theorem setPeer_peers_nonempty (stats : TorrentStats) (first : List UInt8) (peer : Peer) :
    (stats.setPeer first peer).peers.keys.Nonempty :=
  ⟨peer.uniqueID, mem_keys.2 (mem_insert.2 (.inl rfl))⟩

theorem Meaningful.registerPeer (h : Meaningful torrents) {order : Order}
    (hfirst : torrents.keys.Nonempty → order.firstTorrent ∈ torrents)
    (announceReq : AnnounceRequest H) :
    Meaningful (registerPeer order announceReq torrents) := by
  have hpeers := fun stats : TorrentStats =>
    setPeer_peers_nonempty stats order.firstPeer announceReq.peer
  rw [Tracker.registerPeer]
  split
  · rename_i hfull
    refine h.erase.insert (hpeers _) (.inr ?_)
    have hpos : 0 < torrents.keys.card := (by decide : 0 < maxTorrents).trans_le hfull.2
    have hmem := mem_keys.2 (hfirst (card_pos.1 hpos))
    rw [keys_erase, card_erase_of_mem hmem]
    have := h.1
    omega
  · rename_i hroom
    refine h.insert (hpeers _) ?_
    by_cases hid : announceReq.torrentID ∈ torrents
    · exact .inl hid
    · exact .inr (Nat.lt_of_not_le fun hle => hroom ⟨hid, hle⟩)

theorem removePeer_keys (stats : TorrentStats) (peer : Peer) :
    (stats.removePeer peer).peers.keys = (stats.peers.erase peer.uniqueID).keys := by
  rw [TorrentStats.removePeer]
  cases hl : stats.peers.lookup peer.uniqueID with
  | none =>
    have : peer.uniqueID ∉ stats.peers.keys := fun h =>
      lookup_eq_none.1 hl (mem_keys.1 h)
    rw [keys_erase, erase_eq_of_notMem this]
  | some existing => rfl

theorem Meaningful.unregisterPeer (h : Meaningful torrents) (announceReq : AnnounceRequest H) :
    Meaningful (unregisterPeer announceReq torrents) ∧
    (announceReq.torrentID ∈ Tracker.unregisterPeer announceReq torrents ↔
      ((statsOf torrents announceReq.torrentID).peers.erase
        announceReq.peer.uniqueID).keys.Nonempty) := by
  rw [Tracker.unregisterPeer, ← removePeer_keys]
  cases hl : torrents.lookup announceReq.torrentID with
  | none =>
    have hnot := lookup_eq_none.1 hl
    rw [statsOf_of_notMem hnot]
    exact ⟨h, iff_of_false hnot (by simp [TorrentStats.removePeer, TorrentStats.empty])⟩
  | some stats =>
    have hid : announceReq.torrentID ∈ torrents := mem_of_lookup_eq_some hl
    have hstats : statsOf torrents announceReq.torrentID = stats := by rw [statsOf, hl]; rfl
    rw [hstats]
    dsimp only
    split
    · rename_i hempty
      rw [hempty]
      exact ⟨h.erase, iff_of_false (fun hmem => (mem_erase.1 hmem).1 rfl) (by simp)⟩
    · rename_i hne
      have hpeers := nonempty_iff_ne_empty.2 hne
      exact ⟨h.insert hpeers (.inl hid), iff_of_true (mem_insert.2 (.inl rfl)) hpeers⟩

theorem after_eq (torrents : Torrents) (l : Announce H) : after Q torrents l =
    match l.accepted Q with
    | none => torrents
    | some announceReq =>
      if announceReq.event ∈ registerEvents then
        (prepareAnnounceResponse Q l.order announceReq
          (registerPeer l.order announceReq torrents)).1
      else if announceReq.event = "stopped" then
        (prepareAnnounceResponse Q l.order announceReq (unregisterPeer announceReq torrents)).1
      else torrents := by
  rw [after, processRequest, Announce.accepted]
  split
  · rfl
  · split
    · rfl
    · rw [processAnnounceRequest]
      cases parseAnnounceRequest Q l.request.query l.clientAddress with
      | error reason => rfl
      | ok announceReq =>
        dsimp only
        split
        · rfl
        · split <;> rfl

theorem stopped_notMem_registerEvents : "stopped" ∉ registerEvents := by decide

theorem meaningful_after (h : Meaningful torrents) (hl : Possible Q torrents l)
    (hstop : LeavesPeer Q torrents l) : Meaningful (after Q torrents l) := by
  rw [after_eq]
  cases hacc : l.accepted Q with
  | none => exact h
  | some announceReq =>
    dsimp only
    split
    · refine (h.registerPeer hl.1 announceReq).lookup ?_
      exact mem_insert.2 (.inl rfl)
    · split
      · rename_i hstopped
        obtain ⟨hmeaning, hmem⟩ := h.unregisterPeer announceReq
        exact hmeaning.lookup (hmem.2 (hstop announceReq hacc hstopped))
      · exact h

theorem not_meaningful_after (h : Meaningful torrents) (hstop : ¬ LeavesPeer Q torrents l) :
    ¬ Meaningful (after Q torrents l) := by
  intro hafter
  refine hstop fun announceReq hacc hstopped => ?_
  obtain ⟨-, hmem⟩ := h.unregisterPeer announceReq
  by_contra hpeers
  have hgone := mt hmem.1 hpeers
  have hnot := stopped_notMem_registerEvents
  rw [← hstopped] at hnot
  rw [after_eq, hacc] at hafter
  dsimp only at hafter
  rw [if_neg hnot, if_pos hstopped, prepareAnnounceResponse] at hafter
  have hnonempty := hafter.2 announceReq.torrentID (mem_insert.2 (.inl rfl))
  rw [statsOf_insert_self, statsOf_of_notMem hgone] at hnonempty
  exact not_nonempty_empty hnonempty

theorem mem_of_mem_after (hstop : LeavesPeer Q torrents l) {announceReq : AnnounceRequest H}
    (hacc : announceReq ∈ l.accepted Q) (hstopped : announceReq.event = "stopped")
    (hid : id ∈ after Q torrents l) : id ∈ torrents := by
  have hacc' : l.accepted Q = some announceReq := hacc
  have hnot := stopped_notMem_registerEvents
  rw [← hstopped] at hnot
  have hmem : announceReq.torrentID ∈ torrents := by
    by_contra hmem
    have := hstop announceReq hacc hstopped
    rw [statsOf_of_notMem hmem] at this
    simp [TorrentStats.empty] at this
  rw [after_eq, hacc'] at hid
  dsimp only at hid
  rw [if_neg hnot, if_pos hstopped, prepareAnnounceResponse] at hid
  obtain rfl | hid := mem_insert.1 hid
  · exact hmem
  rw [unregisterPeer] at hid
  split at hid
  · exact hid
  · dsimp only at hid
    split at hid
    · exact (mem_erase.1 hid).2
    · obtain rfl | hid := mem_insert.1 hid
      · exact hmem
      · exact hid

theorem meaningful_empty : Meaningful ∅ := ⟨by decide, fun _ h => (notMem_empty h).elim⟩

/-- **The tracker's bound.**  From the start on there are never too many torrents and none without
peers if and only if every announce of a stop is for a torrent with another peer.  Such a stop adds
no torrent. -/
theorem bounded_iff (Q : Platform H) (ls : List (Announce H))
    (hr : ((machine Q).run ∅ ls).isSome) :
    ((machine Q).Always Meaningful ∅ ls ↔ (machine Q).Meets (LeavesPeer Q) ∅ ls) ∧
    ∀ torrents, (machine Q).ReachableUnder (LeavesPeer Q) ∅ torrents →
      ∀ l, LeavesPeer Q torrents l → ∀ announceReq ∈ l.accepted Q,
        announceReq.event = "stopped" → (after Q torrents l).keys ⊆ torrents.keys := by
  refine ⟨Machine.guarded_always_iff_meets meaningful_empty (fun _ h => h)
    (fun _ _ h hpossible hstop => meaningful_after h hpossible hstop)
    (fun _ _ h _ hstop => not_meaningful_after h hstop) hr, ?_⟩
  intro torrents _ l hstop announceReq hacc hstopped id hid
  exact mem_keys.2 (mem_of_mem_after hstop hacc hstopped (mem_keys.1 hid))

/-! ### A stop for a torrent that is not tracked -/

/-- A platform whose addresses are texts. -/
def Platform.texts : Platform (List UInt8) where
  toIPv4 _ := none
  hostAddress _ := none
  toBigEndianByteArray h := h
  toLatin1 h := h
  toUShort _ := 6881
  toInt _ := 50

/-- The unique ID of the peer at an address. -/
def peerAt (client : UInt8) : List UInt8 := [client] ++ [58] ++ toUtf8 "6881"

/-- An announce of one torrent by the peer at an address. -/
def announceOf (client : UInt8) (event : String) (first : UInt8) (peers : List UInt8) :
    Announce (List UInt8) where
  request :=
    { Request.empty with
      method := toUtf8 "GET"
      path := "/announce"
      query := ((((∅ : Dict String (List UInt8)).insert "info_hash" (List.replicate 20 0)).insert
        "peer_id" [1]).insert "port" [54]).insert "event" (toUtf8 event) }
  clientAddress := [client]
  order := ⟨List.replicate 20 0, peerAt first, peers.map peerAt⟩

/-- The torrent is tracked after the stop, without peers. -/
theorem stopped_adds_torrent :
    ((machine Platform.texts).run ∅ [announceOf 1 "stopped" 1 []]).isSome ∧
    ¬ (machine Platform.texts).Always Meaningful ∅ [announceOf 1 "stopped" 1 []] := by
  have hl : Possible Platform.texts ∅ (announceOf 1 "stopped" 1 []) := by decide
  refine ⟨by decide, fun h => ?_⟩
  have hpeers := (h.2 _ (Machine.guarded_step_eq_some.2 ⟨hl, rfl⟩)).2 (List.replicate 20 0) (by decide)
  exact absurd hpeers (by decide)

/-- Two peers start, and one of them stops. -/
def startsAndStops : List (Announce (List UInt8)) :=
  [announceOf 1 "started" 1 [1], announceOf 2 "started" 1 [1, 2], announceOf 1 "stopped" 1 [2]]

theorem bounded_iff_startsAndStops :
    (machine Platform.texts).Always Meaningful ∅ startsAndStops :=
  (bounded_iff Platform.texts startsAndStops (by decide)).1.2 (by decide)

end Runs

end Tracker

end QBittorrent
