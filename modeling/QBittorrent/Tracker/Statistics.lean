import QBittorrent.Tracker.Announce

/-!
# The statistics of the embedded tracker

The tracker counts the seeders of a torrent as peers come, are replaced, are evicted and go.

* `Tracker.statistics_agree` : the numbers and the latest data are right in every run.
-/

namespace QBittorrent

open Finmap Dict Finset

namespace Tracker

namespace TorrentStats

/-- The statistics agree with the peers. -/
structure Agrees (stats : TorrentStats) : Prop where
  uniqueID : ∀ id peer, stats.peers.lookup id = some peer → peer.uniqueID = id
  distinct : ∀ id id' peer peer', stats.peers.lookup id = some peer →
    stats.peers.lookup id' = some peer' → peer.address = peer'.address → peer.port = peer'.port →
    id = id'
  bounded : stats.peers.keys.card ≤ maxPeersPerTorrent
  seeders : stats.seeders = Dict.count Peer.isSeeder stats.peers

variable {stats : TorrentStats} {peer : Peer} {first : List UInt8}

theorem Agrees.of_uniqueID
    (huniqueID : ∀ id peer, stats.peers.lookup id = some peer → peer.uniqueID = id)
    (hbounded : stats.peers.keys.card ≤ maxPeersPerTorrent)
    (hseeders : stats.seeders = Dict.count Peer.isSeeder stats.peers) : stats.Agrees where
  uniqueID := huniqueID
  distinct id id' peer peer' hpeer hpeer' haddress hport := by
    rw [← huniqueID id peer hpeer, ← huniqueID id' peer' hpeer', Peer.uniqueID, Peer.uniqueID,
      haddress, hport]
  bounded := hbounded
  seeders := hseeders

theorem agrees_empty : TorrentStats.empty.Agrees :=
  .of_uniqueID nofun (by decide) rfl

theorem lookup_removePeer (stats : TorrentStats) (peer : Peer) (id : List UInt8) :
    (stats.removePeer peer).peers.lookup id =
      if id = peer.uniqueID then none else stats.peers.lookup id := by
  rw [removePeer]
  cases hl : stats.peers.lookup peer.uniqueID with
  | none =>
    split_ifs with hid
    · rw [hid]
      exact hl
    · rfl
  | some existing => exact lookup_erase_eq _ _ _

section

variable (h : stats.Agrees)

include h

theorem Agrees.removePeer (peer : Peer) : (stats.removePeer peer).Agrees := by
  refine .of_uniqueID (fun id peer' hpeer' => ?_) ?_ ?_
  · rw [lookup_removePeer] at hpeer'
    split_ifs at hpeer'
    exact h.uniqueID id peer' hpeer'
  · rw [removePeer_keys, keys_erase]
    exact card_erase_le.trans h.bounded
  · rw [TorrentStats.removePeer]
    cases hl : stats.peers.lookup peer.uniqueID with
    | none => exact h.seeders
    | some existing =>
      have hcount := count_erase Peer.isSeeder hl
      have hseeders := h.seeders
      dsimp only
      split_ifs at hcount ⊢ <;> omega

theorem Agrees.makeRoom (peer : Peer) (hfirst : stats.peers.keys.Nonempty → first ∈ stats.peers) :
    ∃ room : TorrentStats, room.Agrees ∧ peer.uniqueID ∉ room.peers ∧
      room.peers.keys.card < maxPeersPerTorrent ∧
      (∀ id peer', room.peers.lookup id = some peer' → stats.peers.lookup id = some peer') ∧
      stats.setPeer first peer =
        { seeders := if peer.isSeeder then room.seeders + 1 else room.seeders
          peers := room.peers.insert peer.uniqueID peer } := by
  rw [setPeer]
  by_cases hmem : peer.uniqueID ∈ stats.peers
  · -- an existing peer is replaced
    rw [if_pos hmem]
    refine ⟨stats.removePeer peer, h.removePeer peer, ?_, ?_, fun id peer' hpeer' => ?_, rfl⟩
    · rw [← lookup_eq_none, lookup_removePeer, if_pos rfl]
    · rw [removePeer_keys, keys_erase, card_erase_of_mem (mem_keys.2 hmem)]
      exact (Nat.sub_one_lt (card_ne_zero_of_mem (mem_keys.2 hmem))).trans_le h.bounded
    · rw [lookup_removePeer] at hpeer'
      split_ifs at hpeer'
      exact hpeer'
  · rw [if_neg hmem]
    by_cases hfull : maxPeersPerTorrent ≤ stats.peers.keys.card
    · -- the first peer makes room
      have hpos : 0 < stats.peers.keys.card := (by decide : 0 < maxPeersPerTorrent).trans_le hfull
      have hfirstMem := hfirst (card_pos.1 hpos)
      obtain ⟨evicted, hevicted⟩ := mem_iff.1 hfirstMem
      have hid := h.uniqueID first evicted hevicted
      rw [if_pos hfull, hevicted]
      refine ⟨stats.removePeer evicted, h.removePeer evicted, ?_, ?_, fun id peer' hpeer' => ?_, rfl⟩
      · rw [← lookup_eq_none, lookup_removePeer]
        split_ifs
        · rfl
        · exact lookup_eq_none.2 hmem
      · rw [removePeer_keys, keys_erase, hid,
          card_erase_of_mem (mem_keys.2 hfirstMem)]
        exact (Nat.sub_one_lt hpos.ne').trans_le h.bounded
      · rw [lookup_removePeer] at hpeer'
        split_ifs at hpeer'
        exact hpeer'
    · rw [if_neg hfull]
      exact ⟨stats, h, hmem, Nat.lt_of_not_le hfull, fun _ _ hpeer' => hpeer', rfl⟩

theorem Agrees.setPeer (hfirst : stats.peers.keys.Nonempty → first ∈ stats.peers) :
    (stats.setPeer first peer).Agrees := by
  obtain ⟨room, hroom, hnot, hlt, -, heq⟩ := h.makeRoom peer hfirst
  rw [heq]
  refine .of_uniqueID (fun id peer' hpeer' => ?_) ?_ ?_
  · rw [lookup_insert_eq] at hpeer'
    split_ifs at hpeer' with hid
    · cases hpeer'
      exact hid.symm
    · exact hroom.uniqueID id peer' hpeer'
  · rw [show (room.peers.insert peer.uniqueID peer).keys = insert peer.uniqueID room.peers.keys by
      ext id; simp [mem_keys]]
    exact (card_insert_le _ _).trans hlt
  · have hseeders := hroom.seeders
    dsimp only
    rw [count_insert _ _ hnot]
    split_ifs <;> omega

theorem Agrees.lookup_setPeer (hfirst : stats.peers.keys.Nonempty → first ∈ stats.peers)
    {id : List UInt8} {peer' : Peer}
    (hpeer' : (stats.setPeer first peer).peers.lookup id = some peer') :
    (id = peer.uniqueID ∧ peer' = peer) ∨
      (id ≠ peer.uniqueID ∧ stats.peers.lookup id = some peer') := by
  obtain ⟨room, -, -, -, hsub, heq⟩ := h.makeRoom peer hfirst
  rw [heq, lookup_insert_eq] at hpeer'
  split_ifs at hpeer' with hid
  · exact .inl ⟨hid, (Option.some.inj hpeer').symm⟩
  · exact .inr ⟨hid, hsub id peer' hpeer'⟩

end

end TorrentStats

section Runs

variable {H : Type} (Q : Platform H)

/-- The request is an announce that the tracker takes, with an event that it knows. -/
def Announces (l : Announce H) (announceReq : AnnounceRequest H) : Prop :=
  announceReq ∈ l.accepted Q ∧
    (announceReq.event ∈ registerEvents ∨ announceReq.event = "stopped")

def LatestAnnounce (ls : List (Announce H)) (id : TorrentID) (peer : Peer) : Prop :=
  ∃ earlier l later announceReq, ls = earlier ++ l :: later ∧ Announces Q l announceReq ∧
    announceReq.torrentID = id ∧ announceReq.peer = peer ∧ announceReq.event ∈ registerEvents ∧
    ∀ l' ∈ later, ∀ announceReq', Announces Q l' announceReq' → announceReq'.torrentID = id →
      announceReq'.peer.uniqueID ≠ peer.uniqueID

/-- The statistics of all torrents agree with their peers, which have the data of their latest
announces. -/
structure StatisticsAgree (ls : List (Announce H)) (torrents : Torrents) : Prop where
  agrees : ∀ id stats, torrents.lookup id = some stats → stats.Agrees
  latest : ∀ id stats, torrents.lookup id = some stats →
    ∀ peerID peer, stats.peers.lookup peerID = some peer → LatestAnnounce Q ls id peer

variable {Q} {torrents : Torrents} {id : TorrentID} {stats : TorrentStats} {l : Announce H}
  {ls : List (Announce H)} {peer : Peer} {announceReq : AnnounceRequest H} {order : Order}

theorem LatestAnnounce.concat (h : LatestAnnounce Q ls id peer)
    (hother : ∀ announceReq, Announces Q l announceReq → announceReq.torrentID = id →
      announceReq.peer.uniqueID ≠ peer.uniqueID) : LatestAnnounce Q (ls ++ [l]) id peer := by
  obtain ⟨earlier, l₀, later, announceReq, rfl, ha, hid, hpeer, hevent, hlater⟩ := h
  refine ⟨earlier, l₀, later ++ [l], announceReq, by simp, ha, hid, hpeer, hevent,
    fun l' hl' => ?_⟩
  obtain hl' | hl' := List.mem_append.1 hl'
  · exact hlater l' hl'
  · rw [List.mem_singleton.1 hl']
    exact hother

theorem latestAnnounce_concat (h : Announces Q l announceReq)
    (hevent : announceReq.event ∈ registerEvents) :
    LatestAnnounce Q (ls ++ [l]) announceReq.torrentID announceReq.peer :=
  ⟨ls, l, [], announceReq, rfl, h, rfl, rfl, hevent, fun _ h => absurd h List.not_mem_nil⟩

/-! ### One request -/

theorem lookup_prepareAnnounceResponse :
    (prepareAnnounceResponse Q order announceReq torrents).1.lookup id =
      if id = announceReq.torrentID then some (statsOf torrents id) else torrents.lookup id := by
  rw [prepareAnnounceResponse, lookup_insert_eq]
  split_ifs with hid
  · rw [hid]
  · rfl

theorem statsOf_registerPeer :
    statsOf (registerPeer order announceReq torrents) announceReq.torrentID =
      (statsOf torrents announceReq.torrentID).setPeer order.firstPeer announceReq.peer := by
  rw [registerPeer, statsOf_insert_self]
  split_ifs with hfull
  · by_cases hid : announceReq.torrentID = order.firstTorrent
    · rw [statsOf_of_notMem hfull.1, statsOf_of_notMem fun h => (mem_erase.1 h).1 hid]
    · rw [statsOf_erase_of_ne hid]
  · rfl

theorem lookup_of_registerPeer (hid : id ≠ announceReq.torrentID)
    (h : (registerPeer order announceReq torrents).lookup id = some stats) :
    torrents.lookup id = some stats := by
  rw [registerPeer, lookup_insert_eq, if_neg hid] at h
  split_ifs at h
  · rw [lookup_erase_eq] at h
    split_ifs at h
    exact h
  · exact h

theorem statsOf_unregisterPeer (announceReq : AnnounceRequest H) :
    statsOf (unregisterPeer announceReq torrents) announceReq.torrentID = .empty ∨
      statsOf (unregisterPeer announceReq torrents) announceReq.torrentID =
        (statsOf torrents announceReq.torrentID).removePeer announceReq.peer := by
  rw [unregisterPeer]
  cases hl : torrents.lookup announceReq.torrentID with
  | none => exact .inl (statsOf_of_notMem (lookup_eq_none.1 hl))
  | some stats =>
    have hstats : statsOf torrents announceReq.torrentID = stats := by
      rw [statsOf, hl]
      rfl
    dsimp only
    split_ifs
    · exact .inl (statsOf_of_notMem fun h => (mem_erase.1 h).1 rfl)
    · rw [statsOf_insert_self, hstats]
      exact .inr rfl

theorem lookup_of_unregisterPeer (hid : id ≠ announceReq.torrentID)
    (h : (unregisterPeer announceReq torrents).lookup id = some stats) :
    torrents.lookup id = some stats := by
  rw [unregisterPeer] at h
  cases hl : torrents.lookup announceReq.torrentID with
  | none => rwa [hl] at h
  | some stats' =>
    simp only [hl] at h
    split_ifs at h
    · rwa [lookup_erase_eq, if_neg hid] at h
    · rwa [lookup_insert_eq, if_neg hid] at h

theorem Announces.unique {announceReq' : AnnounceRequest H} (h : Announces Q l announceReq)
    (h' : Announces Q l announceReq') :
    announceReq = announceReq' := Option.some.inj (h.1.symm.trans h'.1)

theorem lookup_after (h : (after Q torrents l).lookup id = some stats) :
    stats = .empty ∨
    (∃ announceReq, Announces Q l announceReq ∧ announceReq.torrentID = id ∧
      ((announceReq.event ∈ registerEvents ∧
          stats = (statsOf torrents id).setPeer l.order.firstPeer announceReq.peer) ∨
        stats = (statsOf torrents id).removePeer announceReq.peer)) ∨
    (torrents.lookup id = some stats ∧
      ∀ announceReq, Announces Q l announceReq → announceReq.torrentID ≠ id) := by
  rw [after_eq] at h
  cases hacc : l.accepted Q with
  | none =>
    rw [hacc] at h
    refine .inr (.inr ⟨h, fun announceReq ha => ?_⟩)
    cases hacc.symm.trans ha.1
  | some announceReq =>
    rw [hacc] at h
    dsimp only at h
    by_cases hregister : announceReq.event ∈ registerEvents
    · rw [if_pos hregister, lookup_prepareAnnounceResponse] at h
      have ha : Announces Q l announceReq := ⟨hacc, .inl hregister⟩
      split_ifs at h with hid
      · cases h
        rw [hid, statsOf_registerPeer]
        exact .inr (.inl ⟨announceReq, ha, rfl, .inl ⟨hregister, rfl⟩⟩)
      · refine .inr (.inr ⟨lookup_of_registerPeer hid h, fun _ ha' => ?_⟩)
        rw [← ha.unique ha']
        exact Ne.symm hid
    · rw [if_neg hregister] at h
      by_cases hstopped : announceReq.event = "stopped"
      · rw [if_pos hstopped, lookup_prepareAnnounceResponse] at h
        have ha : Announces Q l announceReq := ⟨hacc, .inr hstopped⟩
        split_ifs at h with hid
        · cases h
          rw [hid]
          obtain hempty | hremoved := statsOf_unregisterPeer announceReq
          · exact .inl hempty
          · exact .inr (.inl ⟨announceReq, ha, rfl, .inr hremoved⟩)
        · refine .inr (.inr ⟨lookup_of_unregisterPeer hid h, fun _ ha' => ?_⟩)
          rw [← ha.unique ha']
          exact Ne.symm hid
      · rw [if_neg hstopped] at h
        refine .inr (.inr ⟨h, fun announceReq' ha' => ?_⟩)
        cases hacc.symm.trans ha'.1
        exact absurd ha'.2 (not_or.2 ⟨hregister, hstopped⟩)

/-! ### Runs -/

section

variable (h : StatisticsAgree Q ls torrents)

include h

theorem StatisticsAgree.agrees_statsOf (id : TorrentID) : (statsOf torrents id).Agrees := by
  rw [statsOf]
  cases hl : torrents.lookup id with
  | none => exact TorrentStats.agrees_empty
  | some stats => exact h.agrees id stats hl

theorem StatisticsAgree.latest_statsOf {peerID : List UInt8}
    (hpeer : (statsOf torrents id).peers.lookup peerID = some peer) :
    LatestAnnounce Q ls id peer := by
  rw [statsOf] at hpeer
  cases hl : torrents.lookup id with
  | none =>
    rw [hl] at hpeer
    cases hpeer
  | some stats =>
    rw [hl] at hpeer
    exact h.latest id stats hl peerID peer hpeer

theorem StatisticsAgree.after (hl : Possible Q torrents l) :
    StatisticsAgree Q (ls ++ [l]) (after Q torrents l) := by
  refine ⟨fun id stats hstats => ?_, fun id stats hstats peerID peer hpeer => ?_⟩
  · obtain rfl | ⟨announceReq, ha, rfl, ⟨-, rfl⟩ | rfl⟩ | ⟨hold, -⟩ := lookup_after hstats
    · exact TorrentStats.agrees_empty
    · exact (h.agrees_statsOf _).setPeer (hl.2 announceReq ha.1).1
    · exact (h.agrees_statsOf _).removePeer _
    · exact h.agrees id stats hold
  · obtain rfl | ⟨announceReq, ha, rfl, ⟨hevent, rfl⟩ | rfl⟩ | ⟨hold, hother⟩ :=
      lookup_after hstats
    · cases hpeer
    · have hagrees := h.agrees_statsOf announceReq.torrentID
      have hfirst := (hl.2 announceReq ha.1).1
      obtain ⟨-, rfl⟩ | ⟨hne, hstored⟩ := hagrees.lookup_setPeer hfirst hpeer
      · exact latestAnnounce_concat ha hevent
      · refine (h.latest_statsOf hstored).concat fun announceReq' ha' _ => ?_
        rw [← ha.unique ha', hagrees.uniqueID peerID peer hstored]
        exact hne.symm
    · rw [TorrentStats.lookup_removePeer] at hpeer
      split_ifs at hpeer with hne
      refine (h.latest_statsOf hpeer).concat fun announceReq' ha' _ => ?_
      rw [← ha.unique ha', (h.agrees_statsOf _).uniqueID peerID peer hpeer]
      exact Ne.symm hne
    · exact (h.latest id stats hold peerID peer hpeer).concat fun announceReq ha hid =>
        absurd hid (hother announceReq ha)

end

variable {reply : Reply}

theorem exists_of_reply
    (hreply : (processRequest Q l.order l.request l.clientAddress torrents).2 = .reply reply) :
    ∃ announceReq torrents',
      after Q torrents l = (prepareAnnounceResponse Q l.order announceReq torrents').1 ∧
      reply = (prepareAnnounceResponse Q l.order announceReq torrents').2 := by
  rw [after]
  rw [processRequest] at hreply ⊢
  split_ifs at hreply ⊢
  rw [processAnnounceRequest] at hreply ⊢
  cases hparse : parseAnnounceRequest Q l.request.query l.clientAddress with
  | error reason =>
    rw [hparse] at hreply
    cases hreply
  | ok announceReq =>
    rw [hparse] at hreply
    dsimp only at hreply ⊢
    split_ifs at hreply ⊢
    · exact ⟨announceReq, _, rfl, (Response.reply.inj hreply).symm⟩
    · exact ⟨announceReq, _, rfl, (Response.reply.inj hreply).symm⟩

theorem incomplete_nonneg (h : StatisticsAgree Q ls (after Q torrents l))
    (hreply : (processRequest Q l.order l.request l.clientAddress torrents).2 = .reply reply) :
    0 ≤ reply.incomplete := by
  obtain ⟨announceReq, torrents', heq, rfl⟩ := exists_of_reply hreply
  have hagrees : (statsOf torrents' announceReq.torrentID).Agrees := by
    rw [heq] at h
    refine h.agrees announceReq.torrentID _ ?_
    rw [lookup_prepareAnnounceResponse, if_pos rfl]
  have hcount := count_le_card Peer.isSeeder (statsOf torrents' announceReq.torrentID).peers
  have hseeders := hagrees.seeders
  show 0 ≤ ((statsOf torrents' announceReq.torrentID).peers.keys.card : ℤ) -
    (statsOf torrents' announceReq.torrentID).seeders
  omega

/-- **Statistics.**  In every run the peers of a torrent have different addresses or ports, are not
too many, and have the data of their latest announces; the seeders are counted right, so that no
response has a negative number of other peers. -/
theorem statistics_agree (Q : Platform H) (ls : List (Announce H)) {torrents : Torrents}
    (hr : (machine Q).run ∅ ls = some torrents) :
    StatisticsAgree Q ls torrents ∧
    ∀ l, Possible Q torrents l → ∀ reply,
      (processRequest Q l.order l.request l.clientAddress torrents).2 = .reply reply →
      0 ≤ reply.incomplete := by
  have hagree : StatisticsAgree Q ls torrents := by
    induction ls using List.reverseRecOn generalizing torrents with
    | nil =>
      cases hr
      exact ⟨nofun, nofun⟩
    | append_singleton ls l ih =>
      obtain ⟨torrents', hr', hl⟩ := Machine.run_concat_eq_some.1 hr
      obtain ⟨hpossible, rfl⟩ := Machine.guarded_step_eq_some.1 hl
      exact (ih hr').after hpossible
  exact ⟨hagree, fun l hl reply => incomplete_nonneg (hagree.after hl)⟩

/-- Two peers start, of which one is a seeder, and the other one stops. -/
theorem statistics_agree_startsAndStops :
    ∃ torrents, (machine Platform.texts).run ∅ startsAndStops = some torrents ∧
      StatisticsAgree Platform.texts startsAndStops torrents :=
  Machine.exists_run (by decide) fun _ hr => (statistics_agree Platform.texts startsAndStops hr).1

end Runs

end Tracker

end QBittorrent
