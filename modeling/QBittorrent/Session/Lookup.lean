import QBittorrent.Lib.Machine
import QBittorrent.Session.Tables

/-!
# Finding torrents by their hashes

Requests to add or to find a torrent look it up in three maps, under one hash or under both.

* `good_of_distinct` : no two torrents share a hash if requests are distinct.
-/

namespace QBittorrent

open InfoHash Finmap Option

/-- The maps, and what was asked of them so far, each with the maps it was asked of. -/
structure Lookups where
  tables : Tables := {}
  /-- Requests for which an add operation was started. -/
  issued : List (Tables × InfoHash) := []
  /-- Calls of `findTorrent` and what they gave. -/
  answers : List (Tables × InfoHash × Option ℕ) := []

namespace Tables

variable (s : Tables)

/-- The info-hashes of the torrents that are being added. -/
def loading : Finset InfoHash :=
  s.loadingTorrents.keys.biUnion fun id => (s.loadingTorrents.lookup id).toFinset

/-- The request is refused under one of its own IDs. -/
def Listed (infoHash : InfoHash) : Prop :=
  ∃ id ∈ infoHash.ids, id ∈ s.loadingTorrents ∨ id ∈ s.torrents

instance (infoHash : InfoHash) : Decidable (s.Listed infoHash) := Finset.decidableExistsAndFinset

/-- The condition on requests. -/
def Distinct : TableEvent → Prop
  | .addTorrent infoHash =>
    s.Listed infoHash ∨
      ((∀ h ∈ s.loading, h.isHybrid = true → h.v1 ≠ infoHash.v1) ∧
        (infoHash.isHybrid = true → ∀ h ∈ s.live, h.isHybrid = true → h.v1 ≠ infoHash.v1))
  | .findTorrent infoHash =>
    infoHash.isHybrid = true → (∃ h ∈ s.live, h.Shares infoHash) →
      (∀ h ∈ s.live, h.toTorrentID = infoHash.toTorrentID → h.Shares infoHash) ∧
      (infoHash.toTorrentID ∉ s.torrents →
        ∀ h ∈ s.live, h.isHybrid = true → h.v1 ≠ infoHash.v1)
  | .addTorrentError infoHash =>
    infoHash.isHybrid = true → ∀ h ∈ s.live, h.isHybrid = true → h.v1 ≠ infoHash.v1
  | _ => True

instance : DecidablePred s.Distinct
  | .addTorrent _ | .findTorrent _ | .addTorrentAlert _ | .addTorrentError _ | .metadataReceived ..
  | .removeTorrent _ => by unfold Distinct; infer_instance

/-- An add operation is started: nothing shares a hash with the torrent. -/
def GoodIssue (infoHash : InfoHash) : Prop := ∀ h ∈ s.live ∪ s.loading, ¬ h.Shares infoHash

/-- An answer: if a torrent of the session shares a hash, one that does is found. -/
def GoodAnswer (infoHash : InfoHash) (answer : Option ℕ) : Prop :=
  (∃ h ∈ s.live, h.Shares infoHash) →
    ∃ id torrent h, answer = some torrent ∧ s.torrents.lookup id = some torrent ∧
      s.objects.lookup torrent = some h ∧ h.Shares infoHash

end Tables

/-- No two torrents share a hash, and all that was asked went well. -/
structure Lookups.Good (s : Lookups) : Prop where
  apart : ∀ id id' h h', s.tables.infoHashOf id = some h → s.tables.infoHashOf id' = some h' →
    id ≠ id' → ¬ h.Shares h'
  issued : ∀ e ∈ s.issued, e.1.GoodIssue e.2
  answers : ∀ e ∈ s.answers, e.1.GoodAnswer e.2.1 e.2.2

/-- One event at a time. -/
def Lookups.next (s : Lookups) (e : TableEvent) : Lookups where
  tables := s.tables.next e
  issued :=
    match e with
    | .addTorrent infoHash =>
      if (s.tables.addTorrent infoHash).isSome then (s.tables, infoHash) :: s.issued else s.issued
    | _ => s.issued
  answers :=
    match e with
    | .findTorrent infoHash => (s.tables, infoHash, s.tables.findTorrent infoHash) :: s.answers
    | _ => s.answers

/-- The maps of a session, with the alerts that are possible. -/
def lookupMachine : Machine Lookups TableEvent where
  step s e := if s.tables.Possible e then some (s.next e) else none

namespace Tables

variable {s s' : Tables} {h h' : InfoHash} {id id' : Digest} {torrent torrent' : ℕ}

theorem mem_loading {h : InfoHash} : h ∈ s.loading ↔ ∃ id, s.loadingTorrents.lookup id = some h := by
  rw [loading, Finset.mem_biUnion]
  constructor
  · rintro ⟨id, -, hid⟩
    exact ⟨id, mem_toFinset.1 hid⟩
  · rintro ⟨id, hid⟩
    exact ⟨id, mem_keys.2 (mem_of_lookup_eq_some hid), mem_toFinset.2 hid⟩

/-- The maps agree: hybrid torrents are under their v1 hashes too, and loading ones under their
IDs. -/
structure Inv (s : Tables) : Prop extends Keyed s where
  indexed : ∀ id torrent h, s.torrents.lookup id = some torrent →
    s.objects.lookup torrent = some h → h.isHybrid = true →
    s.hybridTorrentsByAltID.lookup h.v1 = some (some torrent)
  loading : ∀ id h, s.loadingTorrents.lookup id = some h → h.toTorrentID = id

theorem Inv.loading_mem (i : Inv s) (hl : h ∈ s.loading) : h.toTorrentID ∈ s.loadingTorrents := by
  obtain ⟨id, hid⟩ := mem_loading.1 hl
  rw [i.loading id h hid]
  exact mem_of_lookup_eq_some hid

/-! ### Requests -/

theorem of_addTorrent_eq_some (ha : s.addTorrent h = some s') :
    (∀ id ∈ h.ids, id ∉ s.loadingTorrents ∧ id ∉ s.torrents) ∧
      (¬ h.isHybrid = true → (s.hybridTorrentsByAltID.lookup h.toTorrentID).join = none) := by
  have hloading : ¬ s.isLoading h = true := by
    intro hl
    rw [addTorrent, if_pos hl] at ha
    cases ha
  have hfound : ¬ (s.findTorrent h).isSome = true := by
    intro hf
    rw [addTorrent, if_neg hloading, if_pos hf] at ha
    cases ha
  rw [isLoading, Bool.or_eq_true, Bool.and_eq_true, decide_eq_true_eq, decide_eq_true_eq,
    not_or] at hloading
  rw [Bool.not_eq_true, isSome_eq_false_iff, isNone_iff_eq_none, findTorrent] at hfound
  cases hbest : s.torrents.lookup h.toTorrentID with
  | some torrent => simp [hbest] at hfound
  | none =>
    simp only [hbest] at hfound
    refine ⟨fun id hid => ?_, fun hb => by rwa [if_pos hb] at hfound⟩
    obtain rfl | ⟨hb, rfl⟩ := mem_ids_iff.1 hid
    · exact ⟨hloading.1, lookup_eq_none.1 hbest⟩
    · rw [if_neg (not_not.2 hb)] at hfound
      exact ⟨fun hl => hloading.2 ⟨hb, hl⟩, lookup_eq_none.1 hfound⟩

theorem not_listed_of_addTorrent (ha : s.addTorrent h = some s') : ¬ s.Listed h := by
  rintro ⟨id, hid, hl | ht⟩
  · exact ((of_addTorrent_eq_some ha).1 id hid).1 hl
  · exact ((of_addTorrent_eq_some ha).1 id hid).2 ht

theorem mem_ids_or_of_shares (hs : h'.Shares h) :
    h'.toTorrentID ∈ h.ids ∨ (h'.isHybrid = true ∧ h.hasV1 = true ∧ h'.v1 = h.v1) := by
  obtain ⟨hv, he⟩ | ⟨hv, he⟩ := hs
  · have hv' : h.hasV1 = true := hasV1_congr he ▸ hv
    by_cases hb : h'.isHybrid = true
    · exact .inr ⟨hb, hv', he⟩
    · refine .inl ?_
      rw [toTorrentID_of_hasV1 hb hv, he]
      exact v1_mem_ids hv'
  · refine .inl ?_
    rw [toTorrentID_congr hv he]
    exact toTorrentID_mem_ids h

theorem Inv.goodIssue (i : Inv s) (hd : s.Distinct (.addTorrent h))
    (ha : s.addTorrent h = some s') : s.GoodIssue h := by
  obtain ⟨hids, halt⟩ := of_addTorrent_eq_some ha
  obtain ⟨hloading, hlive⟩ := Or.resolve_left hd (not_listed_of_addTorrent ha)
  intro h' hmem hs
  obtain hl | hl := Finset.mem_union.1 hmem
  · obtain hid | ⟨hb, hv, he⟩ := mem_ids_or_of_shares hs
    · exact (hids _ hid).2 (i.live_mem hl)
    · by_cases hh : h.isHybrid = true
      · exact hlive hh h' hl hb he
      · -- the hybrid torrent is under the v1 hash
        obtain ⟨torrent, ht, ho⟩ := i.lookup_of_mem_live hl
        have hindex := i.indexed _ torrent h' ht ho hb
        have hnone := halt hh
        rw [toTorrentID_of_hasV1 hh hv, ← he, hindex] at hnone
        cases hnone
  · obtain hid | ⟨hb, -, he⟩ := mem_ids_or_of_shares hs
    · exact (hids _ hid).1 (i.loading_mem hl)
    · exact hloading h' hl hb he

theorem Inv.goodAnswer (i : Inv s) (hd : s.Distinct (.findTorrent h)) :
    s.GoodAnswer h (s.findTorrent h) := by
  rintro ⟨x, hx, hs⟩
  obtain ⟨torrent, ht, ho⟩ := i.lookup_of_mem_live hx
  rw [findTorrent]
  cases hbest : s.torrents.lookup h.toTorrentID with
  | some torrent' =>
    obtain ⟨y, hoy, hid, hy⟩ := i.mem_live_of_lookup hbest
    refine ⟨_, torrent', y, rfl, hbest, hoy, ?_⟩
    by_cases hb : h.isHybrid = true
    · exact (hd hb ⟨x, hx, hs⟩).1 y hy hid
    · -- both have the only ID of the request
      have hsame : x = y := by
        have hyid : h.toTorrentID ∈ y.ids := hid ▸ toTorrentID_mem_ids y
        refine i.eq_of_mem_ids hx hy ?_ hyid
        obtain hmem | ⟨hbx, hv, he⟩ := mem_ids_or_of_shares hs
        · rw [mem_ids_iff] at hmem
          rw [← hmem.resolve_right fun h => hb h.1]
          exact toTorrentID_mem_ids x
        · rw [toTorrentID_of_hasV1 hb hv, ← he]
          exact v1_mem_ids (isHybrid_iff.1 hbx).1
      rwa [← hsame]
  | none =>
    have hnotMem := lookup_eq_none.1 hbest
    obtain hmem | ⟨hbx, hv, he⟩ := mem_ids_or_of_shares hs
    · obtain heq | ⟨hb, heq⟩ := mem_ids_iff.1 hmem
      · rw [heq, hbest] at ht
        cases ht
      · rw [if_neg (not_not.2 hb)]
        rw [heq] at ht
        exact ⟨h.v1, torrent, x, ht, ht, ho, hs⟩
    · by_cases hb : h.isHybrid = true
      · exact absurd he ((hd hb ⟨x, hx, hs⟩).2 hnotMem x hx hbx)
      · rw [if_pos hb, toTorrentID_of_hasV1 hb hv, ← he,
          i.indexed _ torrent x ht ho hbx]
        exact ⟨_, torrent, x, rfl, ht, ho, hs⟩

/-! ### Steps -/

theorem Inv.empty : Inv {} where
  toKeyed := .empty
  indexed _ _ _ h := by cases h
  loading _ _ h := by cases h

namespace Inv

theorem of_loading (i : Inv s) {loading : Dict Digest InfoHash} {alt : Dict Digest (Option ℕ)}
    (hloading : ∀ id h, loading.lookup id = some h → h.toTorrentID = id)
    (halt : ∀ h ∈ s.live, h.isHybrid = true →
      alt.lookup h.v1 = s.hybridTorrentsByAltID.lookup h.v1) :
    Inv { s with loadingTorrents := loading, hybridTorrentsByAltID := alt } where
  exist := i.exist
  apart := i.apart
  indexed id torrent h ht ho hb :=
    (halt h (mem_live.2 ⟨id, infoHashOf_eq ht ho⟩) hb).trans (i.indexed id torrent h ht ho hb)
  loading := hloading
  fresh := i.fresh

theorem addTorrent (i : Inv s) (hd : s.Distinct (.addTorrent h)) (ha : s.addTorrent h = some s') :
    Inv s' := by
  have hlive := (Or.resolve_left hd (not_listed_of_addTorrent ha)).2
  rw [eq_of_addTorrent ha]
  refine i.of_loading (fun id x hx => ?_) fun x hx hb => ?_
  · rw [Dict.lookup_insert_eq] at hx
    split_ifs at hx with hid
    · cases hx
      exact hid.symm
    · exact i.loading id x hx
  · split_ifs with hh
    · rw [Dict.lookup_insert_eq, if_neg]
      exact hlive hh x hx hb
    · rfl

theorem addTorrentError (i : Inv s) (hd : s.Distinct (.addTorrentError h)) :
    Inv (s.handleAddTorrentError h) := by
  refine i.of_loading (fun id x hx => ?_) fun x hx hb => ?_
  · rw [Dict.lookup_erase_eq] at hx
    split_ifs at hx
    exact i.loading id x hx
  · split_ifs with hh
    · rw [Dict.lookup_erase_eq, if_neg]
      exact hd hh x hx hb
    · rfl

theorem of_put (i : Inv s) (p : Put s s' torrent h)
    (halt : s'.hybridTorrentsByAltID =
      if h.isHybrid then s.hybridTorrentsByAltID.insert h.altID (some torrent)
      else s.hybridTorrentsByAltID)
    (hloading : s'.loadingTorrents = s.loadingTorrents) : Inv s' := by
  refine ⟨i.toKeyed.of_put p, fun id torrent' x ht ho hb => ?_, by rw [hloading]; exact i.loading⟩
  rw [halt]
  obtain ⟨rfl, rfl⟩ | ⟨ht, hne⟩ := (p.torrents id torrent').1 ht
  · cases ho.symm.trans p.lookup_objects
    rw [if_pos hb]
    exact lookup_insert _
  · rw [p.lookup_objects_of_ne hne] at ho
    rw [← i.indexed id torrent' x ht ho hb]
    split_ifs with hh
    · -- the other hybrid torrent has another v1 hash
      refine lookup_insert_of_ne _ fun he => ?_
      refine Finset.not_disjoint_iff.2 ⟨x.v1, ?_, ?_⟩ (p.disjoint id torrent' x ht hne ho)
      · exact v1_mem_ids (isHybrid_iff.1 hb).1
      · rw [he]
        exact v1_mem_ids (isHybrid_iff.1 hh).1
    · rfl

theorem addTorrentAlert (i : Inv s) (hp : s.Possible (.addTorrentAlert h)) :
    Inv (s.handleAddTorrentAlert h) := by
  rw [handleAddTorrentAlert]
  split_ifs
  · have hloaded : Inv { s with loadingTorrents := s.loadingTorrents.erase h.toTorrentID } := by
      refine i.of_loading (fun id x hx => ?_) fun _ _ _ => rfl
      rw [Dict.lookup_erase_eq] at hx
      split_ifs at hx
      exact i.loading id x hx
    exact hloaded.of_put (hloaded.createTorrent hp) rfl rfl
  · exact i

theorem metadataReceived (i : Inv s) (hp : s.Possible (.metadataReceived h' h)) :
    Inv (s.handleMetadataReceived h) := by
  obtain ⟨torrent, -, -, p, halt, hloading⟩ := i.toKeyed.metadataReceived hp
  exact i.of_put p (halt.trans (if_pos hp.2.2.1).symm) hloading

theorem removeTorrent (i : Inv s) (id : Digest) : Inv (s.removeTorrent id) := by
  cases ht : s.torrents.lookup id with
  | none =>
    rw [Keyed.removeTorrent_of_eq_none ht]
    exact i
  | some torrent =>
    obtain ⟨h, ho, hid, -⟩ := i.mem_live_of_lookup ht
    refine ⟨i.toKeyed.removeTorrent id, fun id' torrent' x ht' ho' hb => ?_, ?_⟩
    · replace ht' := (i.lookup_removeTorrent ht).1 ht'
      obtain ⟨ht', hne⟩ := ht'
      rw [Keyed.lookup_objects_removeTorrent ht hne] at ho'
      rw [Tables.removeTorrent, ht]
      simp only [ho]
      rw [← i.indexed id' torrent' x ht' ho' hb]
      split_ifs with hhybrid
      · refine lookup_erase_ne fun he => ?_
        have hid' : id' ≠ id := by
          rintro rfl
          exact hne (some.inj (ht'.symm.trans ht))
        refine Finset.not_disjoint_iff.2 ⟨x.v1, ?_, ?_⟩ (i.apart id' id x h
          (infoHashOf_eq ht' ho') (infoHashOf_eq ht ho) hid')
        · exact v1_mem_ids (isHybrid_iff.1 hb).1
        · rw [he]
          exact v1_mem_ids (isHybrid_iff.1 hhybrid).1
      · rfl
    · rw [Tables.removeTorrent, ht]
      exact i.loading

end Inv

end Tables

namespace Lookups

variable {s s' : Lookups} {e : TableEvent}

/-- The maps agree, and what was asked so far went well. -/
structure Inv (s : Lookups) : Prop where
  tables : s.tables.Inv
  issued : ∀ e ∈ s.issued, e.1.GoodIssue e.2
  answers : ∀ e ∈ s.answers, e.1.GoodAnswer e.2.1 e.2.2

theorem Inv.good (i : Inv s) : s.Good where
  apart id id' h h' hid hid' hne hs := hs.not_disjoint (i.tables.apart id id' h h' hid hid' hne)
  issued := i.issued
  answers := i.answers

theorem Inv.next (i : Inv s) (hp : s.tables.Possible e) (hd : s.tables.Distinct e) :
    Inv (s.next e) := by
  cases e with
  | addTorrent h =>
    cases ha : s.tables.addTorrent h with
    | none =>
      rw [Lookups.next, Tables.next, ha]
      exact i
    | some tables =>
      rw [Lookups.next, Tables.next, ha]
      refine ⟨i.tables.addTorrent hd ha, fun e he => ?_, i.answers⟩
      obtain rfl | he := List.mem_cons.1 he
      · exact i.tables.goodIssue hd ha
      · exact i.issued e he
  | findTorrent h =>
    refine ⟨i.tables, i.issued, fun e he => ?_⟩
    obtain rfl | he := List.mem_cons.1 he
    · exact i.tables.goodAnswer hd
    · exact i.answers e he
  | addTorrentAlert h => exact ⟨i.tables.addTorrentAlert hp, i.issued, i.answers⟩
  | addTorrentError h => exact ⟨i.tables.addTorrentError hd, i.issued, i.answers⟩
  | metadataReceived h' h => exact ⟨i.tables.metadataReceived hp, i.issued, i.answers⟩
  | removeTorrent id => exact ⟨i.tables.removeTorrent id, i.issued, i.answers⟩

end Lookups

theorem Lookups.Inv.empty : Lookups.Inv {} where
  tables := Tables.Inv.empty
  issued _ he := absurd he List.not_mem_nil
  answers _ he := absurd he List.not_mem_nil

/-- **No two torrents share a hash.**  In every run of requests, alerts and removals whose requests
are distinct, no add operation was started for a torrent that shared a hash with another one, and
`findTorrent` found the torrent that shared a hash whenever there was one. -/
theorem good_of_distinct {es : List TableEvent} {s : Lookups}
    (hd : lookupMachine.Meets (fun s e => s.tables.Distinct e) {} es)
    (hr : lookupMachine.run {} es = some s) : s.Good := by
  refine (Machine.run_invariant (I := Lookups.Inv) .empty (fun s e s' i hd hs => ?_) hd hr).good
  obtain ⟨hp, rfl⟩ := Machine.guarded_step_eq_some.1 hs
  exact i.next hp hd

/-- A magnet link with a v1 hash turns into a hybrid torrent, and is found by its v1 hash. -/
theorem good_of_distinct_magnet : ∃ s, lookupMachine.run {}
    [.addTorrent ⟨1, 0⟩, .addTorrentAlert ⟨1, 0⟩, .metadataReceived ⟨1, 0⟩ ⟨1, 5 <<< 96⟩,
      .findTorrent ⟨1, 0⟩] = some s ∧ s.Good :=
  Machine.exists_run (by decide) fun _ hr => good_of_distinct (by decide) hr

/-- A hybrid torrent is not known by its v1 hash as long as it is being added. -/
theorem twins_loading : ∃ s, lookupMachine.run {}
    [.addTorrent ⟨1, 5 <<< 96⟩, .addTorrent ⟨1, 0⟩] = some s ∧ ¬ s.Good := by
  refine ⟨_, rfl, fun h => ?_⟩
  exact h.issued _ (List.mem_cons_self ..) ⟨1, 5 <<< 96⟩ (by decide) (by decide)

end QBittorrent
