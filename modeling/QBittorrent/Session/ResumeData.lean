import QBittorrent.Lib.Machine
import QBittorrent.Lib.WriteBehind
import QBittorrent.Session.Tables

/-!
# The resume data of the session's torrents

The session saves a torrent under its ID each time its resume data is ready, and removes what is
saved with the torrent.  A torrent whose metadata changes its ID is saved under the new one the next
time only; `m_changedTorrentIDs` remembers the old ID until then.  The storage performs its jobs
later, in order.

* `clean_iff_resaved` : nothing of a removed torrent stays exactly if no old ID is still stored.
-/

namespace QBittorrent

open Option Finset Tables Dict

/-- The session and its storage. -/
structure SavedSession where
  tables : Tables := {}
  /-- `m_resumeDataStorage`, with the torrents that the entries are of. -/
  storage : WriteBehind Digest ℕ := {}
  /-- The IDs that torrents had at some time (no step reads them). -/
  had : Finset (ℕ × Digest) := ∅

/-- What happens to the session and its storage. -/
inductive SavedEvent where
  /-- A request, an alert or a removal. -/
  | session (e : TableEvent)
  /-- Resume data is ready, for a native torrent with this ID. -/
  | resumeDataReady (id : Digest)
  /-- The storage performs a job. -/
  | jobDone

/-- The torrents and the IDs that they have. -/
def Tables.ids (s : Tables) : Finset (ℕ × Digest) :=
  s.torrents.keys.biUnion fun id => (s.torrents.lookup id).toFinset.image fun torrent => (torrent, id)

/-- The torrent is in `m_torrents`. -/
def Tables.Live (s : Tables) (torrent : ℕ) : Prop := ∃ id, s.torrents.lookup id = some torrent

namespace SavedSession

variable (s : SavedSession)

def handleTorrentResumeDataReady (torrent : ℕ) (id : Digest) : SavedSession :=
  let storage := s.storage.push (.store id torrent)
  match s.tables.changedTorrentIDs.lookup id with
  | none => { s with storage := storage }
  | some prevID =>
    { s with
      tables := { s.tables with changedTorrentIDs := s.tables.changedTorrentIDs.erase id }
      storage := storage.push (.remove prevID) }

/-- `dispatchTorrentAlert` of resume data; that of a removed torrent is dropped. -/
def dispatchResumeData (id : Digest) : SavedSession :=
  match s.tables.torrents.lookup id with
  | none => s
  | some torrent =>
    match s.tables.objects.lookup torrent with
    | none => s
    | some infoHash => s.handleTorrentResumeDataReady torrent infoHash.toTorrentID

/-- What a request, an alert or a removal does; only `removeTorrent` writes to the storage. -/
def session (e : TableEvent) : SavedSession where
  tables := s.tables.next e
  storage :=
    match e with
    | .removeTorrent id =>
      match s.tables.infoHashOf id with
      | none => s.storage
      | some infoHash => s.storage.push (.remove infoHash.toTorrentID)
    | _ => s.storage
  had := s.had ∪ (s.tables.next e).ids

/-- One event at a time. -/
def next : SavedEvent → SavedSession
  | .session e => s.session e
  | .resumeDataReady id => s.dispatchResumeData id
  | .jobDone => { s with storage := s.storage.perform }

/-- libtorrent can give the alert. -/
def Possible : SavedEvent → Prop
  | .session e => s.tables.Possible e
  | .resumeDataReady _ | .jobDone => True

instance : DecidablePred s.Possible
  | .session e => inferInstanceAs (Decidable (s.tables.Possible e))
  | .resumeDataReady _ | .jobDone => isTrue trivial

def restore (infoHash : InfoHash) : SavedSession where
  tables := s.tables.createTorrent infoHash
  storage :=
    { s.storage with
      entries := s.storage.entries.insert infoHash.toTorrentID s.tables.nextTorrent }
  had := s.had ∪ (s.tables.createTorrent infoHash).ids

/-- A session that was started with torrents in its storage. -/
def restored (infoHashes : List InfoHash) : SavedSession := infoHashes.foldl restore {}

/-- No removed torrent is in the storage, when its jobs are done: what it has under an ID that the
torrent had is of a torrent of the session. -/
def Clean : Prop :=
  ∀ torrent id, (torrent, id) ∈ s.had → ¬ s.tables.Live torrent →
    ∀ owner, s.storage.drained.lookup id = some owner → s.tables.Live owner

/-- The condition on removals: a torrent whose ID changed is not saved under the old one. -/
def Resaved : SavedEvent → Prop
  | .session (.removeTorrent id) =>
    ∀ torrent ∈ s.tables.torrents.lookup id, ∀ prevID ∈ s.tables.changedTorrentIDs.lookup id,
      s.storage.drained.lookup prevID ≠ some torrent
  | _ => True

instance : DecidablePred s.Resaved
  | .session (.removeTorrent _) =>
    have (torrent : ℕ) (o : Option Digest) :
        Decidable (∀ prevID ∈ o, s.storage.drained.lookup prevID ≠ some torrent) :=
      Option.decidableForallMem o
    Option.decidableForallMem (s.tables.torrents.lookup _)
  | .session (.addTorrent _) | .session (.findTorrent _) | .session (.addTorrentAlert _)
  | .session (.addTorrentError _) | .session (.metadataReceived _ _) | .resumeDataReady _
  | .jobDone => isTrue trivial

end SavedSession

/-- A session with its storage, and the alerts that are possible. -/
def savedMachine : Machine SavedSession SavedEvent where
  step s e := if s.Possible e then some (s.next e) else none

namespace Tables

variable {s : Tables} {h : InfoHash} {id : Digest} {torrent : ℕ}

theorem mem_ids : (torrent, id) ∈ s.ids ↔ s.torrents.lookup id = some torrent := by
  rw [ids, mem_biUnion]
  constructor
  · rintro ⟨id', -, hid⟩
    obtain ⟨torrent', ht, he⟩ := mem_image.1 hid
    cases he
    exact mem_toFinset.1 ht
  · intro ht
    exact ⟨id, Finmap.mem_keys.2 (Finmap.mem_of_lookup_eq_some ht),
      mem_image.2 ⟨torrent, mem_toFinset.2 ht, rfl⟩⟩

/-- The session knows that the torrent may be saved under the ID: it is the ID of the torrent, or the
one it had before. -/
def Under (s : Tables) (torrent : ℕ) (id : Digest) : Prop :=
  ∃ h, s.torrents.lookup h.toTorrentID = some torrent ∧ s.objects.lookup torrent = some h ∧
    (id = h.toTorrentID ∨
      (h.isHybrid = true ∧ s.changedTorrentIDs.lookup h.toTorrentID = some id))

theorem Under.live (u : s.Under torrent id) : s.Live torrent := ⟨_, u.choose_spec.1⟩

theorem Under.congr {s' : Tables} (u : s.Under torrent id) (htorrents : s'.torrents = s.torrents)
    (hobjects : s'.objects = s.objects)
    (hchanged : s'.changedTorrentIDs = s.changedTorrentIDs) : s'.Under torrent id := by
  rw [Under, htorrents, hobjects, hchanged]
  exact u

theorem Under.erase (u : s.Under torrent id) {key : Digest}
    (hne : s.changedTorrentIDs.lookup key ≠ some id) :
    { s with changedTorrentIDs := s.changedTorrentIDs.erase key }.Under torrent id := by
  obtain ⟨x, ht, ho, hid⟩ := u
  refine ⟨x, ht, ho, hid.imp_right fun ⟨hb, hc⟩ => ⟨hb, ?_⟩⟩
  refine (Finmap.lookup_erase_ne ?_).trans hc
  rintro rfl
  exact hne hc

namespace Keyed

theorem under_createTorrent (k : Keyed s) (hp : s.Possible (.addTorrentAlert h))
    (u : s.Under torrent id) : (s.createTorrent h).Under torrent id := by
  have p := k.createTorrent hp
  obtain ⟨x, ht, ho, hid⟩ := u
  have hne : torrent ≠ s.nextTorrent := by
    rintro rfl
    rw [k.fresh _ le_rfl] at ho
    cases ho
  exact ⟨x, (p.torrents _ _).2 (.inr ⟨ht, hne⟩), (p.lookup_objects_of_ne hne).trans ho, hid⟩

theorem under_metadataReceived {h' : InfoHash} (k : Keyed s)
    (hp : s.Possible (.metadataReceived h' h)) (u : s.Under torrent id) :
    (s.handleMetadataReceived h).Under torrent id := by
  obtain ⟨torrent', ht', ho', p, -⟩ := k.metadataReceived hp
  obtain ⟨torrent'', ht'', -, heq⟩ := k.handleMetadataReceived_eq hp
  obtain ⟨x, ht, ho, hid⟩ := u
  by_cases hne : torrent = torrent'
  · subst hne
    have hx : x = h' := some.inj (ho.symm.trans ho')
    subst hx
    -- the torrent had one hash, and is saved under no ID but its own
    have hkey : id = x.toTorrentID := hid.resolve_right fun h => hp.2.1 h.1
    refine ⟨h, (p.torrents _ _).2 (.inl ⟨rfl, rfl⟩), p.lookup_objects, ?_⟩
    rw [heq]
    by_cases hsame : h.toTorrentID = x.toTorrentID
    · exact .inl (hkey.trans hsame.symm)
    · rw [if_pos hsame, hkey]
      exact .inr ⟨hp.2.2.1, Finmap.lookup_insert _⟩
  · refine ⟨x, (p.torrents _ _).2 (.inr ⟨ht, hne⟩), (p.lookup_objects_of_ne hne).trans ho, ?_⟩
    refine hid.imp_right fun ⟨hb, hc⟩ => ⟨hb, ?_⟩
    have hother : x.toTorrentID ≠ h.toTorrentID := by
      intro he
      refine not_disjoint_iff.2 ⟨_, x.toTorrentID_mem_ids, ?_⟩ (p.disjoint _ _ x ht hne ho)
      rw [he]
      exact h.toTorrentID_mem_ids
    rw [heq]
    split_ifs
    · exact (Finmap.lookup_insert_of_ne _ hother).trans hc
    · exact hc

theorem under_removeTorrent {id' : Digest} {torrent' : ℕ} (k : Keyed s)
    (ht' : s.torrents.lookup id' = some torrent') (hne : torrent ≠ torrent')
    (u : s.Under torrent id) : (s.removeTorrent id').Under torrent id := by
  obtain ⟨x, ht, ho, hid⟩ := u
  refine ⟨x, (k.lookup_removeTorrent ht').2 ⟨ht, hne⟩,
    (lookup_objects_removeTorrent ht' hne).trans ho, ?_⟩
  rw [Tables.removeTorrent, ht']
  exact hid

variable {e : TableEvent}

theorem under_next (k : Keyed s) (hp : s.Possible e)
    (hremove : ∀ id', e = .removeTorrent id' → s.torrents.lookup id' ≠ some torrent)
    (u : s.Under torrent id) : (s.next e).Under torrent id := by
  cases e with
  | addTorrent h =>
    rw [Tables.next]
    cases ha : s.addTorrent h with
    | none => exact u
    | some s' =>
      rw [getD_some, eq_of_addTorrent ha]
      exact u.congr rfl rfl rfl
  | findTorrent h => exact u
  | addTorrentAlert h =>
    show (s.handleAddTorrentAlert h).Under torrent id
    rw [handleAddTorrentAlert]
    split_ifs
    · have hloaded : Keyed { s with loadingTorrents := s.loadingTorrents.erase h.toTorrentID } :=
        k.congr rfl rfl rfl
      exact hloaded.under_createTorrent hp (u.congr rfl rfl rfl)
    · exact u
  | addTorrentError h => exact u.congr rfl rfl rfl
  | metadataReceived h' h => exact k.under_metadataReceived hp u
  | removeTorrent id' =>
    show (s.removeTorrent id').Under torrent id
    cases ht' : s.torrents.lookup id' with
    | none =>
      rw [removeTorrent_of_eq_none ht']
      exact u
    | some torrent' =>
      refine k.under_removeTorrent ht' ?_ u
      rintro rfl
      exact hremove id' rfl ht'

theorem changed_next (k : Keyed s) (hp : s.Possible e)
    (hc : ∀ id prevID, s.changedTorrentIDs.lookup id = some prevID → prevID ≠ id) :
    ∀ id prevID, (s.next e).changedTorrentIDs.lookup id = some prevID → prevID ≠ id := by
  cases e with
  | addTorrent h =>
    rw [Tables.next]
    cases ha : s.addTorrent h with
    | none => exact hc
    | some s' =>
      rw [getD_some, eq_of_addTorrent ha]
      exact hc
  | findTorrent h => exact hc
  | addTorrentAlert h =>
    show ∀ id prevID, (s.handleAddTorrentAlert h).changedTorrentIDs.lookup id = some prevID → _
    rw [handleAddTorrentAlert]
    split_ifs <;> exact hc
  | addTorrentError h => exact hc
  | metadataReceived h' h =>
    obtain ⟨torrent, -, -, heq⟩ := k.handleMetadataReceived_eq hp
    show ∀ id prevID, (s.handleMetadataReceived h).changedTorrentIDs.lookup id = some prevID → _
    rw [heq]
    split_ifs with hid
    · intro id prevID hlookup
      replace hlookup := (lookup_insert_eq _ _ _ _).symm.trans hlookup
      split_ifs at hlookup with hkey
      · cases hlookup
        rw [hkey]
        exact hid.symm
      · exact hc id prevID hlookup
    · exact hc
  | removeTorrent id' =>
    show ∀ id prevID, (s.removeTorrent id').changedTorrentIDs.lookup id = some prevID → _
    rw [Tables.removeTorrent]
    cases s.torrents.lookup id' <;> exact hc

end Keyed

end Tables

namespace SavedSession

variable {s : SavedSession} {e : SavedEvent} {h : InfoHash} {id : Digest} {torrent : ℕ}

/-- All that is saved is of a torrent of the session, under its ID or the one it had before. -/
structure Inv (s : SavedSession) : Prop where
  keyed : s.tables.Keyed
  changed : ∀ id prevID, s.tables.changedTorrentIDs.lookup id = some prevID → prevID ≠ id
  had : ∀ id torrent, s.tables.torrents.lookup id = some torrent → (torrent, id) ∈ s.had
  entries : ∀ id torrent, s.storage.drained.lookup id = some torrent →
    s.tables.Under torrent id ∧ (torrent, id) ∈ s.had

namespace Inv

theorem empty : Inv {} where
  keyed := .empty
  changed _ _ h := by cases h
  had _ _ h := by cases h
  entries _ _ h := by cases h

theorem clean (i : Inv s) : s.Clean := fun _ _ _ _ owner ho => (i.entries _ owner ho).1.live

theorem restore (i : Inv s) (hjobs : s.storage.jobs = [])
    (hp : s.tables.Possible (.addTorrentAlert h)) : Inv (s.restore h) := by
  have p := i.keyed.createTorrent hp
  have hdrained : (s.restore h).storage.drained =
      s.storage.drained.insert h.toTorrentID s.tables.nextTorrent := by
    rw [WriteBehind.drained_of_jobs_eq_nil hjobs]
    exact WriteBehind.drained_of_jobs_eq_nil hjobs
  refine ⟨i.keyed.of_put p, i.changed, fun id torrent ht => ?_, fun id torrent ht => ?_⟩
  · exact mem_union_right _ (mem_ids.2 ht)
  · rw [hdrained, lookup_insert_eq] at ht
    split_ifs at ht with hid
    · cases ht
      have hnew := (p.torrents h.toTorrentID s.tables.nextTorrent).2 (.inl ⟨rfl, rfl⟩)
      rw [hid]
      exact ⟨⟨h, hnew, p.lookup_objects, .inl rfl⟩,
        mem_union_right _ (mem_ids.2 hnew)⟩
    · obtain ⟨u, hhad⟩ := i.entries id torrent ht
      exact ⟨i.keyed.under_createTorrent hp u, mem_union_left _ hhad⟩

theorem restored {infoHashes : List InfoHash}
    (hd : infoHashes.Pairwise fun h h' => Disjoint h.ids h'.ids) :
    Inv (SavedSession.restored infoHashes) := by
  have hfold : ∀ s : SavedSession, Inv s → s.storage.jobs = [] →
      (∀ h ∈ infoHashes, s.tables.Possible (.addTorrentAlert h)) →
      Inv (infoHashes.foldl SavedSession.restore s) := by
    induction infoHashes with
    | nil => exact fun s i _ _ => i
    | cons h hs ih =>
      intro s i hjobs hp
      rw [List.pairwise_cons] at hd
      have hph := hp h (List.mem_cons_self ..)
      refine ih hd.2 _ (i.restore hjobs hph) hjobs fun h' hh' x hx => ?_
      obtain ⟨id, hid⟩ := mem_live.1 hx
      obtain ⟨-, rfl⟩ | ⟨hid, -⟩ := (i.keyed.createTorrent hph).infoHashOf hid
      · exact hd.1 h' hh'
      · exact hp h' (List.mem_cons_of_mem _ hh') x (mem_live.2 ⟨id, hid⟩)
  refine hfold {} .empty rfl fun h _ x hx => ?_
  obtain ⟨id, hid⟩ := mem_live.1 hx
  cases hid

theorem resumeDataReady (i : Inv s) (id : Digest) : Inv (s.dispatchResumeData id) := by
  rw [dispatchResumeData]
  cases ht : s.tables.torrents.lookup id with
  | none => exact i
  | some torrent =>
    obtain ⟨h, ho, hid⟩ := i.keyed.exist id torrent ht
    simp only [ho, hid]
    have hsaved : ∀ id' torrent', (s.storage.drained.insert id torrent).lookup id' = some torrent' →
        s.tables.Under torrent' id' ∧ (torrent', id') ∈ s.had := by
      intro id' torrent' ht'
      rw [lookup_insert_eq] at ht'
      split_ifs at ht' with hkey
      · cases ht'
        rw [hkey]
        refine ⟨⟨h, ?_, ho, .inl hid.symm⟩, i.had id torrent ht⟩
        rwa [hid]
      · exact i.entries id' torrent' ht'
    rw [handleTorrentResumeDataReady]
    cases hc : s.tables.changedTorrentIDs.lookup id with
    | none =>
      refine ⟨i.keyed, i.changed, i.had, ?_⟩
      simp only [WriteBehind.drained_store]
      exact hsaved
    | some prevID =>
      refine ⟨i.keyed.congr rfl rfl rfl, fun id' prevID' hc' => ?_, i.had, fun id' torrent' ht' => ?_⟩
      · simp only [lookup_erase_eq] at hc'
        split_ifs at hc'
        exact i.changed id' prevID' hc'
      · simp only [WriteBehind.drained_store, WriteBehind.drained_remove] at ht'
        rw [lookup_erase_eq] at ht'
        split_ifs at ht' with hne
        obtain ⟨u, hhad⟩ := hsaved id' torrent' ht'
        refine ⟨u.erase fun h => ?_, hhad⟩
        rw [hc] at h
        exact hne (some.inj h).symm

theorem drained_removeTorrent (i : Inv s) (ht : s.tables.torrents.lookup id = some torrent) :
    (s.session (.removeTorrent id)).storage.drained = s.storage.drained.erase id := by
  obtain ⟨h, ho, hid⟩ := i.keyed.exist id torrent ht
  rw [SavedSession.session]
  simp only [infoHashOf_eq ht ho, hid]
  exact WriteBehind.drained_remove id

theorem session {e : TableEvent} (i : Inv s) (hp : s.tables.Possible e)
    (hr : s.Resaved (.session e)) : Inv (s.session e) := by
  refine ⟨i.keyed.next hp, i.keyed.changed_next hp i.changed,
    fun id torrent ht => mem_union_right _ (mem_ids.2 ht), fun id torrent ht => ?_⟩
  have hold : s.storage.drained.lookup id = some torrent ∧
      ∀ id', e = .removeTorrent id' → s.tables.torrents.lookup id' ≠ some torrent := by
    cases e with
    | removeTorrent id' =>
      cases ht' : s.tables.torrents.lookup id' with
      | none =>
        rw [SavedSession.session, infoHashOf, ht'] at ht
        refine ⟨ht, ?_⟩
        rintro _ ⟨⟩
        rw [ht']
        exact some_ne_none torrent ∘ Eq.symm
      | some torrent' =>
        rw [i.drained_removeTorrent ht', lookup_erase_eq] at ht
        split_ifs at ht with hid
        refine ⟨ht, ?_⟩
        rintro _ ⟨⟩ htorrent
        -- the removed torrent is saved under another ID
        obtain ⟨x, hx, -, hkey⟩ := (i.entries id torrent ht).1
        have hxid := i.keyed.eq_of_torrent_eq hx htorrent
        obtain hkey | ⟨-, hc⟩ := hkey
        · exact hid (hkey.trans hxid)
        · rw [hxid] at hc
          exact hr torrent htorrent id hc ht
    | _ => exact ⟨ht, by rintro _ ⟨⟩⟩
  obtain ⟨u, hhad⟩ := i.entries id torrent hold.1
  exact ⟨i.keyed.under_next hp hold.2 u, mem_union_left _ hhad⟩

theorem next (i : Inv s) (hp : s.Possible e) (hr : s.Resaved e) : Inv (s.next e) := by
  cases e with
  | session e => exact i.session hp hr
  | resumeDataReady id => exact i.resumeDataReady id
  | jobDone =>
    refine ⟨i.keyed, i.changed, i.had, ?_⟩
    show ∀ id torrent, s.storage.perform.drained.lookup id = some torrent → _
    rw [WriteBehind.drained_perform]
    exact i.entries

theorem not_clean (i : Inv s) (hr : ¬ s.Resaved e) : ¬ (s.next e).Clean := by
  obtain ⟨id, rfl⟩ : ∃ id, e = .session (.removeTorrent id) := by
    cases e with
    | session e =>
      cases e with
      | removeTorrent id => exact ⟨id, rfl⟩
      | _ => exact absurd trivial hr
    | _ => exact absurd trivial hr
  simp only [Resaved, not_forall, not_not] at hr
  obtain ⟨torrent, ht, prevID, hc, hsaved⟩ := hr
  have hgone : ¬ (s.session (.removeTorrent id)).tables.Live torrent := by
    rintro ⟨id', hid'⟩
    exact ((i.keyed.lookup_removeTorrent ht).1 hid').2 rfl
  have hleft : (s.session (.removeTorrent id)).storage.drained.lookup prevID = some torrent := by
    rw [i.drained_removeTorrent ht, lookup_erase_eq, if_neg (i.changed id prevID hc)]
    exact hsaved
  intro hclean
  exact hgone (hclean torrent prevID
    (mem_union_left _ (i.entries prevID torrent hsaved).2) hgone torrent hleft)

end Inv

end SavedSession

/-- **No zombie resume data.**  From any torrents a session is restored with, its storage has, once
its jobs are done, nothing of removed torrents under the IDs that they had, throughout exactly the
runs in which no torrent is removed that is still saved under an ID it had before. -/
theorem clean_iff_resaved {infoHashes : List InfoHash} {es : List SavedEvent}
    (hd : infoHashes.Pairwise fun h h' => Disjoint h.ids h'.ids)
    (hr : (savedMachine.run (SavedSession.restored infoHashes) es).isSome) :
    savedMachine.Always SavedSession.Clean (SavedSession.restored infoHashes) es ↔
      savedMachine.Meets SavedSession.Resaved (SavedSession.restored infoHashes) es :=
  Machine.guarded_always_iff_meets (SavedSession.Inv.restored hd) (fun _ => SavedSession.Inv.clean)
    (fun _ _ i hp hc => i.next hp hc) (fun _ _ i _ hc => i.not_clean hc) hr

/-- A torrent that comes as a magnet link is removed after it was saved under its new ID. -/
theorem clean_iff_resaved_magnet :
    savedMachine.Always SavedSession.Clean (SavedSession.restored [⟨2, 0⟩])
      [.session (.addTorrent ⟨1, 0⟩), .session (.addTorrentAlert ⟨1, 0⟩), .resumeDataReady 1,
        .session (.metadataReceived ⟨1, 0⟩ ⟨1, 5 <<< 96⟩), .resumeDataReady 5,
        .session (.removeTorrent 5), .jobDone] :=
  (clean_iff_resaved (List.pairwise_singleton _ _) (by decide)).2 (by decide)

/-- A torrent that is removed before it is saved under its new ID stays in the storage under the old
one. -/
theorem zombie : ¬ savedMachine.Always SavedSession.Clean (SavedSession.restored [])
    [.session (.addTorrent ⟨1, 0⟩), .session (.addTorrentAlert ⟨1, 0⟩), .resumeDataReady 1,
      .session (.metadataReceived ⟨1, 0⟩ ⟨1, 5 <<< 96⟩), .session (.removeTorrent 5)] := by
  intro h
  have hclean := h.at_end (some_get (by decide)).symm
  have hgone : ∀ s : Tables, s.ids = ∅ → ¬ s.Live 0 := by
    rintro s hs ⟨id, hid⟩
    exact notMem_empty _ (hs ▸ mem_ids.2 hid)
  exact hgone _ (by decide) (hclean 0 1 (by decide) (hgone _ (by decide)) 0 (by decide))

end QBittorrent
