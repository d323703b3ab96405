import QBittorrent.Lib.Machine
import QBittorrent.Session.Tables

/-!
# Alerts about torrents

libtorrent posts alerts, and the session handles them later, in their order.  An alert has the handle
of a torrent; by the hash that the handle gives when the alert is handled, the session looks the
torrent up in `m_torrents`.  The statuses of a state update have the hashes of the moment when they
were posted.  When libtorrent learns that a torrent is hybrid, its handle gives the v2 hash at once,
but the torrent gets its new ID only when the alert about its metadata is handled.

* `delivered_iff_settled` : alerts reach their torrents exactly if these are found under their IDs.
-/

namespace QBittorrent.AlertDispatch

open List Finmap Tables InfoHash

/-! ### Alerts -/

/-- The alerts of `dispatchTorrentAlert`. -/
inductive TorrentAlertType where
  | filePrio | fileRenamed | fileRenameFailed | fileCompleted | torrentFinished | saveResumeData
  | saveResumeDataFailed | torrentPaused | torrentResumed | fastresumeRejected | torrentChecked
  | metadataReceived | performance
  deriving DecidableEq

/-- The alerts of `handleTrackerAlert`. -/
inductive TrackerAlertType where
  | announce | error | reply | warning
  deriving DecidableEq

/-- The alerts about one torrent. -/
inductive AlertType where
  | torrentAlert (type : TorrentAlertType)
  | tracker (type : TrackerAlertType)
  | fileError | urlSeed | torrentNeedCert | storageMoved | storageMovedFailed
  deriving DecidableEq

/-- What libtorrent posts; torrents have numbers, which stand for their handles. -/
inductive Alert where
  | about (type : AlertType) (torrent : ℕ)
  | stateUpdate (status : List (ℕ × InfoHash))
  deriving DecidableEq

/-- The metadata of a torrent has come. -/
def Alert.metadata (torrent : ℕ) : Alert := .about (.torrentAlert .metadataReceived) torrent

/-- An alert about a torrent was handled. -/
structure Delivery where
  torrent : ℕ
  /-- The torrent was in `m_torrents`. -/
  live : Bool
  /-- The torrent that the handler found. -/
  target : Option ℕ
  deriving DecidableEq

/-- The session with libtorrent. -/
structure State where
  tables : Tables := {}
  /-- What the handles give for the torrents that libtorrent has. -/
  natives : Dict ℕ InfoHash := ∅
  /-- The torrents whose metadata libtorrent does not have. -/
  awaiting : Finset ℕ := ∅
  /-- The alerts that are not handled. -/
  alerts : List Alert := []
  deliveries : List Delivery := []

namespace State

variable (s : State)

/-- The torrent is in `m_torrents`. -/
def Live (torrent : ℕ) : Prop :=
  ∃ id ∈ s.tables.torrents.keys, s.tables.torrents.lookup id = some torrent

instance (torrent : ℕ) : Decidable (s.Live torrent) := Finset.decidableExistsAndFinset

/-- `m_torrents.value(handle.info_hash())`; the handle of a torrent that was removed has no hash. -/
def find (handle : Option InfoHash) : Option ℕ :=
  handle.bind fun infoHash => s.tables.torrents.lookup infoHash.toTorrentID

def dispatchTorrentAlert (type : TorrentAlertType) (handle : Option InfoHash) : Option ℕ :=
  match s.find handle with
  | some torrent => some torrent
  | none =>
    if type = .metadataReceived then
      handle.bind fun infoHash =>
        if infoHash.isHybrid then s.tables.torrents.lookup infoHash.altID else none
    else none

def handleTrackerAlert (handle : Option InfoHash) : Option ℕ := s.find handle

def handleFileErrorAlert (handle : Option InfoHash) : Option ℕ := s.find handle

def handleUrlSeedAlert (handle : Option InfoHash) : Option ℕ := s.find handle

def handleTorrentNeedCertAlert (handle : Option InfoHash) : Option ℕ := s.find handle

def handleMoveTorrentStorageJobFinished (handle : Option InfoHash) : Option ℕ := s.find handle

/-- The torrent that an alert about one torrent reaches. -/
def target (handle : Option InfoHash) : AlertType → Option ℕ
  | .torrentAlert type => s.dispatchTorrentAlert type handle
  | .tracker _ => s.handleTrackerAlert handle
  | .fileError => s.handleFileErrorAlert handle
  | .urlSeed => s.handleUrlSeedAlert handle
  | .torrentNeedCert => s.handleTorrentNeedCertAlert handle
  | .storageMoved | .storageMovedFailed => s.handleMoveTorrentStorageJobFinished handle

def handleStateUpdateAlert (status : List (ℕ × InfoHash)) : List Delivery :=
  status.map fun e => ⟨e.1, decide (s.Live e.1), s.tables.torrents.lookup e.2.toTorrentID⟩

/-- `handleAlert`; only the alert about metadata changes the maps. -/
def handle : Alert → State
  | .about type torrent =>
    let infoHash := s.natives.lookup torrent
    { s with
      tables :=
        if type = .torrentAlert .metadataReceived then
          infoHash.elim s.tables s.tables.handleMetadataReceived
        else s.tables
      deliveries := s.deliveries ++ [⟨torrent, decide (s.Live torrent), s.target infoHash type⟩] }
  | .stateUpdate status =>
    { s with deliveries := s.deliveries ++ s.handleStateUpdateAlert status }

/-- The next alert is handled. -/
def handleAlert : State :=
  match s.alerts with
  | [] => s
  | alert :: alerts => { s with alerts := alerts }.handle alert

/-- libtorrent has added a torrent. -/
def addTorrentAlert (infoHash : InfoHash) (hasMetadata : Bool) : State :=
  { s with
    tables := s.tables.handleAddTorrentAlert infoHash
    natives := s.natives.insert s.tables.nextTorrent infoHash
    awaiting := if hasMetadata then s.awaiting else insert s.tables.nextTorrent s.awaiting }

def learnMetadata (torrent : ℕ) (infoHash : InfoHash) : State :=
  { s with
    natives := s.natives.insert torrent infoHash
    awaiting := s.awaiting.erase torrent
    alerts := s.alerts ++ [.metadata torrent] }

/-- libtorrent posts the statuses of torrents. -/
def postStateUpdate (torrents : List ℕ) : State :=
  { s with
    alerts := s.alerts ++ [.stateUpdate (torrents.filterMap fun torrent =>
      (s.natives.lookup torrent).map fun infoHash => (torrent, infoHash))] }

def removeTorrent (id : Digest) : State :=
  { s with
    tables := s.tables.removeTorrent id
    natives := (s.tables.torrents.lookup id).elim s.natives s.natives.erase }

end State

/-- What libtorrent does and the session. -/
inductive Event where
  | addTorrent (infoHash : InfoHash)
  | addTorrentAlert (infoHash : InfoHash) (hasMetadata : Bool)
  | addTorrentError (infoHash : InfoHash)
  | removeTorrent (id : Digest)
  | learnMetadata (torrent : ℕ) (infoHash : InfoHash)
  | post (type : AlertType) (torrent : ℕ)
  | postStateUpdate (torrents : List ℕ)
  | handleAlert

/-- What the info-hash of a torrent becomes with its metadata. -/
def Becomes (prevInfoHash infoHash : InfoHash) : Prop :=
  infoHash = prevInfoHash ∨
    (¬prevInfoHash.isHybrid = true ∧ infoHash.isHybrid = true ∧ prevInfoHash.Shares infoHash)
  deriving Decidable

namespace State

variable (s : State)

def next : Event → State
  | .addTorrent infoHash => { s with tables := (s.tables.addTorrent infoHash).getD s.tables }
  | .addTorrentAlert infoHash hasMetadata => s.addTorrentAlert infoHash hasMetadata
  | .addTorrentError infoHash => { s with tables := s.tables.handleAddTorrentError infoHash }
  | .removeTorrent id => s.removeTorrent id
  | .learnMetadata torrent infoHash => s.learnMetadata torrent infoHash
  | .post type torrent => { s with alerts := s.alerts ++ [.about type torrent] }
  | .postStateUpdate torrents => s.postStateUpdate torrents
  | .handleAlert => s.handleAlert

/-- The other torrents that libtorrent has share no ID with one. -/
def Apart (torrent : ℕ) (infoHash : InfoHash) : Prop :=
  ∀ torrent' ∈ s.natives.keys, torrent' ≠ torrent →
    Disjoint ((s.natives.lookup torrent').elim ∅ InfoHash.ids) infoHash.ids
  deriving Decidable

/-- What can happen: libtorrent has no two torrents with an ID in common, learns metadata once, and
posts alerts about the torrents that it has. -/
def Possible : Event → Prop
  | .addTorrentAlert infoHash _ =>
    infoHash.toTorrentID ∈ s.tables.loadingTorrents ∧ s.Apart s.tables.nextTorrent infoHash
  | .learnMetadata torrent infoHash =>
    torrent ∈ s.awaiting ∧ (∃ prevInfoHash ∈ s.natives.lookup torrent, Becomes prevInfoHash infoHash) ∧
      s.Apart torrent infoHash
  | .post type torrent => torrent ∈ s.natives ∧ type ≠ .torrentAlert .metadataReceived
  | _ => True

instance : DecidablePred s.Possible := fun e => by
  cases e <;> unfold Possible <;> infer_instance

end State

/-- The runs of the session. -/
def machine : Machine State Event := .guarded State.Possible State.next

/-! ### Alerts that are delivered -/

/-- Alerts about torrents of the session were delivered to them. -/
def Delivered (s : State) : Prop :=
  ∀ d ∈ s.deliveries, d.live = true → d.target = some d.torrent

/-- The handle of a torrent gives its ID: libtorrent has not learned a v2 hash that the torrent does not
have yet. -/
def State.Agrees (s : State) (torrent : ℕ) : Prop :=
  ∀ infoHash ∈ s.tables.objects.lookup torrent, ∀ native ∈ s.natives.lookup torrent,
    native.toTorrentID = infoHash.toTorrentID

instance (s : State) (torrent : ℕ) : Decidable (s.Agrees torrent) :=
  have : ∀ infoHash : InfoHash, Decidable (∀ native ∈ s.natives.lookup torrent,
      native.toTorrentID = infoHash.toTorrentID) :=
    fun _ => (s.natives.lookup torrent).decidableForallMem
  (s.tables.objects.lookup torrent).decidableForallMem

/-- An alert about one torrent, but for that about its metadata, is handled when the handle of the
torrent gives its ID. -/
def Alert.Settled (s : State) : Alert → Prop
  | .about type torrent => type = .torrentAlert .metadataReceived ∨ s.Agrees torrent
  | .stateUpdate _ => True

instance (s : State) : DecidablePred (Alert.Settled s)
  | .about .. => inferInstanceAs (Decidable (_ ∨ _))
  | .stateUpdate _ => isTrue trivial

/-- The condition on what happens. -/
def Settled (s : State) : Event → Prop
  | .handleAlert => ∀ alert ∈ s.alerts.head?, alert.Settled s
  | _ => True

instance (s : State) : DecidablePred (Settled s) := fun e => by
  cases e <;> unfold Settled <;> infer_instance

/-! ### The invariant -/

open State

theorem Becomes.ids_subset {h h' : InfoHash} (hb : Becomes h h') : h.ids ⊆ h'.ids := by
  rcases hb with rfl | ⟨hone, -, hs⟩
  · exact Finset.Subset.refl _
  · intro id hid
    rw [mem_ids_iff] at hid
    obtain rfl := hid.resolve_right fun h => hone h.1
    rcases hs with ⟨hv, he⟩ | ⟨hv, he⟩
    · rw [toTorrentID_of_hasV1 hone hv, he]
      exact v1_mem_ids (hasV1_congr he ▸ hv)
    · rw [toTorrentID_congr hv he]
      exact toTorrentID_mem_ids h'

/-- What the hash of a torrent will be when the alerts `xs` are handled. -/
def State.hashAfter (s : State) (xs : List Alert) (torrent : ℕ) : Option InfoHash :=
  if .metadata torrent ∈ xs then s.natives.lookup torrent else s.tables.objects.lookup torrent

/-- A torrent has the hash that its handle gives, or will have it when the alert about its metadata is
handled; the statuses of a state update have the hashes that the torrents will have then. -/
structure Inv (s : State) : Prop where
  keyed : s.tables.Keyed
  owned : s.tables.Owned
  natives : ∀ torrent, torrent ∈ s.natives ↔ torrent ∈ s.tables.objects
  apart : ∀ torrent torrent' n n', s.natives.lookup torrent = some n →
    s.natives.lookup torrent' = some n' → torrent ≠ torrent' → Disjoint n.ids n'.ids
  known : ∀ torrent h n, s.tables.objects.lookup torrent = some h →
    s.natives.lookup torrent = some n → Becomes h n ∧ s.hashAfter s.alerts torrent = some n
  awaiting : ∀ torrent, .metadata torrent ∈ s.alerts → torrent ∉ s.awaiting
  fresh : ∀ torrent, s.tables.nextTorrent ≤ torrent → .metadata torrent ∉ s.alerts ∧
    ∀ status, .stateUpdate status ∈ s.alerts → ∀ e ∈ status, e.1 ≠ torrent
  statuses : ∀ xs status ys, s.alerts = xs ++ .stateUpdate status :: ys → ∀ e ∈ status,
    e.1 ∈ s.natives → s.hashAfter xs e.1 = some e.2
  delivered : Delivered s

theorem Inv.init : Inv {} := by
  refine ⟨Tables.Keyed.empty, Tables.Owned.empty, fun torrent => Iff.rfl,
    fun torrent torrent' n n' hn => ?_, fun torrent h n ho => ?_, fun torrent hmem => ?_,
    fun torrent _ => ⟨fun hmem => ?_, fun status hmem => ?_⟩, fun xs status ys heq => ?_,
    fun d hd => ?_⟩
  · cases hn
  · cases ho
  · cases hmem
  · cases hmem
  · cases hmem
  · exact absurd heq.symm (append_ne_nil_of_right_ne_nil _ (cons_ne_nil _ _))
  · cases hd

section steps

variable {s s' : State} {torrent : ℕ} {h n : InfoHash}

theorem Inv.live_iff (hs : Inv s) : s.Live torrent ↔ torrent ∈ s.tables.objects := by
  constructor
  · rintro ⟨id, -, ht⟩
    obtain ⟨h, ho, -⟩ := hs.keyed.exist id torrent ht
    exact mem_of_lookup_eq_some ho
  · intro hmem
    obtain ⟨h, ho⟩ := mem_iff.1 hmem
    have ht := hs.owned torrent h ho
    exact ⟨h.toTorrentID, mem_keys.2 (mem_of_lookup_eq_some ht), ht⟩

theorem Inv.exists_native (hs : Inv s) (ho : s.tables.objects.lookup torrent = some h) :
    ∃ n, s.natives.lookup torrent = some n :=
  mem_iff.1 ((hs.natives torrent).2 (mem_of_lookup_eq_some ho))

theorem Inv.exists_hash (hs : Inv s) (hn : s.natives.lookup torrent = some n) :
    ∃ h, s.tables.objects.lookup torrent = some h :=
  mem_iff.1 ((hs.natives torrent).1 (mem_of_lookup_eq_some hn))

theorem Inv.hash_eq (hs : Inv s) (hn : s.natives.lookup torrent = some n)
    (hnot : Alert.metadata torrent ∉ s.alerts) : s.tables.objects.lookup torrent = some n := by
  obtain ⟨h, ho⟩ := hs.exists_hash hn
  have hafter := (hs.known torrent h n ho hn).2
  rwa [hashAfter, if_neg hnot] at hafter

theorem Inv.lookup_iff (hs : Inv s) (ho : s.tables.objects.lookup torrent = some h) :
    s.tables.torrents.lookup n.toTorrentID = some torrent ↔ n.toTorrentID = h.toTorrentID := by
  constructor
  · intro ht
    obtain ⟨h', ho', hid⟩ := hs.keyed.exist _ _ ht
    cases ho.symm.trans ho'
    exact hid.symm
  · intro heq
    rw [heq]
    exact hs.owned torrent h ho

theorem Inv.possible (hs : Inv s) (ho : s.tables.objects.lookup torrent = some h)
    (hn : s.natives.lookup torrent = some n) :
    h ∈ s.tables.live ∧ (n = h ∨ s.tables.Possible (.metadataReceived h n)) := by
  have hlive : h ∈ s.tables.live :=
    mem_live.2 ⟨h.toTorrentID, infoHashOf_eq (hs.owned torrent h ho) ho⟩
  refine ⟨hlive, ?_⟩
  rcases (hs.known torrent h n ho hn).1 with heq | ⟨hone, hboth, hshares⟩
  · exact .inl heq
  · refine .inr ⟨hlive, hone, hboth, hshares, fun h' hlive' hne => ?_⟩
    obtain ⟨torrent', ht', ho'⟩ := hs.keyed.lookup_of_mem_live hlive'
    obtain ⟨n', hn'⟩ := hs.exists_native ho'
    have hother : torrent' ≠ torrent := by
      rintro rfl
      exact hne (Option.some.inj (ho'.symm.trans ho))
    exact Finset.disjoint_of_subset_left (hs.known torrent' h' n' ho' hn').1.ids_subset
      (hs.apart torrent' torrent n' n hn' hn hother)

/-! ### Alerts that are handled -/

theorem Inv.metadataTarget (hs : Inv s) (ho : s.tables.objects.lookup torrent = some h)
    (hn : s.natives.lookup torrent = some n) :
    s.tables.metadataTarget n = some torrent ∧
      Tables.Put s.tables (s.tables.handleMetadataReceived n) torrent n ∧
      (s.tables.handleMetadataReceived n).nextTorrent = s.tables.nextTorrent := by
  obtain ⟨hlive, hchange⟩ := hs.possible ho hn
  obtain ⟨torrent', ht', htarget, hput, -, hnext⟩ := hs.keyed.metadataReceived_put hlive hchange
  obtain rfl : torrent' = torrent :=
    Option.some.inj (ht'.symm.trans (hs.owned torrent h ho))
  exact ⟨htarget, hput, hnext⟩

section

variable (hs : Inv s) {type : AlertType} {alerts : List Alert}

include hs

theorem Inv.target (ho : s.tables.objects.lookup torrent = some h)
    (hn : s.natives.lookup torrent = some n) (hsettled : Alert.Settled s (.about type torrent)) :
    s.target (some n) type = some torrent := by
  have hfind : n.toTorrentID = h.toTorrentID → s.find (some n) = some torrent :=
    (hs.lookup_iff ho).2
  rcases hsettled with rfl | hagrees
  · exact (hs.metadataTarget ho hn).1
  · have hfound := hfind (hagrees h ho n hn)
    cases type with
    | torrentAlert type => rw [State.target, dispatchTorrentAlert, hfound]
    | _ => exact hfound

theorem Inv.target_ne (ho : s.tables.objects.lookup torrent = some h)
    (hne : n.toTorrentID ≠ h.toTorrentID) (htype : type ≠ .torrentAlert .metadataReceived) :
    s.target (some n) type ≠ some torrent := by
  have hfind : s.find (some n) ≠ some torrent := fun ht => hne ((hs.lookup_iff ho).1 ht)
  cases type with
  | torrentAlert type =>
    rw [State.target, dispatchTorrentAlert]
    cases hfound : s.find (some n) with
    | some torrent' =>
      rw [hfound] at hfind
      exact hfind
    | none =>
      rw [if_neg fun heq => htype (by rw [heq])]
      rintro ⟨⟩
  | _ => exact hfind

theorem Inv.deliver (ds : List Delivery)
    (hds : ∀ d ∈ ds, d.live = true → d.target = some d.torrent) :
    Inv { s with deliveries := s.deliveries ++ ds } := by
  refine { hs with delivered := fun d hd => ?_ }
  rcases mem_append.1 hd with hd | hd
  · exact hs.delivered d hd
  · exact hds d hd

theorem Inv.pop {alert : Alert} (ha : s.alerts = alert :: alerts)
    (hnot : ∀ torrent ∈ s.natives, alert ≠ .metadata torrent) :
    Inv { s with alerts := alerts } := by
  have hmem : ∀ {torrent xs}, torrent ∈ s.natives →
      (Alert.metadata torrent ∈ alert :: xs ↔ .metadata torrent ∈ xs) := by
    intro torrent xs hn
    rw [mem_cons]
    exact or_iff_right fun heq => hnot torrent hn heq.symm
  have hafter : ∀ {torrent xs}, torrent ∈ s.natives →
      ({ s with alerts := alerts } : State).hashAfter xs torrent =
        s.hashAfter (alert :: xs) torrent := by
    intro torrent xs hn
    exact if_congr (hmem hn).symm rfl rfl
  refine ⟨hs.keyed, hs.owned, hs.natives, hs.apart, fun torrent h n ho hn => ?_,
    fun torrent hin => hs.awaiting torrent ?_, fun torrent hle => ?_,
    fun xs status ys heq e he hn => ?_, hs.delivered⟩
  · rw [hafter (mem_of_lookup_eq_some hn), ← ha]
    exact hs.known torrent h n ho hn
  · rw [ha]
    exact mem_cons_of_mem _ hin
  · obtain ⟨hnone, hstatus⟩ := hs.fresh torrent hle
    rw [ha] at hnone hstatus
    exact ⟨fun hin => hnone (mem_cons_of_mem _ hin),
      fun status hin => hstatus status (mem_cons_of_mem _ hin)⟩
  · rw [hafter hn]
    refine hs.statuses (alert :: xs) status ys ?_ e he hn
    rw [ha]
    exact congrArg (cons alert) heq

theorem Inv.popMetadata (ha : s.alerts = .metadata torrent :: alerts)
    (ho : s.tables.objects.lookup torrent = some h) (hn : s.natives.lookup torrent = some n) :
    Inv { s with tables := s.tables.handleMetadataReceived n, alerts := alerts } := by
  obtain ⟨-, hput, hnext⟩ := hs.metadataTarget ho hn
  have hafter : ∀ xs torrent', ({ s with
      tables := s.tables.handleMetadataReceived n, alerts := alerts } : State).hashAfter xs torrent' =
        s.hashAfter (.metadata torrent :: xs) torrent' := by
    intro xs torrent'
    rw [hashAfter, hashAfter]
    by_cases heq : torrent' = torrent
    · subst heq
      rw [if_pos (mem_cons_self), hput.lookup_objects, hn, ite_self]
    · have hmem : Alert.metadata torrent' ∈ .metadata torrent :: xs ↔ .metadata torrent' ∈ xs := by
        rw [mem_cons]
        refine or_iff_right fun hsame => heq ?_
        injection hsame
      rw [hput.lookup_objects_of_ne heq]
      exact if_congr hmem.symm rfl rfl
  refine ⟨hs.keyed.of_put hput, hs.owned.of_put hput, fun torrent' => ?_, hs.apart,
    fun torrent' h' n' ho' hn' => ?_, fun torrent' hin => hs.awaiting torrent' ?_,
    fun torrent' hle => ?_, fun xs status ys heq e he hmem => ?_, hs.delivered⟩
  · rw [hs.natives]
    rw [hput.objects, mem_insert]
    refine (or_iff_right_of_imp ?_).symm
    rintro rfl
    exact mem_of_lookup_eq_some ho
  · rw [hafter, ← ha]
    by_cases heq : torrent' = torrent
    · subst heq
      cases hn.symm.trans hn'
      cases hput.lookup_objects.symm.trans ho'
      exact ⟨.inl rfl, (hs.known torrent' h n ho hn).2⟩
    · exact hs.known torrent' h' n' ((hput.lookup_objects_of_ne heq).symm.trans ho') hn'
  · rw [ha]
    exact mem_cons_of_mem _ hin
  · obtain ⟨hnone, hstatus⟩ := hs.fresh torrent' (hnext ▸ hle)
    rw [ha] at hnone hstatus
    exact ⟨fun hin => hnone (mem_cons_of_mem _ hin),
      fun status hin => hstatus status (mem_cons_of_mem _ hin)⟩
  · rw [hafter]
    refine hs.statuses (.metadata torrent :: xs) status ys ?_ e he hmem
    rw [ha]
    exact congrArg (cons _) heq

theorem Inv.handleAlert (hsettled : Settled s .handleAlert) : Inv s.handleAlert := by
  cases ha : s.alerts with
  | nil =>
    rw [State.handleAlert, ha]
    exact hs
  | cons alert alerts =>
    have hsettled : alert.Settled s := hsettled alert (by rw [ha]; rfl)
    rw [State.handleAlert, ha]
    dsimp only
    cases alert with
    | about type torrent =>
      have hdelivery : ∀ d ∈ [(⟨torrent, decide (s.Live torrent),
          s.target (s.natives.lookup torrent) type⟩ : Delivery)],
          d.live = true → d.target = some d.torrent := by
        intro d hd hlive
        rw [mem_singleton.1 hd] at hlive ⊢
        obtain ⟨h, ho⟩ := mem_iff.1 (hs.live_iff.1 (of_decide_eq_true hlive))
        obtain ⟨n, hn⟩ := hs.exists_native ho
        rw [hn]
        exact hs.target ho hn hsettled
      rw [handle]
      by_cases htype : type = .torrentAlert .metadataReceived
      · subst htype
        cases hn : s.natives.lookup torrent with
        | some n =>
          obtain ⟨h, ho⟩ := hs.exists_hash hn
          rw [hn] at hdelivery
          exact (hs.popMetadata ha ho hn).deliver _ hdelivery
        | none =>
          rw [hn] at hdelivery
          refine (hs.pop ha fun torrent' hmem heq => ?_).deliver _ hdelivery
          injection heq with _ heq
          rw [← heq] at hmem
          exact lookup_eq_none.1 hn hmem
      · rw [if_neg htype]
        refine (hs.pop ha fun torrent' _ heq => htype ?_).deliver _ hdelivery
        injection heq
    | stateUpdate status =>
      refine (hs.pop ha fun torrent' _ heq => by cases heq).deliver _ fun d hd hlive => ?_
      obtain ⟨e, he, rfl⟩ := mem_map.1 hd
      have hobject := hs.live_iff.1 (of_decide_eq_true hlive)
      have hhash := hs.statuses [] status alerts ha e he ((hs.natives e.1).2 hobject)
      exact hs.owned e.1 e.2 hhash

theorem not_delivered_handleAlert (hsettled : ¬Settled s .handleAlert) :
    ¬Delivered s.handleAlert := by
  intro hdelivered
  refine hsettled fun alert hmem => ?_
  obtain ⟨alerts, ha⟩ : ∃ alerts, s.alerts = alert :: alerts := by
    obtain ⟨alerts, ha⟩ := head?_eq_some_iff.1 hmem
    exact ⟨alerts, ha⟩
  cases alert with
  | stateUpdate status => trivial
  | about type torrent =>
    by_contra hnot
    rw [Alert.Settled, not_or] at hnot
    obtain ⟨htype, hdisagree⟩ := hnot
    rw [Agrees] at hdisagree
    push Not at hdisagree
    obtain ⟨h, ho, n, hn, hne⟩ := hdisagree
    refine hs.target_ne ho hne htype ?_
    refine hdelivered ⟨torrent, decide (s.Live torrent), s.target (some n) type⟩ ?_
      (decide_eq_true (hs.live_iff.2 (mem_of_lookup_eq_some ho)))
    rw [handleAlert, ha]
    refine mem_append_right _ (mem_singleton.2 ?_)
    rw [← (show s.natives.lookup torrent = some n from hn)]
    rfl

end

/-! ### Other steps -/

theorem append_singleton_cases {l xs ys : List Alert} {a b : Alert}
    (h : l ++ [a] = xs ++ b :: ys) : (xs = l ∧ a = b) ∨ ∃ ys', l = xs ++ b :: ys' := by
  rcases eq_nil_or_concat ys with rfl | ⟨ys', c, rfl⟩
  · obtain ⟨hl, hab⟩ := append_inj' h rfl
    exact .inl ⟨hl.symm, cons.inj hab |>.1⟩
  · have h' : l ++ [a] = (xs ++ b :: ys') ++ [c] := by
      rw [h, append_assoc, cons_append, concat_eq_append]
    exact .inr ⟨ys', (append_inj' h' rfl).1⟩

theorem Inv.congr (hs : Inv s) {tables : Tables} (htorrents : tables.torrents = s.tables.torrents)
    (hobjects : tables.objects = s.tables.objects)
    (hnext : tables.nextTorrent = s.tables.nextTorrent) : Inv { s with tables := tables } := by
  refine ⟨hs.keyed.congr htorrents hobjects hnext, hs.owned.congr htorrents hobjects, ?_, hs.apart,
    ?_, hs.awaiting, ?_, ?_, hs.delivered⟩
  · rw [hobjects]
    exact hs.natives
  · simp only [hashAfter, hobjects]
    exact hs.known
  · rw [hnext]
    exact hs.fresh
  · simp only [hashAfter, hobjects]
    exact hs.statuses

theorem Inv.post (hs : Inv s) {alert : Alert} (hnot : ∀ torrent, alert ≠ .metadata torrent)
    (hstatus : ∀ status, alert = .stateUpdate status → ∀ e ∈ status,
      s.natives.lookup e.1 = some e.2) :
    Inv { s with alerts := s.alerts ++ [alert] } := by
  have hmem : ∀ torrent, Alert.metadata torrent ∈ s.alerts ++ [alert] ↔
      .metadata torrent ∈ s.alerts := by
    intro torrent
    rw [mem_append, List.mem_singleton]
    exact or_iff_left fun heq => hnot torrent heq.symm
  have hknown : ∀ e : ℕ × InfoHash, s.natives.lookup e.1 = some e.2 →
      s.hashAfter s.alerts e.1 = some e.2 := by
    intro e he
    obtain ⟨h, ho⟩ := hs.exists_hash he
    exact (hs.known e.1 h e.2 ho he).2
  refine ⟨hs.keyed, hs.owned, hs.natives, hs.apart, fun torrent h n ho hn => ?_,
    fun torrent hin => hs.awaiting torrent ((hmem torrent).1 hin), fun torrent hle => ?_,
    fun xs status ys heq e he hn => ?_, hs.delivered⟩
  · refine ⟨(hs.known torrent h n ho hn).1, ?_⟩
    refine Eq.trans ?_ (hs.known torrent h n ho hn).2
    exact if_congr (hmem torrent) rfl rfl
  · obtain ⟨hnone, hold⟩ := hs.fresh torrent hle
    refine ⟨fun hin => hnone ((hmem torrent).1 hin), fun status hin e he => ?_⟩
    rcases mem_append.1 hin with hin | hin
    · exact hold status hin e he
    · rintro rfl
      obtain ⟨h, ho⟩ := hs.exists_hash (hstatus status (mem_singleton.1 hin).symm e he)
      rw [hs.keyed.fresh e.1 hle] at ho
      cases ho
  · rcases append_singleton_cases heq with ⟨rfl, halert⟩ | ⟨ys', hsplit⟩
    · exact hknown e (hstatus status halert e he)
    · exact hs.statuses xs status ys' hsplit e he hn

variable {infoHash : InfoHash}

theorem Inv.learnMetadata (hs : Inv s) (hp : s.Possible (.learnMetadata torrent infoHash)) :
    Inv (s.learnMetadata torrent infoHash) := by
  obtain ⟨hawaiting, ⟨n, hn, hbecomes⟩, hapart⟩ := hp
  have hnot : Alert.metadata torrent ∉ s.alerts := fun hin => hs.awaiting torrent hin hawaiting
  have ho := hs.hash_eq hn hnot
  have hlookup : ∀ torrent', (s.natives.insert torrent infoHash).lookup torrent' =
      if torrent' = torrent then some infoHash else s.natives.lookup torrent' := fun torrent' =>
    Dict.lookup_insert_eq _ _ _ _
  have hdisjoint : ∀ torrent' n', torrent' ≠ torrent → s.natives.lookup torrent' = some n' →
      Disjoint n'.ids infoHash.ids := by
    intro torrent' n' hne hn'
    have := hapart torrent' (mem_keys.2 (mem_of_lookup_eq_some hn')) hne
    rwa [hn'] at this
  -- before the alert about its metadata the torrent keeps the hash that it has
  have hafter : ∀ xs torrent', (torrent' = torrent → Alert.metadata torrent ∉ xs) →
      (s.learnMetadata torrent infoHash).hashAfter xs torrent' = s.hashAfter xs torrent' := by
    intro xs torrent' hxs
    rw [hashAfter, hashAfter]
    by_cases hin : Alert.metadata torrent' ∈ xs
    · rw [if_pos hin, if_pos hin]
      have hne : torrent' ≠ torrent := by
        rintro rfl
        exact hxs rfl hin
      exact (hlookup torrent').trans (if_neg hne)
    · rw [if_neg hin, if_neg hin]
      rfl
  have hmem : ∀ torrent', Alert.metadata torrent' ∈ s.alerts ++ [.metadata torrent] ↔
      .metadata torrent' ∈ s.alerts ∨ torrent' = torrent := by
    intro torrent'
    rw [mem_append, List.mem_singleton]
    refine or_congr_right ⟨fun heq => ?_, fun heq => by rw [heq]⟩
    injection heq
  refine ⟨hs.keyed, hs.owned, fun torrent' => ?_, fun a b m m' hm hm' hne => ?_,
    fun torrent' h n' ho' hn' => ?_, fun torrent' hin hmem' => ?_, fun torrent' hle => ?_,
    fun xs status ys heq e he hmem' => ?_, hs.delivered⟩
  · refine Iff.trans ?_ (hs.natives torrent')
    show torrent' ∈ s.natives.insert torrent infoHash ↔ _
    rw [mem_insert]
    refine or_iff_right_of_imp ?_
    rintro rfl
    exact mem_of_lookup_eq_some hn
  · have hm := (hlookup a).symm.trans hm
    have hm' := (hlookup b).symm.trans hm'
    split_ifs at hm hm' with ha hb hb
    · exact absurd (ha.trans hb.symm) hne
    · cases hm
      exact (hdisjoint b m' hb hm').symm
    · cases hm'
      exact hdisjoint a m ha hm
    · exact hs.apart a b m m' hm hm' hne
  · have hn' := (hlookup torrent').symm.trans hn'
    by_cases heq : torrent' = torrent
    · subst heq
      rw [if_pos rfl] at hn'
      cases hn'
      cases ho.symm.trans ho'
      refine ⟨hbecomes, ?_⟩
      refine (if_pos ((hmem torrent').2 (.inr rfl))).trans ?_
      exact (hlookup torrent').trans (if_pos rfl)
    · rw [if_neg heq] at hn'
      refine ⟨(hs.known torrent' h n' ho' hn').1, ?_⟩
      rw [hafter _ _ fun h => absurd h heq]
      refine Eq.trans ?_ (hs.known torrent' h n' ho' hn').2
      exact if_congr ((hmem torrent').trans (or_iff_left heq)) rfl rfl
  · obtain ⟨hne, hmem'⟩ := Finset.mem_erase.1 hmem'
    exact hs.awaiting torrent' (((hmem torrent').1 hin).resolve_right hne) hmem'
  · obtain ⟨hnone, hold⟩ := hs.fresh torrent' hle
    refine ⟨fun hin => ?_, fun status hin => hold status ?_⟩
    · rcases (hmem torrent').1 hin with hin | rfl
      · exact hnone hin
      · rw [hs.keyed.fresh torrent' hle] at ho
        cases ho
    · exact (mem_append.1 hin).resolve_right fun h => by cases mem_singleton.1 h
  · rcases append_singleton_cases heq with ⟨-, halert⟩ | ⟨ys', hsplit⟩
    · cases halert
    · rw [hafter _ _ fun _ hin => hnot ?_]
      · refine hs.statuses xs status ys' hsplit e he ?_
        rcases mem_insert.1 hmem' with heq | hin
        · rw [heq]
          exact mem_of_lookup_eq_some hn
        · exact hin
      · rw [hsplit]
        exact mem_append_left _ hin

theorem Inv.addTorrentAlert (hs : Inv s) {hasMetadata : Bool}
    (hp : s.Possible (.addTorrentAlert infoHash hasMetadata)) :
    Inv (s.addTorrentAlert infoHash hasMetadata) := by
  obtain ⟨hloading, hapart⟩ := hp
  have hdisjoint : ∀ torrent' n', s.natives.lookup torrent' = some n' →
      Disjoint n'.ids infoHash.ids := by
    intro torrent' n' hn'
    obtain ⟨h, ho⟩ := hs.exists_hash hn'
    have hne : torrent' ≠ s.tables.nextTorrent := by
      rintro rfl
      rw [hs.keyed.fresh _ le_rfl] at ho
      cases ho
    have := hapart torrent' (mem_keys.2 (mem_of_lookup_eq_some hn')) hne
    rwa [hn'] at this
  have hpossible : s.tables.Possible (.addTorrentAlert infoHash) := by
    intro h hlive
    obtain ⟨torrent, ht, ho⟩ := hs.keyed.lookup_of_mem_live hlive
    obtain ⟨n, hn⟩ := hs.exists_native ho
    exact Finset.disjoint_of_subset_left (hs.known torrent h n ho hn).1.ids_subset
      (hdisjoint torrent n hn)
  have hput := hs.keyed.addTorrentAlert_put hloading hpossible
  have hnext : (s.tables.handleAddTorrentAlert infoHash).nextTorrent = s.tables.nextTorrent + 1 := by
    rw [handleAddTorrentAlert, if_pos hloading]
    rfl
  have hlookup : ∀ torrent', (s.natives.insert s.tables.nextTorrent infoHash).lookup torrent' =
      if torrent' = s.tables.nextTorrent then some infoHash else s.natives.lookup torrent' :=
    fun torrent' => Dict.lookup_insert_eq _ _ _ _
  obtain ⟨hnone, hnew⟩ := hs.fresh s.tables.nextTorrent le_rfl
  have hafter : ∀ xs torrent', torrent' ≠ s.tables.nextTorrent →
      (s.addTorrentAlert infoHash hasMetadata).hashAfter xs torrent' =
        s.hashAfter xs torrent' := by
    intro xs torrent' hne
    have hn' := (hlookup torrent').trans (if_neg hne)
    have ho' := hput.lookup_objects_of_ne hne
    exact ite_congr rfl (fun _ => hn') fun _ => ho'
  refine ⟨hs.keyed.of_put hput, hs.owned.of_put hput, fun torrent' => ?_,
    fun a b m m' hm hm' hne => ?_, fun torrent' h' n' ho' hn' => ?_, fun torrent' hin hmem => ?_,
    fun torrent' hle => hs.fresh torrent' ?_, fun xs status ys heq e he hmem => ?_, hs.delivered⟩
  · show torrent' ∈ s.natives.insert _ _ ↔ torrent' ∈ (s.tables.handleAddTorrentAlert _).objects
    rw [hput.objects, mem_insert, mem_insert, hs.natives]
  · have hm := (hlookup a).symm.trans hm
    have hm' := (hlookup b).symm.trans hm'
    split_ifs at hm hm' with ha hb hb
    · exact absurd (ha.trans hb.symm) hne
    · cases hm
      exact (hdisjoint b m' hm').symm
    · cases hm'
      exact hdisjoint a m hm
    · exact hs.apart a b m m' hm hm' hne
  · have hn' := (hlookup torrent').symm.trans hn'
    by_cases heq : torrent' = s.tables.nextTorrent
    · subst heq
      rw [if_pos rfl] at hn'
      cases hn'
      cases hput.lookup_objects.symm.trans ho'
      refine ⟨.inl rfl, ?_⟩
      exact (if_neg hnone).trans ho'
    · rw [if_neg heq] at hn'
      have ho' := (hput.lookup_objects_of_ne heq).symm.trans ho'
      rw [hafter _ _ heq]
      exact hs.known torrent' h' n' ho' hn'
  · have hne : torrent' ≠ s.tables.nextTorrent := by
      rintro rfl
      exact hnone hin
    refine hs.awaiting torrent' hin ?_
    rw [State.addTorrentAlert] at hmem
    split_ifs at hmem
    · exact hmem
    · exact Finset.mem_of_mem_insert_of_ne hmem hne
  · rw [State.addTorrentAlert] at hle
    dsimp only at hle
    omega
  · have hne : e.1 ≠ s.tables.nextTorrent := by
      refine hnew status ?_ e he
      have heq : s.alerts = xs ++ .stateUpdate status :: ys := heq
      rw [heq]
      exact mem_append_right _ mem_cons_self
    rw [hafter _ _ hne]
    exact hs.statuses xs status ys heq e he ((mem_insert.1 hmem).resolve_left hne)

theorem Inv.removeTorrent (hs : Inv s) (id : Digest) : Inv (s.removeTorrent id) := by
  cases ht : s.tables.torrents.lookup id with
  | none =>
    rw [State.removeTorrent, ht, Tables.Keyed.removeTorrent_of_eq_none ht]
    exact hs
  | some torrent =>
    have hobjects : (s.tables.removeTorrent id).objects = s.tables.objects.erase torrent := by
      rw [Tables.removeTorrent, ht]
    have hnext : (s.tables.removeTorrent id).nextTorrent = s.tables.nextTorrent := by
      rw [Tables.removeTorrent, ht]
    have hnatives : (s.removeTorrent id).natives = s.natives.erase torrent := by
      rw [State.removeTorrent, ht]
      rfl
    have hold : ∀ {torrent' n}, (s.removeTorrent id).natives.lookup torrent' = some n →
        torrent' ≠ torrent ∧ s.natives.lookup torrent' = some n := by
      intro torrent' n hn
      rw [hnatives, Dict.lookup_erase_eq] at hn
      split_ifs at hn with heq
      exact ⟨heq, hn⟩
    have hafter : ∀ xs torrent', torrent' ≠ torrent →
        (s.removeTorrent id).hashAfter xs torrent' = s.hashAfter xs torrent' := by
      intro xs torrent' hne
      rw [hashAfter, hashAfter, hnatives, lookup_erase_ne hne]
      refine ite_congr rfl (fun _ => rfl) fun _ => ?_
      show (s.tables.removeTorrent id).objects.lookup torrent' = _
      rw [hobjects, lookup_erase_ne hne]
    refine ⟨hs.keyed.removeTorrent id, hs.owned.removeTorrent hs.keyed id, fun torrent' => ?_,
      fun a b m m' hm hm' => hs.apart a b m m' (hold hm).2 (hold hm').2,
      fun torrent' h n ho hn => ?_, hs.awaiting, fun torrent' hle => hs.fresh torrent' ?_,
      fun xs status ys heq e he hmem => ?_, hs.delivered⟩
    · rw [hnatives]
      show _ ↔ torrent' ∈ (s.tables.removeTorrent id).objects
      rw [hobjects, mem_erase, mem_erase, hs.natives]
    · obtain ⟨hne, hn⟩ := hold hn
      rw [hafter _ _ hne]
      refine hs.known torrent' h n ?_ hn
      rw [← lookup_erase_ne hne, ← hobjects]
      exact ho
    · rw [← hnext]
      exact hle
    · rw [hnatives] at hmem
      obtain ⟨hne, hmem⟩ := mem_erase.1 hmem
      rw [hafter _ _ hne]
      exact hs.statuses xs status ys heq e he hmem

theorem Inv.next (hs : Inv s) (e : Event) (hpossible : s.Possible e) (hsettled : Settled s e) :
    Inv (s.next e) := by
  cases e with
  | addTorrent infoHash =>
    cases hadd : s.tables.addTorrent infoHash with
    | none =>
      rw [State.next, hadd]
      exact hs
    | some tables =>
      rw [State.next, hadd, eq_of_addTorrent hadd]
      exact hs.congr rfl rfl rfl
  | addTorrentAlert infoHash hasMetadata => exact hs.addTorrentAlert hpossible
  | addTorrentError infoHash => exact hs.congr rfl rfl rfl
  | removeTorrent id => exact hs.removeTorrent id
  | learnMetadata torrent infoHash => exact hs.learnMetadata hpossible
  | post type torrent =>
    refine hs.post (fun torrent' heq => hpossible.2 ?_) fun status heq => by cases heq
    injection heq
  | postStateUpdate torrents =>
    refine hs.post (fun torrent heq => by cases heq) fun status heq e he => ?_
    cases heq
    obtain ⟨torrent, -, hmap⟩ := mem_filterMap.1 he
    obtain ⟨n, hn, rfl⟩ := Option.map_eq_some_iff.1 hmap
    exact hn
  | handleAlert => exact hs.handleAlert hsettled

end steps

/-- **Alerts are delivered.**  In whatever order torrents are added and removed, alerts are posted and
metadata is learned, the alerts about torrents of the session reach them throughout a run exactly when
each one that is handled is settled. -/
theorem delivered_iff_settled (es : List Event) (hr : (machine.run {} es).isSome) :
    machine.Always Delivered {} es ↔ machine.Meets Settled {} es := by
  refine Machine.guarded_always_iff_meets Inv.init (fun _ hs => hs.delivered)
    (fun _ e hs hpossible hsettled => hs.next e hpossible hsettled)
    (fun s e hs _ hsettled => ?_) hr
  cases e with
  | handleAlert => exact not_delivered_handleAlert hs hsettled
  | _ => exact absurd trivial hsettled

/-- A magnet link with a v1 hash, and what its metadata makes of it. -/
def v1Hash : InfoHash := ⟨1, 0⟩

def hybridHash : InfoHash := ⟨1, 2⟩

/-- A state update and the alert about metadata are posted, then another state update and a reply of a
tracker. -/
def hybridRun : List Event :=
  [.addTorrent v1Hash, .addTorrentAlert v1Hash false, .postStateUpdate [0],
    .learnMetadata 0 hybridHash, .postStateUpdate [0], .post (.tracker .reply) 0, .handleAlert,
    .handleAlert, .handleAlert, .handleAlert]

theorem delivered_iff_settled_hybridRun : machine.Always Delivered {} hybridRun :=
  (delivered_iff_settled hybridRun (by decide)).2 (by decide)

/-- A tracker replies before libtorrent learns the metadata, and the session handles the reply
afterwards. -/
def windowRun : List Event :=
  [.addTorrent v1Hash, .addTorrentAlert v1Hash false, .post (.tracker .reply) 0,
    .learnMetadata 0 hybridHash, .handleAlert]

/-- The reply is lost. -/
theorem windowRun_not_delivered :
    (machine.run {} windowRun).isSome = true ∧ ¬machine.Always Delivered {} windowRun := by
  refine ⟨by decide, fun h => ?_⟩
  obtain ⟨s, hs⟩ : ∃ s, machine.run {} windowRun = some s :=
    Option.isSome_iff_exists.1 (by decide)
  have hend : ∀ s ∈ machine.run {} windowRun, (⟨0, true, none⟩ : Delivery) ∈ s.deliveries := by
    decide
  cases h.at_end hs _ (hend s hs) rfl

end QBittorrent.AlertDispatch
