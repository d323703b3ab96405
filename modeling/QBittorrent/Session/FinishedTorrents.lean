import QBittorrent.Lib.Dict
import QBittorrent.Lib.Machine
import QBittorrent.Session.InfoHash

/-!
# Torrents that are announced as finished

While alerts are handled, torrents that have finished are put into a list, which is processed at the
end of the batch.  The list holds pointers.  A torrent that is being moved, or of which files are
being renamed, is put there when that is done.  What a move request comes to, which files are
renamed and which torrents have reached their share limits is arbitrary here.

* `next_step` : one event;
* `sound_iff_settled` : the list is right exactly in settled runs.
-/

namespace QBittorrent.FinishedTorrents

open List Option Dict

/-- The entries of `m_statusUpdatedTriggers`. -/
inductive StatusTrigger where
  | checked | finished
  deriving DecidableEq

/-- `TorrentImpl`, of which `this` is the address. -/
structure TorrentImpl where
  this : ℕ
  hasFinishedStatus : Bool
  statusUpdatedTriggers : List StatusTrigger := []
  /-- The number of `m_moveFinishedTriggers`; each calls `handleTorrentFinished`. -/
  moveFinishedTriggers : ℕ := 0
  storageIsMoving : Bool := false
  renameCount : ℕ := 0
  /-- How often the torrent has become finished. -/
  finishes : ℕ := 0

/-- What a move request comes to. -/
structure MoveOutcome where
  /-- An inactive job was removed, and the torrent has the active one or not. -/
  canceled : Option Bool := none
  enqueued : Bool := false

/-- What a trigger meets. -/
structure TriggerOutcome where
  move : MoveOutcome := {}
  renames : ℕ := 0
  /-- The status that a check gives, if it gives one. -/
  status : Option Bool := none
  /-- Torrents are rechecked on completion, and this one was not. -/
  recheck : Bool := false

namespace TorrentImpl

variable (t : TorrentImpl)

/-- The calls of the deferred triggers, with the addresses that `handleTorrentFinished` is given. -/
def invokeMoveFinishedTriggers : TorrentImpl × List ℕ :=
  if t.storageIsMoving = false ∧ t.renameCount = 0 then
    ({ t with moveFinishedTriggers := 0 }, List.replicate t.moveFinishedTriggers t.this)
  else (t, [])

def handleMoveStorageJobFinished (hasOutstandingJob : Bool) : TorrentImpl × List ℕ :=
  { t with storageIsMoving := hasOutstandingJob }.invokeMoveFinishedTriggers

/-- `handleFileRenamedAlert` and `handleFileRenameFailedAlert`. -/
def handleFileRenamed : TorrentImpl × List ℕ :=
  { t with renameCount := t.renameCount - 1 }.invokeMoveFinishedTriggers

/-- `moveStorage`, which finishes an inactive job that it removes. -/
def moveStorage (outcome : MoveOutcome) : TorrentImpl × List ℕ :=
  let r :=
    match outcome.canceled with
    | none => (t, [])
    | some torrentHasActiveJob => t.handleMoveStorageJobFinished torrentHasActiveJob
  ({ r.1 with storageIsMoving := r.1.storageIsMoving || outcome.enqueued }, r.2)

/-- `adjustStorageLocation` and `manageActualFilePaths`. -/
def adjust (outcome : TriggerOutcome) : TorrentImpl × List ℕ :=
  let r := t.moveStorage outcome.move
  ({ r.1 with renameCount := r.1.renameCount + outcome.renames }, r.2)

/-- The trigger of `handleTorrentCheckedAlert`. -/
def checkedTrigger (outcome : TriggerOutcome) : TorrentImpl × List ℕ :=
  { t with hasFinishedStatus := outcome.status.getD t.hasFinishedStatus }.adjust outcome

/-- The trigger of `handleTorrentFinishedAlert`. -/
def finishedTrigger (outcome : TriggerOutcome) : TorrentImpl × List ℕ :=
  let r := t.adjust outcome
  if outcome.recheck then r
  else
    let t := { r.1 with
      hasFinishedStatus := true
      finishes := if r.1.hasFinishedStatus then r.1.finishes else r.1.finishes + 1 }
    if t.storageIsMoving = true ∨ 0 < t.renameCount then
      ({ t with moveFinishedTriggers := t.moveFinishedTriggers + 1 }, r.2)
    else (t, r.2 ++ [t.this])

def invokeStatusTrigger (outcome : TriggerOutcome) : StatusTrigger → TorrentImpl × List ℕ
  | .checked => t.checkedTrigger outcome
  | .finished => t.finishedTrigger outcome

end TorrentImpl

/-- What the session is doing: waiting for the next event, updating the status of a torrent, or
processing the list, of which some is left. -/
inductive Phase where
  | idle
  | updating (id : Digest)
  | processing (rest : List ℕ)
  deriving DecidableEq

namespace Phase

/-- The torrent whose status is being updated. -/
def updated : Phase → Option Digest
  | updating id => some id
  | idle | processing _ => none

/-- The address that is processed next. -/
def processed : Phase → Option ℕ
  | processing (this :: _) => some this
  | idle | updating _ | processing [] => none

end Phase

structure SessionImpl where
  torrents : Dict Digest TorrentImpl := ∅
  pendingFinishedTorrents : List ℕ := []
  phase : Phase := .idle
  nextAddress : ℕ := 0
  /-- The addresses of the torrents announced as finished. -/
  announced : List ℕ := []

/-- The alerts, requests and steps of loops. -/
inductive SessionEvent where
  | addTorrent (id : Digest) (hasFinishedStatus : Bool)
  | removeTorrent (id : Digest)
  | torrentFinished (id : Digest)
  | torrentChecked (id : Digest)
  | stateUpdate (id : Digest)
  | trigger (outcome : TriggerOutcome)
  | moveFinished (id : Digest) (hasOutstandingJob : Bool)
  | moveStorage (id : Digest) (outcome : MoveOutcome)
  | renameFile (id : Digest)
  | fileRenamed (id : Digest)
  | prioritizeFiles (id : Digest) (reset : Bool) (renames : ℕ)
  | endBatch
  | process (removed : Option Digest)

namespace SessionImpl

variable (s : SessionImpl)

/-- A torrent after an event, and the calls of `handleTorrentFinished`. -/
def withTorrent (id : Digest) (r : TorrentImpl × List ℕ) : SessionImpl :=
  { s with
    torrents := s.torrents.insert id r.1
    pendingFinishedTorrents := s.pendingFinishedTorrents ++ r.2 }

/-- An event of a torrent, if there is one. -/
def onTorrent (id : Digest) (f : TorrentImpl → TorrentImpl × List ℕ) : SessionImpl :=
  match s.torrents.lookup id with
  | none => s
  | some t => s.withTorrent id (f t)

/-- A new torrent object. -/
def addTorrent (id : Digest) (hasFinishedStatus : Bool) : SessionImpl :=
  { s with
    torrents := s.torrents.insert id { this := s.nextAddress, hasFinishedStatus := hasFinishedStatus }
    nextAddress := s.nextAddress + 1 }

/-- `removeTorrent`, of a request, the share limits or a conflict: the list is left as it is. -/
def removeTorrent (id : Digest) : SessionImpl := { s with torrents := s.torrents.erase id }

/-- `TorrentImpl::updateStatus` begins to invoke the triggers. -/
def stateUpdate (id : Digest) : SessionImpl :=
  match s.torrents.lookup id with
  | none => s
  | some t => if t.statusUpdatedTriggers = [] then s else { s with phase := .updating id }

/-- `TorrentImpl::updateStatus` invokes a trigger. -/
def trigger (outcome : TriggerOutcome) : SessionImpl :=
  match s.phase with
  | .updating id =>
    match s.torrents.lookup id with
    | none => { s with phase := .idle }
    | some t =>
      match t.statusUpdatedTriggers with
      | [] => { s with phase := .idle }
      | first :: rest =>
        { s.withTorrent id
            ({ t with statusUpdatedTriggers := rest }.invokeStatusTrigger outcome first) with
          phase := if rest = [] then .idle else .updating id }
  | _ => s

/-- `processPendingFinishedTorrents` begins. -/
def endBatch : SessionImpl :=
  if s.pendingFinishedTorrents = [] then s
  else { s with phase := .processing s.pendingFinishedTorrents }

/-- `processPendingFinishedTorrents` announces a torrent, which is removed if it has reached its
share limits; after the last one the list is cleared. -/
def process (removed : Option Digest) : SessionImpl :=
  match s.phase with
  | .processing (this :: rest) =>
    { s with
      announced := s.announced ++ [this]
      torrents := removed.elim s.torrents fun id => s.torrents.erase id
      pendingFinishedTorrents := if rest = [] then [] else s.pendingFinishedTorrents
      phase := if rest = [] then .idle else .processing rest }
  | _ => s

def next : SessionEvent → SessionImpl
  | .addTorrent id hasFinishedStatus => s.addTorrent id hasFinishedStatus
  | .removeTorrent id => s.removeTorrent id
  | .torrentFinished id => s.onTorrent id fun t =>
    (if t.hasFinishedStatus then t
      else { t with statusUpdatedTriggers := t.statusUpdatedTriggers ++ [.finished] }, [])
  | .torrentChecked id => s.onTorrent id fun t =>
    ({ t with statusUpdatedTriggers := t.statusUpdatedTriggers ++ [.checked] }, [])
  | .stateUpdate id => s.stateUpdate id
  | .trigger outcome => s.trigger outcome
  | .moveFinished id hasOutstandingJob => s.onTorrent id fun t =>
    t.handleMoveStorageJobFinished hasOutstandingJob
  | .moveStorage id outcome => s.onTorrent id fun t => t.moveStorage outcome
  | .renameFile id => s.onTorrent id fun t => ({ t with renameCount := t.renameCount + 1 }, [])
  | .fileRenamed id => s.onTorrent id fun t => t.handleFileRenamed
  | .prioritizeFiles id reset renames => s.onTorrent id fun t =>
    ({ t with
      hasFinishedStatus := t.hasFinishedStatus && !reset
      renameCount := t.renameCount + renames }, [])
  | .endBatch => s.endBatch
  | .process removed => s.process removed

/-- Loops run to their end; an added torrent is new, a file is renamed that was to be, and share
limits remove the torrent that they are checked for. -/
def Possible : SessionEvent → Prop
  | .trigger _ => s.phase.updated.isSome = true
  | .process removed => ∃ this ∈ s.phase.processed,
    ∀ id ∈ removed, ∃ t ∈ s.torrents.lookup id, t.this = this
  | .addTorrent id _ => s.phase = .idle ∧ id ∉ s.torrents
  | .fileRenamed id => s.phase = .idle ∧ ∀ t ∈ s.torrents.lookup id, 0 < t.renameCount
  | .removeTorrent _ | .torrentFinished _ | .torrentChecked _ | .stateUpdate _ | .moveFinished ..
  | .moveStorage .. | .renameFile _ | .prioritizeFiles .. | .endBatch => s.phase = .idle

instance : DecidablePred s.Possible
  | .trigger _ => inferInstanceAs (Decidable (_ = true))
  | .process removed =>
    -- not by going through all IDs
    have (this : ℕ) : Decidable (∀ id ∈ removed, ∃ t ∈ s.torrents.lookup id, t.this = this) :=
      removed.decidableForallMem
    s.phase.processed.decidableExistsMem
  | .addTorrent .. => inferInstanceAs (Decidable (_ ∧ _))
  | .fileRenamed _ => inferInstanceAs (Decidable (_ ∧ _))
  | .removeTorrent _ | .torrentFinished _ | .torrentChecked _ | .stateUpdate _ | .moveFinished ..
  | .moveStorage .. | .renameFile _ | .prioritizeFiles .. | .endBatch =>
    inferInstanceAs (Decidable (s.phase = .idle))

end SessionImpl

/-- The runs of a session. -/
def machine : Machine SessionImpl SessionEvent where
  step s e := if s.Possible e then some (s.next e) else none

/-! ### The calls of an event -/

/-- What an event of a torrent does: it calls `handleTorrentFinished` `k` times, and `excess` calls,
or triggers, are for no change of its status. -/
structure Calls (t : TorrentImpl) (r : TorrentImpl × List ℕ) (k excess : ℕ) : Prop where
  this : r.1.this = t.this
  calls : r.2 = List.replicate k t.this
  balance : r.1.finishes + t.moveFinishedTriggers + excess =
    t.finishes + r.1.moveFinishedTriggers + k

namespace TorrentImpl

variable (t : TorrentImpl)

/-- The number of deferred triggers that are invoked when a job is finished. -/
def released (hasOutstandingJob : Option Bool) : ℕ :=
  if hasOutstandingJob = some false ∧ t.renameCount = 0 then t.moveFinishedTriggers else 0

/-- A finished torrent is put into the list at once. -/
def ListedAtOnce (outcome : TriggerOutcome) : Prop :=
  (outcome.move.canceled.getD t.storageIsMoving || outcome.move.enqueued) = false ∧
    t.renameCount + outcome.renames = 0
  deriving Decidable

/-- The number of calls of the trigger. -/
def listed (outcome : TriggerOutcome) : ℕ :=
  t.released outcome.move.canceled +
    if outcome.recheck = false ∧ t.ListedAtOnce outcome then 1 else 0

theorem calls_nothing (t' : TorrentImpl) (hthis : t'.this = t.this)
    (hfinishes : t'.finishes = t.finishes)
    (htriggers : t'.moveFinishedTriggers = t.moveFinishedTriggers) : Calls t (t', []) 0 0 :=
  ⟨hthis, rfl, by simp only [hfinishes, htriggers]⟩

theorem calls_invokeMoveFinishedTriggers :
    Calls t t.invokeMoveFinishedTriggers
      (if t.storageIsMoving = false ∧ t.renameCount = 0 then t.moveFinishedTriggers else 0) 0 := by
  rw [invokeMoveFinishedTriggers]
  split_ifs
  · exact ⟨rfl, rfl, rfl⟩
  · exact t.calls_nothing _ rfl rfl rfl

theorem calls_handleMoveStorageJobFinished (hasOutstandingJob : Bool) :
    Calls t (t.handleMoveStorageJobFinished hasOutstandingJob)
      (t.released (some hasOutstandingJob)) 0 := by
  obtain ⟨hthis, hcalls, hbalance⟩ :=
    { t with storageIsMoving := hasOutstandingJob }.calls_invokeMoveFinishedTriggers
  simp only [released, some_inj]
  exact ⟨hthis, hcalls, hbalance⟩

theorem calls_handleFileRenamed :
    Calls t t.handleFileRenamed
      (if t.storageIsMoving = false ∧ t.renameCount - 1 = 0 then t.moveFinishedTriggers else 0)
      0 := by
  obtain ⟨hthis, hcalls, hbalance⟩ :=
    { t with renameCount := t.renameCount - 1 }.calls_invokeMoveFinishedTriggers
  exact ⟨hthis, hcalls, hbalance⟩

theorem calls_moveStorage (outcome : MoveOutcome) :
    Calls t (t.moveStorage outcome) (t.released outcome.canceled) 0 := by
  rw [moveStorage]
  cases outcome.canceled with
  | none =>
    exact t.calls_nothing _ rfl rfl rfl
  | some torrentHasActiveJob =>
    obtain ⟨hthis, hcalls, hbalance⟩ := t.calls_handleMoveStorageJobFinished torrentHasActiveJob
    exact ⟨hthis, hcalls, hbalance⟩

theorem calls_adjust (outcome : TriggerOutcome) :
    Calls t (t.adjust outcome) (t.released outcome.move.canceled) 0 := by
  obtain ⟨hthis, hcalls, hbalance⟩ := t.calls_moveStorage outcome.move
  exact ⟨hthis, hcalls, hbalance⟩

theorem calls_checkedTrigger (outcome : TriggerOutcome) :
    Calls t (t.checkedTrigger outcome) (t.released outcome.move.canceled) 0 := by
  obtain ⟨hthis, hcalls, hbalance⟩ :=
    { t with hasFinishedStatus := outcome.status.getD t.hasFinishedStatus }.calls_adjust outcome
  exact ⟨hthis, hcalls, hbalance⟩

theorem adjust_fst (outcome : TriggerOutcome) :
    (t.adjust outcome).1.renameCount = t.renameCount + outcome.renames ∧
      (t.adjust outcome).1.hasFinishedStatus = t.hasFinishedStatus ∧
      (t.adjust outcome).1.storageIsMoving =
        (outcome.move.canceled.getD t.storageIsMoving || outcome.move.enqueued) := by
  rw [adjust, moveStorage]
  cases outcome.move.canceled with
  | none => exact ⟨rfl, rfl, rfl⟩
  | some torrentHasActiveJob =>
    simp only [handleMoveStorageJobFinished, invokeMoveFinishedTriggers]
    split_ifs
    · exact ⟨rfl, rfl, rfl⟩
    · exact ⟨rfl, rfl, rfl⟩

theorem calls_finishedTrigger (outcome : TriggerOutcome) :
    Calls t (t.finishedTrigger outcome) (t.listed outcome)
      (if outcome.recheck = false ∧ t.hasFinishedStatus = true then 1 else 0) := by
  obtain ⟨hthis, hcalls, hbalance⟩ := t.calls_adjust outcome
  obtain ⟨hrenames, hstatus, hmoving⟩ := t.adjust_fst outcome
  rw [finishedTrigger, listed]
  cases hrecheck : outcome.recheck with
  | true => exact ⟨hthis, by simpa using hcalls, by simpa using hbalance⟩
  | false =>
    have hbusy : ((t.adjust outcome).1.storageIsMoving = true ∨
        0 < (t.adjust outcome).1.renameCount) ↔ ¬t.ListedAtOnce outcome := by
      rw [ListedAtOnce, ← hmoving, ← hrenames, not_and_or, Bool.not_eq_false, Nat.pos_iff_ne_zero]
    simp only [Bool.false_eq_true, if_false, true_and, hbusy, hstatus]
    by_cases hlisted : t.ListedAtOnce outcome
    · rw [if_neg (not_not.2 hlisted), if_pos hlisted]
      refine ⟨hthis, ?_, ?_⟩
      · simp only [hcalls, hthis, replicate_succ']
      · simp only
        split_ifs <;> omega
    · rw [if_pos hlisted, if_neg hlisted]
      refine ⟨hthis, hcalls, ?_⟩
      simp only
      split_ifs <;> omega

end TorrentImpl

/-! ### The list -/

def Phase.left : Phase → Option (List ℕ)
  | processing rest => some rest
  | idle | updating _ => none

/-- The addresses that are to be processed. -/
def SessionImpl.waiting (s : SessionImpl) : List ℕ := s.phase.left.getD s.pendingFinishedTorrents

/-- The torrents to be processed exist, each is processed once, and each torrent has been announced,
or is to be, as often as it has become finished. -/
structure Sound (s : SessionImpl) : Prop where
  live : ∀ this ∈ s.waiting, ∃ id, ∃ t ∈ s.torrents.lookup id, t.this = this
  once : s.waiting.Nodup
  balanced : ∀ id, ∀ t ∈ s.torrents.lookup id,
    t.finishes = s.announced.count t.this + s.waiting.count t.this + t.moveFinishedTriggers

/-- A torrent can be put into the list `k` times. -/
def Room (s : SessionImpl) (t : TorrentImpl) (k : ℕ) : Prop :=
  k = 0 ∨ k = 1 ∧ t.this ∉ s.pendingFinishedTorrents
  deriving Decidable

/-- No torrent is removed, or put into the list, while it is in it, and a torrent that has the
status does not become finished again. -/
def Settled (s : SessionImpl) : SessionEvent → Prop
  | .removeTorrent id => ∀ t ∈ s.torrents.lookup id, t.this ∉ s.pendingFinishedTorrents
  | .moveFinished id hasOutstandingJob =>
    ∀ t ∈ s.torrents.lookup id, Room s t (t.released (some hasOutstandingJob))
  | .moveStorage id outcome => ∀ t ∈ s.torrents.lookup id, Room s t (t.released outcome.canceled)
  | .fileRenamed id => ∀ t ∈ s.torrents.lookup id,
    t.storageIsMoving = false → t.renameCount = 1 → Room s t t.moveFinishedTriggers
  | .trigger outcome => ∀ id ∈ s.phase.updated, ∀ t ∈ s.torrents.lookup id,
    (t.statusUpdatedTriggers.head? = some .checked → Room s t (t.released outcome.move.canceled)) ∧
    (t.statusUpdatedTriggers.head? = some .finished → Room s t (t.listed outcome) ∧
      ¬(outcome.recheck = false ∧ t.hasFinishedStatus = true))
  | .addTorrent .. | .torrentFinished _ | .torrentChecked _ | .stateUpdate _ | .renameFile _
  | .prioritizeFiles .. | .endBatch | .process _ => True

instance decidableSettled (s : SessionImpl) : DecidablePred (Settled s)
  | .removeTorrent _ | .moveFinished .. | .moveStorage .. | .fileRenamed _ =>
    inferInstanceAs (Decidable (∀ t ∈ s.torrents.lookup _, _))
  | .trigger _ => s.phase.updated.decidableForallMem
  | .addTorrent .. | .torrentFinished _ | .torrentChecked _ | .stateUpdate _ | .renameFile _
  | .prioritizeFiles .. | .endBatch | .process _ => isTrue trivial

/-- The list is sound, and addresses are given out once. -/
structure Inv (s : SessionImpl) : Prop extends Sound s where
  bounded : ∀ id, ∀ t ∈ s.torrents.lookup id, t.this < s.nextAddress
  announcedBounded : ∀ this ∈ s.announced, this < s.nextAddress
  distinct : ∀ id id' t t', s.torrents.lookup id = some t → s.torrents.lookup id' = some t' →
    t.this = t'.this → id = id'

section

variable {s : SessionImpl} {id : Digest} {t : TorrentImpl} {r : TorrentImpl × List ℕ}
  {k excess : ℕ} {phase : Phase}

theorem nodup_append_replicate {l : List ℕ} {this : ℕ} :
    (l ++ List.replicate k this).Nodup ↔ l.Nodup ∧ (k = 0 ∨ k = 1 ∧ this ∉ l) := by
  rw [nodup_append', nodup_replicate]
  rcases k with _ | _ | k
  · simp
  · simp
  · simp

theorem sound_withTorrent_iff (hs : Inv s) (hleft : s.phase.left = none)
    (ht : s.torrents.lookup id = some t) (hc : Calls t r k excess) (hphase : phase.left = none) :
    Sound { s.withTorrent id r with phase := phase } ↔ Room s t k ∧ excess = 0 := by
  obtain ⟨hthis, hcalls, hbalance⟩ := hc
  have hwaiting : s.waiting = s.pendingFinishedTorrents := by rw [SessionImpl.waiting, hleft]; rfl
  have hwaiting' : ({ s.withTorrent id r with phase := phase } : SessionImpl).waiting =
      s.pendingFinishedTorrents ++ replicate k t.this := by
    rw [SessionImpl.waiting, hphase, ← hcalls]
    rfl
  have hself : (s.torrents.insert id r.1).lookup id = some r.1 := by
    rw [lookup_insert_eq, if_pos rfl]
  have hothers : ∀ id' ≠ id, (s.torrents.insert id r.1).lookup id' = s.torrents.lookup id' := by
    intro id' hid
    rw [lookup_insert_eq, if_neg hid]
  have hold := hs.balanced id t ht
  rw [hwaiting] at hold
  constructor
  · intro hsound
    have honce := hsound.once
    have hnew := hsound.balanced id r.1 hself
    rw [hwaiting'] at honce hnew
    refine ⟨(nodup_append_replicate.1 honce).2, ?_⟩
    rw [hthis, count_append, count_replicate_self] at hnew
    change r.1.finishes = s.announced.count t.this + _ + _ at hnew
    omega
  · rintro ⟨hroom, rfl⟩
    refine ⟨fun this hmem => ?_, ?_, fun id' t' ht' => ?_⟩
    · rw [hwaiting'] at hmem
      have hmem : this ∈ s.waiting ∨ this = t.this := by
        rcases mem_append.1 hmem with hmem | hmem
        · exact .inl (hwaiting ▸ hmem)
        · exact .inr (eq_of_mem_replicate hmem)
      rcases hmem with hmem | rfl
      · obtain ⟨id', t', ht', rfl⟩ := hs.live this hmem
        by_cases hid : id' = id
        · subst hid
          cases ht.symm.trans ht'
          exact ⟨id', r.1, hself, hthis⟩
        · exact ⟨id', t', (hothers id' hid).trans ht', rfl⟩
      · exact ⟨id, r.1, hself, hthis⟩
    · rw [hwaiting', nodup_append_replicate, ← hwaiting]
      exact ⟨hs.once, hwaiting ▸ hroom⟩
    · rw [hwaiting', count_append]
      change t'.finishes = s.announced.count t'.this + _ + _
      by_cases hid : id' = id
      · subst hid
        cases hself.symm.trans ht'
        rw [hthis, count_replicate_self]
        omega
      · replace ht' : s.torrents.lookup id' = some t' := (hothers id' hid).symm.trans ht'
        have hne : t'.this ≠ t.this := fun he => hid (hs.distinct id' id t' t ht' ht he)
        rw [count_eq_zero.2 fun hmem => hne (eq_of_mem_replicate hmem), Nat.add_zero,
          ← hwaiting]
        exact hs.balanced id' t' ht'

theorem inv_withTorrent (hs : Inv s) (ht : s.torrents.lookup id = some t)
    (hthis : r.1.this = t.this) (hsound : Sound { s.withTorrent id r with phase := phase }) :
    Inv { s.withTorrent id r with phase := phase } := by
  have hold : ∀ id' t', (s.torrents.insert id r.1).lookup id' = some t' →
      ∃ t'', s.torrents.lookup id' = some t'' ∧ t''.this = t'.this := by
    intro id' t' ht'
    rw [lookup_insert_eq] at ht'
    split_ifs at ht' with hid
    · cases ht'
      exact ⟨t, hid ▸ ht, hthis.symm⟩
    · exact ⟨t', ht', rfl⟩
  refine ⟨hsound, fun id' t' ht' => ?_, hs.announcedBounded, fun id₁ id₂ t₁ t₂ h₁ h₂ he => ?_⟩
  · obtain ⟨t'', ht'', he⟩ := hold id' t' ht'
    exact he ▸ hs.bounded id' t'' ht''
  · obtain ⟨t₁', h₁', he₁⟩ := hold id₁ t₁ h₁
    obtain ⟨t₂', h₂', he₂⟩ := hold id₂ t₂ h₂
    exact hs.distinct id₁ id₂ t₁' t₂' h₁' h₂' (he₁.trans (he.trans he₂.symm))

end

/-! ### Events -/

section

variable {s : SessionImpl} {id : Digest} {t : TorrentImpl}

theorem Room.zero : Room s t 0 := .inl rfl

theorem lookup_erase_mem {id' : Digest} :
    t ∈ (s.torrents.erase id).lookup id' ↔ id' ≠ id ∧ t ∈ s.torrents.lookup id' := by
  rw [lookup_erase_eq]
  split_ifs with hid
  · simp [hid]
  · simp [hid]

theorem waiting_of_idle (hidle : s.phase = .idle) : s.waiting = s.pendingFinishedTorrents := by
  rw [SessionImpl.waiting, hidle]
  rfl

section

variable (hs : Inv s) {f : TorrentImpl → TorrentImpl × List ℕ} {k : TorrentImpl → ℕ}

include hs

theorem sound_onTorrent_iff (hidle : s.phase = .idle) (id : Digest)
    (hc : ∀ t, Calls t (f t) (k t) 0) :
    Sound (s.onTorrent id f) ↔ ∀ t ∈ s.torrents.lookup id, Room s t (k t) := by
  rw [SessionImpl.onTorrent]
  cases ht : s.torrents.lookup id with
  | none => exact iff_of_true hs.toSound nofun
  | some t =>
    have hleft : s.phase.left = none := by rw [hidle]; rfl
    refine (sound_withTorrent_iff hs hleft ht (hc t) hleft).trans ?_
    simp

theorem inv_onTorrent (id : Digest) (hc : ∀ t, Calls t (f t) (k t) 0)
    (hsound : Sound (s.onTorrent id f)) : Inv (s.onTorrent id f) := by
  rw [SessionImpl.onTorrent] at hsound ⊢
  cases ht : s.torrents.lookup id with
  | none => exact hs
  | some t =>
    rw [ht] at hsound
    exact inv_withTorrent hs ht (hc t).this hsound

theorem addTorrent_inv (hid : id ∉ s.torrents) (hasFinishedStatus : Bool) :
    Inv (s.addTorrent id hasFinishedStatus) := by
  have hnew : ∀ id' t, (s.addTorrent id hasFinishedStatus).torrents.lookup id' = some t →
      (id' = id ∧ t = { this := s.nextAddress, hasFinishedStatus := hasFinishedStatus }) ∨
        s.torrents.lookup id' = some t := by
    intro id' t ht
    simp only [SessionImpl.addTorrent, lookup_insert_eq] at ht
    split_ifs at ht with he
    · cases ht
      exact .inl ⟨he, rfl⟩
    · exact .inr ht
  have hwaiting : ∀ this ∈ s.waiting, this < s.nextAddress := by
    intro this hmem
    obtain ⟨id', t, ht, rfl⟩ := hs.live this hmem
    exact hs.bounded id' t ht
  refine ⟨⟨fun this hmem => ?_, hs.once, fun id' t ht => ?_⟩, fun id' t ht => ?_,
    fun this hmem => Nat.lt_succ_of_lt (hs.announcedBounded this hmem),
    fun id₁ id₂ t₁ t₂ h₁ h₂ he => ?_⟩
  · obtain ⟨id', t, ht, rfl⟩ := hs.live this hmem
    have hne : id' ≠ id := by
      rintro rfl
      exact hid ((mem_iff_isSome _ _).2 (isSome_iff_exists.2 ⟨t, ht⟩))
    refine ⟨id', t, ?_, rfl⟩
    simpa only [SessionImpl.addTorrent, lookup_insert_eq, if_neg hne] using ht
  · rcases hnew id' t ht with ⟨-, rfl⟩ | ht
    · change 0 = s.announced.count s.nextAddress + s.waiting.count s.nextAddress + 0
      rw [count_eq_zero.2 fun hmem => Nat.lt_irrefl _ (hs.announcedBounded _ hmem),
        count_eq_zero.2 fun hmem => Nat.lt_irrefl _ (hwaiting _ hmem)]
    · exact hs.balanced id' t ht
  · rcases hnew id' t ht with ⟨-, rfl⟩ | ht
    · exact Nat.lt_succ_self _
    · exact Nat.lt_succ_of_lt (hs.bounded id' t ht)
  · rcases hnew id₁ t₁ h₁ with ⟨rfl, rfl⟩ | hold₁ <;>
      rcases hnew id₂ t₂ h₂ with ⟨rfl, rfl⟩ | hold₂
    · rfl
    · exact absurd he.symm (hs.bounded id₂ t₂ hold₂).ne
    · exact absurd he (hs.bounded id₁ t₁ hold₁).ne
    · exact hs.distinct id₁ id₂ t₁ t₂ hold₁ hold₂ he

theorem sound_removeTorrent_iff (hidle : s.phase = .idle) :
    Sound (s.removeTorrent id) ↔
      ∀ t ∈ s.torrents.lookup id, t.this ∉ s.pendingFinishedTorrents := by
  rw [← waiting_of_idle hidle]
  constructor
  · intro hsound t ht hmem
    obtain ⟨id', t', ht', he⟩ := hsound.live t.this hmem
    obtain ⟨hne, ht'⟩ := lookup_erase_mem.1 ht'
    exact hne (hs.distinct id' id t' t ht' ht he)
  · intro hnotMem
    refine ⟨fun this hmem => ?_, hs.once, fun id' t ht => ?_⟩
    · obtain ⟨id', t, ht, rfl⟩ := hs.live this hmem
      have hne : id' ≠ id := by
        rintro rfl
        exact hnotMem t ht hmem
      exact ⟨id', t, lookup_erase_mem.2 ⟨hne, ht⟩, rfl⟩
    · exact hs.balanced id' t (lookup_erase_mem.1 ht).2

theorem inv_removeTorrent (hsound : Sound (s.removeTorrent id)) : Inv (s.removeTorrent id) where
  toSound := hsound
  bounded id' t ht := hs.bounded id' t (lookup_erase_mem.1 ht).2
  announcedBounded := hs.announcedBounded
  distinct id₁ id₂ t₁ t₂ h₁ h₂ :=
    hs.distinct id₁ id₂ t₁ t₂ (lookup_erase_mem.1 h₁).2 (lookup_erase_mem.1 h₂).2

theorem Inv.withPhase {phase : Phase}
    (hwaiting : ({ s with phase := phase } : SessionImpl).waiting = s.waiting) :
    Inv { s with phase := phase } := { hs with
  live this hmem := hs.live this (hwaiting ▸ hmem)
  once := hwaiting ▸ hs.once
  balanced id t ht := by
    rw [hwaiting]
    exact hs.balanced id t ht }

theorem stateUpdate_inv (hidle : s.phase = .idle) (id : Digest) : Inv (s.stateUpdate id) := by
  rw [SessionImpl.stateUpdate]
  cases s.torrents.lookup id with
  | none => exact hs
  | some t =>
    dsimp only
    split_ifs
    · exact hs
    · exact hs.withPhase (waiting_of_idle hidle).symm

theorem endBatch_inv (hidle : s.phase = .idle) : Inv s.endBatch := by
  rw [SessionImpl.endBatch]
  split_ifs
  · exact hs
  · exact hs.withPhase (waiting_of_idle hidle).symm

theorem process_inv {removed : Option Digest} (hp : s.Possible (.process removed)) :
    Inv (s.process removed) := by
  obtain ⟨this, hthis, hremoved⟩ := hp
  obtain ⟨rest, hphase⟩ : ∃ rest, s.phase = .processing (this :: rest) := by
    cases hphase : s.phase with
    | processing left =>
      rw [hphase] at hthis
      rcases left with _ | ⟨this', rest⟩
      · cases hthis
      · cases hthis
        exact ⟨rest, rfl⟩
    | idle | updating => rw [hphase] at hthis; cases hthis
  have hwaiting : s.waiting = this :: rest := by
    rw [SessionImpl.waiting, hphase]
    rfl
  have hwaiting' : (s.process removed).waiting = rest := by
    rw [SessionImpl.process, hphase]
    dsimp only
    split_ifs with hrest
    · rw [hrest]
      rfl
    · rfl
  have htorrents : ∀ id t, (s.process removed).torrents.lookup id = some t ↔
      s.torrents.lookup id = some t ∧ some id ≠ removed := by
    intro id t
    rw [SessionImpl.process, hphase]
    cases removed with
    | none => simp
    | some id' =>
      change t ∈ (s.torrents.erase id').lookup id ↔ _
      rw [lookup_erase_mem, and_comm, mem_def, ne_eq, ne_eq, some_inj]
  have hannounced : (s.process removed).announced = s.announced ++ [this] := by
    rw [SessionImpl.process, hphase]
  have hnext : (s.process removed).nextAddress = s.nextAddress := by
    rw [SessionImpl.process, hphase]
  have honce := hs.once
  rw [hwaiting, nodup_cons] at honce
  refine ⟨⟨fun p hp => ?_, hwaiting' ▸ honce.2, fun id t ht => ?_⟩, fun id t ht => ?_,
    fun p hp => ?_, fun id₁ id₂ t₁ t₂ h₁ h₂ =>
      hs.distinct id₁ id₂ t₁ t₂ ((htorrents _ _).1 h₁).1 ((htorrents _ _).1 h₂).1⟩
  · rw [hwaiting'] at hp
    obtain ⟨id, t, ht, rfl⟩ := hs.live p (by rw [hwaiting]; exact mem_cons_of_mem _ hp)
    refine ⟨id, t, (htorrents id t).2 ⟨ht, ?_⟩, rfl⟩
    rintro rfl
    obtain ⟨t', ht', he⟩ := hremoved id rfl
    cases (mem_def.1 ht).symm.trans ht'
    exact honce.1 (he ▸ hp)
  · have := hs.balanced id t ((htorrents id t).1 ht).1
    rw [hwaiting, count_cons] at this
    rw [hwaiting', hannounced, count_append, count_singleton, this]
    omega
  · rw [hnext]
    exact hs.bounded id t ((htorrents id t).1 ht).1
  · rw [hnext]
    rw [hannounced] at hp
    rcases mem_append.1 hp with hp | hp
    · exact hs.announcedBounded p hp
    · obtain ⟨id, t, ht, he⟩ := hs.live this (by rw [hwaiting]; exact mem_cons_self)
      rw [mem_singleton.1 hp, ← he]
      exact hs.bounded id t ht

end

end

variable {s : SessionImpl} {outcome : TriggerOutcome} {e : SessionEvent}

theorem sound_trigger_iff (hs : Inv s) {id : Digest} (hphase : s.phase = .updating id)
    {t : TorrentImpl} (ht : s.torrents.lookup id = some t) {first : StatusTrigger}
    {rest : List StatusTrigger} (htriggers : t.statusUpdatedTriggers = first :: rest) {k excess : ℕ}
    (hc : Calls t ({ t with statusUpdatedTriggers := rest }.invokeStatusTrigger outcome first) k
      excess) :
    (Sound (s.trigger outcome) ↔ Room s t k ∧ excess = 0) ∧
      (Sound (s.trigger outcome) → Inv (s.trigger outcome)) := by
  have hleft : s.phase.left = none := by
    rw [hphase]
    rfl
  have hleft' : (if rest = [] then Phase.idle else .updating id).left = none := by
    split_ifs <;> rfl
  simp only [SessionImpl.trigger, hphase, ht, htriggers]
  exact ⟨sound_withTorrent_iff hs hleft ht hc hleft', inv_withTorrent hs ht hc.this⟩

theorem trigger_step (hs : Inv s) (hp : s.Possible (.trigger outcome)) :
    (Sound (s.trigger outcome) ↔ Settled s (.trigger outcome)) ∧
      (Sound (s.trigger outcome) → Inv (s.trigger outcome)) := by
  obtain ⟨id, hupdated⟩ := isSome_iff_exists.1 hp
  have hphase : s.phase = .updating id := by
    cases hphase : s.phase with
    | updating id' =>
      rw [hphase] at hupdated
      rw [some.inj hupdated]
    | idle | processing =>
      rw [hphase] at hupdated
      cases hupdated
  have hleft : s.phase.left = none := by
    rw [hphase]
    rfl
  simp only [Settled, hphase, Phase.updated, mem_def, some_inj, forall_eq']
  cases ht : s.torrents.lookup id with
  | none =>
    have hinv : Inv (s.trigger outcome) := by
      simp only [SessionImpl.trigger, hphase, ht]
      exact hs.withPhase (by rw [SessionImpl.waiting, SessionImpl.waiting, hleft]; rfl)
    exact ⟨iff_of_true hinv.toSound (by simp), fun _ => hinv⟩
  | some t =>
    cases htriggers : t.statusUpdatedTriggers with
    | nil =>
      have hinv : Inv (s.trigger outcome) := by
        simp only [SessionImpl.trigger, hphase, ht, htriggers]
        exact hs.withPhase (by rw [SessionImpl.waiting, SessionImpl.waiting, hleft]; rfl)
      refine ⟨iff_of_true hinv.toSound ?_, fun _ => hinv⟩
      rintro _ ⟨⟩
      rw [htriggers]
      simp
    | cons first rest =>
      -- what is left of the triggers does not matter to the calls
      cases first with
      | checked =>
        obtain ⟨hthis, hcalls, hbalance⟩ :=
          { t with statusUpdatedTriggers := rest }.calls_checkedTrigger outcome
        obtain ⟨hsound, hinv⟩ := sound_trigger_iff hs hphase ht htriggers
          ⟨hthis, hcalls, hbalance⟩
        refine ⟨hsound.trans ?_, hinv⟩
        simp only [some_inj, forall_eq', htriggers, head?_cons]
        exact ⟨fun h => ⟨fun _ => h.1, nofun⟩, fun h => ⟨h.1 trivial, trivial⟩⟩
      | finished =>
        obtain ⟨hthis, hcalls, hbalance⟩ :=
          { t with statusUpdatedTriggers := rest }.calls_finishedTrigger outcome
        obtain ⟨hsound, hinv⟩ := sound_trigger_iff hs hphase ht htriggers
          ⟨hthis, hcalls, hbalance⟩
        refine ⟨hsound.trans ?_, hinv⟩
        simp only [some_inj, forall_eq', htriggers, head?_cons]
        have hexcess : (if outcome.recheck = false ∧ t.hasFinishedStatus = true then 1 else 0) = 0 ↔
            ¬(outcome.recheck = false ∧ t.hasFinishedStatus = true) := by
          split_ifs with h <;> simp [h]
        exact ⟨fun h => ⟨nofun, fun _ => ⟨h.1, hexcess.1 h.2⟩⟩,
          fun h => ⟨(h.2 trivial).1, hexcess.2 (h.2 trivial).2⟩⟩

theorem next_step (hs : Inv s) (hp : s.Possible e) :
    (Sound (s.next e) ↔ Settled s e) ∧ (Sound (s.next e) → Inv (s.next e)) := by
  have hnothing : ∀ {t : TorrentImpl}, Room s t 0 := .zero
  cases e with
  | addTorrent id hasFinishedStatus =>
    have hinv := addTorrent_inv hs hp.2 hasFinishedStatus
    exact ⟨iff_of_true hinv.toSound trivial, fun _ => hinv⟩
  | removeTorrent id => exact ⟨sound_removeTorrent_iff hs hp, inv_removeTorrent hs⟩
  | torrentFinished id =>
    have hc : ∀ t : TorrentImpl, Calls t (if t.hasFinishedStatus then t else
        { t with statusUpdatedTriggers := t.statusUpdatedTriggers ++ [.finished] }, []) 0 0 := by
      intro t
      split_ifs
      · exact t.calls_nothing _ rfl rfl rfl
      · exact t.calls_nothing _ rfl rfl rfl
    refine ⟨(sound_onTorrent_iff hs hp id hc).trans (iff_of_true (fun _ _ => hnothing) trivial),
      inv_onTorrent hs id hc⟩
  | torrentChecked id =>
    have hc := fun t : TorrentImpl => t.calls_nothing
      { t with statusUpdatedTriggers := t.statusUpdatedTriggers ++ [.checked] } rfl rfl rfl
    exact ⟨(sound_onTorrent_iff hs hp id hc).trans (iff_of_true (fun _ _ => hnothing) trivial),
      inv_onTorrent hs id hc⟩
  | stateUpdate id =>
    have hinv := stateUpdate_inv hs hp id
    exact ⟨iff_of_true hinv.toSound trivial, fun _ => hinv⟩
  | trigger outcome => exact trigger_step hs hp
  | moveFinished id hasOutstandingJob =>
    have hc := fun t : TorrentImpl => t.calls_handleMoveStorageJobFinished hasOutstandingJob
    exact ⟨sound_onTorrent_iff hs hp id hc, inv_onTorrent hs id hc⟩
  | moveStorage id outcome =>
    have hc := fun t : TorrentImpl => t.calls_moveStorage outcome
    exact ⟨sound_onTorrent_iff hs hp id hc, inv_onTorrent hs id hc⟩
  | renameFile id =>
    have hc := fun t : TorrentImpl => t.calls_nothing
      { t with renameCount := t.renameCount + 1 } rfl rfl rfl
    exact ⟨(sound_onTorrent_iff hs hp id hc).trans (iff_of_true (fun _ _ => hnothing) trivial),
      inv_onTorrent hs id hc⟩
  | fileRenamed id =>
    have hc := fun t : TorrentImpl => t.calls_handleFileRenamed
    refine ⟨(sound_onTorrent_iff hs hp.1 id hc).trans ?_, inv_onTorrent hs id hc⟩
    refine forall_congr' fun t => forall_congr' fun ht => ?_
    have hcount := hp.2 t ht
    -- the rename that is answered is the last one
    have hlast : t.renameCount - 1 = 0 ↔ t.renameCount = 1 := by omega
    split_ifs with h
    · exact ⟨fun hroom _ _ => hroom, fun hroom => hroom h.1 (hlast.1 h.2)⟩
    · exact iff_of_true hnothing fun h₁ h₂ => absurd ⟨h₁, hlast.2 h₂⟩ h
  | prioritizeFiles id reset renames =>
    have hc := fun t : TorrentImpl => t.calls_nothing { t with
      hasFinishedStatus := t.hasFinishedStatus && !reset
      renameCount := t.renameCount + renames } rfl rfl rfl
    exact ⟨(sound_onTorrent_iff hs hp id hc).trans (iff_of_true (fun _ _ => hnothing) trivial),
      inv_onTorrent hs id hc⟩
  | endBatch =>
    have hinv := endBatch_inv hs hp
    exact ⟨iff_of_true hinv.toSound trivial, fun _ => hinv⟩
  | process removed =>
    have hinv := process_inv hs hp
    exact ⟨iff_of_true hinv.toSound trivial, fun _ => hinv⟩

theorem inv_empty : Inv {} where
  live := nofun
  once := nodup_nil
  balanced := nofun
  bounded := nofun
  announcedBounded := nofun
  distinct := nofun

/-- **Only live torrents are announced, once, exactly in the settled runs.**  Removals leave the list
as it is, and a trigger does not look whether its torrent has finished already. -/
theorem sound_iff_settled (es : List SessionEvent) (hr : (machine.run {} es).isSome) :
    machine.Always Sound {} es ↔ machine.Meets Settled {} es :=
  Machine.guarded_always_iff_meets inv_empty (fun _ hs => hs.toSound)
    (fun _ _ hs hpossible hk => (next_step hs hpossible).2 ((next_step hs hpossible).1.2 hk))
    (fun _ _ hs hpossible hk hsound => hk ((next_step hs hpossible).1.1 hsound)) hr

/-- A torrent finishes, and is announced at the end of the batch. -/
theorem sound_iff_settled_batch :
    machine.Always Sound {}
      [.addTorrent 1 false, .torrentFinished 1, .stateUpdate 1, .trigger {}, .endBatch,
        .process none] :=
  (sound_iff_settled _ (by decide)).2 (by decide)

def conflictRun : List SessionEvent :=
  [.addTorrent 1 false, .torrentFinished 1, .stateUpdate 1, .trigger {}, .removeTorrent 1, .endBatch]

/-- The torrent that is about to be announced does not exist. -/
theorem conflictRun_not_sound :
    (machine.run {} conflictRun).isSome = true ∧ ¬machine.Always Sound {} conflictRun := by
  refine ⟨by decide, fun h => ?_⟩
  obtain ⟨s, hs⟩ : ∃ s, machine.run {} conflictRun = some s :=
    isSome_iff_exists.1 (by decide)
  have hwaiting : ∀ s ∈ machine.run {} conflictRun, 0 ∈ s.waiting := by decide
  have hkeys : ∀ s ∈ machine.run {} conflictRun, s.torrents.keys = ∅ := by decide
  obtain ⟨id, t, ht, -⟩ := (h.at_end hs).live 0 (hwaiting s hs)
  have hmem : id ∈ s.torrents.keys :=
    Finmap.mem_keys.2 ((mem_iff_isSome _ _).2 (isSome_iff_exists.2 ⟨t, ht⟩))
  rw [hkeys s hs] at hmem
  exact Finset.notMem_empty _ hmem

end QBittorrent.FinishedTorrents
