import QBittorrent.Session.MoveQueueTracking

/-!
# The protocol of storage moves

* `queue_sound_iff` : when the queue stays sound;
* `taken_out_once` : removed torrents go once.
-/

namespace QBittorrent.MoveQueue

open SessionImpl List

/-! ### Events -/

section

variable {s : SessionImpl} {id : Digest}

theorem Inv.removeTorrent (hs : Inv s) (id : Digest) (deleteOption : TorrentRemoveOption) :
    Inv (s.removeTorrent id deleteOption) := by
  refine ⟨hs.toCore.removeTorrent id deleteOption, fun id' t' ht' => ?_⟩
  rw [SessionImpl.removeTorrent] at ht' ⊢
  cases ht : s.torrents.lookup id with
  | none =>
    rw [ht] at ht'
    exact hs.tracked id' t' ht'
  | some t =>
    have herase : ∀ {t''}, (s.torrents.erase id).lookup id' = some t'' →
        s.torrents.lookup id' = some t'' ∧ t''.nativeHandle ≠ t.nativeHandle := by
      intro t'' h
      rw [Dict.lookup_erase_eq] at h
      split_ifs at h with hid
      refine ⟨h, fun he => hid ?_⟩
      rw [← (hs.toCore.live id' t'' h).1, he, (hs.toCore.live id t ht).1]
    rw [ht] at ht'
    cases deleteOption with
    | keepContent =>
      dsimp only at ht' ⊢
      split_ifs at ht' ⊢
      · exact hs.tracked id' t' (herase ht').1
      · exact hs.tracked id' t' (herase ht').1
    | removeContent =>
      obtain ⟨hold, hne⟩ := herase ht'
      exact (hs.tracked id' t' hold).of_jobsOf (jobsOf_withoutInactive_of_ne hne _) fun ha => ha

theorem Inv.addTorrent (hs : Inv s) (hid : id ∉ s.torrents)
    (hnew : ∀ h ∈ s.native, h.infoHash ≠ id) (hasMetadata : Bool)
    (location savePath downloadPath : String) :
    Inv (s.addTorrent id hasMetadata location savePath downloadPath) := by
  refine ⟨hs.toCore.addTorrent hid hnew _ _ _ _, fun id' t' ht' => ?_⟩
  simp only [SessionImpl.addTorrent, SessionImpl.withTorrent, Dict.lookup_insert_eq] at ht'
  split_ifs at ht'
  · cases ht'
    have hnone := hs.toCore.not_queued_new id
    exact ⟨iff_of_false Bool.false_ne_true fun h => h hnone, by rintro - _ ⟨⟩⟩
  · exact hs.tracked id' t' ht'

theorem Inv.setMissingFiles (hs : Inv s) (id : Digest) (missing : Bool) :
    Inv (s.setMissingFiles id missing) := by
  rw [SessionImpl.setMissingFiles]
  cases ht : s.torrents.lookup id with
  | none => exact hs
  | some t => exact hs.withTorrent ht rfl rfl rfl rfl

/-- What a start needs: a torrent that it reloads has no job. -/
def StartSettled (s : SessionImpl) (id : Digest) : Prop :=
  ∀ t ∈ s.torrents.lookup id, t.hasMissingFiles = true → ¬s.Queued t.nativeHandle
  deriving Decidable

theorem Inv.start (hs : Inv s) (hk : StartSettled s id) : Inv (s.start id) := by
  rw [SessionImpl.start]
  cases ht : s.torrents.lookup id with
  | none => exact hs
  | some t =>
    dsimp only
    split_ifs with hmissing
    · exact hs.reload ht rfl rfl rfl rfl (hk t ht hmissing)
    · exact hs

theorem Inv.handleRemovedTorrent (hs : Inv s) (id : Digest) :
    Inv (s.handleRemovedTorrent id) :=
  ⟨hs.toCore.handleRemovedTorrent id, hs.tracked⟩

end

/-- A torrent is reloaded only without a job, and a finished move is not that of a torrent whose
removal with its content is over or whose hash is back. -/
def Orderly (s : SessionImpl) : MoveEvent → Prop
  | .moveStorage id newPath _ => RequestSettled s id newPath
  | .start id => StartSettled s id
  | .storageMoved _ => AlertSettled s
  | .addTorrent .. | .removeTorrent .. | .setMissingFiles .. | .torrentDeleted _ => True

instance decidableOrderly (s : SessionImpl) : DecidablePred (Orderly s)
  | .addTorrent .. | .moveStorage .. | .removeTorrent .. | .setMissingFiles .. | .start _
  | .storageMoved _ | .torrentDeleted _ => by unfold Orderly; infer_instance

variable {s : SessionImpl} {e : MoveEvent}

theorem next_inv (hs : Inv s) (hk : Orderly s e) (hpossible : s.Possible e) : Inv (s.next e) := by
  cases e with
  | addTorrent id hasMetadata location savePath downloadPath =>
    exact hs.addTorrent hpossible.1 hpossible.2 _ _ _ _
  | moveStorage id newPath context => exact hs.moveStorage context hk
  | removeTorrent id deleteOption => exact hs.removeTorrent id deleteOption
  | setMissingFiles id missing => exact hs.setMissingFiles id missing
  | start id => exact hs.start hk
  | storageMoved success => exact hs.handleStorageAlert hk success
  | torrentDeleted id => exact hs.handleRemovedTorrent id

theorem inv_empty : Inv {} where
  live := nofun
  bounded h hh := absurd hh (Finset.notMem_empty h)
  unique h hh := absurd hh (Finset.notMem_empty h)
  removedBounded := nofun
  removedOnce := nodup_nil
  removedGone := nofun
  single := nodup_nil
  owned := nofun
  behind := nofun
  waiting := nofun
  takenOnce := nofun
  takenOnly := nofun
  issued := rfl
  tracked := nofun

namespace SessionImpl

variable {s : SessionImpl} {id : Digest} {t : TorrentImpl}

@[simp] theorem removed_enqueue (s : SessionImpl) (job : MoveStorageJob) :
    (s.enqueue job).removed = s.removed := by
  rw [enqueue]
  split_ifs <;> rfl

theorem removed_cancelInactiveJob : (s.cancelInactiveJob id t).removed = s.removed := by
  cases hjob : s.inactiveJob t.nativeHandle with
  | none => rw [cancelInactiveJob, hjob]
  | some job => rw [cancelInactiveJob_of_some hjob, removed_finishJob]

end SessionImpl

/-! ### The soundness of the queue -/

/-- A torrent was removed from the session, and libtorrent still has it. -/
def BeingRemoved (s : SessionImpl) (h : TorrentHandle) : Prop :=
  (∃ option, (h, option) ∈ s.removed) ∧ h ∈ s.native

/-- The move of the head is the one that libtorrent was given, and it can be answered; the jobs
belong to torrents, which know of them and end where they were requested to be. -/
structure QueueSound (s : SessionImpl) : Prop where
  issued : s.moving = (s.activeJob.map (·.torrentHandle)).toList
  answerable : ∀ job ∈ s.activeJob, job.torrentHandle ∈ s.native
  single : ∀ h, (jobsOf h s.moveStorageQueue.tail).length ≤ 1
  owned : ∀ job ∈ s.moveStorageQueue, Live s job.torrentHandle ∨ BeingRemoved s job.torrentHandle
  moving : ∀ id t, s.torrents.lookup id = some t →
    (t.storageIsMoving = true ↔ s.Queued t.nativeHandle)
  located : s.moveStorageQueue = [] → s.allMoved = true →
    ∀ id t, s.torrents.lookup id = some t → ∀ path ∈ t.requested, t.location = path

def RemovalSettled (s : SessionImpl) (id : Digest) (deleteOption : TorrentRemoveOption) : Prop :=
  deleteOption = .removeContent →
    ∀ t ∈ s.torrents.lookup id, s.hasActiveJob t.nativeHandle = false

/-- A torrent is reloaded only without a job, and removed with its content only without the active
one. -/
def Undisturbed (s : SessionImpl) : MoveEvent → Prop
  | .moveStorage id newPath _ => RequestSettled s id newPath
  | .start id => StartSettled s id
  | .removeTorrent id deleteOption => RemovalSettled s id deleteOption
  | .addTorrent .. | .setMissingFiles .. | .storageMoved _ | .torrentDeleted _ => True

instance decidableUndisturbed (s : SessionImpl) : DecidablePred (Undisturbed s)
  | .moveStorage id newPath _ => inferInstanceAs (Decidable (RequestSettled s id newPath))
  | .start id => inferInstanceAs (Decidable (StartSettled s id))
  | .removeTorrent id deleteOption =>
    inferInstanceAs (Decidable (deleteOption = .removeContent →
      ∀ t ∈ s.torrents.lookup id, s.hasActiveJob t.nativeHandle = false))
  | .addTorrent .. | .setMissingFiles .. | .storageMoved _ | .torrentDeleted _ => isTrue trivial

structure SoundInv (s : SessionImpl) : Prop extends Inv s where
  active : ∀ job ∈ s.activeJob, (job.torrentHandle, .removeContent) ∉ s.removed

namespace SoundInv

variable {s : SessionImpl} {id : Digest}

section

variable (hs : SoundInv s)

include hs

theorem mem_native {job : MoveStorageJob} (hjob : job ∈ s.moveStorageQueue) :
    job.torrentHandle ∈ s.native := by
  cases hq : s.moveStorageQueue with
  | nil =>
    rw [hq] at hjob
    cases hjob
  | cons head rest =>
    rw [hq] at hjob
    obtain rfl | hjob := mem_cons.1 hjob
    · have hmem : job ∈ s.moveStorageQueue := by
        rw [hq]
        exact mem_cons_self
      obtain hl | ⟨option, hr⟩ := hs.owned job hmem
      · exact hs.toCore.mem_native hl
      · cases option with
        | keepContent => exact (hs.waiting _ hr ⟨job, hmem, rfl⟩).1
        | removeContent => exact absurd hr (hs.active job (by rw [activeJob, hq]; rfl))
    · exact hs.mem_native_of_behind (by rw [hq]; exact hjob)

theorem queueSound : QueueSound s where
  issued := hs.issued
  answerable job hjob := hs.mem_native (mem_of_mem_head? hjob)
  single h := by
    have hcount := nodup_iff_count_le_one.1 hs.single h
    rw [count, countP_map, countP_eq_length_filter] at hcount
    exact hcount
  owned job hjob := (hs.owned job hjob).imp (fun hl => hl) fun hr => ⟨hr, hs.mem_native hjob⟩
  moving id t ht := by
    rw [(hs.tracked id t ht).moving, queued_iff]
  located hq ha id t ht path hp := by
    have := (hs.tracked id t ht).target ha path hp
    rwa [lastPath, hq] at this

theorem moveStorage {newPath : String} (context : MoveStorageContext)
    (hk : RequestSettled s id newPath) : SoundInv (s.moveStorage id newPath context) := by
  refine ⟨hs.toInv.moveStorage context hk, ?_⟩
  cases ht : s.torrents.lookup id with
  | none =>
    rw [SessionImpl.moveStorage, ht]
    exact hs.active
  | some t =>
    cases hmeta : t.hasMetadata with
    | false =>
      rw [SessionImpl.moveStorage, ht]
      dsimp only
      rw [if_pos hmeta]
      exact hs.active
    | true =>
      have hactive : (canceled s id t newPath).activeJob = s.activeJob :=
        activeJob_cancelInactiveJob
      have hremoved : (canceled s id t newPath).removed = s.removed := removed_cancelInactiveJob
      obtain ⟨hcur, he⟩ | ⟨hcur, mode, he⟩ := moveStorage_cases ht hmeta newPath context
      · rw [he, hactive, hremoved]
        exact hs.active
      · rw [he]
        intro job hjob
        change (job.torrentHandle, _) ∉ ((canceled s id t newPath).enqueue _).removed
        rw [removed_enqueue, hremoved]
        change job ∈ ((canceled s id t newPath).enqueue _).activeJob at hjob
        rw [activeJob, moveStorageQueue_enqueue, head?_append, ← activeJob, hactive] at hjob
        cases ha : s.activeJob with
        | none =>
          rw [ha] at hjob
          cases hjob
          exact hs.toCore.not_removed (hs.toCore.live_handle ht) _
        | some job' =>
          rw [ha] at hjob
          cases hjob
          exact hs.active _ ha

theorem removeTorrent {deleteOption : TorrentRemoveOption} (hk : RemovalSettled s id deleteOption) :
    SoundInv (s.removeTorrent id deleteOption) := by
  refine ⟨hs.toInv.removeTorrent id deleteOption, ?_⟩
  rw [SessionImpl.removeTorrent]
  cases ht : s.torrents.lookup id with
  | none => exact hs.active
  | some t =>
    cases deleteOption with
    | keepContent =>
      have hactive : ∀ job ∈ s.activeJob, (job.torrentHandle, .removeContent) ∉
          s.removed ++ [(t.nativeHandle, .keepContent)] := by
        intro job hjob hr
        obtain hr | hr := mem_append.1 hr
        · exact hs.active job hjob hr
        · cases (Prod.mk.inj (mem_singleton.1 hr)).2
      dsimp only
      split_ifs
      · exact hactive
      · exact hactive
    | removeContent =>
      intro job hjob hr
      change job ∈ (withoutInactive t.nativeHandle s.moveStorageQueue).head? at hjob
      rw [head?_withoutInactive] at hjob
      obtain hr | hr := mem_append.1 hr
      · exact hs.active job hjob hr
      · have he := (Prod.mk.inj (mem_singleton.1 hr)).1
        exact absurd (hasActiveJob_iff.2 ⟨job, hjob, he⟩)
          (Bool.eq_false_iff.1 (hk rfl t ht))

theorem start (hk : StartSettled s id) : SoundInv (s.start id) := by
  refine ⟨hs.toInv.start hk, ?_⟩
  rw [SessionImpl.start]
  cases s.torrents.lookup id with
  | none => exact hs.active
  | some t =>
    dsimp only
    split_ifs
    · exact hs.active
    · exact hs.active

theorem setMissingFiles (id : Digest) (missing : Bool) :
    SoundInv (s.setMissingFiles id missing) := by
  refine ⟨hs.toInv.setMissingFiles id missing, ?_⟩
  rw [SessionImpl.setMissingFiles]
  cases s.torrents.lookup id with
  | none => exact hs.active
  | some t => exact hs.active

theorem handleStorageAlert (success : Bool) : SoundInv (s.handleStorageAlert success) := by
  refine ⟨hs.toInv.handleStorageAlert (fun job hjob hr => absurd hr (hs.active job hjob)) success,
    ?_⟩
  cases hq : s.moveStorageQueue with
  | nil =>
    rw [SessionImpl.handleStorageAlert, hq]
    exact hs.active
  | cons head rest =>
    have hrest : ∀ job ∈ rest.head?, (job.torrentHandle, .removeContent) ∉ s.removed := by
      intro job hjob
      exact hs.behind job (by rw [hq]; exact mem_of_mem_head? hjob)
    rw [handleStorageAlert_eq hs.toCore hq, answered]
    cases (popped s success rest).torrents.lookup head.torrentHandle.infoHash with
    | some t =>
      rw [activeJob, moveStorageQueue_finishJob, removed_finishJob]
      exact hrest
    | none =>
      dsimp only
      split_ifs
      · exact hrest
      · exact hrest
      · exact hrest

theorem next {e : MoveEvent} (hk : Undisturbed s e) (hpossible : s.Possible e) :
    SoundInv (s.next e) := by
  cases e with
  | addTorrent id hasMetadata location savePath downloadPath =>
    exact ⟨hs.toInv.addTorrent hpossible.1 hpossible.2 _ _ _ _, hs.active⟩
  | moveStorage id newPath context => exact hs.moveStorage context hk
  | removeTorrent id deleteOption => exact hs.removeTorrent hk
  | setMissingFiles id missing => exact hs.setMissingFiles id missing
  | start id => exact hs.start hk
  | storageMoved success => exact hs.handleStorageAlert success
  | torrentDeleted id => exact ⟨hs.toInv.handleRemovedTorrent id, hs.active⟩

end

end SoundInv

/-! ### Disturbed queues -/

section

variable {s : SessionImpl} {id : Digest} {t : TorrentImpl}

theorem not_sound_of_stale {s' : SessionImpl} (hs : Inv s) (ht : s.torrents.lookup id = some t)
    {t' : TorrentImpl} (ht' : s'.torrents.lookup id = some t')
    (hh : t'.nativeHandle = ⟨s.nextIndex, id⟩) (hremoved : s'.removed = s.removed)
    (job : MoveStorageJob) (hjob : job ∈ s'.moveStorageQueue)
    (hhandle : job.torrentHandle = t.nativeHandle) : ¬QueueSound s' := by
  intro hsound
  have hl := hs.toCore.live_handle ht
  obtain ⟨t'', ht'', he⟩ | ⟨⟨option, hr⟩, -⟩ := hsound.owned job hjob
  · rw [hhandle, (hs.toCore.live id t ht).1, ht'] at ht''
    cases ht''
    have hbound := hs.bounded _ (hs.toCore.mem_native hl)
    rw [← hhandle, ← he, hh] at hbound
    exact Nat.lt_irrefl _ hbound
  · rw [hremoved, hhandle] at hr
    exact hs.removedGone _ hr hl

theorem not_sound_moveStorage (hs : Inv s) {newPath : String} (context : MoveStorageContext)
    (hk : ¬RequestSettled s id newPath) : ¬QueueSound (s.moveStorage id newPath context) := by
  simp only [RequestSettled, not_forall] at hk
  obtain ⟨t, ht, hmeta, hr, hne⟩ := hk
  have hcur := currentTarget_of_reloaded hr
  obtain ⟨hcur', -⟩ | ⟨-, mode, he⟩ := moveStorage_cases ht hmeta newPath context
  · exact absurd (Option.some.inj (hcur'.symm.trans hcur)) hne
  · rw [he]
    refine not_sound_of_stale hs ht (lookup_withTorrent _ id _)
      (nativeHandle_canceledTorrent_of_reloaded hr) ?_
      ⟨t.nativeHandle, newPath, mode, context⟩ ?_ rfl
    · exact (removed_enqueue _ _).trans removed_cancelInactiveJob
    · change _ ∈ ((canceled s id t newPath).enqueue _).moveStorageQueue
      rw [moveStorageQueue_enqueue]
      exact mem_append_right _ (mem_singleton_self _)

theorem not_sound_start (hs : Inv s) (hk : ¬StartSettled s id) : ¬QueueSound (s.start id) := by
  simp only [StartSettled, not_forall, not_not] at hk
  obtain ⟨t, ht, hmissing, job, hjob, hhandle⟩ := hk
  rw [start, ht]
  dsimp only
  rw [if_pos hmissing]
  exact not_sound_of_stale hs ht (lookup_withTorrent _ id _) rfl rfl job hjob hhandle

theorem not_sound_removeTorrent {deleteOption : TorrentRemoveOption}
    (hk : ¬RemovalSettled s id deleteOption) : ¬QueueSound (s.removeTorrent id deleteOption) := by
  simp only [RemovalSettled, not_forall] at hk
  obtain ⟨rfl, t, ht, ha⟩ := hk
  obtain ⟨job, hjob, he⟩ := hasActiveJob_iff.1 (Bool.eq_true_of_not_eq_false ha)
  intro hsound
  have hmem := hsound.answerable job (by
    rw [removeTorrent, ht]
    change job ∈ (withoutInactive t.nativeHandle s.moveStorageQueue).head?
    rw [head?_withoutInactive]
    exact hjob)
  rw [removeTorrent, ht, he] at hmem
  exact Finset.notMem_erase _ _ hmem

end

/-- **The queue is sound exactly in the undisturbed runs.**  What a torrent's reload, or its
removal with its content, leaves in the queue is never answered. -/
theorem queue_sound_iff (es : List MoveEvent) (hr : (machine.run {} es).isSome) :
    machine.Always QueueSound {} es ↔ machine.Meets Undisturbed {} es := by
  refine Machine.guarded_always_iff_meets (I := SoundInv) ⟨inv_empty, nofun⟩
    (fun s hs => hs.queueSound) (fun s e hs hpossible hk => ?_) (fun s e hs hpossible hk => ?_) hr
  · exact hs.next hk hpossible
  · cases e with
    | moveStorage id newPath context => exact not_sound_moveStorage hs.toInv context hk
    | start id => exact not_sound_start hs.toInv hk
    | removeTorrent id deleteOption => exact not_sound_removeTorrent hk
    | addTorrent | setMissingFiles | storageMoved | torrentDeleted => exact absurd trivial hk

/-- A torrent is sent to two places in turn. -/
theorem queue_sound_iff_twoRequests :
    machine.Always QueueSound {}
      [.addTorrent 1 true "/a" "/a" "", .moveStorage 1 "/b" .changeSavePath,
        .moveStorage 1 "/c" .changeSavePath, .storageMoved true, .storageMoved true] :=
  (queue_sound_iff _ (by decide)).2 (by decide)

def startedRun : List MoveEvent :=
  [.addTorrent 1 true "/a" "/a" "", .setMissingFiles 1 true,
    .moveStorage 1 "/b" .changeSavePath, .start 1]

/-- libtorrent does not have the torrent of the move that the queue waits for. -/
theorem startedRun_not_sound :
    (machine.run {} startedRun).isSome = true ∧ ¬machine.Always QueueSound {} startedRun := by
  refine ⟨by decide, fun h => ?_⟩
  obtain ⟨s, hs⟩ : ∃ s, machine.run {} startedRun = some s :=
    Option.isSome_iff_exists.1 (by decide)
  have hbad : ∀ s ∈ machine.run {} startedRun,
      ¬∀ job ∈ s.activeJob, job.torrentHandle ∈ s.native := by decide
  exact hbad s hs (h.at_end hs).answerable

/-! ### Taking torrents out -/

/-- A removed torrent has been taken out once, or is kept in libtorrent for its moves. -/
structure TakenOutOnce (s : SessionImpl) : Prop where
  once : ∀ r ∈ s.removed,
    s.removals.count r.1 = if r.2 = .keepContent ∧ s.Queued r.1 then 0 else 1
  only : ∀ h ∈ s.removals, ∃ option, (h, option) ∈ s.removed

/-- A finished move changes no other torrent, and takes out only the torrent that waited for it. -/
def FinishesOwn (s : SessionImpl) : MoveEvent → Prop
  | .storageMoved success => ∀ job ∈ s.activeJob,
    (∀ id t, s.torrents.lookup id = some t → t.nativeHandle ≠ job.torrentHandle →
      (s.handleStorageAlert success).torrents.lookup id = some t) ∧
    ((s.handleStorageAlert success).removals = s.removals ∨
      (job.torrentHandle, .keepContent) ∈ s.removed ∧ job.torrentHandle ∉ s.removals ∧
        (s.handleStorageAlert success).removals = s.removals ++ [job.torrentHandle])
  | _ => True

theorem finishesOwn_storageMoved (hs : Inv s) (hk : AlertSettled s) (success : Bool) :
    FinishesOwn s (.storageMoved success) := by
  intro job hjob
  obtain ⟨rest, hq⟩ : ∃ rest, s.moveStorageQueue = job :: rest := head?_eq_some_iff.1 hjob
  have hmem : job ∈ s.moveStorageQueue := mem_of_mem_head? hjob
  rw [handleStorageAlert_eq hs.toCore hq, answered]
  cases ht : (popped s success rest).torrents.lookup job.torrentHandle.infoHash with
  | some t =>
    have hh : t.nativeHandle = job.torrentHandle := hs.toCore.live_of_lookup hk hq ht
    refine ⟨fun id t' ht' hne => ?_, .inl (removals_finishJob ..)⟩
    have hid : id ≠ job.torrentHandle.infoHash := by
      rintro rfl
      cases ht.symm.trans ht'
      exact hne hh
    rw [lookup_finishJob, if_neg hid]
    exact ht'
  | none =>
    dsimp only
    split_ifs with hqueued hkeep
    · exact ⟨fun _ _ ht' _ => ht', .inl rfl⟩
    · refine ⟨fun _ _ ht' _ => ht', .inr ?_⟩
      have hdead : ¬Live s job.torrentHandle := by
        rintro ⟨t, ht', -⟩
        cases ht.symm.trans ht'
      obtain ⟨option, hr⟩ := (hs.owned job hmem).resolve_left hdead
      cases option with
      | keepContent =>
        refine ⟨hr, count_eq_zero.1 ?_, rfl⟩
        rw [hs.takenOnce _ hr, if_pos ⟨rfl, job, hmem, rfl⟩]
      | removeContent =>
        have hlookup : (popped s success rest).removingTorrents.lookup
            job.torrentHandle.infoHash = some .removeContent := (hk job hjob hr).1
        rw [hlookup] at hkeep
        cases hkeep
    · exact ⟨fun _ _ ht' _ => ht', .inl rfl⟩

/-- **Removed torrents are taken out once.**  In an orderly run a torrent removed with its content
kept stays until its moves are done, and a finished move concerns its own torrent. -/
theorem taken_out_once (es : List MoveEvent) (hk : machine.Meets Orderly {} es) :
    machine.Always TakenOutOnce {} es ∧ machine.Meets FinishesOwn {} es := by
  have hstep : ∀ s e s', Inv s → Orderly s e → machine.step s e = some s' → Inv s' := by
    intro s e s' hs hk hstep
    obtain ⟨hpossible, rfl⟩ := Machine.guarded_step_eq_some.1 hstep
    exact next_inv hs hk hpossible
  refine ⟨hk.always inv_empty (fun s hs => ⟨hs.takenOnce, hs.takenOnly⟩) hstep,
    hk.mono inv_empty hstep fun s e hs hk => ?_⟩
  cases e with
  | storageMoved success => exact finishesOwn_storageMoved hs hk success
  | addTorrent | moveStorage | removeTorrent | setMissingFiles | start | torrentDeleted => trivial

/-- A torrent that is removed while it is moved, and taken out when it has arrived. -/
theorem taken_out_once_kept :
    machine.Always TakenOutOnce {}
        [.addTorrent 1 true "/a" "/a" "", .moveStorage 1 "/b" .changeSavePath,
          .removeTorrent 1 .keepContent, .storageMoved true, .torrentDeleted 1] ∧
      machine.Meets FinishesOwn {}
        [.addTorrent 1 true "/a" "/a" "", .moveStorage 1 "/b" .changeSavePath,
          .removeTorrent 1 .keepContent, .storageMoved true, .torrentDeleted 1] :=
  taken_out_once _ (by decide)

/-- A torrent is removed with its content while it is moved, and added again. -/
def readdedRun : List MoveEvent :=
  [.addTorrent 1 true "/a" "/a" "", .moveStorage 1 "/b" .changeSavePath,
    .removeTorrent 1 .removeContent, .addTorrent 1 true "/c" "/c" ""]

/-- The alert of the move changes where the new torrent is. -/
theorem readdedRun_moved :
    (machine.run {} (readdedRun ++ [.storageMoved true])).isSome = true ∧
      ¬(machine.Always TakenOutOnce {} (readdedRun ++ [.storageMoved true]) ∧
        machine.Meets FinishesOwn {} (readdedRun ++ [.storageMoved true])) := by
  refine ⟨by decide, fun ⟨_, h⟩ => ?_⟩
  obtain ⟨s, hs⟩ : ∃ s, machine.run {} readdedRun = some s :=
    Option.isSome_iff_exists.1 (by decide)
  have hmoved : ∀ s ∈ machine.run {} readdedRun, ∃ job ∈ s.activeJob,
      ∃ t ∈ s.torrents.lookup 1, t.nativeHandle ≠ job.torrentHandle ∧
        (s.handleStorageAlert true).torrents.lookup 1 ≠ some t := by decide
  obtain ⟨job, hjob, t, ht, hne, hbad⟩ := hmoved s hs
  exact hbad ((h.last hs job hjob).1 1 t ht hne)

end QBittorrent.MoveQueue
