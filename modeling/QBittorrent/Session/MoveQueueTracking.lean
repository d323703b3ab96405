import QBittorrent.Session.MoveQueueInvariant

/-!
# What a torrent knows of its moves

* `Inv` : the jobs have their owners, and all torrents are tracked.
-/

namespace QBittorrent.MoveQueue

open SessionImpl List Option Dict

namespace SessionImpl

variable {s : SessionImpl} {id : Digest} {t : TorrentImpl} {path : String}
  {context : MoveStorageContext} {hasOutstandingJob : Bool}

def finishedTorrent (s : SessionImpl) (id : Digest) (t : TorrentImpl) (path : String)
    (context : MoveStorageContext) (hasOutstandingJob : Bool) : TorrentImpl :=
  let t := movedTorrent t path context hasOutstandingJob
  if t.storageIsMoving = false ∧ t.hasMissingFiles = true then
    { t with hasMissingFiles := false, nativeHandle := ⟨s.nextIndex, id⟩ }
  else t

theorem lookup_finishJob (id' : Digest) :
    (s.finishJob id t path context hasOutstandingJob).torrents.lookup id' =
      if id' = id then some (s.finishedTorrent id t path context hasOutstandingJob)
      else s.torrents.lookup id' := by
  rw [finishJob, finishedTorrent]
  split_ifs <;> simp_all [reload, withTorrent, takeOut, lookup_insert_eq]

theorem finishJob_moveStorageQueue (q : List MoveStorageJob) :
    { s.finishJob id t path context hasOutstandingJob with moveStorageQueue := q } =
      ({ s with moveStorageQueue := q } : SessionImpl).finishJob id t path context
        hasOutstandingJob := by
  rw [finishJob, finishJob]
  split_ifs <;> rfl

@[simp] theorem moveStorageQueue_finishJob :
    (s.finishJob id t path context hasOutstandingJob).moveStorageQueue = s.moveStorageQueue := by
  rw [finishJob]
  split_ifs <;> rfl

@[simp] theorem allMoved_finishJob :
    (s.finishJob id t path context hasOutstandingJob).allMoved = s.allMoved := by
  rw [finishJob]
  split_ifs <;> rfl

@[simp] theorem removals_finishJob :
    (s.finishJob id t path context hasOutstandingJob).removals = s.removals := by
  rw [finishJob]
  split_ifs <;> rfl

@[simp] theorem removed_finishJob :
    (s.finishJob id t path context hasOutstandingJob).removed = s.removed := by
  rw [finishJob]
  split_ifs <;> rfl

@[simp] theorem location_finishedTorrent :
    (s.finishedTorrent id t path context hasOutstandingJob).location = path := by
  rw [finishedTorrent]
  split_ifs <;> rfl

@[simp] theorem storageIsMoving_finishedTorrent :
    (s.finishedTorrent id t path context hasOutstandingJob).storageIsMoving =
      hasOutstandingJob := by
  rw [finishedTorrent]
  split_ifs <;> rfl

@[simp] theorem requested_finishedTorrent :
    (s.finishedTorrent id t path context hasOutstandingJob).requested = t.requested := by
  rw [finishedTorrent]
  split_ifs <;> rfl

theorem nativeHandle_finishedTorrent
    (h : ¬(hasOutstandingJob = false ∧ t.hasMissingFiles = true)) :
    (s.finishedTorrent id t path context hasOutstandingJob).nativeHandle = t.nativeHandle := by
  rw [finishedTorrent, if_neg (by simpa [movedTorrent] using h)]
  rfl

theorem jobsOf_finishedTorrent (hs : Core s)
    (hq : hasOutstandingJob = false → t.hasMissingFiles = true → ¬s.Queued t.nativeHandle) :
    jobsOf (s.finishedTorrent id t path context hasOutstandingJob).nativeHandle
      s.moveStorageQueue = jobsOf t.nativeHandle s.moveStorageQueue := by
  by_cases h : hasOutstandingJob = false ∧ t.hasMissingFiles = true
  · rw [finishedTorrent, if_pos (by simpa [movedTorrent] using h), hs.not_queued_new]
    exact (not_ne_iff.1 fun hne => hq h.1 h.2 (queued_iff.2 hne)).symm
  · rw [nativeHandle_finishedTorrent h]

end SessionImpl

/-! ### Tracking -/

/-- Where the last job of a torrent moves it, or where it is. -/
def lastPath (q : List MoveStorageJob) (t : TorrentImpl) : String :=
  ((jobsOf t.nativeHandle q).getLast?.map (·.path)).getD t.location

/-- A torrent knows whether it has a job, and was last requested to be where its last job moves
it. -/
structure Tracked (q : List MoveStorageJob) (allMoved : Bool) (t : TorrentImpl) : Prop where
  moving : t.storageIsMoving = true ↔ jobsOf t.nativeHandle q ≠ []
  target : allMoved = true → ∀ path ∈ t.requested, lastPath q t = path

/-- The torrents with another hash are tracked. -/
def OthersTracked (s : SessionImpl) (id : Digest) : Prop :=
  ∀ id' t, s.torrents.lookup id' = some t → id' ≠ id → Tracked s.moveStorageQueue s.allMoved t

structure Inv (s : SessionImpl) : Prop extends Core s where
  tracked : ∀ id t, s.torrents.lookup id = some t → Tracked s.moveStorageQueue s.allMoved t

variable {t : TorrentImpl} {s : SessionImpl} {id : Digest} {allMoved : Bool}

theorem Tracked.of_jobsOf {q q' : List MoveStorageJob} {allMoved' : Bool} (h : Tracked q allMoved t)
    (hq : jobsOf t.nativeHandle q' = jobsOf t.nativeHandle q)
    (hall : allMoved' = true → allMoved = true) : Tracked q' allMoved' t where
  moving := by rw [hq]; exact h.moving
  target ha path hp := by
    rw [lastPath, hq]
    exact h.target (hall ha) path hp

theorem Inv.othersTracked (hs : Inv s) (id : Digest) : OthersTracked s id :=
  fun id' t ht _ => hs.tracked id' t ht

theorem Inv.of_others (hs : Core s) (ho : OthersTracked s id) (ht : s.torrents.lookup id = some t)
    (htracked : Tracked s.moveStorageQueue s.allMoved t) : Inv s where
  toCore := hs
  tracked id' t' ht' := by
    by_cases hid : id' = id
    · subst hid
      cases ht.symm.trans ht'
      exact htracked
    · exact ho id' t' ht' hid

theorem OthersTracked.finishJob (ho : OthersTracked s id) (t : TorrentImpl) (path : String)
    (context : MoveStorageContext) (hasOutstandingJob : Bool) :
    OthersTracked (s.finishJob id t path context hasOutstandingJob) id := by
  intro id' t' ht' hid
  rw [lookup_finishJob, if_neg hid] at ht'
  rw [moveStorageQueue_finishJob, allMoved_finishJob]
  exact ho id' t' ht' hid

theorem OthersTracked.withTorrent (ho : OthersTracked s id) (t : TorrentImpl) :
    OthersTracked (s.withTorrent id t) id := by
  intro id' t' ht' hid
  simp only [SessionImpl.withTorrent, lookup_insert_eq, if_neg hid] at ht'
  exact ho id' t' ht' hid

theorem OthersTracked.requeue (hs : Core s) (ho : OthersTracked s id)
    (ht : s.torrents.lookup id = some t) {q : List MoveStorageJob} (moving : List TorrentHandle)
    (hq : ∀ h ≠ t.nativeHandle, jobsOf h q = jobsOf h s.moveStorageQueue)
    (hall : allMoved = true → s.allMoved = true) :
    OthersTracked { s with moveStorageQueue := q, moving := moving, allMoved := allMoved } id := by
  intro id' t' ht' hid
  refine (ho id' t' ht' hid).of_jobsOf (hq _ fun he => hid ?_) hall
  rw [← (hs.live id' t' ht').1, he, (hs.live id t ht).1]

namespace SessionImpl

variable {s : SessionImpl} {id : Digest} {t : TorrentImpl} {h : TorrentHandle}

theorem hasActiveJob_iff :
    s.hasActiveJob h = true ↔ ∃ job ∈ s.moveStorageQueue.head?, job.torrentHandle = h := by
  rw [hasActiveJob, activeJob, Option.any_eq_true]
  simp

theorem inactiveJob_eq_none :
    s.inactiveJob h = none ↔ jobsOf h s.moveStorageQueue.tail = [] := by
  simp [inactiveJob, jobsOf, find?_eq_none, filter_eq_nil_iff]

theorem withoutInactive_of_none {q : List MoveStorageJob} (hq : jobsOf h q.tail = []) :
    withoutInactive h q = q := by
  cases q with
  | nil => rfl
  | cons job q =>
    rw [withoutInactive, eraseP_of_forall_not]
    exact fun job' hjob' => filter_eq_nil_iff.1 hq job' hjob'

theorem jobsOf_withoutInactive (hs : Core s) :
    jobsOf h (withoutInactive h s.moveStorageQueue) =
      if s.hasActiveJob h then s.activeJob.toList else [] := by
  rw [jobsOf_withoutInactive_self hs.single, hasActiveJob, activeJob]
  cases s.moveStorageQueue.head? with
  | none => rfl
  | some job => by_cases hjob : job.torrentHandle = h <;> simp [hjob]

theorem cancelInactiveJob_of_some {job : MoveStorageJob}
    (hjob : s.inactiveJob t.nativeHandle = some job) :
    s.cancelInactiveJob id t =
      ({ s with moveStorageQueue := withoutInactive t.nativeHandle s.moveStorageQueue } :
        SessionImpl).finishJob id t t.location job.context (s.hasActiveJob t.nativeHandle) := by
  rw [cancelInactiveJob, hjob]
  simp only [moveStorageQueue_finishJob, finishJob_moveStorageQueue]

theorem moveStorageQueue_cancelInactiveJob :
    (s.cancelInactiveJob id t).moveStorageQueue =
      withoutInactive t.nativeHandle s.moveStorageQueue := by
  cases hjob : s.inactiveJob t.nativeHandle with
  | none =>
    rw [cancelInactiveJob, hjob, withoutInactive_of_none (inactiveJob_eq_none.1 hjob)]
  | some job => rw [cancelInactiveJob_of_some hjob, moveStorageQueue_finishJob]

theorem activeJob_cancelInactiveJob : (s.cancelInactiveJob id t).activeJob = s.activeJob := by
  rw [activeJob, moveStorageQueue_cancelInactiveJob, head?_withoutInactive, activeJob]

/-- The torrent after its inactive job is removed. -/
def canceledTorrent (s : SessionImpl) (id : Digest) (t : TorrentImpl) : TorrentImpl :=
  match s.inactiveJob t.nativeHandle with
  | none => t
  | some job => s.finishedTorrent id t t.location job.context (s.hasActiveJob t.nativeHandle)

theorem lookup_cancelInactiveJob (ht : s.torrents.lookup id = some t) :
    (s.cancelInactiveJob id t).torrents.lookup id = some (s.canceledTorrent id t) := by
  rw [canceledTorrent]
  cases hjob : s.inactiveJob t.nativeHandle with
  | none => rw [cancelInactiveJob, hjob, ht]
  | some job => rw [cancelInactiveJob_of_some hjob, lookup_finishJob, if_pos rfl]; rfl

theorem location_canceledTorrent : (s.canceledTorrent id t).location = t.location := by
  rw [canceledTorrent]
  cases s.inactiveJob t.nativeHandle <;> simp

theorem requested_canceledTorrent : (s.canceledTorrent id t).requested = t.requested := by
  rw [canceledTorrent]
  cases s.inactiveJob t.nativeHandle <;> simp

def ReloadedByRequest (s : SessionImpl) (t : TorrentImpl) : Prop :=
  (s.inactiveJob t.nativeHandle).isSome = true ∧ s.hasActiveJob t.nativeHandle = false ∧
    t.hasMissingFiles = true
  deriving Decidable

theorem nativeHandle_canceledTorrent (h : ¬s.ReloadedByRequest t) :
    (s.canceledTorrent id t).nativeHandle = t.nativeHandle := by
  rw [canceledTorrent]
  cases hjob : s.inactiveJob t.nativeHandle with
  | none => rfl
  | some job => exact nativeHandle_finishedTorrent fun hr => h ⟨by rw [hjob]; rfl, hr⟩

theorem nativeHandle_canceledTorrent_of_reloaded (h : s.ReloadedByRequest t) :
    (s.canceledTorrent id t).nativeHandle = ⟨s.nextIndex, id⟩ := by
  obtain ⟨hjob, hr⟩ := h
  obtain ⟨job, hjob⟩ := isSome_iff_exists.1 hjob
  rw [canceledTorrent, hjob]
  dsimp only
  rw [finishedTorrent, if_pos (by simpa [movedTorrent] using hr)]

end SessionImpl

section cancel

variable {s : SessionImpl} {id : Digest} {t : TorrentImpl}

theorem not_queued_withoutInactive (hs : Core s) (h : s.hasActiveJob t.nativeHandle = false) :
    ¬({ s with moveStorageQueue := withoutInactive t.nativeHandle s.moveStorageQueue } :
      SessionImpl).Queued t.nativeHandle := by
  rw [queued_iff, not_not]
  simp only [jobsOf_withoutInactive hs, h]
  rfl

theorem Core.cancelInactiveJob (hs : Core s) (ht : s.torrents.lookup id = some t) :
    Core (s.cancelInactiveJob id t) := by
  cases hjob : s.inactiveJob t.nativeHandle with
  | none =>
    rw [SessionImpl.cancelInactiveJob, hjob]
    exact hs
  | some job =>
    rw [cancelInactiveJob_of_some hjob]
    have hs' := hs.withoutInactive (hs.live_handle ht)
    exact hs'.finishJob ht _ _ fun ha _ => not_queued_withoutInactive hs ha

theorem OthersTracked.cancelInactiveJob (hs : Core s) (ho : OthersTracked s id)
    (ht : s.torrents.lookup id = some t) : OthersTracked (s.cancelInactiveJob id t) id := by
  cases hjob : s.inactiveJob t.nativeHandle with
  | none =>
    rw [SessionImpl.cancelInactiveJob, hjob]
    exact ho
  | some job =>
    rw [cancelInactiveJob_of_some hjob]
    have ho' := ho.requeue hs ht s.moving
      (fun h hne => jobsOf_withoutInactive_of_ne hne s.moveStorageQueue) fun ha => ha
    exact ho'.finishJob _ _ _ _

theorem jobsOf_canceledTorrent (hs : Core s) (ht : s.torrents.lookup id = some t) :
    jobsOf (s.canceledTorrent id t).nativeHandle (s.cancelInactiveJob id t).moveStorageQueue =
      if s.hasActiveJob t.nativeHandle then s.activeJob.toList else [] := by
  rw [moveStorageQueue_cancelInactiveJob]
  by_cases hr : s.ReloadedByRequest t
  · have hs' := hs.withoutInactive (hs.live_handle ht)
    rw [nativeHandle_canceledTorrent_of_reloaded hr, hr.2.1]
    exact hs'.not_queued_new id
  · rw [nativeHandle_canceledTorrent hr, jobsOf_withoutInactive hs]

theorem storageIsMoving_canceledTorrent (hs : Core s) (ht : s.torrents.lookup id = some t)
    (hm : t.storageIsMoving = true ↔ jobsOf t.nativeHandle s.moveStorageQueue ≠ []) :
    (s.canceledTorrent id t).storageIsMoving = true ↔
      jobsOf (s.canceledTorrent id t).nativeHandle
        (s.cancelInactiveJob id t).moveStorageQueue ≠ [] := by
  cases hjob : s.inactiveJob t.nativeHandle with
  | none =>
    rw [canceledTorrent, cancelInactiveJob, hjob]
    exact hm
  | some job =>
    rw [jobsOf_canceledTorrent hs ht, canceledTorrent, hjob]
    cases ha : s.hasActiveJob t.nativeHandle with
    | false => simp
    | true =>
      obtain ⟨job', hjob', -⟩ := hasActiveJob_iff.1 ha
      simp [activeJob, mem_def.1 hjob']

end cancel

namespace SessionImpl

@[simp] theorem torrents_enqueue (s : SessionImpl) (job : MoveStorageJob) :
    (s.enqueue job).torrents = s.torrents := by
  rw [enqueue]
  split_ifs <;> rfl

@[simp] theorem allMoved_enqueue (s : SessionImpl) (job : MoveStorageJob) :
    (s.enqueue job).allMoved = s.allMoved := by
  rw [enqueue]
  split_ifs <;> rfl

@[simp] theorem moveStorageQueue_enqueue (s : SessionImpl) (job : MoveStorageJob) :
    (s.enqueue job).moveStorageQueue = s.moveStorageQueue ++ [job] := by
  rw [enqueue]
  split_ifs <;> rfl

end SessionImpl

section

variable {s : SessionImpl} {id : Digest} {t t' : TorrentImpl}

theorem OthersTracked.enqueue (hs : Core s) (ho : OthersTracked s id)
    (ht : s.torrents.lookup id = some t) {job : MoveStorageJob}
    (hjob : job.torrentHandle = t.nativeHandle) : OthersTracked (s.enqueue job) id := by
  intro id' t' ht' hid
  rw [torrents_enqueue] at ht'
  rw [moveStorageQueue_enqueue, allMoved_enqueue]
  refine (ho id' t' ht' hid).of_jobsOf ?_ fun ha => ha
  have hne : job.torrentHandle ≠ t'.nativeHandle := fun he => hid <| by
    rw [← (hs.live id' t' ht').1, ← he, hjob, (hs.live id t ht).1]
  rw [jobsOf_append, jobsOf_cons_of_ne hne]
  exact append_nil _

theorem Inv.withTorrent (hs : Inv s) (ht : s.torrents.lookup id = some t)
    (hh : t'.nativeHandle = t.nativeHandle) (hm : t'.storageIsMoving = t.storageIsMoving)
    (hr : t'.requested = t.requested) (hl : t'.location = t.location) :
    Inv (s.withTorrent id t') := by
  refine .of_others (hs.toCore.withTorrent ht hh) ((hs.othersTracked id).withTorrent t')
    (t := t') ?_ ⟨?_, ?_⟩
  · rw [SessionImpl.withTorrent, lookup_insert_eq, if_pos rfl]
  · rw [hm, hh]
    exact (hs.tracked id t ht).moving
  · rw [hr, lastPath, hh, hl]
    exact (hs.tracked id t ht).target

theorem Inv.reload (hs : Inv s) (ht : s.torrents.lookup id = some t)
    (hh : t'.nativeHandle = t.nativeHandle) (hm : t'.storageIsMoving = t.storageIsMoving)
    (hr : t'.requested = t.requested) (hl : t'.location = t.location)
    (hq : ¬s.Queued t.nativeHandle) : Inv (s.reload id t') := by
  have hnone : jobsOf t.nativeHandle s.moveStorageQueue = [] :=
    not_ne_iff.1 fun hne => hq (queued_iff.2 hne)
  have hnew := hs.toCore.not_queued_new id
  have ho : OthersTracked (s.reload id t') id := by
    intro id' t'' ht'' hid
    simp only [SessionImpl.reload, SessionImpl.withTorrent, lookup_insert_eq, if_neg hid,
      takeOut] at ht''
    exact hs.tracked id' t'' ht''
  obtain ⟨hmoving, htarget⟩ := hs.tracked id t ht
  refine .of_others (hs.toCore.reload ht hh hq) ho
    (t := { t' with nativeHandle := ⟨s.nextIndex, id⟩ }) ?_ ⟨?_, ?_⟩
  · simp only [SessionImpl.reload, SessionImpl.withTorrent, lookup_insert_eq, if_true, takeOut]
  · rw [hm, hmoving, hnone]
    exact iff_of_false (fun h => h rfl) fun h => h hnew
  · intro ha path hp
    have := htarget ha path (hr ▸ hp)
    rw [lastPath, hnone] at this
    rw [lastPath]
    rw [show jobsOf _ (s.reload id t').moveStorageQueue = [] from hnew]
    exact hl.trans this

def requestedTorrent (t : TorrentImpl) (newPath : String) : TorrentImpl :=
  { t with requested := some newPath }

def canceled (s : SessionImpl) (id : Digest) (t : TorrentImpl) (newPath : String) : SessionImpl :=
  (s.withTorrent id (requestedTorrent t newPath)).cancelInactiveJob id (requestedTorrent t newPath)

/-- The torrent that has a new job. -/
def enqueuedTorrent (s : SessionImpl) (id : Digest) (t : TorrentImpl) (newPath : String) :
    TorrentImpl :=
  { (s.withTorrent id (requestedTorrent t newPath)).canceledTorrent id
      (requestedTorrent t newPath) with storageIsMoving := true }

theorem lookup_withTorrent (s : SessionImpl) (id : Digest) (t : TorrentImpl) :
    (s.withTorrent id t).torrents.lookup id = some t := by
  rw [withTorrent, lookup_insert_eq, if_pos rfl]

theorem lookup_canceled (s : SessionImpl) (id : Digest) (t : TorrentImpl) (newPath : String) :
    (canceled s id t newPath).torrents.lookup id =
      some ((s.withTorrent id (requestedTorrent t newPath)).canceledTorrent id
        (requestedTorrent t newPath)) :=
  lookup_cancelInactiveJob (lookup_withTorrent s id _)

theorem currentTarget_canceled (s : SessionImpl) (id : Digest) (t : TorrentImpl)
    (newPath : String) :
    (canceled s id t newPath).currentTarget (requestedTorrent t newPath) = s.currentTarget t := by
  rw [currentTarget, hasActiveJob, canceled, activeJob_cancelInactiveJob]
  rfl

theorem moveStorage_cases (ht : s.torrents.lookup id = some t) (hmeta : t.hasMetadata = true)
    (newPath : String) (context : MoveStorageContext) :
    (s.currentTarget t = some newPath ∧
        s.moveStorage id newPath context = canceled s id t newPath) ∨
      (s.currentTarget t ≠ some newPath ∧ ∃ mode, s.moveStorage id newPath context =
        ((canceled s id t newPath).enqueue ⟨t.nativeHandle, newPath, mode, context⟩).withTorrent id
          (enqueuedTorrent s id t newPath)) := by
  have hlookup := lookup_canceled s id t newPath
  have htarget := currentTarget_canceled s id t newPath
  rw [moveStorage, ht]
  dsimp only
  rw [if_neg (by simp [hmeta]), addMoveTorrentStorageJob]
  by_cases hcur : s.currentTarget t = some newPath
  · refine .inl ⟨hcur, ?_⟩
    have hcur' := htarget.trans hcur
    simp only [canceled, requestedTorrent] at hlookup hcur' ⊢
    simp only [hcur', if_true, hlookup, Bool.false_eq_true, if_false]
  · refine .inr ⟨hcur, if context = .adjustCurrentLocation then .overwrite else
      .keepExistingFiles, ?_⟩
    have hcur' : ¬_ := fun h => hcur (htarget.symm.trans h)
    simp only [canceled, requestedTorrent, enqueuedTorrent] at hlookup hcur' ⊢
    simp only [hcur', if_false, torrents_enqueue, hlookup, if_true]

/-- What a request needs: a torrent that it reloads is not given a job. -/
def RequestSettled (s : SessionImpl) (id : Digest) (newPath : String) : Prop :=
  ∀ t ∈ s.torrents.lookup id, t.hasMetadata = true → s.ReloadedByRequest t → newPath = t.location
  deriving Decidable

theorem currentTarget_of_reloaded (h : s.ReloadedByRequest t) :
    s.currentTarget t = some t.location := by
  rw [currentTarget, h.2.1]
  rfl

section request

variable (hs : Inv s) (ht : s.torrents.lookup id = some t) (newPath : String)
include hs ht

theorem core_requested : Core (s.withTorrent id (requestedTorrent t newPath)) :=
  hs.toCore.withTorrent ht rfl

theorem core_canceled : Core (canceled s id t newPath) :=
  (core_requested hs ht newPath).cancelInactiveJob (lookup_withTorrent s id _)

theorem othersTracked_canceled : OthersTracked (canceled s id t newPath) id :=
  ((hs.othersTracked id).withTorrent _).cancelInactiveJob (core_requested hs ht newPath)
    (lookup_withTorrent s id _)

theorem inv_canceled (hcur : s.currentTarget t = some newPath) : Inv (canceled s id t newPath) := by
  have hs₁ := core_requested hs ht newPath
  have ht₁ := lookup_withTorrent s id (requestedTorrent t newPath)
  have hjobs := jobsOf_canceledTorrent hs₁ ht₁
  refine .of_others (core_canceled hs ht newPath) (othersTracked_canceled hs ht newPath)
    (lookup_canceled s id t newPath)
    ⟨storageIsMoving_canceledTorrent hs₁ ht₁ (hs.tracked id t ht).moving, fun _ path hp => ?_⟩
  rw [requested_canceledTorrent] at hp
  obtain rfl : newPath = path := some.inj hp
  rw [lastPath, canceled, hjobs, location_canceledTorrent]
  rw [currentTarget] at hcur
  change ((if s.hasActiveJob t.nativeHandle then s.activeJob.toList else []).getLast?.map
    (·.path)).getD t.location = newPath
  cases ha : s.hasActiveJob t.nativeHandle with
  | false =>
    rw [ha] at hcur
    exact some.inj hcur
  | true =>
    rw [ha, if_pos rfl] at hcur
    obtain ⟨job, hjob, hpath⟩ := map_eq_some_iff.1 hcur
    rw [if_pos rfl, hjob]
    exact hpath

theorem inv_enqueued (hr : ¬s.ReloadedByRequest t) (mode : MoveStorageMode)
    (context : MoveStorageContext) :
    Inv (((canceled s id t newPath).enqueue ⟨t.nativeHandle, newPath, mode, context⟩).withTorrent
      id (enqueuedTorrent s id t newPath)) := by
  set job : MoveStorageJob := ⟨t.nativeHandle, newPath, mode, context⟩
  set t₂ := (s.withTorrent id (requestedTorrent t newPath)).canceledTorrent id
    (requestedTorrent t newPath) with ht₂
  have hh : t₂.nativeHandle = job.torrentHandle := nativeHandle_canceledTorrent hr
  have hs₂ := core_canceled hs ht newPath
  have hlookup : (canceled s id t newPath).torrents.lookup id = some t₂ :=
    lookup_canceled s id t newPath
  have hlive : Live (canceled s id t newPath) job.torrentHandle := by
    rw [← hh]
    exact hs₂.live_handle hlookup
  have htail : jobsOf job.torrentHandle (canceled s id t newPath).moveStorageQueue.tail = [] := by
    rw [canceled, moveStorageQueue_cancelInactiveJob, tail_withoutInactive]
    exact jobsOf_eraseP_self hs.single
  have hlookup' : ((canceled s id t newPath).enqueue job).torrents.lookup id = some t₂ := by
    rw [torrents_enqueue, hlookup]
  have ho := (othersTracked_canceled hs ht newPath).enqueue hs₂ hlookup hh.symm
  have hjobs : jobsOf (enqueuedTorrent s id t newPath).nativeHandle
      ((canceled s id t newPath).enqueue job).moveStorageQueue =
        jobsOf job.torrentHandle (canceled s id t newPath).moveStorageQueue ++ [job] := by
    have hh' : (enqueuedTorrent s id t newPath).nativeHandle = job.torrentHandle := hh
    rw [moveStorageQueue_enqueue, jobsOf_append, hh', jobsOf_cons_self]
    rfl
  refine .of_others ((hs₂.enqueue hlive htail).withTorrent hlookup' rfl) (ho.withTorrent _)
    (lookup_withTorrent _ id _) ⟨iff_of_true rfl ?_, fun _ path hp => ?_⟩
  · exact hjobs ▸ append_ne_nil_of_right_ne_nil _ (cons_ne_nil _ _)
  · have hp' : t₂.requested = some path := hp
    rw [ht₂, requested_canceledTorrent] at hp'
    obtain rfl : newPath = path := some.inj hp'
    change ((jobsOf (enqueuedTorrent s id t newPath).nativeHandle
      ((canceled s id t newPath).enqueue job).moveStorageQueue).getLast?.map _).getD _ = _
    rw [hjobs, getLast?_concat]
    rfl

end request

theorem Inv.moveStorage (hs : Inv s) {newPath : String} (context : MoveStorageContext)
    (hk : RequestSettled s id newPath) : Inv (s.moveStorage id newPath context) := by
  cases ht : s.torrents.lookup id with
  | none =>
    rw [SessionImpl.moveStorage, ht]
    exact hs
  | some t =>
    cases hmeta : t.hasMetadata with
    | false =>
      rw [SessionImpl.moveStorage, ht]
      dsimp only
      rw [if_pos hmeta]
      exact hs.withTorrent ht rfl rfl rfl rfl
    | true =>
      obtain ⟨hcur, he⟩ | ⟨hcur, mode, he⟩ := moveStorage_cases ht hmeta newPath context
      · rw [he]
        exact inv_canceled hs ht newPath hcur
      · rw [he]
        refine inv_enqueued hs ht newPath (fun hr => hcur ?_) mode context
        rw [currentTarget_of_reloaded hr, hk t ht hmeta hr]

/-! ### Alerts -/

/-- The queue after an alert, with the next move given to libtorrent. -/
def popped (s : SessionImpl) (success : Bool) (rest : List MoveStorageJob) : SessionImpl :=
  { s with
    moveStorageQueue := rest
    moving := (rest.head?.map (·.torrentHandle)).toList
    allMoved := s.allMoved && success }

/-- What the alert of the active job does, to the torrent with its hash or in its place. -/
def answered (s : SessionImpl) (job : MoveStorageJob) (path : String) : SessionImpl :=
  match s.torrents.lookup job.torrentHandle.infoHash with
  | some t =>
    s.finishJob job.torrentHandle.infoHash t path job.context
      (decide (s.Queued job.torrentHandle))
  | none =>
    if s.Queued job.torrentHandle then s
    else
      let removeOption := (s.removingTorrents.lookup job.torrentHandle.infoHash).getD .keepContent
      let s := { s with
        removingTorrents := s.removingTorrents.insert job.torrentHandle.infoHash removeOption }
      if removeOption = .keepContent then s.removeNative job.torrentHandle else s

def reportedPath (s : SessionImpl) (job : MoveStorageJob) (success : Bool) : String :=
  if success then job.path
  else ((s.torrents.lookup job.torrentHandle.infoHash).map (·.location)).getD ""

variable {head : MoveStorageJob} {rest : List MoveStorageJob}

theorem handleStorageAlert_eq (hs : Core s) (hq : s.moveStorageQueue = head :: rest)
    (success : Bool) :
    s.handleStorageAlert success =
      answered (popped s success rest) head (reportedPath s head success) := by
  have hissued : s.moving = [head.torrentHandle] := by
    rw [hs.issued, activeJob, hq]
    rfl
  rw [handleStorageAlert, hq]
  simp only [handleMoveTorrentStorageJobFinished, hissued]
  cases rest with
  | nil => simp only [erase_cons_head]; rfl
  | cons job rest =>
    have hin : job.torrentHandle ∈ s.native := hs.mem_native_of_behind (by rw [hq]; simp)
    simp only [moveTorrentStorage, hin, if_true, erase_cons_head, nil_append]
    rfl

/-- What the removal of a torrent with its content needs before the alert of its move: it is still
known, and no other torrent has the hash. -/
def AlertSettled (s : SessionImpl) : Prop :=
  ∀ job ∈ s.activeJob, (job.torrentHandle, .removeContent) ∈ s.removed →
    s.removingTorrents.lookup job.torrentHandle.infoHash = some .removeContent ∧
      job.torrentHandle.infoHash ∉ s.torrents
  deriving Decidable

theorem Core.live_of_lookup (hs : Core s) (hk : AlertSettled s)
    (hq : s.moveStorageQueue = head :: rest)
    (ht : s.torrents.lookup head.torrentHandle.infoHash = some t) :
    t.nativeHandle = head.torrentHandle := by
  have hmem : head.torrentHandle.infoHash ∈ s.torrents := by
    rw [mem_iff_isSome, ht]
    rfl
  have hhead : head ∈ s.moveStorageQueue := by
    rw [hq]
    exact mem_cons_self
  obtain ⟨t', ht', he⟩ | ⟨option, hr⟩ := hs.owned head hhead
  · cases ht.symm.trans ht'
    exact he
  · cases option with
    | keepContent => exact absurd hmem (hs.not_mem_of_waiting hr ⟨head, hhead, rfl⟩)
    | removeContent => exact absurd hmem (hk head (by rw [activeJob, hq]; rfl) hr).2

theorem Inv.handleStorageAlert (hs : Inv s) (hk : AlertSettled s) (success : Bool) :
    Inv (s.handleStorageAlert success) := by
  cases hq : s.moveStorageQueue with
  | nil =>
    rw [SessionImpl.handleStorageAlert, hq]
    exact hs
  | cons head rest =>
    have hhead : head ∈ s.moveStorageQueue := by
      rw [hq]
      exact mem_cons_self
    have hactive : head ∈ s.activeJob := by
      rw [activeJob, hq]
      rfl
    have hjobs : ∀ h ≠ head.torrentHandle, jobsOf h rest = jobsOf h s.moveStorageQueue := by
      intro h hne
      rw [hq, jobsOf_cons_of_ne hne.symm]
    have hall : (s.allMoved && success) = true → s.allMoved = true := fun h =>
      (Bool.and_eq_true _ _ ▸ h).1
    rw [handleStorageAlert_eq hs.toCore hq, answered]
    cases ht : (popped s success rest).torrents.lookup head.torrentHandle.infoHash with
    | some t =>
      have hh : t.nativeHandle = head.torrentHandle := hs.toCore.live_of_lookup hk hq ht
      have hl : Live s head.torrentHandle := ⟨t, ht, hh⟩
      have hs' : Core (popped s success rest) :=
        hs.toCore.pop hq _ fun hr => absurd hr (hs.toCore.not_removed hl _)
      have ho : OthersTracked (popped s success rest) head.torrentHandle.infoHash :=
        (hs.othersTracked _).requeue hs.toCore ht _ (hh ▸ hjobs) hall
      have hreload : decide ((popped s success rest).Queued head.torrentHandle) = false →
          t.hasMissingFiles = true → ¬(popped s success rest).Queued t.nativeHandle := by
        intro hd _
        rw [hh]
        exact of_decide_eq_false hd
      have hlast := (hs.tracked _ t ht).target
      rw [lastPath, hh, hq, jobsOf_cons_self] at hlast
      refine .of_others (hs'.finishJob ht _ _ hreload) (ho.finishJob _ _ _ _)
        ((lookup_finishJob _).trans (if_pos rfl)) ⟨?_, ?_⟩
      · rw [storageIsMoving_finishedTorrent, moveStorageQueue_finishJob,
          jobsOf_finishedTorrent hs' hreload, hh, decide_eq_true_iff, queued_iff]
      · intro ha path hp
        rw [allMoved_finishJob] at ha
        obtain ⟨hall', rfl⟩ := (Bool.and_eq_true _ _ ▸ ha :
          s.allMoved = true ∧ success = true)
        rw [requested_finishedTorrent] at hp
        rw [lastPath, moveStorageQueue_finishJob, jobsOf_finishedTorrent hs' hreload, hh,
          location_finishedTorrent, ← hlast hall' path hp]
        change ((jobsOf head.torrentHandle rest).getLast?.map _).getD head.path = _
        cases jobsOf head.torrentHandle rest with
        | nil => rfl
        | cons job jobs => simp [getLast?_cons]
    | none =>
      replace ht : s.torrents.lookup head.torrentHandle.infoHash = none := ht
      have hdead : ¬Live s head.torrentHandle := by
        rintro ⟨t, ht', -⟩
        rw [ht] at ht'
        cases ht'
      have hothers : ∀ id t, s.torrents.lookup id = some t →
          Tracked rest (s.allMoved && success) t := by
        intro id t ht'
        refine (hs.tracked id t ht').of_jobsOf (hjobs _ fun he => hdead ?_) hall
        exact he ▸ hs.toCore.live_handle ht'
      obtain ⟨option, hr⟩ := (hs.toCore.owned head hhead).resolve_left hdead
      dsimp only
      split_ifs with hqueued hkeep
      · exact ⟨hs.toCore.pop hq _ fun _ => queued_iff.1 hqueued, hothers⟩
      · have hlast : jobsOf head.torrentHandle rest = [] :=
          not_ne_iff.1 fun hne => hqueued (queued_iff.2 hne)
        have hoption : option = .keepContent := by
          cases option with
          | keepContent => rfl
          | removeContent =>
            have hlookup : (popped s success rest).removingTorrents.lookup
                head.torrentHandle.infoHash = some .removeContent := (hk head hactive hr).1
            rw [hlookup] at hkeep
            cases hkeep
        subst hoption
        rw [hkeep]
        exact ⟨hs.toCore.release hq _ hr hlast, hothers⟩
      · cases option with
        | keepContent =>
          obtain ⟨-, hne⟩ := hs.toCore.waiting _ hr ⟨head, hhead, rfl⟩
          refine absurd ?_ hkeep
          change (s.removingTorrents.lookup head.torrentHandle.infoHash).getD .keepContent = _
          cases hlookup : s.removingTorrents.lookup head.torrentHandle.infoHash with
          | none => rfl
          | some removeOption =>
            cases removeOption with
            | keepContent => rfl
            | removeContent => exact absurd hlookup hne
        | removeContent =>
          have hlookup : (popped s success rest).removingTorrents.lookup
              head.torrentHandle.infoHash = some .removeContent := (hk head hactive hr).1
          have hsame : (popped s success rest).removingTorrents.insert
              head.torrentHandle.infoHash .removeContent =
                (popped s success rest).removingTorrents := by
            refine Finmap.ext_lookup fun id => ?_
            rw [lookup_insert_eq]
            split_ifs with hid
            · rw [hid, hlookup]
            · rfl
          simp only [hlookup, getD_some, hsame]
          refine ⟨hs.toCore.pop hq _ fun hr' => ?_, hothers⟩
          cases hs.toCore.option_unique hr hr'

end

end QBittorrent.MoveQueue
