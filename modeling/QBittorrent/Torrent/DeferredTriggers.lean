import QBittorrent.Torrent.MoveTriggers

/-!
# Deferred triggers are invoked once and in time

* `Inv.next` : every event;
* `deferred_always` : triggers are invoked once and in time.
-/

namespace QBittorrent.MoveTriggers

open MoveQueue MoveQueue.SessionImpl List MoveTriggers.Session

structure Invoked (s : Session) : Prop where
  inOrder : s.invoked.map (·.trigger) ++ s.torrent.moveFinishedTriggers = List.range s.deferred
  inTime : ∀ call ∈ s.invoked, call.moving = false ∧ call.renames = 0

/-- The renames are counted, and the triggers are invoked once, in order, when the torrent is neither
being moved nor having files renamed; none is left when no move and no rename is. -/
structure Deferred (s : Session) : Prop extends Invoked s where
  counted : s.torrent.renameCount = s.renames.length
  released : (∀ job ∈ s.moveStorageQueue,
      job.torrentHandle.infoHash ≠ s.torrent.nativeHandle.infoHash) →
    s.renames = [] → s.torrent.moveFinishedTriggers = []

/-- What the torrent knows of its moves. -/
structure Moves (s : Session) : Prop where
  still : s.torrent.storageIsMoving = false →
    ∀ job ∈ s.moveStorageQueue, job.torrentHandle ≠ s.torrent.nativeHandle
  moving : s.torrent.storageIsMoving = true →
    ∃ job ∈ s.moveStorageQueue,
      job.torrentHandle.infoHash = s.torrent.nativeHandle.infoHash
  bounded : ∀ job ∈ s.moveStorageQueue,
    job.torrentHandle.infoHash = s.torrent.nativeHandle.infoHash →
      job.torrentHandle.index ≤ s.torrent.nativeHandle.index
  inactive : (s.moveStorageQueue.tail.countP fun job =>
    job.torrentHandle = s.torrent.nativeHandle) ≤ 1

/-- Triggers wait only for a move or a rename. -/
structure Inv (s : Session) : Prop extends Invoked s, Moves s where
  counted : s.torrent.renameCount = s.renames.length
  idle : s.torrent.storageIsMoving = false → s.renames = [] →
    s.torrent.moveFinishedTriggers = []

variable {s : Session}

theorem Inv.deferred (hs : Inv s) : Deferred s := { hs with
  released hqueue hrenames := by
    cases hmoving : s.torrent.storageIsMoving with
    | false => exact hs.idle hmoving hrenames
    | true =>
      obtain ⟨job, hjob, hhash⟩ := hs.moving hmoving
      exact absurd hhash (hqueue job hjob) }

namespace Session

theorem hasActiveJob_eq_false {s : Session} {h : TorrentHandle}
    (hqueue : ∀ job ∈ s.moveStorageQueue, job.torrentHandle ≠ h) : s.hasActiveJob h = false := by
  rw [hasActiveJob]
  cases hhead : s.moveStorageQueue.head? with
  | none => rfl
  | some job => exact decide_eq_false (hqueue job (mem_of_mem_head? (by rw [hhead]; rfl)))

/-- All deferred triggers are invoked. -/
def released (s : Session) : Session :=
  { s with
    torrent := { s.torrent with moveFinishedTriggers := [] }
    invoked := s.invoked ++ s.torrent.moveFinishedTriggers.map fun trigger =>
      ⟨trigger, s.hasActiveJob s.torrent.nativeHandle, s.renames.length⟩ }

theorem invokeMoveFinishedTriggers_eq {ready : TorrentImpl → Bool}
    (hready : ∀ t triggers, ready { t with moveFinishedTriggers := triggers } = ready t)
    (triggers : List ℕ) (s : Session) (hs : s.torrent.moveFinishedTriggers = triggers) :
    s.invokeMoveFinishedTriggers ready triggers = if ready s.torrent then s.released else s := by
  induction triggers generalizing s with
  | nil =>
    obtain ⟨⟨⟩, _⟩ := s
    cases hs
    rw [invokeMoveFinishedTriggers, released]
    simp
  | cons trigger rest ih =>
    rw [invokeMoveFinishedTriggers]
    split_ifs with h
    · rw [ih _ rfl, if_pos (by simpa [invoke, hready] using h)]
      simp only [released, invoke, hs, map_cons, append_assoc, singleton_append]
      rfl
    · rfl

end Session

theorem Invoked.released (hs : Invoked s) (hmoving : s.hasActiveJob s.torrent.nativeHandle = false)
    (hrenames : s.renames = []) : Invoked s.released where
  inOrder := by
    rw [Session.released, ← hs.inOrder]
    simp [Function.comp_def]
  inTime call hcall := by
    rcases mem_append.1 hcall with h | h
    · exact hs.inTime call h
    · obtain ⟨trigger, -, rfl⟩ := mem_map.1 h
      exact ⟨hmoving, by rw [hrenames]; rfl⟩

variable {s' : Session}

theorem Invoked.congr (hs : Invoked s) (hinvoked : s'.invoked = s.invoked)
    (hdeferred : s'.deferred = s.deferred)
    (htriggers : s'.torrent.moveFinishedTriggers = s.torrent.moveFinishedTriggers) :
    Invoked s' where
  inOrder := by rw [hinvoked, htriggers, hdeferred, hs.inOrder]
  inTime := by
    rw [hinvoked]
    exact hs.inTime

namespace Moves

variable {s s' : Session}

theorem congr (hs : Moves s) (hqueue : s'.moveStorageQueue = s.moveStorageQueue)
    (hhandle : s'.torrent.nativeHandle = s.torrent.nativeHandle)
    (hmoving : s'.torrent.storageIsMoving = s.torrent.storageIsMoving) : Moves s' := by
  obtain ⟨hstill, hmoves, hbounded, hinactive⟩ := hs
  constructor <;> rw [hqueue, hhandle] <;> (try rw [hmoving]) <;> assumption

theorem hasActiveJob_eq_false (hs : Moves s) (hmoving : s.torrent.storageIsMoving = false) :
    s.hasActiveJob s.torrent.nativeHandle = false :=
  Session.hasActiveJob_eq_false (hs.still hmoving)

end Moves

namespace Inv

variable {s s' : Session}

theorem congr (hs : Inv s) (hqueue : s'.moveStorageQueue = s.moveStorageQueue)
    (hrenames : s'.renames = s.renames) (hinvoked : s'.invoked = s.invoked)
    (hdeferred : s'.deferred = s.deferred)
    (hhandle : s'.torrent.nativeHandle = s.torrent.nativeHandle)
    (htriggers : s'.torrent.moveFinishedTriggers = s.torrent.moveFinishedTriggers)
    (hcount : s'.torrent.renameCount = s.torrent.renameCount)
    (hmoving : s'.torrent.storageIsMoving = s.torrent.storageIsMoving) : Inv s' where
  toInvoked := hs.toInvoked.congr hinvoked hdeferred htriggers
  toMoves := hs.toMoves.congr hqueue hhandle hmoving
  counted := by rw [hcount, hrenames, hs.counted]
  idle := by
    rw [hmoving, hrenames, htriggers]
    exact hs.idle

theorem withTorrent (hs : Inv s) {t : TorrentImpl}
    (hhandle : t.nativeHandle = s.torrent.nativeHandle)
    (htriggers : t.moveFinishedTriggers = s.torrent.moveFinishedTriggers)
    (hcount : t.renameCount = s.torrent.renameCount)
    (hmoving : t.storageIsMoving = s.torrent.storageIsMoving) : Inv (s.withTorrent t) :=
  hs.congr rfl rfl rfl rfl hhandle htriggers hcount hmoving

/-! ### Renames -/

theorem doRenameFile (hs : Inv s) (index : ℕ) (path : FilePath) :
    Inv (s.doRenameFile index path) := by
  rw [Session.doRenameFile]
  cases s.torrent.files[index]? with
  | none => exact hs
  | some file =>
    refine ⟨hs.toInvoked.congr rfl rfl rfl, hs.toMoves.congr rfl rfl rfl, ?_, fun _ hnil => ?_⟩
    · simp [hs.counted]
    · exact absurd hnil (append_ne_nil_of_right_ne_nil _ (cons_ne_nil _ _))

theorem renameFile (hs : Inv s) (index : ℕ) (path : FilePath) : Inv (s.renameFile index path) := by
  rw [Session.renameFile]
  cases s.torrent.files[index]? with
  | none => exact hs
  | some file => exact hs.doRenameFile index _

theorem manageActualFilePathsFrom (files : List TorrentFile) :
    ∀ {s : Session} (i : ℕ), Inv s → Inv (s.manageActualFilePathsFrom i files) := by
  induction files with
  | nil => exact fun _ hs => hs
  | cons file files ih =>
    intro s i hs
    refine ih _ ?_
    split_ifs
    · exact hs.doRenameFile i _
    · exact hs

theorem manageActualFilePaths (hs : Inv s) : Inv s.manageActualFilePaths :=
  manageActualFilePathsFrom _ 0 hs

theorem updateFile (hs : Inv s) (nativeIndex : ℕ) (f : TorrentFile → TorrentFile) :
    Inv (s.updateFile nativeIndex f) :=
  hs.withTorrent rfl rfl rfl rfl

theorem finishRename (hs : Inv s) {rename : Rename} (hrename : rename ∈ s.renames) :
    Inv ({ s with renames := s.renames.erase rename } : Session).finishRename := by
  set s' : Session :=
    { s with
      torrent := { s.torrent with renameCount := s.torrent.renameCount - 1 }
      renames := s.renames.erase rename } with hs'
  have hinvoked : Invoked s' := hs.toInvoked.congr rfl rfl rfl
  have hmoves : Moves s' := hs.toMoves.congr rfl rfl rfl
  have hcounted : s'.torrent.renameCount = s'.renames.length := by
    have hlength := length_erase_add_one hrename
    change s.torrent.renameCount - 1 = ((s.renames.erase rename).length : ℤ)
    rw [hs.counted]
    omega
  have heq : ({ s with renames := s.renames.erase rename } : Session).finishRename =
      if !s'.torrent.storageIsMoving && s'.torrent.renameCount = 0 then s'.released else s' :=
    invokeMoveFinishedTriggers_eq (fun _ _ => rfl) _ s' rfl
  rw [heq]
  split_ifs with hready
  · rw [Bool.and_eq_true, Bool.not_eq_true', decide_eq_true_eq] at hready
    have hnil : s'.renames = [] := by
      rw [hcounted] at hready
      exact length_eq_zero_iff.1 (by exact_mod_cast hready.2)
    exact ⟨hinvoked.released (hmoves.hasActiveJob_eq_false hready.1) hnil,
      hmoves.congr rfl rfl rfl, hcounted, fun _ _ => rfl⟩
  · refine ⟨hinvoked, hmoves, hcounted, fun hstill hnil => ?_⟩
    refine absurd ?_ hready
    rw [hstill, hcounted, hnil]
    rfl

end Inv

/-! ### Moves -/

structure Finished (s s' : Session) (hasOutstandingJob : Bool) : Prop extends Invoked s' where
  queue : s'.moveStorageQueue = s.moveStorageQueue
  hash : s'.torrent.nativeHandle.infoHash = s.torrent.nativeHandle.infoHash
  /-- The torrent has its handle, or a new one. -/
  handle : s'.torrent.nativeHandle = s.torrent.nativeHandle ∨
    s'.torrent.nativeHandle.index = s.torrent.nativeHandle.index + 1
  moving : s'.torrent.storageIsMoving = hasOutstandingJob
  counted : s'.torrent.renameCount = s'.renames.length
  idle : hasOutstandingJob = false → s'.renames = [] → s'.torrent.moveFinishedTriggers = []

/-- The jobs in a queue are of no later handles of the torrent than `h`. -/
def Bounded (q : List MoveStorageJob) (h : TorrentHandle) : Prop :=
  ∀ job ∈ q, job.torrentHandle.infoHash = h.infoHash → job.torrentHandle.index ≤ h.index

variable {q : List MoveStorageJob}

theorem Bounded.ne {h h' : TorrentHandle} (hq : Bounded q h) (hhash : h'.infoHash = h.infoHash)
    (hindex : h'.index = h.index + 1) : ∀ job ∈ q, job.torrentHandle ≠ h' := by
  rintro job hjob rfl
  have := hq job hjob hhash
  omega

theorem finished_released (hs : Invoked s') (hqueue : s'.moveStorageQueue = s.moveStorageQueue)
    (hhash : s'.torrent.nativeHandle.infoHash = s.torrent.nativeHandle.infoHash)
    (hhandle : s'.torrent.nativeHandle = s.torrent.nativeHandle ∨
      s'.torrent.nativeHandle.index = s.torrent.nativeHandle.index + 1)
    (hmoving : s'.torrent.storageIsMoving = false)
    (hcounted : s'.torrent.renameCount = s'.renames.length)
    (hactive : s'.hasActiveJob s'.torrent.nativeHandle = false) :
    Finished s (if decide (s'.torrent.renameCount = 0) = true then s'.released else s') false := by
  split_ifs with hready
  · have hnil : s'.renames = [] := by
      rw [decide_eq_true_eq, hcounted] at hready
      exact length_eq_zero_iff.1 (by exact_mod_cast hready)
    exact ⟨hs.released hactive hnil, hqueue, hhash, hhandle, hmoving, hcounted, fun _ _ => rfl⟩
  · refine ⟨hs, hqueue, hhash, hhandle, hmoving, hcounted, fun _ hnil => absurd ?_ hready⟩
    rw [hcounted, hnil]
    rfl

theorem finished_handleMoveStorageJobFinished (hs : Invoked s)
    (hcounted : s.torrent.renameCount = s.renames.length)
    (hbounded : Bounded s.moveStorageQueue s.torrent.nativeHandle) (path : String)
    (context : MoveStorageContext) (hasOutstandingJob : Bool)
    (hactive : hasOutstandingJob = false → s.hasActiveJob s.torrent.nativeHandle = false) :
    Finished s (s.handleMoveStorageJobFinished path context hasOutstandingJob)
      hasOutstandingJob := by
  rw [handleMoveStorageJobFinished]
  cases hasOutstandingJob with
  | true =>
    exact ⟨hs.congr rfl rfl rfl, rfl, rfl, .inl rfl, rfl, hcounted, fun h => by cases h⟩
  | false =>
    rw [if_pos rfl, invokeMoveFinishedTriggers_eq (fun _ _ => rfl) _ _ rfl]
    by_cases hmissing : s.torrent.hasMissingFiles = true
    · -- no job is for the new handle
      rw [if_pos hmissing]
      exact finished_released (hs.congr rfl rfl rfl) rfl rfl (.inr rfl) rfl hcounted
        (hasActiveJob_eq_false (hbounded.ne rfl rfl))
    · rw [if_neg hmissing]
      exact finished_released (hs.congr rfl rfl rfl) rfl rfl (.inl rfl) rfl hcounted
        (hactive rfl)

theorem Finished.inv {hasOutstandingJob : Bool} (hs : Finished s s' hasOutstandingJob)
    (hbounded : Bounded q s.torrent.nativeHandle)
    (hstill : hasOutstandingJob = false → ∀ job ∈ q, job.torrentHandle ≠ s.torrent.nativeHandle)
    (hmoving : hasOutstandingJob = true →
      ∃ job ∈ q, job.torrentHandle.infoHash = s.torrent.nativeHandle.infoHash)
    (hinactive : (q.tail.countP fun job => job.torrentHandle = s.torrent.nativeHandle) ≤ 1) :
    Inv { s' with moveStorageQueue := q } := by
  have hflag : s'.torrent.storageIsMoving = hasOutstandingJob := hs.moving
  refine ⟨hs.toInvoked.congr rfl rfl rfl, ⟨fun hfalse => ?_, fun htrue => ?_,
    fun job hjob he => ?_, ?_⟩, hs.counted, fun hfalse => hs.idle (hflag.symm.trans hfalse)⟩
  · rcases hs.handle with he | he
    · rw [he]
      exact hstill (hflag.symm.trans hfalse)
    · exact hbounded.ne hs.hash he
  · obtain ⟨job, hjob, he⟩ := hmoving (hflag.symm.trans htrue)
    exact ⟨job, hjob, he.trans hs.hash.symm⟩
  · have hindex := hbounded job hjob (he.trans hs.hash)
    change job.torrentHandle.index ≤ s'.torrent.nativeHandle.index
    rcases hs.handle with he | he
    · rwa [he]
    · omega
  · rcases hs.handle with he | he
    · rwa [he]
    · refine (countP_eq_zero.2 fun job hjob heq => ?_).trans_le (Nat.zero_le 1)
      exact hbounded.ne hs.hash he job (mem_of_mem_tail hjob) (of_decide_eq_true heq)

theorem mem_head?_or_mem_tail {job : MoveStorageJob} (hjob : job ∈ q) :
    q.head? = some job ∨ job ∈ q.tail := by
  rcases hjob with _ | ⟨_, hjob⟩
  · exact .inl rfl
  · exact .inr hjob

theorem not_of_mem_eraseP {p : MoveStorageJob → Bool} (hq : q.countP p ≤ 1) :
    ∀ job ∈ q.eraseP p, ¬p job := by
  induction q with
  | nil => simp
  | cons job q ih =>
    by_cases hjob : p job
    · rw [eraseP_cons_of_pos hjob]
      rw [countP_cons_of_pos hjob] at hq
      exact countP_eq_zero.1 (by omega)
    · rw [eraseP_cons_of_neg hjob]
      rw [countP_cons_of_neg hjob] at hq
      rintro job' (_ | ⟨_, hjob'⟩)
      · exact hjob
      · exact ih hq job' hjob'

theorem Session.addMoveTorrentStorageJob_cases (s : Session) (newPath : String)
    (mode : MoveStorageMode) (context : MoveStorageContext) :
    s.addMoveTorrentStorageJob newPath mode context = (s.cancelInactiveJob, false) ∨
      s.addMoveTorrentStorageJob newPath mode context =
        ({ s.cancelInactiveJob with
          moveStorageQueue := s.cancelInactiveJob.moveStorageQueue ++
            [⟨s.torrent.nativeHandle, newPath, mode, context⟩] }, true) := by
  rw [addMoveTorrentStorageJob]
  generalize (if s.hasActiveJob s.torrent.nativeHandle = true then _ else _) = meaningless
  cases meaningless with
  | true => exact .inl rfl
  | false => exact .inr rfl

/-- The inactive job of the torrent is removed, if there is one. -/
structure Canceled (s s' : Session) : Prop extends Inv s' where
  hash : s'.torrent.nativeHandle.infoHash = s.torrent.nativeHandle.infoHash
  handle : s'.torrent.nativeHandle = s.torrent.nativeHandle ∨
    s'.torrent.nativeHandle.index = s.torrent.nativeHandle.index + 1
  handles : Bounded s'.moveStorageQueue s.torrent.nativeHandle
  gone : ∀ job ∈ s'.moveStorageQueue.tail, job.torrentHandle ≠ s.torrent.nativeHandle

namespace Inv

variable {s s' : Session} {job : MoveStorageJob} {h : TorrentHandle}

theorem canceled (hs : Inv s) : Canceled s s.cancelInactiveJob := by
  rw [Session.cancelInactiveJob]
  cases hfind : s.moveStorageQueue.tail.find? fun job =>
      job.torrentHandle = s.torrent.nativeHandle with
  | none =>
    exact ⟨hs, rfl, .inl rfl, hs.bounded, fun job hjob he => List.find?_eq_none.1 hfind job hjob
      (decide_eq_true he)⟩
  | some job =>
    dsimp only
    have hfinished := finished_handleMoveStorageJobFinished hs.toInvoked hs.counted hs.bounded
      s.torrent.actualStorageLocation job.context (s.hasActiveJob s.torrent.nativeHandle) id
    generalize s.handleMoveStorageJobFinished s.torrent.actualStorageLocation job.context
      (s.hasActiveJob s.torrent.nativeHandle) = s' at *
    rw [hfinished.queue]
    -- what is left of the queue
    set q := withoutInactive s.torrent.nativeHandle s.moveStorageQueue with hq
    have hhandles : Bounded q s.torrent.nativeHandle :=
      fun job hjob => hs.bounded job (withoutInactive_subset _ _ hjob)
    have hgone : ∀ job ∈ q.tail, job.torrentHandle ≠ s.torrent.nativeHandle := by
      rw [hq, tail_withoutInactive]
      exact fun job hjob he => not_of_mem_eraseP hs.inactive job hjob (decide_eq_true he)
    have hactive : s.hasActiveJob s.torrent.nativeHandle =
        q.head?.any fun job => job.torrentHandle = s.torrent.nativeHandle := by
      rw [hq, head?_withoutInactive]
      rfl
    refine ⟨hfinished.inv hhandles (fun hstill job hjob => ?_) (fun hmoving => ?_) ?_,
      hfinished.hash, hfinished.handle, hhandles, hgone⟩
    · rcases mem_head?_or_mem_tail hjob with hhead | htail
      · rw [hactive, hhead] at hstill
        exact of_decide_eq_false hstill
      · exact hgone job htail
    · -- the active job stays
      rw [hactive] at hmoving
      obtain ⟨job, hjob, he⟩ := (Option.any_eq_true _ _).1 hmoving
      exact ⟨job, mem_of_mem_head? hjob, by rw [of_decide_eq_true he]⟩
    · refine (countP_eq_zero.2 fun job hjob he => ?_).trans_le (Nat.zero_le 1)
      exact hgone job hjob (of_decide_eq_true he)

theorem enqueue (hs : Canceled s s') (hjob : job.torrentHandle = s.torrent.nativeHandle) :
    Inv ({ s' with moveStorageQueue := s'.moveStorageQueue ++ [job] } : Session).setMoving := by
  refine ⟨hs.toInvoked.congr rfl rfl rfl, ⟨(fun h => by cases h), fun _ => ?_, ?_, ?_⟩,
    hs.counted, (fun h => by cases h)⟩
  · refine ⟨job, mem_append_right _ (mem_singleton_self job), ?_⟩
    rw [hjob]
    exact hs.hash.symm
  · intro job' hjob' he
    rcases mem_append.1 hjob' with h | h
    · exact hs.bounded job' h he
    · rw [mem_singleton.1 h, hjob]
      change s.torrent.nativeHandle.index ≤ s'.torrent.nativeHandle.index
      rcases hs.handle with he | he
      · rw [he]
      · omega
  · change ((s'.moveStorageQueue ++ [job]).tail.countP fun job =>
      job.torrentHandle = s'.torrent.nativeHandle) ≤ 1
    cases hq : s'.moveStorageQueue with
    | nil => simp
    | cons first rest =>
      have hnone : (rest.countP fun job => job.torrentHandle = s'.torrent.nativeHandle) = 0 := by
        refine countP_eq_zero.2 fun job' hjob' he => ?_
        rcases hs.handle with heq | hne
        · refine hs.gone job' (by rw [hq]; exact hjob') ?_
          rw [← heq]
          exact of_decide_eq_true he
        · exact hs.handles.ne hs.hash hne job' (by rw [hq]; exact mem_cons_of_mem _ hjob')
            (of_decide_eq_true he)
      rw [cons_append, tail_cons, countP_append, hnone, zero_add]
      exact countP_le_length

theorem moveStorage (hs : Inv s) (newPath : String) (context : MoveStorageContext) :
    Inv (s.moveStorage newPath context) := by
  rw [Session.moveStorage]
  by_cases hmetadata : s.torrent.hasMetadata = false
  · rw [if_pos hmetadata]
    exact hs.withTorrent rfl rfl rfl rfl
  · rw [if_neg hmetadata]
    generalize (if context = .adjustCurrentLocation then MoveStorageMode.overwrite
      else .keepExistingFiles) = mode
    dsimp only
    obtain h | h := s.addMoveTorrentStorageJob_cases newPath mode context
    · rw [h]
      exact hs.canceled.toInv
    · rw [h]
      exact enqueue hs.canceled rfl

theorem adjustStorageLocation (hs : Inv s) : Inv s.adjustStorageLocation := by
  rw [Session.adjustStorageLocation]
  generalize (if s.torrent.isFinished = true ∨ s.torrent.hasFinishedStatus = true ∨
    s.torrent.downloadPath = "" then s.torrent.savePath else s.torrent.downloadPath) = targetPath
  split_ifs
  · exact hs.moveStorage targetPath _
  · exact hs

theorem otherMove (hs : Inv s)
    (hjob : job.torrentHandle.infoHash ≠ s.torrent.nativeHandle.infoHash) :
    Inv { s with moveStorageQueue := s.moveStorageQueue ++ [job] } := by
  have hne : job.torrentHandle ≠ s.torrent.nativeHandle := fun he => hjob (by rw [he])
  refine ⟨hs.toInvoked.congr rfl rfl rfl, ⟨fun hstill job' hjob' => ?_, fun hmoves => ?_,
    fun job' hjob' he => ?_, ?_⟩, hs.counted, hs.idle⟩
  · rcases mem_append.1 hjob' with h | h
    · exact hs.still hstill job' h
    · rwa [mem_singleton.1 h]
  · obtain ⟨job', hjob', he⟩ := hs.moving hmoves
    exact ⟨job', mem_append_left _ hjob', he⟩
  · rcases mem_append.1 hjob' with h | h
    · exact hs.bounded job' h he
    · rw [mem_singleton.1 h] at he
      exact absurd he hjob
  · have hinactive := hs.inactive
    cases hq : s.moveStorageQueue with
    | nil => simp
    | cons first rest =>
      rw [hq] at hinactive
      rw [cons_append, tail_cons, countP_append, countP_singleton,
        if_neg (by simpa using hne)]
      exact hinactive

theorem mem_eraseP_other {q : List MoveStorageJob} (hjob : job ∈ q) (hne : job.torrentHandle ≠ h) :
    job ∈ withoutInactive h q := by
  cases q with
  | nil => cases hjob
  | cons first rest =>
    rcases hjob with _ | ⟨_, hjob⟩
    · exact mem_cons_self
    · exact mem_cons_of_mem _
        ((mem_eraseP_of_neg (by simpa using hne)).2 hjob)

theorem otherMoveCanceled (hs : Inv s) (hne : h.infoHash ≠ s.torrent.nativeHandle.infoHash) :
    Inv { s with moveStorageQueue := withoutInactive h s.moveStorageQueue } := by
  have hsubset := withoutInactive_subset h s.moveStorageQueue
  refine ⟨hs.toInvoked.congr rfl rfl rfl, ⟨fun hstill job hjob => hs.still hstill job
    (hsubset hjob), fun hmoves => ?_, fun job hjob => hs.bounded job (hsubset hjob), ?_⟩,
    hs.counted, hs.idle⟩
  · obtain ⟨job, hjob, he⟩ := hs.moving hmoves
    exact ⟨job, mem_eraseP_other hjob fun hjob' => hne (by rw [← hjob', he]), he⟩
  · rw [tail_withoutInactive]
    exact eraseP_sublist.countP_le.trans hs.inactive

theorem handleStorageAlert (hs : Inv s) (success : Bool)
    (hp : s.Possible (.storageMoved success)) : Inv (s.handleStorageAlert success) := by
  obtain ⟨finishedJob, hhead, hown⟩ := hp
  obtain ⟨rest, hq⟩ : ∃ rest, s.moveStorageQueue = finishedJob :: rest :=
    ⟨_, eq_cons_of_mem_head? hhead⟩
  have hinactive := hs.inactive
  rw [hq, tail_cons] at hinactive
  rw [Session.handleStorageAlert, hq]
  dsimp only
  by_cases hhash : finishedJob.torrentHandle.infoHash = s.torrent.nativeHandle.infoHash
  · rw [if_pos hhash]
    have hjob := hown hhash
    rw [hjob]
    -- the queue of the state in which the job is finished is the rest already
    have hsubset : ∀ job ∈ rest, job ∈ s.moveStorageQueue := by
      rw [hq]
      exact fun job => mem_cons_of_mem _
    have hbounded : Bounded rest s.torrent.nativeHandle :=
      fun job hjob => hs.bounded job (hsubset job hjob)
    have hstill : (rest.any fun job => job.torrentHandle = s.torrent.nativeHandle) = false →
        ∀ job ∈ rest, job.torrentHandle ≠ s.torrent.nativeHandle := fun hfalse job hjob he =>
      any_eq_false.1 hfalse job hjob (decide_eq_true he)
    have hfinished := finished_handleMoveStorageJobFinished
      (s := { s with moveStorageQueue := rest }) (hs.toInvoked.congr rfl rfl rfl) hs.counted
      hbounded (if success then finishedJob.path else s.torrent.actualStorageLocation)
      finishedJob.context (rest.any fun job => job.torrentHandle = s.torrent.nativeHandle)
      fun hfalse => hasActiveJob_eq_false (hstill hfalse)
    refine (hfinished.inv hbounded hstill (fun htrue => ?_)
      ((tail_sublist rest).countP_le.trans hinactive)).congr hfinished.queue
        rfl rfl rfl rfl rfl rfl rfl
    obtain ⟨job, hjob, he⟩ := any_eq_true.1 htrue
    exact ⟨job, hjob, by rw [of_decide_eq_true he]⟩
  · rw [if_neg hhash]
    refine ⟨hs.toInvoked.congr rfl rfl rfl, ⟨fun hstill job hjob => hs.still hstill job ?_,
      fun hmoves => ?_, fun job hjob => hs.bounded job ?_, ?_⟩, hs.counted, hs.idle⟩
    · rw [hq]
      exact mem_cons_of_mem _ hjob
    · obtain ⟨job, hjob, he⟩ := hs.moving hmoves
      rw [hq] at hjob
      rcases hjob with _ | ⟨_, hjob⟩
      · exact absurd he hhash
      · exact ⟨job, hjob, he⟩
    · rw [hq]
      exact mem_cons_of_mem _ hjob
    · exact (tail_sublist rest).countP_le.trans hinactive

/-! ### Checks, status updates and files -/

theorem reload (hs : Inv s) : Inv s.reload := by
  have hnew : ∀ job ∈ s.moveStorageQueue, job.torrentHandle ≠ s.reload.torrent.nativeHandle :=
    Bounded.ne hs.bounded rfl rfl
  refine ⟨hs.toInvoked.congr rfl rfl rfl, ⟨fun _ => hnew, hs.moving, fun job hjob he => ?_, ?_⟩,
    hs.counted, hs.idle⟩
  · exact (hs.bounded job hjob he).trans (Nat.le_succ _)
  · refine (countP_eq_zero.2 fun job hjob he => ?_).trans_le (Nat.zero_le 1)
    exact hnew job (mem_of_mem_tail hjob) (of_decide_eq_true he)

theorem forceRecheck (hs : Inv s) : Inv s.forceRecheck := by
  rw [Session.forceRecheck]
  split_ifs
  · exact hs.withTorrent rfl rfl rfl rfl
  · exact hs

theorem checkedTrigger (hs : Inv s) : Inv s.checkedTrigger := by
  rw [Session.checkedTrigger]
  by_cases hmissing : s.torrent.hasMissingFiles = true
  · rw [if_pos hmissing]
    exact hs
  · rw [if_neg hmissing]
    refine manageActualFilePaths (adjustStorageLocation ?_)
    exact hs.withTorrent rfl rfl rfl rfl

theorem finishedTrigger (hs : Inv s) : Inv s.finishedTrigger := by
  rw [Session.finishedTrigger]
  have hs' := hs.adjustStorageLocation.manageActualFilePaths
  generalize s.adjustStorageLocation.manageActualFilePaths = s' at *
  dsimp only
  split_ifs with hrecheck hwaits
  · exact hs'.forceRecheck
  · refine ⟨⟨?_, hs'.inTime⟩, hs'.toMoves.congr rfl rfl rfl, hs'.counted, fun hstill hnil => ?_⟩
    · rw [← append_assoc, hs'.inOrder, range_succ]
    · rcases hwaits with hmoving | hcount
      · exact absurd hmoving (by rw [show s'.torrent.storageIsMoving = false from hstill]; decide)
      · rw [hs'.counted, show s'.renames = [] from hnil] at hcount
        exact absurd hcount (lt_irrefl _)
  · exact hs'.withTorrent rfl rfl rfl rfl

theorem invokeStatusUpdatedTriggers (triggers : List StatusTrigger) :
    ∀ {s : Session}, Inv s → Inv (s.invokeStatusUpdatedTriggers triggers) := by
  induction triggers with
  | nil => exact fun hs => hs
  | cons trigger rest ih =>
    intro s hs
    have hrest : Inv (s.withTorrent { s.torrent with statusUpdatedTriggers := rest }) :=
      hs.withTorrent rfl rfl rfl rfl
    refine ih ?_
    cases trigger with
    | checked => exact hrest.checkedTrigger
    | finished => exact hrest.finishedTrigger

theorem updateStatus (hs : Inv s) (h : TorrentHandle) (nativeStatus : NativeStatus) :
    Inv (s.updateStatus h nativeStatus) := by
  rw [Session.updateStatus]
  by_cases hh : h ≠ s.torrent.nativeHandle
  · rw [if_pos hh]
    exact hs
  · rw [if_neg hh]
    refine invokeStatusUpdatedTriggers _ (hs.withTorrent ?_ ?_ ?_ ?_) <;> (split_ifs <;> rfl)

theorem handleFileCompleted (hs : Inv s) (nativeIndex : ℕ) :
    Inv (s.handleFileCompleted nativeIndex) := by
  rw [Session.handleFileCompleted]
  split_ifs
  · exact hs
  · have hs' := hs.updateFile nativeIndex fun file => { file with completed := true }
    generalize s.updateFile nativeIndex (fun file => { file with completed := true }) = s' at *
    dsimp only
    generalize (s'.torrent.files.findIdx? fun file => file.nativeIndex = nativeIndex) = found
    cases found with
    | none => exact hs'
    | some index =>
      dsimp only
      generalize s'.torrent.files[index]? = file
      cases file with
      | none => exact hs'
      | some file =>
        dsimp only
        split_ifs
        · exact hs'.doRenameFile index _
        · exact hs'

theorem next (hs : Inv s) (e : TorrentEvent) (hp : s.Possible e) : Inv (s.next e) := by
  cases e with
  | otherMove job => exact hs.otherMove hp
  | otherMoveCanceled h => exact hs.otherMoveCanceled hp
  | storageMoved success => exact hs.handleStorageAlert success hp
  | moveStorage newPath context => exact hs.moveStorage newPath context
  | pathsChanged savePath downloadPath adjust =>
    have hs' : Inv (s.withTorrent
      { s.torrent with savePath := savePath, downloadPath := downloadPath }) :=
      hs.withTorrent rfl rfl rfl rfl
    cases adjust with
    | true => exact hs'.adjustStorageLocation
    | false => exact hs'
  | renameFile index path => exact hs.renameFile index path
  | fileRenamed rename newActualFilePath => exact (hs.updateFile _ _).finishRename hp
  | fileRenameFailed rename => exact hs.finishRename hp
  | fileCompleted nativeIndex => exact hs.handleFileCompleted nativeIndex
  | prioritizeFiles ignored =>
    rw [Session.next, prioritizeFiles]
    split_ifs
    · refine manageActualFilePaths ?_
      exact hs.withTorrent rfl rfl rfl rfl
    · exact hs
  | toggled isAppendExtensionEnabled isUnwantedFolderEnabled =>
    rw [Session.next, handleToggled]
    split_ifs
    · refine manageActualFilePaths ?_
      exact hs.congr rfl rfl rfl rfl rfl rfl rfl rfl
    · exact hs.congr rfl rfl rfl rfl rfl rfl rfl rfl
  | recheckToggled => exact hs.congr rfl rfl rfl rfl rfl rfl rfl rfl
  | torrentChecked =>
    rw [Session.next, handleTorrentChecked]
    split_ifs
    · exact hs.withTorrent rfl rfl rfl rfl
    · exact hs
  | torrentFinished =>
    refine hs.withTorrent ?_ ?_ ?_ ?_ <;> (split_ifs <;> rfl)
  | stateUpdate h nativeStatus => exact hs.updateStatus h nativeStatus
  | forceRecheck => exact hs.forceRecheck
  | fastResumeRejected => exact hs.withTorrent rfl rfl rfl rfl
  | metadataReceived => exact hs.withTorrent rfl rfl rfl rfl
  | fileSearchFinished savePath files =>
    rw [Session.next, fileSearchFinished]
    split_ifs
    · refine reload ?_
      exact hs.withTorrent rfl rfl rfl rfl
    · exact hs
  | actualPathsChanged actualFilePath => exact hs.withTorrent rfl rfl rfl rfl

theorem construct (id : Digest) (files : Option (List TorrentFile)) (savePath downloadPath : String)
    (nativeStatus : NativeStatus) (hasFinishedStatus : Bool) :
    Inv (Session.construct id files savePath downloadPath nativeStatus hasFinishedStatus) where
  inOrder := rfl
  inTime call hcall := by cases hcall
  still _ job hjob := by cases hjob
  moving h := by cases h
  bounded job hjob := by cases hjob
  inactive := Nat.zero_le 1
  counted := rfl
  idle _ _ := rfl

end Inv

-- a torrent that finishes while it is being moved
example :
    ((machine.run (.construct 1 (some []) "/a" "" { state := .finished, savePath := "/a" } false)
      [.pathsChanged "/b" "" true, .torrentFinished,
        .stateUpdate ⟨0, 1⟩ { state := .finished, savePath := "/a" },
        .storageMoved true]).map (·.invoked)) =
      some [{ trigger := 0, moving := false, renames := 0 }] := by
  decide

end QBittorrent.MoveTriggers
