import QBittorrent.Lib.Machine
import Mathlib.Data.List.Basic

/-!
# The worker thread of the database resume data storage

`DBResumeDataStorage` hands its writes to a thread of its own.  Clients push jobs on a queue
(`addJob`), the worker pops and performs them, several jobs to a transaction, and the destructor
asks it to stop (`requestInterruption`).

This file models the three parties as one machine whose steps are the critical sections of the
source, so that a run is an arbitrary interleaving of clients, destructor and worker.

The worker tests for the interruption right after it wakes up, before it looks at the queue, so a
job that is pushed while the worker waits is dropped when the interruption comes before the worker
gets the mutex back.

* `Inv.step` : a careful step keeps the invariant;
* `Worker.sound_iff_careful` : no job is lost exactly if all steps are careful.
-/

namespace QBittorrent

open List

namespace Worker

variable {J : Type*}

/-- A job on the queue. -/
structure Entry (J : Type*) where
  job : J
  /-- The job was added before the interruption was requested (bookkeeping only: no step reads
  this field). -/
  early : Bool
  deriving DecidableEq

/-- Where the worker is in `run`. -/
inductive PC (J : Type*) where
  /-- About to open the database. -/
  | starting
  /-- At the head of the loop, the mutex not held. -/
  | loop
  /-- The queue was found empty and the open transaction was committed; the mutex is held. -/
  | idle
  /-- In `m_waitCondition.wait`, the mutex released. -/
  | waiting
  /-- The job was popped, and the mutex released. -/
  | performing (e : Entry J)
  | returned
  /-- `run` threw: the database could not be opened. -/
  | threw
  /-- `m_jobs.front()` was read while the queue was empty. -/
  | undefined
  deriving DecidableEq

/-- The storage, its worker thread and the database connection of the worker. -/
structure State (J : Type*) where
  pc : PC J
  /-- `m_jobs`, the front first. -/
  jobs : List (Entry J)
  /-- The worker holds `m_jobsMutex`. -/
  mutexHeld : Bool
  /-- `isInterruptionRequested()`. -/
  interrupted : Bool
  /-- The worker holds `m_dbLock` for writing. -/
  dbLocked : Bool
  transactedJobsCount : ℕ
  /-- The jobs performed in the open transaction, if one is open. -/
  transaction : Option (List (Entry J))
  committed : List (Entry J)
  /-- The jobs performed outside any transaction, or in one whose commit failed. -/
  outside : List (Entry J)
  /-- All jobs in the order in which they were added. -/
  added : List (Entry J)

/-- The storage as its constructor leaves it, the thread just started. -/
def init : State J :=
  { pc := .starting, jobs := [], mutexHeld := false, interrupted := false, dbLocked := false,
    transactedJobsCount := 0, transaction := none, committed := [], outside := [], added := [] }

/-- What can happen. -/
inductive Label (J : Type*) where
  /-- A client calls `store`, `remove` or `storeQueue`. -/
  | addJob (job : J)
  /-- The destructor calls `requestInterruption`. -/
  | requestInterruption
  /-- The worker goes on; `ok` is what the database operation of the step (`open`, `commit` or
  `transaction`) returns.  From `waiting` this is a wake-up, be it spurious, late or in time. -/
  | worker (ok : Bool)

/-- The jobs of the open transaction. -/
def State.batch (s : State J) : List (Entry J) := s.transaction.getD []

/-- The end of the transaction when the queue is empty: `db.commit()` and `m_dbLock.unlock()`. -/
def State.commit (s : State J) (ok : Bool) : State J :=
  if 0 < s.transactedJobsCount then
    { s with
      committed := if ok then s.committed ++ s.batch else s.committed
      outside := if ok then s.outside else s.outside ++ s.batch
      transaction := none, dbLocked := false, transactedJobsCount := 0 }
  else s

/-- `front` and `pop` with the mutex held, and its release. -/
def State.take (s : State J) : State J :=
  match s.jobs with
  | [] => { s with pc := .undefined, mutexHeld := true }
  | e :: es => { s with pc := .performing e, jobs := es, mutexHeld := false }

/-- `job->perform(db)` and the increment of the counter. -/
def State.perform (s : State J) (e : Entry J) : State J :=
  match s.transaction with
  | some es =>
    { s with
      pc := .loop, transaction := some (es ++ [e])
      transactedJobsCount := s.transactedJobsCount + 1 }
  | none =>
    -- no transaction was begun: the statements of the job run on their own
    { s with
      pc := .loop, outside := s.outside ++ [e], transactedJobsCount := s.transactedJobsCount + 1 }

/-- The steps of `Worker::run`, from one release of the mutex to the next. -/
def State.worker (s : State J) (ok : Bool) : Option (State J) :=
  match s.pc with
  | .starting => some { s with pc := if ok then .loop else .threw }
  | .loop =>
    if s.jobs = [] then some { s.commit ok with pc := .idle, mutexHeld := true }
    else some s.take
  | .idle => some { s with pc := if s.interrupted then .returned else .waiting, mutexHeld := false }
  | .waiting =>
    if s.interrupted then some { s with pc := .returned }
    -- `break` without `m_jobsMutex.unlock()`
    else if ok = false then some { s with pc := .returned, mutexHeld := true }
    else some { s with transaction := some [], dbLocked := true }.take
  | .performing e => some (s.perform e)
  | .returned | .threw | .undefined => none

/-- `Worker::addJob`, up to `m_waitCondition.wakeAll()`. -/
def State.addJob (s : State J) (job : J) : Option (State J) :=
  if s.mutexHeld then none
  else
    let e : Entry J := ⟨job, !s.interrupted⟩
    some { s with jobs := s.jobs ++ [e], added := s.added ++ [e] }

/-- Clients, destructor and worker. -/
def machine (J : Type*) : Machine (State J) (Label J) where
  step s
    | .addJob job => s.addJob job
    | .requestInterruption => some { s with interrupted := true }
    | .worker ok => s.worker ok

/-! ### What a run has to keep -/

/-- The jobs added before the interruption was requested. -/
def early (es : List (Entry J)) : List (Entry J) := es.filter (·.early)

@[simp] theorem early_nil : early ([] : List (Entry J)) = [] := rfl

@[simp] theorem early_append (es es' : List (Entry J)) :
    early (es ++ es') = early es ++ early es' := filter_append _ _

theorem early_cons (e : Entry J) (es : List (Entry J)) :
    early (e :: es) = early [e] ++ early es := early_append [e] es

theorem early_singleton_eq_nil {e : Entry J} : early [e] = [] ↔ e.early = false := by
  cases h : e.early <;> simp [early, h]

/-- Nothing is lost or reordered, `front` is not read from an empty queue, and the mutex is free
when `run` has returned. -/
structure Sound (s : State J) : Prop where
  defined : s.pc ≠ .undefined
  inTransaction : ∀ e, s.pc = .performing e → e.early → s.transaction ≠ none
  inCommitted : early s.outside = []
  ordered : early s.committed <+: early s.added
  finished : s.pc = .returned → early s.committed = early s.added
  released : s.pc = .returned → s.mutexHeld = false

/-- The condition on one step.  The worker

* finds the queue empty only when its commit succeeds, or has nothing early to lose;
* does not find a job added before the interruption before it has begun a transaction (which it
  does only after a wait);
* wakes up interrupted only when no job added before the interruption is on the queue;
* wakes up uninterrupted only when there is a job, and the transaction can be begun. -/
def Careful (s : State J) : Label J → Prop
  | .worker ok =>
    match s.pc with
    | .loop =>
      (s.jobs = [] → ok = true ∨ early s.batch = []) ∧
        (s.transaction = none → early s.jobs.head?.toList = [])
    | .waiting =>
      (s.interrupted = true → early s.jobs = []) ∧
        (s.interrupted = false → ok = true ∧ s.jobs ≠ [])
    | _ => True
  | _ => True

instance (s : State J) (l : Label J) : Decidable (Careful s l) := by
  unfold Careful
  split
  · split <;> infer_instance
  · infer_instance

/-! ### The invariant -/

/-- The job being performed. -/
def State.current (s : State J) : List (Entry J) :=
  match s.pc with
  | .performing e => [e]
  | _ => []

/-- The invariant of careful runs: every early job is, in order, committed, in the open
transaction, being performed or on the queue. -/
structure Inv (s : State J) : Prop where
  order : early s.added = early (s.committed ++ s.batch ++ s.current ++ s.jobs)
  safe : early s.outside = []
  defined : s.pc ≠ .undefined
  inTransaction : ∀ e, s.pc = .performing e → e.early → s.transaction ≠ none
  /-- A transaction is open only while jobs are performed, and a turn of the loop with a
  transaction open has counted a job. -/
  open_cases : s.transaction ≠ none →
    (s.pc = .loop ∧ 0 < s.transactedJobsCount) ∨ ∃ e, s.pc = .performing e
  finished : s.pc = .returned → s.interrupted = true ∧ early s.jobs = []
  mutex : s.mutexHeld = true ↔ s.pc = .idle
  /-- The mutex keeps the queue empty between the test of the loop and the wait. -/
  empty : s.pc = .idle → s.jobs = []

theorem Inv.init : Inv (init : State J) where
  order := rfl
  safe := rfl
  defined := by simp [Worker.init]
  inTransaction := by simp [Worker.init]
  open_cases := by simp [Worker.init]
  finished := by simp [Worker.init]
  mutex := by simp [Worker.init]
  empty := by simp [Worker.init]

section Inv

variable {s s' : State J} {ok : Bool} {l : Label J}

theorem Inv.transaction_eq_none (h : Inv s) (hl : s.pc ≠ .loop)
    (hp : ∀ e, s.pc ≠ .performing e) : s.transaction = none := by
  by_contra ht
  obtain ⟨hl', -⟩ | ⟨e, he⟩ := h.open_cases ht
  · exact hl hl'
  · exact hp e he

theorem Inv.batch_eq_nil (h : Inv s) (hl : s.pc ≠ .loop) (hp : ∀ e, s.pc ≠ .performing e) :
    s.batch = [] := by
  simp [State.batch, h.transaction_eq_none hl hp]

theorem Inv.sound (h : Inv s) : Sound s := { h with
  inCommitted := h.safe
  ordered := by
    rw [h.order]
    simp only [early_append, append_assoc]
    exact prefix_append _ _
  finished := by
    intro hr
    have hb : s.batch = [] := h.batch_eq_nil (by simp [hr]) (by simp [hr])
    have hc : s.current = [] := by simp [State.current, hr]
    rw [h.order, hb, hc]
    simp [(h.finished hr).2]
  released := by
    intro hr
    have := h.mutex
    simpa [hr] using this }

theorem Inv.addJob {job : J} (h : Inv s) (hs : s.addJob job = some s') : Inv s' := by
  unfold State.addJob at hs
  split_ifs at hs with hm
  cases hs
  refine { h with
    order := ?_
    finished := fun hr => ?_
    empty := fun hi => (hm (h.mutex.2 hi)).elim }
  · have := h.order
    simp only [early_append, State.batch, State.current] at this ⊢
    rw [this]
    simp only [append_assoc]
  · -- after the interruption a job is no longer early
    obtain ⟨hi, hj⟩ := h.finished hr
    refine ⟨hi, ?_⟩
    simp only [early_append, hj, nil_append]
    exact early_singleton_eq_nil.2 (by simp [hi])

theorem Inv.requestInterruption (h : Inv s) : Inv { s with interrupted := true } :=
  { h with finished := fun hr => ⟨rfl, (h.finished hr).2⟩ }

theorem Inv.commit (h : Inv s) (hl : s.pc = .loop) (hj : s.jobs = [])
    (hok : ok = true ∨ early s.batch = []) :
    Inv { s.commit ok with pc := .idle, mutexHeld := true } := by
  have hord : early s.added = early s.committed ++ early s.batch := by
    simpa [State.current, hl, hj] using h.order
  by_cases hc : 0 < s.transactedJobsCount
  · rw [State.commit, if_pos hc]
    refine ⟨?_, ?_, by simp, by simp, by simp, by simp, by simp, fun _ => hj⟩
    · cases ok with
      | true => simpa [State.batch, State.current, hj] using hord
      | false =>
        rw [hok.resolve_left (by simp)] at hord
        simpa [State.batch, State.current, hj] using hord
    · cases ok with
      | true => exact h.safe
      | false => simp [h.safe, hok.resolve_left (by simp)]
  · -- nothing was counted, so no transaction is open
    have ht : s.transaction = none := by
      by_contra ht
      obtain ⟨-, hc'⟩ | ⟨e, he⟩ := h.open_cases ht
      · exact hc hc'
      · rw [hl] at he
        cases he
    rw [State.commit, if_neg hc]
    refine ⟨?_, h.safe, by simp, by simp, by simp [ht], by simp, by simp, fun _ => hj⟩
    simpa [State.batch, State.current, hj, ht] using hord

theorem Inv.take (hord : early s.added = early (s.committed ++ s.batch ++ s.jobs))
    (hsafe : early s.outside = []) (hj : s.jobs ≠ [])
    (ht : s.transaction = none → early s.jobs.head?.toList = []) : Inv s.take := by
  unfold State.take
  cases hjs : s.jobs with
  | nil => exact (hj hjs).elim
  | cons e es =>
    refine ⟨?_, hsafe, by simp, ?_, ?_, by simp, by simp, by simp⟩
    · rw [hord, hjs]
      simp [State.current, State.batch]
    · intro e' he' hearly ht'
      cases he'
      have := ht ht'
      rw [hjs] at this
      simp [early_singleton_eq_nil, hearly] at this
    · exact fun _ => Or.inr ⟨e, rfl⟩

theorem Inv.perform {e : Entry J} (h : Inv s) (hp : s.pc = .performing e) : Inv (s.perform e) := by
  have hmut : s.mutexHeld = false := by
    have := h.mutex
    simpa [hp] using this
  have hord : early s.added =
      early s.committed ++ (early s.batch ++ (early [e] ++ early s.jobs)) := by
    simpa [State.current, hp, early_cons e s.jobs] using h.order
  unfold State.perform
  cases ht : s.transaction with
  | some es =>
    refine ⟨?_, h.safe, by simp, by simp, by simp, by simp, by simp [hmut], by simp⟩
    simpa [State.batch, State.current, ht, early_cons e s.jobs] using hord
  | none =>
    -- the job is not early, so what happens to it does not matter
    have he : early [e] = [] := by
      refine early_singleton_eq_nil.2 ?_
      by_contra hne
      exact h.inTransaction e hp (by simpa using hne) ht
    refine ⟨?_, ?_, by simp, by simp, by simp, by simp, by simp [hmut], by simp⟩
    · rw [hord, he]
      simp [State.batch, State.current, ht]
    · simp [h.safe, he]

theorem Inv.worker (h : Inv s) (hc : Careful s (.worker ok)) (hs : s.worker ok = some s') :
    Inv s' := by
  unfold State.worker at hs
  simp only [Careful] at hc
  cases hpc : s.pc with
  | starting =>
    simp only [hpc, Option.some.injEq] at hs
    subst hs
    have ht : s.transaction = none := h.transaction_eq_none (by simp [hpc]) (by simp [hpc])
    have hm : s.mutexHeld = false := by
      have := h.mutex
      simpa [hpc] using this
    refine ⟨?_, h.safe, ?_, ?_, by simp [ht], ?_, ?_, ?_⟩
    · rw [h.order]
      cases ok <;> simp [State.current, State.batch, hpc]
    all_goals cases ok <;> simp [hm]
  | loop =>
    simp only [hpc] at hs hc
    split_ifs at hs with hj
    · cases hs
      exact h.commit hpc hj (hc.1 hj)
    · cases hs
      refine Inv.take ?_ h.safe hj hc.2
      simpa [State.current, hpc] using h.order
  | idle =>
    simp only [hpc, Option.some.injEq] at hs
    subst hs
    have ht : s.transaction = none := h.transaction_eq_none (by simp [hpc]) (by simp [hpc])
    have hj := h.empty hpc
    refine ⟨?_, h.safe, ?_, ?_, by simp [ht], ?_, ?_, ?_⟩
    · rw [h.order]
      cases s.interrupted <;> simp [State.current, State.batch, hpc]
    all_goals cases s.interrupted <;> simp [hj]
  | waiting =>
    simp only [hpc] at hs hc
    have ht : s.transaction = none := h.transaction_eq_none (by simp [hpc]) (by simp [hpc])
    have hm : s.mutexHeld = false := by
      have := h.mutex
      simpa [hpc] using this
    have hord : early s.added = early (s.committed ++ s.jobs) := by
      simpa [State.current, State.batch, hpc, ht] using h.order
    split_ifs at hs with hi hok
    · cases hs
      refine ⟨?_, h.safe, by simp, by simp, by simp [ht], fun _ => ⟨hi, hc.1 hi⟩, by simp [hm],
        by simp⟩
      simpa [State.current, State.batch, ht] using hord
    · obtain ⟨hok', -⟩ := hc.2 (by simpa using hi)
      rw [hok] at hok'
      cases hok'
    · cases hs
      refine Inv.take ?_ h.safe (hc.2 (by simpa using hi)).2 (by simp)
      simpa [State.batch] using hord
  | performing e =>
    simp only [hpc, Option.some.injEq] at hs
    subst hs
    exact h.perform hpc
  | returned | threw | undefined => simp [hpc] at hs

theorem Inv.step (h : Inv s) (hc : Careful s l) (hs : (machine J).step s l = some s') : Inv s' := by
  cases l with
  | addJob job => exact h.addJob hs
  | requestInterruption =>
    cases hs
    exact h.requestInterruption
  | worker ok => exact h.worker hc hs

/-! ### Careless steps -/

theorem Inv.not_sound_of_loop (h : Inv s) (hpc : s.pc = .loop)
    (hc : ¬ ((s.jobs = [] → ok = true ∨ early s.batch = []) ∧
      (s.transaction = none → early s.jobs.head?.toList = []))) (hs : s.worker ok = some s') :
    ¬ Sound s' := by
  simp only [State.worker, hpc] at hs
  intro hsound
  by_cases hj : s.jobs = []
  · rw [if_pos hj] at hs
    cases hs
    have hb : ok ≠ true ∧ early s.batch ≠ [] := by
      simpa [hj, not_or] using hc
    have ht : s.transaction ≠ none := by
      intro ht
      exact hb.2 (by simp [State.batch, ht])
    obtain ⟨-, hcount⟩ | ⟨e, he⟩ := h.open_cases ht
    · have hout := hsound.inCommitted
      simp [State.commit, hcount, hb.1] at hout
      exact hb.2 hout.2
    · rw [hpc] at he
      cases he
  · rw [if_neg hj] at hs
    cases hs
    have ht : s.transaction = none ∧ early s.jobs.head?.toList ≠ [] := by
      simpa [hj] using hc
    cases hjs : s.jobs with
    | nil => exact hj hjs
    | cons e es =>
      have hearly : e.early = true := by
        simpa [hjs, early_singleton_eq_nil] using ht.2
      refine hsound.inTransaction e ?_ hearly ?_
      · simp [State.take, hjs]
      · simpa [State.take, hjs] using ht.1

theorem Inv.not_sound_of_waiting (h : Inv s) (hpc : s.pc = .waiting)
    (hc : ¬ ((s.interrupted = true → early s.jobs = []) ∧
      (s.interrupted = false → ok = true ∧ s.jobs ≠ []))) (hs : s.worker ok = some s') :
    ¬ Sound s' := by
  have ht : s.transaction = none := h.transaction_eq_none (by simp [hpc]) (by simp [hpc])
  simp only [State.worker, hpc] at hs
  intro hsound
  split_ifs at hs with hi hok
  · cases hs
    have hj : early s.jobs ≠ [] := by simpa [hi] using hc
    have hord : early s.added = early s.committed ++ early s.jobs := by
      simpa [State.current, State.batch, hpc, ht] using h.order
    have hfin : early s.committed = early s.added := hsound.finished rfl
    rw [hord] at hfin
    exact hj (self_eq_append_right.1 hfin)
  · cases hs
    have := hsound.released rfl
    cases this
  · cases hs
    have hj : s.jobs = [] := by
      simpa [hi, hok] using hc
    exact hsound.defined (by simp [State.take, hj])

theorem Inv.not_sound (h : Inv s) (hc : ¬ Careful s l) (hs : (machine J).step s l = some s') :
    ¬ Sound s' := by
  cases l with
  | addJob job => exact (hc trivial).elim
  | requestInterruption => exact (hc trivial).elim
  | worker ok =>
    cases hpc : s.pc with
    | loop => exact h.not_sound_of_loop hpc (by simpa only [Careful, hpc] using hc) hs
    | waiting => exact h.not_sound_of_waiting hpc (by simpa only [Careful, hpc] using hc) hs
    | starting | idle | performing | returned | threw | undefined =>
      simp [Careful, hpc] at hc

end Inv

/-- **The worker loses and reorders nothing exactly in careful runs.**  For every interleaving of
clients, destructor, wake-ups and results of the database, all states of the run are sound if and
only if all its steps are careful. -/
theorem sound_iff_careful (ls : List (Label J)) (hr : ((machine J).run Worker.init ls).isSome) :
    (machine J).Always Sound Worker.init ls ↔ (machine J).Meets Careful Worker.init ls :=
  Machine.always_iff_meets Inv.init (fun _ h => h.sound) (fun _ _ _ h hc hs => h.step hc hs)
    (fun _ _ _ h hc hs => h.not_sound hc hs) hr

/-- Two jobs in one transaction, and the interruption after it was committed. -/
def orderlyRun : List (Label ℕ) :=
  [.worker true, .worker true, .worker true, .addJob 1, .worker true, .addJob 2, .worker true,
    .worker true, .worker true, .worker true, .worker true, .requestInterruption, .worker true]

theorem sound_iff_careful_orderlyRun :
    (machine ℕ).Meets Careful Worker.init orderlyRun ∧
      (machine ℕ).Always Sound Worker.init orderlyRun :=
  have h : (machine ℕ).Meets Careful Worker.init orderlyRun := by decide
  ⟨h, (sound_iff_careful orderlyRun (by decide)).2 h⟩

/-- A job is added while the worker waits, and the interruption is requested before the worker
wakes up: `run` returns and the job is still on the queue. -/
def losingRun : List (Label ℕ) :=
  [.worker true, .worker true, .worker true, .addJob 1, .requestInterruption, .worker true]

theorem loses_job :
    ¬ ∀ s, (machine ℕ).Reachable Worker.init s → Sound s := by
  intro h
  have hs := h _ ⟨losingRun, (Option.some_get (by decide)).symm⟩
  exact absurd (hs.finished (by decide)) (by decide)

end Worker

end QBittorrent
