import QBittorrent.Lib.Dict

/-!
# Stores behind a queue of writes

A store whose writes are queued and performed later, in order.  `WriteBehind.drained` is what the
store has once its queue is drained: every write takes effect there at once, and a write that is
performed changes nothing.

* `WriteBehind.drained_store`, `WriteBehind.drained_remove` : what a queued write does;
* `WriteBehind.drained_perform` : performing a write leaves what the drained store has;
-/

namespace QBittorrent

/-- A write on the queue. -/
inductive Write (K V : Type*) where
  | store (key : K) (value : V)
  | remove (key : K)

/-- A store and its queue of writes, the next one first. -/
structure WriteBehind (K V : Type*) where
  entries : Dict K V := ∅
  jobs : List (Write K V) := []

namespace WriteBehind

variable {K V : Type*} [DecidableEq K]

/-- Perform a write. -/
def apply (entries : Dict K V) : Write K V → Dict K V
  | .store key value => entries.insert key value
  | .remove key => entries.erase key

variable (s : WriteBehind K V)

/-- Queue a write. -/
def push (job : Write K V) : WriteBehind K V := { s with jobs := s.jobs ++ [job] }

/-- Perform the first write of the queue. -/
def perform : WriteBehind K V :=
  match s.jobs with
  | [] => s
  | job :: jobs => { entries := apply s.entries job, jobs := jobs }

/-- What the store has when its queue is drained. -/
def drained : Dict K V := s.jobs.foldl apply s.entries

variable {s}

theorem drained_of_jobs_eq_nil (h : s.jobs = []) : s.drained = s.entries := by
  rw [drained, h]
  rfl

theorem drained_push (job : Write K V) : (s.push job).drained = apply s.drained job :=
  List.foldl_append

@[simp] theorem drained_store (key : K) (value : V) :
    (s.push (.store key value)).drained = s.drained.insert key value := drained_push _

@[simp] theorem drained_remove (key : K) : (s.push (.remove key)).drained = s.drained.erase key :=
  drained_push _

@[simp] theorem drained_perform : s.perform.drained = s.drained := by
  rw [perform]
  cases hjobs : s.jobs with
  | nil => rfl
  | cons job jobs =>
    rw [drained, drained, hjobs]
    rfl

end WriteBehind

end QBittorrent
