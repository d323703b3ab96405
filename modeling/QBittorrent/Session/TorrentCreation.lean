import QBittorrent.Lib.Dict
import QBittorrent.Lib.Machine
import QBittorrent.Lib.SearchTree

/-!
# Tasks that create torrents

`TorrentCreationManager` keeps at most a number of tasks in a container with two indices: one by
identifier, and one by completion and time.  The keys of the second index are computed from the
tasks, which change when the worker starts and finishes them; the container is not told.

* `Inv.next` : orderly steps;
* `createsRight_iff` : the oldest finished task is evicted exactly in orderly runs.
-/

namespace QBittorrent

open List Finmap

namespace TorrentCreation

/-- `TorrentCreationTask`.  Times are in milliseconds; a null time is nothing. -/
structure Task where
  id : String
  timeAdded : ℤ
  timeStarted : Option ℤ := none
  timeFinished : Option ℤ := none
  progress : ℤ := 0
  errorMsg : String := ""

inductive Task.State where
  | queued | running | finished
  deriving DecidableEq

namespace Task

def state (task : Task) : State :=
  if task.timeStarted.isNone then .queued
  else if task.timeFinished.isNone then .running
  else .finished

def isFinished (task : Task) : Bool := task.state = .finished

/-- What the signals of the worker do. -/
inductive Signal where
  | started
  | progressUpdated (progress : ℤ)
  /-- `failed` if seeding was to be started and could not be. -/
  | creationSuccess (failed : Bool)
  | creationFailure (errorMsg : String)

def handle (now : ℤ) (task : Task) : Signal → Task
  | .started => { task with timeStarted := some now }
  | .progressUpdated progress => { task with progress := progress }
  | .creationSuccess failed => { task with
      timeFinished := some now
      errorMsg := if failed then "Failed to start seeding." else task.errorMsg }
  | .creationFailure errorMsg => { task with timeFinished := some now, errorMsg := errorMsg }

end Task

/-- `TorrentCreationManager`.  Tasks are numbered in the order in which they are created; a task that
was deleted may still be held by others and hear its signals. -/
structure Manager where
  objects : Dict ℕ Task := ∅
  created : ℕ := 0
  byID : Dict String ℕ := ∅
  byCompletion : SearchTree ℕ := .leaf

namespace Manager

variable (m : Manager)

def isFinished (n : ℕ) : Bool := (m.objects.lookup n).any Task.isFinished

def timeAdded (n : ℕ) : ℤ := ((m.objects.lookup n).map (·.timeAdded)).getD 0

/-- The comparison of the keys in `ByCompletion`: unfinished tasks first, then by time. -/
def less (n k : ℕ) : Bool :=
  (!m.isFinished n && m.isFinished k) ||
    (m.isFinished n == m.isFinished k && decide (m.timeAdded n < m.timeAdded k))

def finishedTasks : Finset ℕ := (Finset.range m.created).filter fun n => m.isFinished n

/-- The tasks of the container, in the order of `ByCompletion`. -/
def tasks : List ℕ := m.byCompletion.toList

def size : ℕ := m.tasks.length

variable (B : Balancing ℕ) (maxTasks : ℤ)

/-- Take a task out of the container. -/
def erase (n : ℕ) : Manager :=
  { m with
    byID := match m.objects.lookup n with
      | some task => m.byID.erase task.id
      | none => m.byID
    byCompletion := B.erase n m.byCompletion }

/-- The loop of `createTask` over a range of the index: erase tasks until there is room. -/
def evict : Manager → List ℕ → Manager
  | m, [] => m
  | m, n :: range => if maxTasks ≤ m.size then evict (m.erase B n) range else m

/-- `equal_range` of the finished tasks: from the lower bound on, to the end of the index. -/
def finishedRange : List ℕ :=
  match m.byCompletion.firstFound m.isFinished with
  | none => []
  | some n => m.tasks.dropWhile (· ≠ n)

/-- `TorrentCreationManager::createTask`, with the task if there is one. -/
def createTask (taskID : String) (now : ℤ) : Option ℕ × Manager :=
  let m := if maxTasks ≤ m.size then evict B maxTasks m m.finishedRange else m
  if maxTasks ≤ m.size then (none, m)
  else
    let n := m.created
    let added := { m with
      objects := m.objects.insert n { id := taskID, timeAdded := now }
      created := n + 1
      byID := m.byID.insert taskID n }
    (some n, { added with
      byCompletion := B.balance (m.byCompletion.insert (added.less n) n) })

/-- `TorrentCreationManager::deleteTask`, with what it returns. -/
def deleteTask (id : String) : Bool × Manager :=
  match m.byID.lookup id with
  | none => (false, m)
  | some n => (true, m.erase B n)

/-- A signal reaches a task. -/
def signal (n : ℕ) (now : ℤ) (signal : Task.Signal) : Manager :=
  match m.objects.lookup n with
  | none => m
  | some task => { m with objects := m.objects.insert n (task.handle now signal) }

end Manager

/-! ### Runs -/

inductive Event where
  /-- A task is created at the time `now`; the identifier is a new one. -/
  | createTask (taskID : String) (now : ℤ)
  | signal (n : ℕ) (now : ℤ) (signal : Task.Signal)
  | deleteTask (id : String)

/-- The manager, and which tasks had finished when a task was created. -/
structure State where
  manager : Manager := {}
  finishedBefore : Dict ℕ (Finset ℕ) := ∅

/-- `generateTaskID` returns an identifier that is not in use. -/
def Possible (s : State) : Event → Prop
  | .createTask taskID _ => taskID ∉ s.manager.byID
  | .signal n _ _ => n ∈ s.manager.objects
  | .deleteTask _ => True

instance (s : State) : DecidablePred (Possible s)
  | .createTask _ _ => inferInstanceAs (Decidable (_ ∉ _))
  | .signal _ _ _ => inferInstanceAs (Decidable (_ ∈ _))
  | .deleteTask _ => isTrue trivial

section Runs

variable (B : Balancing ℕ) (maxTasks : ℤ)

def next (s : State) : Event → State
  | .createTask taskID now =>
    { manager := (s.manager.createTask B maxTasks taskID now).2
      finishedBefore := s.finishedBefore.insert s.manager.created s.manager.finishedTasks }
  | .signal n now signal => { s with manager := s.manager.signal n now signal }
  | .deleteTask id => { s with manager := (s.manager.deleteTask B id).2 }

/-- The manager with at most `maxTasks` tasks. -/
def machine : Machine State Event := .guarded Possible (next B maxTasks)

/-- A task is created as it should be: the index is in order; whatever is evicted is finished, and no
finished task is older; and when the task is refused, `maxTasks` tasks are all unfinished. -/
structure CreatesRight (m : Manager) (taskID : String) (now : ℤ) : Prop where
  ordered : m.tasks.Pairwise fun n k => m.less k n = false
  evicted : ∀ n ∈ m.tasks, n ∉ (m.createTask B maxTasks taskID now).2.tasks →
    m.isFinished n = true ∧ ∀ k ∈ m.tasks, m.isFinished k = true → m.timeAdded n ≤ m.timeAdded k
  refused : (m.createTask B maxTasks taskID now).1 = none →
    maxTasks ≤ m.size ∧ ∀ n ∈ m.tasks, m.isFinished n = false

/-- Tasks are created as they should be. -/
def Right (s : State) : Event → Prop
  | .createTask taskID now => CreatesRight B maxTasks s.manager taskID now
  | _ => True

end Runs

/-- The task `k`, which was created after `n`, was put behind it. -/
def Behind (s : State) (n k : ℕ) : Prop :=
  n ∉ (s.finishedBefore.lookup k).getD ∅ ∧ s.manager.timeAdded n ≤ s.manager.timeAdded k
  deriving Decidable

/-- Of two tasks, the one behind the other has finished when the other one has.  A task is behind an
older one unless that had finished when it was created. -/
def InOrder (s : State) (n k : ℕ) : Prop :=
  (Behind s n k → s.manager.isFinished n = true → s.manager.isFinished k = true) ∧
  (¬ Behind s n k → s.manager.isFinished k = true →
    s.manager.isFinished n = true ∧ s.manager.timeAdded k ≤ s.manager.timeAdded n)
  deriving Decidable

/-- When a task is created, any two tasks have finished in the order of the index. -/
def Orderly (s : State) : Event → Prop
  | .createTask _ _ => ∀ n ∈ s.manager.tasks, ∀ k ∈ s.manager.tasks, n < k → InOrder s n k
  | _ => True

instance (s : State) (e : Event) : Decidable (Orderly s e) :=
  match e with
  | .createTask _ _ => inferInstanceAs (Decidable (∀ n ∈ _, _))
  | .signal _ _ _ => isTrue trivial
  | .deleteTask _ => isTrue trivial

namespace Manager

variable {B : Balancing ℕ} {maxTasks : ℤ} {m : Manager} {n k : ℕ}

/-- The index is in the order of its keys. -/
def Ordered (m : Manager) : Prop := m.tasks.Pairwise fun n k => m.less k n = false

theorem less_eq_false_iff : m.less n k = false ↔
    (m.isFinished k = true → m.isFinished n = true) ∧
      (m.isFinished n = m.isFinished k → m.timeAdded k ≤ m.timeAdded n) := by
  unfold less
  cases m.isFinished n <;> cases m.isFinished k <;> simp

theorem Ordered.partitioned (h : m.Ordered) : SearchTree.Partitioned m.isFinished m.tasks :=
  h.imp fun hless => (less_eq_false_iff.1 hless).1

@[simp] theorem tasks_erase : (m.erase B n).tasks = m.tasks.erase n := B.toList_erase n _

theorem finishedRange_eq (h : m.Ordered) :
    m.finishedRange = m.tasks.dropWhile fun n => !m.isFinished n := by
  unfold finishedRange
  rw [SearchTree.firstFound_eq h.partitioned]
  change (match m.tasks.find? m.isFinished with
    | none => []
    | some n => m.tasks.dropWhile (· ≠ n)) = _
  cases hfind : m.tasks.find? m.isFinished with
  | none =>
    refine (dropWhile_eq_nil_iff.2 fun n hn => ?_).symm
    simpa using find?_eq_none.1 hfind n hn
  | some n => exact SearchTree.dropWhile_ne_eq hfind

theorem finishedRange_sublist : m.finishedRange.Sublist m.tasks := by
  unfold finishedRange
  split
  · exact nil_sublist _
  · exact dropWhile_sublist _

variable (B) in
theorem evict_cons (range : List ℕ) (hn : n ∈ m.tasks) (hsize : (m.size : ℤ) ≤ max maxTasks 0)
    (hfull : maxTasks ≤ m.size) :
    evict B maxTasks m (n :: range) = m.erase B n ∧ ((m.erase B n).size : ℤ) < maxTasks := by
  have hlen : (m.erase B n).size + 1 = m.size := by
    rw [size, tasks_erase, length_erase_of_mem hn]
    exact Nat.sub_add_cancel (length_pos_of_mem hn)
  have hroom : ((m.erase B n).size : ℤ) < maxTasks := by omega
  refine ⟨?_, hroom⟩
  rw [evict, if_pos hfull]
  cases range with
  | nil => rfl
  | cons k range => rw [evict, if_neg (by omega)]

theorem evicted_cases (hsize : (m.size : ℤ) ≤ max maxTasks 0) :
    ∃ m', (if maxTasks ≤ m.size then evict B maxTasks m m.finishedRange else m) = m' ∧
      ((m' = m ∧ (maxTasks ≤ m.size → m.finishedRange = [])) ∨
        ∃ n range, m.finishedRange = n :: range ∧ m' = m.erase B n ∧ n ∈ m.tasks ∧
          (m'.size : ℤ) < maxTasks) := by
  by_cases hfull : maxTasks ≤ m.size
  · rw [if_pos hfull]
    cases hrange : m.finishedRange with
    | nil => exact ⟨m, rfl, Or.inl ⟨rfl, fun _ => rfl⟩⟩
    | cons n range =>
      have hn : n ∈ m.tasks := finishedRange_sublist.subset (by rw [hrange]; exact .head _)
      obtain ⟨hevict, hroom⟩ := evict_cons B range hn hsize hfull
      exact ⟨_, hevict, Or.inr ⟨n, range, rfl, rfl, hn, hroom⟩⟩
  · rw [if_neg hfull]
    exact ⟨m, rfl, Or.inl ⟨rfl, fun h => absurd h hfull⟩⟩

end Manager

section Creating

open Manager

variable {B : Balancing ℕ} {maxTasks : ℤ} {m : Manager}

variable (B) in
theorem createTask_cases (taskID : String) (now : ℤ) (hsize : (m.size : ℤ) ≤ max maxTasks 0) :
    ∃ m', m'.objects = m.objects ∧ m'.created = m.created ∧ m'.tasks.Sublist m.tasks ∧
      ((m' = m ∧ (maxTasks ≤ m.size → m.finishedRange = [])) ∨
        ∃ n range, m.finishedRange = n :: range ∧ n ∈ m.tasks ∧ m'.tasks = m.tasks.erase n ∧
          (m'.size : ℤ) < maxTasks) ∧
      ((maxTasks ≤ m'.size ∧ m.createTask B maxTasks taskID now = (none, m')) ∨
        ((m'.size : ℤ) < maxTasks ∧ (m.createTask B maxTasks taskID now).1 = some m.created ∧
          (m.createTask B maxTasks taskID now).2.objects =
            m.objects.insert m.created { id := taskID, timeAdded := now } ∧
          (m.createTask B maxTasks taskID now).2.created = m.created + 1 ∧
          (m.createTask B maxTasks taskID now).2.tasks = (m'.byCompletion.insert
            ((m.createTask B maxTasks taskID now).2.less m.created) m.created).toList)) := by
  obtain ⟨m', hm', hcases⟩ := evicted_cases (B := B) hsize
  have hkeep : m'.objects = m.objects ∧ m'.created = m.created ∧ m'.tasks.Sublist m.tasks := by
    obtain ⟨rfl, -⟩ | ⟨n, range, -, rfl, -⟩ := hcases
    · exact ⟨rfl, rfl, .refl _⟩
    · exact ⟨rfl, rfl, by rw [tasks_erase]; exact erase_sublist⟩
  refine ⟨m', hkeep.1, hkeep.2.1, hkeep.2.2, ?_, ?_⟩
  · obtain h | ⟨n, range, hrange, rfl, hn, hroom⟩ := hcases
    · exact Or.inl h
    · exact Or.inr ⟨n, range, hrange, hn, tasks_erase, hroom⟩
  · simp only [createTask, hm']
    by_cases hfull : maxTasks ≤ m'.size
    · rw [if_pos hfull]
      exact Or.inl ⟨hfull, rfl⟩
    · rw [if_neg hfull]
      refine Or.inr ⟨not_le.1 hfull, by rw [hkeep.2.1], by rw [hkeep.1, hkeep.2.1],
        by rw [hkeep.2.1], ?_⟩
      rw [← hkeep.2.1]
      exact B.toList_balance _

theorem CreatesRight.of_ordered {taskID : String} {now : ℤ} (h : m.Ordered) (hsize : (m.size : ℤ) ≤ max maxTasks 0) :
    CreatesRight B maxTasks m taskID now where
  ordered := h
  evicted n hn hgone := by
    obtain ⟨m', -, -, -, hleft, hcreated⟩ :=
      createTask_cases B taskID now hsize
    -- the tasks that were left are there in either case
    have hkept : n ∉ m'.tasks := by
      obtain ⟨-, heq⟩ | ⟨-, -, -, -, htasks⟩ := hcreated
      · rwa [heq] at hgone
      · rw [htasks, SearchTree.mem_toList_insert] at hgone
        exact fun hmem => hgone (Or.inr hmem)
    obtain ⟨rfl, -⟩ | ⟨n', range, hrange, -, hm', -⟩ := hleft
    · exact absurd hn hkept
    · obtain rfl : n = n' := by
        by_contra hne
        exact hkept (by rw [hm']; exact (mem_erase_of_ne hne).2 hn)
      rw [finishedRange_eq h] at hrange
      have hfin : m.isFinished n = true :=
        h.partitioned.of_mem_dropWhile (by rw [hrange]; exact .head _)
      refine ⟨hfin, fun k hk hkfin => ?_⟩
      -- a finished task comes in the range, and so not before `n`
      have hk' : k ∈ n :: range := by
        rw [← hrange]
        have := hk
        rw [← takeWhile_append_dropWhile (p := fun n => !m.isFinished n) (l := m.tasks),
          mem_append] at this
        refine this.resolve_left fun htake => ?_
        simpa [hkfin] using mem_takeWhile_imp htake
      obtain rfl | hk' := mem_cons.1 hk'
      · exact le_rfl
      · have hpair : (n :: range).Pairwise fun n k => m.less k n = false := by
          rw [← hrange]
          exact h.sublist (dropWhile_sublist _)
        exact (less_eq_false_iff.1 ((pairwise_cons.1 hpair).1 k hk')).2 (hkfin.trans hfin.symm)
  refused hnone := by
    obtain ⟨m', -, -, -, hleft, hcreated⟩ :=
      createTask_cases B taskID now hsize
    obtain ⟨hfull, -⟩ | ⟨-, hsome, -⟩ := hcreated
    · obtain ⟨rfl, hnil⟩ | ⟨n, range, -, -, -, hroom⟩ := hleft
      · refine ⟨hfull, fun n hn => ?_⟩
        have := hnil hfull
        rw [finishedRange_eq h, dropWhile_eq_nil_iff] at this
        simpa using this n hn
      · exact absurd hfull (not_le.2 hroom)
    · rw [hsome] at hnone
      cases hnone

end Creating

section Runs

open Manager

variable {B : Balancing ℕ} {maxTasks : ℤ} {s : State} {m : Manager}

/-- The order of the index is that in which tasks were put behind each other. -/
structure Inv (maxTasks : ℤ) (s : State) : Prop where
  behind : s.manager.tasks.Pairwise fun n k => (n < k → Behind s n k) ∧ (k < n → ¬ Behind s k n)
  nodup : s.manager.tasks.Nodup
  known : ∀ n ∈ s.manager.objects, n < s.manager.created
  ofObjects : ∀ n ∈ s.manager.tasks, n ∈ s.manager.objects
  finished : ∀ k n, n ∈ (s.finishedBefore.lookup k).getD ∅ → s.manager.isFinished n = true
  size : (s.manager.size : ℤ) ≤ max maxTasks 0

theorem Inv.ordered_iff (h : Inv maxTasks s) : s.manager.Ordered ↔
    ∀ n ∈ s.manager.tasks, ∀ k ∈ s.manager.tasks, n < k → InOrder s n k := by
  constructor
  · intro hord n hn k hk hlt
    have hboth := h.behind.and hord
    obtain ⟨hb, hless⟩ | ⟨hb, hless⟩ := SearchTree.rel_or_rel_of_pairwise hboth hn hk hlt.ne
    · refine ⟨fun _ => (less_eq_false_iff.1 hless).1, fun hno => absurd (hb.1 hlt) hno⟩
    · refine ⟨fun hbe => absurd hbe (hb.2 hlt), fun _ hfin => ?_⟩
      have hn' := (less_eq_false_iff.1 hless).1 hfin
      exact ⟨hn', (less_eq_false_iff.1 hless).2 (hn'.trans hfin.symm)⟩
  · intro hpairs
    refine List.Pairwise.imp_of_mem (fun {n k} hn hk hb => ?_) (h.behind.and h.nodup)
    obtain ⟨hb, hne⟩ := hb
    rw [less_eq_false_iff]
    rcases Nat.lt_or_gt_of_ne hne with hlt | hlt
    · exact ⟨(hpairs n hn k hk hlt).1 (hb.1 hlt), fun _ => (hb.1 hlt).2⟩
    · have hout := (hpairs k hk n hn hlt).2 (hb.2 hlt)
      refine ⟨fun hfin => (hout hfin).1, fun heq => ?_⟩
      cases hfin : s.manager.isFinished n with
      | true => exact (hout hfin).2
      | false =>
        -- an unfinished task before an older one was added with an earlier time
        have hno : k ∉ (s.finishedBefore.lookup n).getD ∅ := fun hmem => by
          have := h.finished n k hmem
          rw [heq, hfin] at this
          cases this
        exact (not_le.1 fun hle => hb.2 hlt ⟨hno, hle⟩).le

theorem Inv.ordered (h : Inv maxTasks s) {taskID : String} {now : ℤ}
    (ho : Orderly s (.createTask taskID now)) : s.manager.Ordered := h.ordered_iff.2 ho

theorem Inv.init : Inv maxTasks {} where
  behind := List.Pairwise.nil
  nodup := List.Pairwise.nil
  known n hn := (notMem_empty hn).elim
  ofObjects n hn := (not_mem_nil hn).elim
  finished k n hn := by
    exact (Finset.notMem_empty n hn).elim
  size := le_max_right _ _

theorem Inv.sublist (h : Inv maxTasks s) (hobjects : m.objects = s.manager.objects)
    (hcreated : m.created = s.manager.created) (htasks : m.tasks.Sublist s.manager.tasks) :
    Inv maxTasks { s with manager := m } := by
  have hfin (n : ℕ) : m.isFinished n = s.manager.isFinished n := by rw [isFinished, hobjects]; rfl
  have htime (n : ℕ) : m.timeAdded n = s.manager.timeAdded n := by rw [timeAdded, hobjects]; rfl
  have hbehind (n k : ℕ) : Behind { s with manager := m } n k ↔ Behind s n k := by
    unfold Behind
    rw [htime, htime]
  refine ⟨?_, h.nodup.sublist htasks, fun n hn => ?_, fun n hn => ?_, fun k n hn => ?_, ?_⟩
  · refine (h.behind.sublist htasks).imp fun {n k} hb => ?_
    rw [hbehind, hbehind]
    exact hb
  · rw [hcreated]
    exact h.known n (by rw [← hobjects]; exact hn)
  · rw [hobjects]
    exact h.ofObjects n (htasks.subset hn)
  · rw [hfin]
    exact h.finished k n hn
  · exact (Int.ofNat_le.2 htasks.length_le).trans h.size

theorem Inv.signal (h : Inv maxTasks s) (n : ℕ) (now : ℤ) (signal : Task.Signal) :
    Inv maxTasks { s with manager := s.manager.signal n now signal } := by
  unfold Manager.signal
  cases hn : s.manager.objects.lookup n with
  | none => exact h
  | some task =>
    have hlookup (k : ℕ) := Dict.lookup_insert_eq s.manager.objects n k (task.handle now signal)
    have htime (k : ℕ) : timeAdded { s.manager with
        objects := s.manager.objects.insert n (task.handle now signal) } k =
        s.manager.timeAdded k := by
      simp only [timeAdded, hlookup k]
      split_ifs with hk
      · subst hk
        rw [hn]
        cases signal <;> rfl
      · rfl
    have hfin (k : ℕ) (hk : s.manager.isFinished k = true) : isFinished { s.manager with
        objects := s.manager.objects.insert n (task.handle now signal) } k = true := by
      simp only [isFinished, hlookup k] at hk ⊢
      split_ifs with hkn
      · subst hkn
        unfold Task.isFinished Task.state at hk ⊢
        cases signal <;> cases hs : task.timeStarted <;> cases hf : task.timeFinished <;>
          simp_all [Task.handle]
      · exact hk
    have hmem (k : ℕ) : k ∈ s.manager.objects.insert n (task.handle now signal) ↔
        k ∈ s.manager.objects := by
      rw [mem_insert]
      refine or_iff_right_of_imp ?_
      rintro rfl
      exact mem_of_lookup_eq_some hn
    refine ⟨h.behind.imp fun {a b} hb => ?_, h.nodup, fun k hk => h.known k ((hmem k).1 hk),
      fun k hk => (hmem k).2 (h.ofObjects k hk), fun a b hb => hfin b (h.finished a b hb), h.size⟩
    simpa only [Behind, htime] using hb

theorem less_iff {n k : ℕ} (hn : m.isFinished n = false) :
    m.less n k = true ↔ m.isFinished k = true ∨ m.timeAdded n < m.timeAdded k := by
  unfold less
  rw [hn]
  cases m.isFinished k <;> simp

theorem isFinished_congr {m' : Manager} (h : m'.objects = m.objects) :
    m'.isFinished = m.isFinished := by
  funext n
  rw [isFinished, h]
  rfl

section

variable (h : Inv maxTasks s)

include h

theorem Inv.forget :
    Inv maxTasks { s with finishedBefore :=
      s.finishedBefore.insert s.manager.created s.manager.finishedTasks } := by
  have hold {k : ℕ} (hk : k ∈ s.manager.tasks) : k ≠ s.manager.created :=
    (h.known k (h.ofObjects k hk)).ne
  refine { h with
    behind := h.behind.imp_of_mem fun {a b} ha hb hab => ?_
    finished := fun k n hn => ?_ }
  · simpa only [Behind, lookup_insert_of_ne _ (hold ha),
      lookup_insert_of_ne _ (hold hb)] using hab
  · simp only [Dict.lookup_insert_eq] at hn
    split_ifs at hn with hk
    · exact (Finset.mem_filter.1 hn).2
    · exact h.finished k n hn

theorem Inv.insert (ho : s.manager.Ordered) {taskID : String} {now : ℤ}
    (hroom : (s.manager.size : ℤ) < maxTasks) (hobjects : m.objects =
      s.manager.objects.insert s.manager.created { id := taskID, timeAdded := now })
    (hcreated : m.created = s.manager.created + 1)
    (htasks : m.tasks = (s.manager.byCompletion.insert (m.less s.manager.created)
      s.manager.created).toList) :
    Inv maxTasks { manager := m, finishedBefore :=
      s.finishedBefore.insert s.manager.created s.manager.finishedTasks } := by
  have hnew : s.manager.created ∉ s.manager.objects := fun hmem => (h.known _ hmem).false
  have hlt {k : ℕ} (hk : k ∈ s.manager.tasks) : k < s.manager.created :=
    h.known k (h.ofObjects k hk)
  have hlookup (k : ℕ) : m.objects.lookup k =
      if k = s.manager.created then some { id := taskID, timeAdded := now }
      else s.manager.objects.lookup k := by
    rw [hobjects, Dict.lookup_insert_eq]
  have hfin (k : ℕ) : m.isFinished k = s.manager.isFinished k := by
    rw [isFinished, hlookup k]
    split_ifs with hk
    · rw [isFinished, hk, lookup_eq_none.2 hnew]
      rfl
    · rfl
  have hself : m.isFinished s.manager.created = false := by
    rw [hfin, isFinished, lookup_eq_none.2 hnew]
    rfl
  have htime {k : ℕ} (hk : k ∈ s.manager.tasks) : m.timeAdded k = s.manager.timeAdded k := by
    rw [timeAdded, hlookup k, if_neg (hlt hk).ne]
    rfl
  generalize ht : ({ manager := m, finishedBefore :=
      s.finishedBefore.insert s.manager.created s.manager.finishedTasks } : State) = t
  have hmanager : t.manager = m := by rw [← ht]
  have hbefore : t.finishedBefore =
      s.finishedBefore.insert s.manager.created s.manager.finishedTasks := by rw [← ht]
  -- for tasks that were there nothing changes, and the new one is behind those it is not less than
  have hbehindOld {a b : ℕ} (ha : a ∈ s.manager.tasks) (hb : b ∈ s.manager.tasks) :
      Behind t a b ↔ Behind s a b := by
    unfold Behind
    rw [hmanager, hbefore, htime ha, htime hb, lookup_insert_of_ne _ (hlt hb).ne]
  have hbehindNew {a : ℕ} (ha : a ∈ s.manager.tasks) :
      Behind t a s.manager.created ↔ ¬ m.less s.manager.created a = true := by
    unfold Behind
    rw [hmanager, hbefore, lookup_insert, less_iff hself, not_or, not_lt, hfin]
    refine and_congr_left' (not_congr ?_)
    exact Finset.mem_filter.trans (and_iff_right (Finset.mem_range.2 (hlt ha)))
  have hpart : SearchTree.Partitioned (m.less s.manager.created) s.manager.tasks := by
    refine List.Pairwise.imp_of_mem (fun {a b} ha hb hless => ?_) ho
    rw [less_iff hself, less_iff hself, hfin, hfin, htime ha, htime hb]
    obtain ⟨hcompletion, htimes⟩ := less_eq_false_iff.1 hless
    rintro (hafin | hatime)
    · -- after a finished task there are finished ones
      exact Or.inl (hcompletion hafin)
    · cases hbfin : s.manager.isFinished b with
      | true => exact Or.inl rfl
      | false =>
        have hafin : s.manager.isFinished a = false := by
          by_contra hne
          have := hcompletion (by simpa using hne)
          rw [hbfin] at this
          cases this
        exact Or.inr (hatime.trans_le (htimes (hbfin.trans hafin.symm)))
  have hmem {a : ℕ} : a ∈ t.manager.tasks ↔ a = s.manager.created ∨ a ∈ s.manager.tasks := by
    rw [hmanager, htasks]
    exact SearchTree.mem_toList_insert
  have hsplit : s.manager.tasks.takeWhile (fun a => !m.less s.manager.created a) ++
      s.manager.tasks.dropWhile (fun a => !m.less s.manager.created a) = s.manager.tasks :=
    takeWhile_append_dropWhile
  rw [SearchTree.toList_insert hpart] at htasks
  change m.tasks = s.manager.tasks.takeWhile (fun a => !m.less s.manager.created a) ++
    s.manager.created :: s.manager.tasks.dropWhile (fun a => !m.less s.manager.created a) at htasks
  have hperm : m.tasks.Perm (s.manager.created :: s.manager.tasks) := by
    rw [htasks]
    exact perm_middle.trans (by rw [hsplit])
  refine ⟨?_, ?_, fun n hn => ?_, fun n hn => ?_, fun k n hn => ?_, ?_⟩
  · -- the order, with the new task between the two parts
    have hold : s.manager.tasks.Pairwise fun a b =>
        (a < b → Behind t a b) ∧ (b < a → ¬ Behind t b a) := by
      refine List.Pairwise.imp_of_mem (fun {a b} ha hb hab => ?_) h.behind
      rw [hbehindOld ha hb, hbehindOld hb ha]
      exact hab
    rw [← hsplit, pairwise_append] at hold
    rw [hmanager, htasks, pairwise_append, pairwise_cons]
    refine ⟨hold.1, ⟨fun b hb => ?_, hold.2.1⟩, fun a ha b hb => ?_⟩
    · have hb' := (dropWhile_sublist _).subset hb
      refine ⟨fun hlt' => absurd hlt' (hlt hb').not_gt, fun _ => ?_⟩
      rw [hbehindNew hb', not_not]
      exact hpart.of_mem_dropWhile hb
    · obtain rfl | hb := mem_cons.1 hb
      · have ha' := (takeWhile_sublist _).subset ha
        refine ⟨fun _ => ?_, fun hlt' => absurd hlt' (hlt ha').not_gt⟩
        rw [hbehindNew ha']
        simpa using mem_takeWhile_imp ha
      · exact hold.2.2 a ha b hb
  · rw [hmanager]
    exact hperm.nodup_iff.2 (nodup_cons.2 ⟨fun hself => (hlt hself).false, h.nodup⟩)
  · rw [hmanager, hcreated]
    rw [hmanager, hobjects, mem_insert] at hn
    obtain rfl | hn := hn
    · exact Nat.lt_succ_self _
    · exact (h.known n hn).trans (Nat.lt_succ_self _)
  · rw [hmanager, hobjects, mem_insert]
    exact (hmem.1 hn).imp_right (h.ofObjects n)
  · rw [hmanager, hfin]
    rw [hbefore, Dict.lookup_insert_eq] at hn
    split_ifs at hn with hk
    · exact (Finset.mem_filter.1 hn).2
    · exact h.finished k n hn
  · have hlen : m.size = s.manager.size + 1 := hperm.length_eq
    rw [hmanager, hlen]
    push_cast
    exact le_max_of_le_left hroom

theorem Inv.createTask (taskID : String) (now : ℤ)
    (ho : s.manager.Ordered) : Inv maxTasks (next B maxTasks s (.createTask taskID now)) := by
  obtain ⟨m', hobj', hcr', hsub, -, hcreated⟩ :=
    createTask_cases B taskID now h.size
  have hs := h.sublist hobj' hcr' hsub
  have hfinished : m'.finishedTasks = s.manager.finishedTasks := by
    rw [finishedTasks, finishedTasks, isFinished_congr hobj', hcr']
  change Inv maxTasks { manager := (s.manager.createTask B maxTasks taskID now).2, finishedBefore :=
    s.finishedBefore.insert s.manager.created s.manager.finishedTasks }
  obtain ⟨-, heq⟩ | ⟨hroom, -, hobj, hcr, htasks⟩ := hcreated
  · rw [heq, ← hcr', ← hfinished]
    exact hs.forget
  · have hord : m'.Ordered := by
      refine (ho.sublist hsub).imp fun {a b} hless => ?_
      rw [less, isFinished_congr hobj', timeAdded, timeAdded, hobj']
      exact hless
    rw [← hcr'] at hcr htasks
    rw [← hcr', ← hobj'] at hobj
    rw [← hcr', ← hfinished]
    exact hs.insert hord hroom hobj hcr htasks

theorem Inv.next {e : Event} (ho : Orderly s e) :
    Inv maxTasks (next B maxTasks s e) := by
  cases e with
  | createTask taskID now => exact h.createTask taskID now (h.ordered ho)
  | signal n now signal => exact h.signal n now signal
  | deleteTask id =>
    have hdelete : (s.manager.deleteTask B id).2.objects = s.manager.objects ∧
        (s.manager.deleteTask B id).2.created = s.manager.created ∧
        (s.manager.deleteTask B id).2.tasks.Sublist s.manager.tasks := by
      unfold deleteTask
      split
      · exact ⟨rfl, rfl, .refl _⟩
      · exact ⟨rfl, rfl, by rw [tasks_erase]; exact erase_sublist⟩
    exact h.sublist hdelete.1 hdelete.2.1 hdelete.2.2

theorem Inv.right_iff (e : Event) : Right B maxTasks s e ↔ Orderly s e := by
  cases e with
  | createTask taskID now =>
    exact ⟨fun hr => h.ordered_iff.1 hr.ordered,
      fun ho => CreatesRight.of_ordered (h.ordered ho) h.size⟩
  | signal n now signal => exact Iff.rfl
  | deleteTask id => exact Iff.rfl

end

variable (B maxTasks) in
/-- **Exactly which runs create their tasks right.**  In every run, however the container balances its
trees: the index is in order whenever a task is created, only the oldest finished task is evicted,
and a task is refused only if `maxTasks` tasks are all unfinished, if and only if the tasks in the
container had finished in the order of the index each time. -/
theorem createsRight_iff (events : List Event)
    (hrun : ((machine B maxTasks).run {} events).isSome = true) :
    (machine B maxTasks).Meets (Right B maxTasks) {} events ↔
      (machine B maxTasks).Meets Orderly {} events :=
  Machine.guarded_meets_iff_meets (I := Inv maxTasks) Inv.init (fun _ _ h _ ho => h.next ho)
    (fun _ e h _ => h.right_iff e) hrun

end Runs

/-! ### A run on two tasks -/

/-- A container that does not balance its trees. -/
def Balancing.plain : Balancing ℕ where
  balance t := t
  erase n t := (t.toList.erase n).foldr (SearchTree.node .leaf) .leaf
  toList_balance _ := rfl
  toList_erase n t := by
    induction t.toList.erase n with
    | nil => rfl
    | cons k l ih => rw [List.foldr_cons, SearchTree.toList_node, ih]; rfl

/-- The second task finishes before the first one. -/
def orderlyRun : List Event :=
  [.createTask "a" 1, .createTask "b" 2, .signal 0 3 .started, .signal 1 4 .started,
    .signal 1 5 (.creationSuccess false), .createTask "c" 6]

theorem createsRight_iff_orderlyRun :
    (machine Balancing.plain 2).Meets (Right Balancing.plain 2) {} orderlyRun :=
  (createsRight_iff Balancing.plain 2 orderlyRun (by decide)).2 (by decide)

/-- Each of two tasks finishes before the next one is created. -/
def oneByOneRun : List Event :=
  [.createTask "a" 1, .signal 0 2 .started, .signal 0 3 (.creationSuccess false),
    .createTask "b" 4, .signal 1 5 .started, .signal 1 6 (.creationSuccess false)]

/-- The second task is evicted for a third one, although the first one is older and has finished
too. -/
theorem oneByOneRun_not_right :
    ((machine Balancing.plain 2).run {} (oneByOneRun ++ [.createTask "c" 7])).isSome = true ∧
      ¬ (machine Balancing.plain 2).Meets (Right Balancing.plain 2) {}
        (oneByOneRun ++ [.createTask "c" 7]) := by
  refine ⟨by decide, fun h => ?_⟩
  obtain ⟨s, hs⟩ := Option.isSome_iff_exists.1
    (show ((machine Balancing.plain 2).run {} oneByOneRun).isSome = true by decide)
  -- task 1 is evicted, task 0 has finished and is older
  have hevicted : ∀ s ∈ (machine Balancing.plain 2).run {} oneByOneRun,
      1 ∈ s.manager.tasks ∧ 1 ∉ (s.manager.createTask Balancing.plain 2 "c" 7).2.tasks ∧
        0 ∈ s.manager.tasks ∧ s.manager.isFinished 0 = true ∧
        s.manager.timeAdded 0 < s.manager.timeAdded 1 := by
    decide
  obtain ⟨hin, hout, hin₀, hfin₀, htime⟩ := hevicted s hs
  exact absurd (((h.last hs).evicted 1 hin hout).2 0 hin₀ hfin₀) (not_le.2 htime)

end TorrentCreation

end QBittorrent
