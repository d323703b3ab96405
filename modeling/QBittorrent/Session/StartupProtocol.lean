import QBittorrent.Session.Startup

/-!
# The end of the start

A thread loads the entries of the storage while the session fetches them, adds at most fifty of
them to libtorrent at a time and counts their add-torrent alerts.  `handleLoadedResumeData` is
called when loading starts, after alerts, and again later when there was nothing to do; it runs one
iteration at a time here, so the thread may load entries in the middle of it.

* `Sound.next` : one event keeps the counters right;
* `startup_protocol` : the start ends once, when all is done.
-/

namespace QBittorrent

open Option Machine

/-- A signal of the loading thread, which is delivered to the session later. -/
inductive LoaderSignal where
  | unsent | posted | delivered
  deriving DecidableEq

/-- The loading thread, the session with its `ResumeSessionContext`, and libtorrent. -/
structure StartupProtocol where
  /-- The entries that are not loaded yet. -/
  unloaded : List LoadedResumeData
  loadStarted : LoaderSignal
  loadFinished : LoaderSignal
  /-- `m_loadedResumeData` of the storage. -/
  storageData : List LoadedResumeData
  loadedResumeData : List LoadedResumeData
  processingResumeDataCount : ℤ
  finishedResumeDataCount : ℤ
  isLoadFinished : Bool
  isLoadedResumeDataHandlingEnqueued : Bool
  /-- Calls of `handleLoadedResumeData` in the event queue. -/
  queuedCalls : ℕ
  /-- While `handleLoadedResumeData` runs, its `count`. -/
  handling : Option ℤ
  startup : Startup
  /-- Adds that libtorrent has not acknowledged. -/
  unacknowledged : ℕ
  /-- Entries taken for processing so far. -/
  taken : List LoadedResumeData
  endStartupCalls : ℕ

inductive StartupProtocolEvent where
  /-- The thread emits `loadStarted`. -/
  | loadStart
  /-- The thread loads an entry: `onResumeDataLoaded`. -/
  | load
  /-- The thread emits `loadFinished`. -/
  | loadFinish
  | deliverLoadStarted
  | deliverLoadFinished
  /-- A queued call of `handleLoadedResumeData` begins. -/
  | queuedCall
  /-- An iteration of its loop. -/
  | iterate
  /-- `addTorrentAlertsReceived`: a sequence of alerts, of success or failure. -/
  | addTorrentAlerts (alertsCount : ℕ)

/-- `MAX_PROCESSING_RESUMEDATA_COUNT`. -/
def maxProcessingResumeDataCount : ℕ := 50

namespace StartupProtocol

/-- Before `loadAll`. -/
def initial (c₀ : Startup) (entries : List LoadedResumeData) : StartupProtocol where
  unloaded := entries
  loadStarted := .unsent
  loadFinished := .unsent
  storageData := []
  loadedResumeData := []
  processingResumeDataCount := 0
  finishedResumeDataCount := 0
  isLoadFinished := false
  isLoadedResumeDataHandlingEnqueued := false
  queuedCalls := 0
  handling := none
  startup := c₀
  unacknowledged := 0
  taken := []
  endStartupCalls := 0

variable (S : StartupSettings) (s : StartupProtocol)

/-- `QMetaObject::invokeMethod` of `handleLoadedResumeData`, unless it is queued. -/
def enqueue : StartupProtocol :=
  if s.isLoadedResumeDataHandlingEnqueued then s
  else { s with queuedCalls := s.queuedCalls + 1, isLoadedResumeDataHandlingEnqueued := true }

/-- The begin of `handleLoadedResumeData`. -/
def enter : StartupProtocol :=
  { s with
    isLoadedResumeDataHandlingEnqueued := false
    handling := some s.processingResumeDataCount }

/-- The end of `handleLoadedResumeData`. -/
def leave (count : ℤ) : StartupProtocol :=
  { s with
    finishedResumeDataCount := s.finishedResumeDataCount + (count - s.processingResumeDataCount)
    handling := none }

/-- `fetchLoadedResumeData`, if nothing is left of what was fetched before. -/
def fetch : StartupProtocol :=
  if s.loadedResumeData = [] then { s with loadedResumeData := s.storageData, storageData := [] }
  else s

/-- There is nothing to process: the start ends, or the call is repeated later, or alerts are
awaited. -/
def idle : StartupProtocol :=
  if s.processingResumeDataCount = 0 then
    if s.isLoadFinished then { s with endStartupCalls := s.endStartupCalls + 1 } else s.enqueue
  else s

/-- `processNextResumeData` for the first of the entries fetched. -/
def process (item : LoadedResumeData) (rest : List LoadedResumeData) (count : ℤ) :
    StartupProtocol :=
  let startup := s.startup.processNextResumeData S item
  let added := startup.adds.length - s.startup.adds.length
  { s with
    loadedResumeData := rest
    startup := startup
    processingResumeDataCount := s.processingResumeDataCount + added
    unacknowledged := s.unacknowledged + added
    taken := s.taken ++ [item]
    handling := some (count + 1) }

/-- One iteration of `handleLoadedResumeData`. -/
def iterate (count : ℤ) : StartupProtocol :=
  if s.processingResumeDataCount < maxProcessingResumeDataCount then
    match s.fetch.loadedResumeData with
    | [] => s.fetch.idle.leave count
    | item :: rest => s.fetch.process S item rest count
  else s.leave count

/-- One event.  The session handles one event at a time; the thread does not wait for it. -/
def next : StartupProtocolEvent → Option StartupProtocol
  | .loadStart =>
    if s.loadStarted = .unsent then some { s with loadStarted := .posted } else none
  | .load =>
    match s.unloaded with
    | item :: rest =>
      if s.loadStarted = .unsent then none
      else some { s with unloaded := rest, storageData := s.storageData ++ [item] }
    | [] => none
  | .loadFinish =>
    if s.loadStarted ≠ .unsent ∧ s.unloaded = [] ∧ s.loadFinished = .unsent then
      some { s with loadFinished := .posted }
    else none
  | .deliverLoadStarted =>
    if s.handling = none ∧ s.loadStarted = .posted then
      some { s with loadStarted := .delivered }.enter
    else none
  | .deliverLoadFinished =>
    if s.handling = none ∧ s.loadStarted = .delivered ∧ s.loadFinished = .posted then
      some { s with loadFinished := .delivered, isLoadFinished := true }
    else none
  | .queuedCall =>
    if s.handling = none ∧ 0 < s.queuedCalls then
      some { s with queuedCalls := s.queuedCalls - 1 }.enter
    else none
  | .iterate =>
    match s.handling with
    | some count => some (s.iterate S count)
    | none => none
  | .addTorrentAlerts alertsCount =>
    if s.handling = none ∧ 0 < alertsCount ∧ alertsCount ≤ s.unacknowledged then
      some { s with
        processingResumeDataCount := s.processingResumeDataCount - alertsCount
        finishedResumeDataCount := s.finishedResumeDataCount + alertsCount
        unacknowledged := s.unacknowledged - alertsCount }.enqueue
    else none

/-- The start under any timing. -/
def machine : Machine StartupProtocol StartupProtocolEvent where
  step s e := s.next S e

/-! ### What holds in every state -/

/-- The counters count, a call is queued when the flag says so, and until the end something is
under way that wakes the session up. -/
structure Sound (c₀ : Startup) (entries : List LoadedResumeData) : Prop where
  inFlight : s.processingResumeDataCount = s.unacknowledged
  bounded : s.unacknowledged ≤ maxProcessingResumeDataCount
  counts : s.finishedResumeDataCount + s.handling.getD s.processingResumeDataCount =
    s.taken.length
  entries : s.taken ++ s.loadedResumeData ++ s.storageData ++ s.unloaded = entries
  startup : s.startup = c₀.processAll S s.taken
  flag : s.queuedCalls = if s.isLoadedResumeDataHandlingEnqueued then 1 else 0
  unsent : s.loadStarted = .unsent → s.loadFinished = .unsent
  loaded : s.loadFinished ≠ .unsent → s.unloaded = []
  finished : s.isLoadFinished = true ↔ s.loadFinished = .delivered
  undelivered : s.loadStarted ≠ .delivered → s.loadFinished ≠ .delivered ∧ s.handling = none ∧
    s.queuedCalls = 0 ∧ s.unacknowledged = 0 ∧ s.endStartupCalls = 0
  handled : s.handling.isSome = true → s.queuedCalls = 0 ∧ s.endStartupCalls = 0
  awake : s.loadStarted = .delivered → s.handling = none → s.endStartupCalls = 0 →
    0 < s.queuedCalls ∨ 0 < s.unacknowledged
  ended : s.endStartupCalls ≠ 0 → s.endStartupCalls = 1 ∧ s.isLoadFinished = true ∧
    s.loadedResumeData = [] ∧ s.storageData = [] ∧ s.unacknowledged = 0 ∧ s.queuedCalls = 0

variable {S} {s} {s' : StartupProtocol} {c₀ : Startup} {entries : List LoadedResumeData}

theorem sound_initial : Sound S (initial c₀ entries) c₀ entries := by
  constructor <;> simp [initial, maxProcessingResumeDataCount, Startup.processAll]

theorem adds_processNextResumeData (c : Startup) (item : LoadedResumeData) :
    (c.processNextResumeData S item).adds.length = c.adds.length ∨
      (c.processNextResumeData S item).adds.length = c.adds.length + 1 := by
  by_cases h : item.Valid ∧ item.torrentID ∉ c.skippedIDs
  · right
    have := congrArg List.length (Startup.processNextResumeData_of_valid (S := S) h.1 h.2).1
    simpa using this
  · left
    rw [Startup.processNextResumeData_of_not h]

section Next

variable (h : Sound S s c₀ entries) {count : ℤ}
include h

theorem Sound.fetch (hhandling : s.handling.isSome = true) : Sound S s.fetch c₀ entries := by
  unfold StartupProtocol.fetch
  split_ifs with hloaded
  · refine { h with entries := ?_, ended := fun he => absurd (h.handled hhandling).2 he }
    have := h.entries
    rw [hloaded] at this
    simpa using this
  · exact h

theorem Sound.started (hhandling : s.handling.isSome = true) : s.loadStarted = .delivered := by
  by_contra hne
  rw [(h.undelivered hne).2.1] at hhandling
  cases hhandling

section

variable (hhandling : s.handling = some count)

include hhandling

theorem Sound.process {item : LoadedResumeData} {rest : List LoadedResumeData}
    (hloaded : s.loadedResumeData = item :: rest)
    (hroom : s.processingResumeDataCount < maxProcessingResumeDataCount) :
    Sound S (s.process S item rest count) c₀ entries := by
  have hsome : s.handling.isSome = true := by rw [hhandling]; rfl
  have hstarted := h.started hsome
  have hhandled := h.handled hsome
  have hin := h.inFlight
  have hcounts := h.counts
  rw [hhandling] at hcounts
  have hadds := adds_processNextResumeData (S := S) s.startup item
  have hentries := h.entries
  rw [hloaded] at hentries
  exact
    { h with
      inFlight := by
        simp only [StartupProtocol.process]
        omega
      bounded := by
        simp only [StartupProtocol.process]
        omega
      counts := by
        simp only [StartupProtocol.process, getD_some, List.length_append,
          List.length_singleton]
        simp only [getD_some] at hcounts
        omega
      entries := by simpa [StartupProtocol.process] using hentries
      startup := by
        simp [StartupProtocol.process, h.startup, Startup.processAll]
      undelivered := fun hne => absurd hstarted hne
      handled := fun _ => hhandled
      awake := fun _ hnone => by simp [StartupProtocol.process] at hnone
      ended := fun he => absurd hhandled.2 he }

theorem Sound.leave (hwait : 0 < s.unacknowledged) : Sound S (s.leave count) c₀ entries := by
  have hsome : s.handling.isSome = true := by rw [hhandling]; rfl
  have hhandled := h.handled hsome
  have hcounts := h.counts
  rw [hhandling] at hcounts
  exact
    { h with
      counts := by
        simp only [StartupProtocol.leave, getD_none]
        simp only [getD_some] at hcounts
        omega
      undelivered := fun hne => absurd (h.started hsome) hne
      handled := fun hs => by simp [StartupProtocol.leave] at hs
      awake := fun _ _ _ => .inr hwait
      ended := fun he => absurd hhandled.2 he }

theorem Sound.idle_leave (hloaded : s.loadedResumeData = []) (hstorage : s.storageData = []) :
    Sound S (s.idle.leave count) c₀ entries := by
  have hsome : s.handling.isSome = true := by rw [hhandling]; rfl
  have hhandled := h.handled hsome
  have hin := h.inFlight
  unfold idle
  by_cases hzero : s.processingResumeDataCount = 0
  · rw [if_pos hzero]
    have hcounts := h.counts
    rw [hhandling] at hcounts
    simp only [getD_some] at hcounts
    have hflag : s.isLoadedResumeDataHandlingEnqueued = false := by
      have := h.flag
      rw [hhandled.1] at this
      by_contra hf
      rw [Bool.not_eq_false] at hf
      rw [if_pos hf] at this
      cases this
    by_cases hfinished : s.isLoadFinished = true
    · -- the end
      rw [if_pos hfinished]
      exact
        { h with
          counts := by
            simp only [StartupProtocol.leave, getD_none]
            omega
          undelivered := fun hne => absurd (h.started hsome) hne
          handled := fun hs => by simp [StartupProtocol.leave] at hs
          awake := fun _ _ he => by simp [StartupProtocol.leave] at he
          ended := fun _ => ⟨by simp [StartupProtocol.leave, hhandled.2], hfinished, hloaded,
            hstorage, by simp only [StartupProtocol.leave]; omega, hhandled.1⟩ }
    · -- the loader is not ready: look again later
      rw [if_neg hfinished, enqueue, if_neg (by simp [hflag])]
      exact
        { h with
          counts := by
            simp only [StartupProtocol.leave, getD_none]
            omega
          flag := by simp [StartupProtocol.leave, hhandled.1]
          undelivered := fun hne => absurd (h.started hsome) hne
          handled := fun hs => by simp [StartupProtocol.leave] at hs
          awake := fun _ _ _ => .inl (by simp [StartupProtocol.leave])
          ended := fun he => absurd hhandled.2 he }
  · rw [if_neg hzero]
    exact h.leave hhandling (by omega)

theorem Sound.iterate : Sound S (s.iterate S count) c₀ entries := by
  have hsome : s.handling.isSome = true := by rw [hhandling]; rfl
  have hin := h.inFlight
  unfold StartupProtocol.iterate
  split_ifs with hroom
  · have hf := h.fetch hsome
    have hfhandling : s.fetch.handling = some count := by
      unfold StartupProtocol.fetch
      split_ifs <;> exact hhandling
    have hfroom : s.fetch.processingResumeDataCount < maxProcessingResumeDataCount := by
      unfold StartupProtocol.fetch
      split_ifs <;> exact hroom
    cases hl : s.fetch.loadedResumeData with
    | nil =>
      refine hf.idle_leave hfhandling hl ?_
      unfold StartupProtocol.fetch at hl ⊢
      split_ifs at hl ⊢ with he
      · rfl
      · exact absurd hl he
    | cons item rest => exact hf.process hfhandling hl hfroom
  · refine h.leave hhandling ?_
    unfold maxProcessingResumeDataCount at hroom
    omega

end

theorem Sound.queuedCall (hnone : s.handling = none) (hq : 0 < s.queuedCalls) :
    Sound S ({ s with queuedCalls := s.queuedCalls - 1 }.enter) c₀ entries := by
  have hflag := h.flag
  have hcounts := h.counts
  rw [hnone] at hcounts
  have hended : s.endStartupCalls = 0 := by
    by_contra he
    have := (h.ended he).2.2.2.2.2
    omega
  have hone : s.queuedCalls = 1 := by
    split_ifs at hflag <;> omega
  have hstarted : s.loadStarted = .delivered := by
    by_contra hne
    have := (h.undelivered hne).2.2.1
    omega
  exact
    { h with
      counts := hcounts
      flag := by simp [enter, hone]
      undelivered := fun hne => absurd hstarted hne
      handled := fun _ => ⟨by simp [enter, hone], hended⟩
      awake := fun _ hn => by simp [enter] at hn
      ended := fun he => absurd hended he }

theorem Sound.addTorrentAlerts {alertsCount : ℕ} (hnone : s.handling = none)
    (hpos : 0 < alertsCount) (hle : alertsCount ≤ s.unacknowledged) :
    Sound S ({ s with
      processingResumeDataCount := s.processingResumeDataCount - alertsCount
      finishedResumeDataCount := s.finishedResumeDataCount + alertsCount
      unacknowledged := s.unacknowledged - alertsCount }.enqueue) c₀ entries := by
  have hin := h.inFlight
  have hbounded := h.bounded
  have hflag := h.flag
  have hcounts := h.counts
  rw [hnone] at hcounts
  simp only [getD_none] at hcounts
  have hended : s.endStartupCalls = 0 := by
    by_contra he
    have := (h.ended he).2.2.2.2.1
    omega
  have hstarted : s.loadStarted = .delivered := by
    by_contra hne
    have := (h.undelivered hne).2.2.2.1
    omega
  unfold enqueue
  split_ifs with hf
  · exact
      { h with
        inFlight := by push_cast [Nat.cast_sub hle]; omega
        bounded := by simp only; omega
        counts := by simp only [hnone, getD_none]; omega
        flag := hflag
        undelivered := fun hne => absurd hstarted hne
        handled := fun hs => by rw [hnone] at hs; cases hs
        awake := fun _ _ _ => .inl (by simp only at hf; rw [if_pos hf] at hflag; simp [hflag])
        ended := fun he => absurd hended he }
  · exact
      { h with
        inFlight := by push_cast [Nat.cast_sub hle]; omega
        bounded := by simp only; omega
        counts := by simp only [hnone, getD_none]; omega
        flag := by simp only at hf; rw [if_neg hf] at hflag; simp [hflag]
        undelivered := fun hne => absurd hstarted hne
        handled := fun hs => by rw [hnone] at hs; cases hs
        awake := fun _ _ _ => .inl (by simp)
        ended := fun he => absurd hended he }

theorem Sound.deliverLoadStarted (hposted : s.loadStarted = .posted) :
    Sound S ({ s with loadStarted := .delivered }.enter) c₀ entries := by
  obtain ⟨hfin, hnone, hq, hun, he⟩ := h.undelivered (by rw [hposted]; decide)
  have hcounts := h.counts
  rw [hnone] at hcounts
  exact
    { h with
      counts := hcounts
      flag := by simp [enter, hq]
      unsent := fun hu => by simp [enter] at hu
      undelivered := fun hne => by simp [enter] at hne
      handled := fun _ => ⟨hq, he⟩
      awake := fun _ hn => by simp [enter] at hn
      ended := fun hne => absurd he hne }

theorem Sound.next {e : StartupProtocolEvent} (hn : s.next S e = some s') :
    Sound S s' c₀ entries := by
  cases e with
  | loadStart =>
    simp only [StartupProtocol.next] at hn
    split_ifs at hn with hc
    cases hn
    obtain ⟨hfin, hnone, hq, hun, he⟩ := h.undelivered (by rw [hc]; decide)
    exact { h with
      unsent := fun hu => (by cases hu)
      undelivered := fun _ => ⟨hfin, hnone, hq, hun, he⟩
      awake := fun hd => (by cases hd) }
  | load =>
    simp only [StartupProtocol.next] at hn
    cases hu : s.unloaded with
    | nil => simp [hu] at hn
    | cons item rest =>
      simp only [hu] at hn
      split_ifs at hn with hc
      cases hn
      have hentries := h.entries
      rw [hu] at hentries
      have hfin : s.loadFinished = .unsent := by
        by_contra hne
        rw [h.loaded hne] at hu
        cases hu
      refine { h with
        entries := by simpa using hentries
        loaded := fun hne => absurd hfin hne
        ended := fun he => ?_ }
      have := h.finished.1 (h.ended he).2.1
      rw [hfin] at this
      cases this
  | loadFinish =>
    simp only [StartupProtocol.next] at hn
    split_ifs at hn with hc
    cases hn
    obtain ⟨hs, hu, hf⟩ := hc
    have hnot : s.isLoadFinished = false := by
      rw [Bool.eq_false_iff]
      intro ht
      rw [h.finished.1 ht] at hf
      cases hf
    refine { h with
      unsent := fun hus => absurd hus hs
      loaded := fun _ => hu
      finished := ?_
      undelivered := fun hne => ?_ }
    · simp [hnot]
    · exact ⟨by simp, (h.undelivered hne).2⟩
  | deliverLoadStarted =>
    simp only [StartupProtocol.next] at hn
    split_ifs at hn with hc
    cases hn
    exact h.deliverLoadStarted hc.2
  | deliverLoadFinished =>
    simp only [StartupProtocol.next] at hn
    split_ifs at hn with hc
    cases hn
    obtain ⟨hnone, hs, hf⟩ := hc
    have hu := h.loaded (by rw [hf]; decide)
    refine ⟨h.inFlight, h.bounded, h.counts, h.entries, h.startup, h.flag, ?_, fun _ => hu,
      by simp, fun hne => absurd hs hne, h.handled, h.awake, fun he => ?_⟩
    · intro hus
      rw [hs] at hus
      cases hus
    · obtain ⟨h₁, -, h₂⟩ := h.ended he
      exact ⟨h₁, rfl, h₂⟩
  | queuedCall =>
    simp only [StartupProtocol.next] at hn
    split_ifs at hn with hc
    cases hn
    exact h.queuedCall hc.1 hc.2
  | iterate =>
    simp only [StartupProtocol.next] at hn
    cases hhandling : s.handling with
    | none => simp [hhandling] at hn
    | some count =>
      simp only [hhandling] at hn
      cases hn
      exact h.iterate hhandling
  | addTorrentAlerts alertsCount =>
    simp only [StartupProtocol.next] at hn
    split_ifs at hn with hc
    cases hn
    exact h.addTorrentAlerts hc.1 hc.2.1 hc.2.2

end Next

/-! ### The way to the end -/

/-- What is left to do, once loading has finished. -/
def remaining (s : StartupProtocol) : ℕ :=
  4 * (s.loadedResumeData.length + s.storageData.length + s.unloaded.length) +
    3 * s.unacknowledged + 2 * s.queuedCalls + if s.handling.isSome then 1 else 0

theorem remaining_fetch : s.fetch.remaining = s.remaining := by
  unfold fetch
  split_ifs with hl
  · simp [remaining, hl]
  · rfl

theorem remaining_iterate {count : ℤ} (hhandling : s.handling = some count)
    (hfinished : s.isLoadFinished = true) :
    (s.iterate S count).isLoadFinished = true ∧ (s.iterate S count).remaining < s.remaining := by
  have hleave (t : StartupProtocol) (ht : t.handling = some count) :
      (t.leave count).remaining < t.remaining := by
    simp [leave, remaining, ht]
  unfold iterate
  split_ifs with hroom
  · have hfhandling : s.fetch.handling = some count := by
      unfold fetch
      split_ifs <;> exact hhandling
    have hffinished : s.fetch.isLoadFinished = true := by
      unfold fetch
      split_ifs <;> exact hfinished
    rw [← remaining_fetch (s := s)]
    cases hl : s.fetch.loadedResumeData with
    | nil =>
      unfold idle
      split_ifs
      · exact ⟨hffinished, hleave { s.fetch with
          endStartupCalls := s.fetch.endStartupCalls + 1 } hfhandling⟩
      · exact ⟨hffinished, hleave _ hfhandling⟩
    | cons item rest =>
      refine ⟨hffinished, ?_⟩
      have hadds := adds_processNextResumeData (S := S) s.fetch.startup item
      simp only [process, remaining, hl, hfhandling, isSome_some, if_true, List.length_cons]
      omega
  · exact ⟨hfinished, hleave _ hhandling⟩

theorem remaining_next {e : StartupProtocolEvent} (h : Sound S s c₀ entries)
    (hfinished : s.isLoadFinished = true) (hn : s.next S e = some s') :
    s'.isLoadFinished = true ∧ s'.remaining < s.remaining := by
  have hfin := h.finished.1 hfinished
  have hstarted : s.loadStarted = .delivered := by
    by_contra hne
    exact (h.undelivered hne).1 hfin
  cases e with
  | loadStart => simp [next, hstarted] at hn
  | load => simp [next, h.loaded (by rw [hfin]; decide)] at hn
  | loadFinish => simp [next, hfin] at hn
  | deliverLoadStarted => simp [next, hstarted] at hn
  | deliverLoadFinished => simp [next, hfin] at hn
  | queuedCall =>
    simp only [next] at hn
    split_ifs at hn with hc
    cases hn
    refine ⟨hfinished, ?_⟩
    simp only [enter, remaining, hc.1, isSome_some, isSome_none, if_true,
      Bool.false_eq_true, if_false]
    omega
  | iterate =>
    simp only [next] at hn
    cases hhandling : s.handling with
    | none => simp [hhandling] at hn
    | some count =>
      simp only [hhandling] at hn
      cases hn
      exact remaining_iterate hhandling hfinished
  | addTorrentAlerts alertsCount =>
    simp only [next] at hn
    split_ifs at hn with hc
    cases hn
    unfold enqueue
    split_ifs
    · refine ⟨hfinished, ?_⟩
      simp only [remaining]
      omega
    · refine ⟨hfinished, ?_⟩
      simp only [remaining]
      omega

theorem ended_of_quiet (h : Sound S s c₀ entries) (hquiet : ∀ e, s.next S e = none) :
    s.endStartupCalls = 1 := by
  have hnone : s.handling = none := by
    have := hquiet .iterate
    simp only [next] at this
    cases hh : s.handling with
    | none => rfl
    | some count => simp [hh] at this
  have hsent : s.loadStarted ≠ .unsent := fun hu => by
    have := hquiet .loadStart
    simp [next, hu] at this
  have hstarted : s.loadStarted = .delivered := by
    cases hl : s.loadStarted with
    | unsent => exact absurd hl hsent
    | posted =>
      have := hquiet .deliverLoadStarted
      simp [next, hl, hnone] at this
    | delivered => rfl
  by_contra hne
  have hzero : s.endStartupCalls = 0 := by
    by_contra he
    exact hne (h.ended he).1
  obtain hq | hun := h.awake hstarted hnone hzero
  · have := hquiet .queuedCall
    simp [next, hnone, hq] at this
  · have := hquiet (.addTorrentAlerts 1)
    simp only [next] at this
    rw [if_pos ⟨hnone, Nat.one_pos, hun⟩] at this
    cases this

/-- What the protocol promises of a state: the counters agree, no more than fifty adds are in flight;
`endStartup` is called at most once, at the end of everything; a run that cannot go on has called it,
and runs end soon after loading has finished. -/
structure Keeps (S : StartupSettings) (c₀ : Startup) (entries : List LoadedResumeData)
    (s : StartupProtocol) : Prop where
  inFlight : s.processingResumeDataCount = s.unacknowledged
  bounded : s.processingResumeDataCount ≤ maxProcessingResumeDataCount
  counts : s.handling = none →
    s.finishedResumeDataCount + s.processingResumeDataCount = s.taken.length
  atMostOnce : s.endStartupCalls ≤ 1
  atTheEnd : s.endStartupCalls = 1 → s.loadFinished = .delivered ∧ s.taken = entries ∧
    s.unacknowledged = 0 ∧ s.startup = c₀.processAll S entries ∧ ∀ e, s.next S e = none
  called : (∀ e, s.next S e = none) → s.endStartupCalls = 1
  soon : s.isLoadFinished = true → ∀ events s', (machine S).run s events = some s' →
    events.length ≤ s.remaining

/-- **The startup protocol.**  For every list of entries, every timing of the loader and every order
of acknowledgements. -/
theorem startup_protocol (S : StartupSettings) (c₀ : Startup) (entries : List LoadedResumeData)
    (events : List StartupProtocolEvent) (s : StartupProtocol)
    (hr : (machine S).run (initial c₀ entries) events = some s) : Keeps S c₀ entries s := by
  have h : Sound S s c₀ entries :=
    run_invariant (C := fun _ _ => True) (I := fun s => Sound S s c₀ entries) sound_initial
      (fun _ _ _ hi _ hn => hi.next hn) meets_true hr
  refine ⟨h.inFlight, ?_, fun hnone => ?_, ?_, fun he => ?_, ended_of_quiet h, fun hf events s' hr' => ?_⟩
  · rw [h.inFlight]
    exact_mod_cast h.bounded
  · have := h.counts
    rwa [hnone] at this
  · by_contra hlt
    have := (h.ended (by omega)).1
    omega
  · obtain ⟨-, hfinished, hl, hst, hun, hq⟩ := h.ended (by omega)
    have hfin := h.finished.1 hfinished
    have hu := h.loaded (by rw [hfin]; decide)
    have hentries := h.entries
    rw [hl, hst, hu] at hentries
    simp only [List.append_nil] at hentries
    have hhandling : s.handling = none := by
      by_contra hne
      have := (h.handled (isSome_iff_ne_none.2 hne)).2
      omega
    refine ⟨hfin, hentries, hun, hentries ▸ h.startup, fun e => ?_⟩
    -- nothing is left to do
    rw [eq_none_iff_forall_ne_some]
    intro s' hn
    have := (remaining_next h hfinished hn).2
    simp [remaining, hl, hst, hu, hun, hq, hhandling] at this
  · exact length_le_of_measure (I := fun s => Sound S s c₀ entries ∧ s.isLoadFinished = true)
      (μ := remaining) ⟨h, hf⟩
      (fun _ _ _ hi hn => ⟨⟨hi.1.next hn, (remaining_next hi.1 hi.2 hn).1⟩,
        (remaining_next hi.1 hi.2 hn).2⟩) hr'

/-- A session before its start. -/
def exampleStart : Startup := QBittorrent.startup exampleSettings (.initial exampleSettings.paths) []

/-- An entry that can be restored and one that cannot. -/
def exampleEntries : List LoadedResumeData := [oldEntry, ⟨2, .error "Corrupted"⟩]

/-- The session looks for entries before there are any, and ends with the alert of the first. -/
def exampleEvents : List StartupProtocolEvent :=
  [.loadStart, .deliverLoadStarted, .iterate, .load, .queuedCall, .iterate, .load, .loadFinish,
    .iterate, .iterate, .deliverLoadFinished, .addTorrentAlerts 1, .queuedCall, .iterate]

theorem startup_protocol_twoEntries :
    ∃ s, (machine exampleSettings).run (initial exampleStart exampleEntries) exampleEvents = some s ∧
      Keeps exampleSettings exampleStart exampleEntries s ∧ s.endStartupCalls = 1 := by
  have hcalls : ((machine exampleSettings).run (initial exampleStart exampleEntries)
      exampleEvents).map (·.endStartupCalls) = some 1 := by decide
  refine exists_run (by decide) fun s hr => ⟨startup_protocol _ _ _ _ s hr, ?_⟩
  rw [hr] at hcalls
  exact some.inj hcalls

end StartupProtocol

end QBittorrent
