import QBittorrent.Resume.Params
import QBittorrent.Session.MoveQueue

/-!
# Saving the resume data on exit

What is stored of a torrent is what qBittorrent keeps of it and what libtorrent tracks.  A change
posts a request for the resume data to the event loop.  On exit `saveResumeData` asks libtorrent for
the resume data that has changed since it was saved, and handles alerts until all is answered and
moved; the event loop does not run any more.

* `Inv.next` : what has to be saved stays stored, or about to be, in every covered step;
* `saved_of_covered` : so all is saved when the loop is left, and requests are always counted;
* `exitRun_not_saved` : a change that waits for the event loop on exit is lost;
-/

namespace QBittorrent.Shutdown

open List Finmap Dict

open MoveQueue (MoveStorageContext)

/-- What qBittorrent keeps of a torrent. -/
structure OwnParams where
  name : String := ""
  category : String := ""
  tags : List String := []
  savePath : String
  downloadPath : String := ""
  contentLayout : TorrentContentLayout := .original
  operatingMode : TorrentOperatingMode := .autoManaged
  useAutoTMM : Bool := false
  firstLastPiecePriority : Bool := false
  hasFinishedStatus : Bool := false
  stopped : Bool := false
  stopCondition : StopCondition := .none
  ratioLimit : ℚ := -2
  seedingTimeLimit : ℤ := -2
  inactiveSeedingTimeLimit : ℤ := -2
  shareLimitAction : ShareLimitAction := .default
  deriving DecidableEq

/-- What libtorrent tracks: `save_path`, and a number that stands for the rest. -/
structure NativeParams where
  savePath : String
  rest : ℕ := 0
  deriving DecidableEq

/-- `LoadTorrentParams`, that is stored of a torrent. -/
structure ResumeData where
  ltAddTorrentParams : NativeParams
  own : OwnParams

structure TorrentImpl where
  nativeHandle : ℕ
  own : OwnParams
  deferredRequestResumeDataInvoked : Bool := false
  /-- The requests in the event loop. -/
  posted : ℕ := 0

/-- A torrent of libtorrent. -/
structure NativeTorrent where
  infoHash : Digest
  params : NativeParams
  /-- Something has changed since the resume data was saved. -/
  modified : Bool

/-- `save_resume_data`. -/
structure Request where
  torrentHandle : ℕ
  onlyIfModified : Bool

/-- `save_resume_data_alert`, or, without resume data, `save_resume_data_failed_alert`. -/
structure ResumeDataAlert where
  torrentHandle : ℕ
  params : Option NativeParams

def ResumeDataAlert.paramsOf (alert : ResumeDataAlert) (h : ℕ) : Option NativeParams :=
  if alert.torrentHandle = h then alert.params else none

structure MoveStorageJob where
  torrentHandle : ℕ
  path : String
  context : MoveStorageContext

/-- What the session does: it runs, it is in the loop of `saveResumeData`, or has left it. -/
inductive Phase where
  | running | saving | left
  deriving DecidableEq

structure SessionImpl where
  phase : Phase := .running
  torrents : Dict Digest TorrentImpl := ∅
  moveStorageQueue : List MoveStorageJob := []
  numResumeData : ℤ := 0
  torrentsQueueChanged : Bool := false
  needSaveTorrentsQueue : Bool := false
  /-- `m_resumeDataStorage` -/
  stored : Dict Digest ResumeData := ∅
  native : Dict ℕ NativeTorrent := ∅
  nextHandle : ℕ := 0
  /-- The requests that libtorrent has not answered. -/
  requests : List Request := []
  /-- The answers that are not handled. -/
  alerts : List ResumeDataAlert := []

/-- The own part of resume data: a torrent that is managed automatically has the paths of its
category. -/
def OwnParams.prepared (own : OwnParams) : OwnParams :=
  { own with
    savePath := if own.useAutoTMM then "" else own.savePath
    downloadPath := if own.useAutoTMM then "" else own.downloadPath }

def TorrentImpl.prepareResumeData (t : TorrentImpl) (params : NativeParams) : ResumeData :=
  ⟨params, t.own.prepared⟩

def TorrentImpl.deferredRequestResumeData (t : TorrentImpl) : TorrentImpl :=
  if t.deferredRequestResumeDataInvoked then t
  else { t with deferredRequestResumeDataInvoked := true, posted := t.posted + 1 }

namespace SessionImpl

variable (s : SessionImpl)

/-- `TorrentImpl::requestResumeData`, which throws if libtorrent does not have the torrent. -/
def requestResumeData (s : SessionImpl) (onlyIfModified : Bool) (id : Digest) : SessionImpl :=
  match s.torrents.lookup id with
  | none => s
  | some t =>
    if (s.native.lookup t.nativeHandle).isSome then
      { s with
        torrents := s.torrents.insert id { t with deferredRequestResumeDataInvoked := false }
        requests := s.requests ++ [⟨t.nativeHandle, onlyIfModified⟩]
        numResumeData := s.numResumeData + 1 }
    else s

/-- The event loop runs a request. -/
def runDeferred (id : Digest) : SessionImpl :=
  match s.torrents.lookup id with
  | none => s
  | some t =>
    { s with torrents := s.torrents.insert id { t with posted := t.posted - 1 } }.requestResumeData
      false id

/-- `createTorrent`, of a torrent that is restored from what is stored, or is new. -/
def createTorrent (id : Digest) (own : OwnParams) (params : NativeParams) (isRestored : Bool) :
    SessionImpl :=
  let t : TorrentImpl := { nativeHandle := s.nextHandle, own := own }
  { s with
    torrents := s.torrents.insert id t
    native := s.native.insert s.nextHandle ⟨id, params, !isRestored⟩
    nextHandle := s.nextHandle + 1
    stored := if isRestored then s.stored.insert id (t.prepareResumeData params) else s.stored }

/-- A new torrent is stored at once. -/
def addTorrent (id : Digest) (own : OwnParams) (params : NativeParams) (isRestored : Bool) :
    SessionImpl :=
  if isRestored then s.createTorrent id own params isRestored
  else (s.createTorrent id own params isRestored).requestResumeData false id

def removeTorrent (id : Digest) : SessionImpl :=
  match s.torrents.lookup id with
  | none => s
  | some t =>
    { s with
      torrents := s.torrents.erase id
      native := s.native.erase t.nativeHandle
      stored := s.stored.erase id }

/-- A request or an alert changes what qBittorrent keeps of a torrent. -/
def changeOwn (id : Digest) (own : OwnParams) : SessionImpl :=
  match s.torrents.lookup id with
  | none => s
  | some t =>
    { s with
      torrents := s.torrents.insert id
        ({ t with own := own } : TorrentImpl).deferredRequestResumeData }

/-- Something that libtorrent tracks changes. -/
def changeNative (h : ℕ) (params : NativeParams) : SessionImpl :=
  match s.native.lookup h with
  | none => s
  | some n =>
    { s with
      native := s.native.insert h
        { n with params := params, modified := n.modified || decide (params ≠ n.params) } }

def addMoveTorrentStorageJob (id : Digest) (path : String) (context : MoveStorageContext) :
    SessionImpl :=
  match s.torrents.lookup id with
  | none => s
  | some t => { s with moveStorageQueue := s.moveStorageQueue ++ [⟨t.nativeHandle, path, context⟩] }

/-- The paths of `handleMoveStorageJobFinished`. -/
def movedOwn (own : OwnParams) (path : String) (context : MoveStorageContext) : OwnParams :=
  { own with
    savePath := if context = .changeSavePath then path else own.savePath
    downloadPath := if context = .changeDownloadPath then path else own.downloadPath }

/-- The torrent that has the first job, with its ID and its paths when the job is done. -/
def movedTorrent (success : Bool) : Option (Digest × OwnParams) :=
  s.moveStorageQueue.head?.bind fun job =>
    (s.native.lookup job.torrentHandle).bind fun n =>
      (s.torrents.lookup n.infoHash).map fun t =>
        (n.infoHash, movedOwn t.own (if success then job.path else n.params.savePath) job.context)

def handleStorageAlert (success : Bool) : SessionImpl :=
  let s' := { s with moveStorageQueue := s.moveStorageQueue.tail }
  match s.movedTorrent success with
  | none => s'
  | some (id, own) => s'.changeOwn id own

/-- libtorrent answers a request. -/
def answer : SessionImpl :=
  match s.requests with
  | [] => s
  | request :: requests =>
    match s.native.lookup request.torrentHandle with
    | none =>
      { s with
        requests := requests
        alerts := s.alerts ++ [⟨request.torrentHandle, none⟩] }
    | some n =>
      if request.onlyIfModified = true ∧ n.modified = false then
        { s with
          requests := requests
          alerts := s.alerts ++ [⟨request.torrentHandle, none⟩] }
      else
        { s with
          requests := requests
          alerts := s.alerts ++ [⟨request.torrentHandle, some n.params⟩]
          native := s.native.insert request.torrentHandle { n with modified := false } }

/-- `dispatchTorrentAlert` of an answer, with `handleSaveResumeDataAlert`.  The handle of a torrent
that libtorrent does not have any more has no hash. -/
def handleAlert : SessionImpl :=
  match s.alerts with
  | [] => s
  | alert :: alerts =>
    let s' := { s with alerts := alerts, numResumeData := s.numResumeData - 1 }
    match s.native.lookup alert.torrentHandle, alert.params with
    | some n, some params =>
      match s.torrents.lookup n.infoHash with
      | none => s'
      | some t =>
        { s' with stored := s'.stored.insert n.infoHash (t.prepareResumeData params) }
    | _, _ => s'

/-- `~SessionImpl` up to the loop of `saveResumeData`, which asks for the resume data of the torrents
in some order.  The jobs behind the running one are dropped. -/
def beginSaving (order : List Digest) : SessionImpl :=
  let s :=
    { s with
      phase := .saving
      needSaveTorrentsQueue := s.needSaveTorrentsQueue || s.torrentsQueueChanged
      torrentsQueueChanged := false }
  let s := order.foldl (requestResumeData · true) s
  { s with moveStorageQueue := s.moveStorageQueue.take 1 }

/-- The loop of `saveResumeData` goes on, but for the time limit. -/
def Unfinished : Prop :=
  0 < s.numResumeData ∨ s.moveStorageQueue ≠ [] ∨ s.needSaveTorrentsQueue = true
  deriving Decidable

end SessionImpl

/-- What happens in the session, before and on exit, and in libtorrent. -/
inductive SessionEvent where
  | addTorrent (id : Digest) (own : OwnParams) (params : NativeParams) (isRestored : Bool)
  | removeTorrent (id : Digest)
  | changeOwn (id : Digest) (own : OwnParams)
  | changeNative (h : ℕ) (params : NativeParams)
  | requestResumeData (id : Digest)
  | runDeferred (id : Digest)
  | moveStorage (id : Digest) (path : String) (context : MoveStorageContext)
  | storageMoved (success : Bool)
  | queueChanged
  | stateUpdate
  | answer
  | handleAlert
  | beginSaving (order : List Digest)
  | leave

namespace SessionImpl

variable (s : SessionImpl)

def next : SessionEvent → SessionImpl
  | .addTorrent id own params isRestored => s.addTorrent id own params isRestored
  | .removeTorrent id => s.removeTorrent id
  | .changeOwn id own => s.changeOwn id own
  | .changeNative h params => s.changeNative h params
  | .requestResumeData id => s.requestResumeData false id
  | .runDeferred id => s.runDeferred id
  | .moveStorage id path context => s.addMoveTorrentStorageJob id path context
  | .storageMoved success => s.handleStorageAlert success
  | .queueChanged => { s with torrentsQueueChanged := true }
  | .stateUpdate => { s with needSaveTorrentsQueue := false }
  | .answer => s.answer
  | .handleAlert => s.handleAlert
  | .beginSaving order => s.beginSaving order
  | .leave => { s with phase := .left }

/-- Requests, timers and the event loop only run before the exit.  An alert that is handled in the loop
may ask for a move. -/
def Possible : SessionEvent → Prop
  | .addTorrent id _ _ isRestored =>
    id ∉ s.torrents ∧ (s.phase = .running ∨ s.phase = .saving ∧ isRestored = false)
  | .runDeferred id => s.phase = .running ∧ ∃ t ∈ s.torrents.lookup id, 0 < t.posted
  | .requestResumeData _ | .queueChanged => s.phase = .running
  | .beginSaving order => s.phase = .running ∧ order.Nodup ∧ order.toFinset = s.torrents.keys
  | .leave => s.phase = .saving ∧ ¬s.Unfinished
  | .removeTorrent _ | .changeOwn .. | .changeNative .. | .moveStorage .. | .storageMoved _
  | .stateUpdate | .answer | .handleAlert => s.phase ≠ .left

instance : DecidablePred s.Possible := fun e => by
  cases e <;> unfold Possible <;> infer_instance

end SessionImpl

/-- The runs of a session. -/
def machine : Machine SessionImpl SessionEvent := .guarded SessionImpl.Possible SessionImpl.next

/-! ### What is to be saved -/

/-- `m_numResumeData` is the number of requests that are not answered. -/
def Counted (s : SessionImpl) : Prop :=
  s.numResumeData = s.requests.length + s.alerts.length

/-- When the loop is left, what is stored of each torrent is as the torrent is. -/
def Saved (s : SessionImpl) : Prop :=
  s.phase = .left → ∀ id t n, s.torrents.lookup id = some t →
    s.native.lookup t.nativeHandle = some n →
      s.stored.lookup id = some (t.prepareResumeData n.params)

namespace SessionImpl

variable (s : SessionImpl)

/-- Some request for the torrent is not answered. -/
def Requested (h : ℕ) : Prop := ∃ request ∈ s.requests, request.torrentHandle = h
  deriving Decidable

/-- libtorrent has changed something of the torrent since its resume data was saved. -/
def NativeModified (h : ℕ) : Prop := ∃ n ∈ s.native.lookup h, n.modified = true

/-- Resume data of the torrent is to be handled, or is to come. -/
def WillSave (h : ℕ) : Prop :=
  (∃ alert ∈ s.alerts, alert.torrentHandle = h ∧ alert.params.isSome) ∨
    ∃ request ∈ s.requests, request.torrentHandle = h ∧
      (request.onlyIfModified = false ∨ s.NativeModified h)

/-- What qBittorrent keeps of a torrent is stored. -/
def OwnSaved (id : Digest) (own : OwnParams) : Prop :=
  (s.stored.lookup id).map (·.own) = some own.prepared
  deriving Decidable

instance (h : ℕ) : Decidable (s.NativeModified h) :=
  (s.native.lookup h).decidableExistsMem

instance (h : ℕ) : Decidable (s.WillSave h) :=
  inferInstanceAs (Decidable ((∃ alert ∈ s.alerts, _ ∧ _) ∨ ∃ request ∈ s.requests, _ ∧ (_ ∨ _)))

/-- A change of what qBittorrent keeps of a torrent comes before resume data of the torrent that is
still to be handled. -/
def CoveredChange (id : Digest) (own : OwnParams) : Prop :=
  ∀ t ∈ s.torrents.lookup id, own.prepared = t.own.prepared ∨ s.WillSave t.nativeHandle

instance (id : Digest) (own : OwnParams) : Decidable (s.CoveredChange id own) :=
  (s.torrents.lookup id).decidableForallMem

/-- What qBittorrent keeps of a torrent is stored, or libtorrent has something to save. -/
def CoveredOnExit (id : Digest) : Prop :=
  ∀ t ∈ s.torrents.lookup id,
    s.OwnSaved id t.own ∨ s.WillSave t.nativeHandle ∨ s.NativeModified t.nativeHandle

instance (id : Digest) : Decidable (s.CoveredOnExit id) :=
  (s.torrents.lookup id).decidableForallMem

/-- `CoveredChange` of a request or an alert, in the loop of `saveResumeData`. -/
def CoveredInLoop : SessionEvent → Prop
  | .changeOwn id own => s.CoveredChange id own
  | .storageMoved success => ∀ moved ∈ s.movedTorrent success, s.CoveredChange moved.1 moved.2
  | .changeNative h params => ∀ n ∈ s.native.lookup h, params = n.params ∨ s.Requested h
  | _ => True

instance : DecidablePred s.CoveredInLoop := fun e => by
  cases e <;> unfold CoveredInLoop <;> infer_instance

/-- No change that only qBittorrent knows of waits for the event loop on exit, and none is made in
the loop of `saveResumeData` when the last resume data of the torrent is stored. -/
def Covered : SessionEvent → Prop
  | .beginSaving order => ∀ id ∈ order, s.CoveredOnExit id
  | e => s.phase = .saving → s.CoveredInLoop e

instance : DecidablePred s.Covered
  | .beginSaving order => List.decidableBAll s.CoveredOnExit order
  | .addTorrent .. | .removeTorrent _ | .changeOwn .. | .changeNative .. | .requestResumeData _
  | .runDeferred _ | .moveStorage .. | .storageMoved _ | .queueChanged | .stateUpdate | .answer
  | .handleAlert | .leave => inferInstanceAs (Decidable (_ → _))

/-- The resume data that libtorrent has made of a torrent last, handled or not. -/
def lastParams (id : Digest) (h : ℕ) : Option NativeParams :=
  (s.alerts.filterMap (·.paramsOf h)).getLast?.or
    ((s.stored.lookup id).map (·.ltAddTorrentParams))

end SessionImpl

open Shutdown.SessionImpl

/-- The torrents are those of libtorrent, and what has not changed since it was saved is as it was
saved last. -/
structure Base (s : SessionImpl) : Prop where
  live : ∀ id t, s.torrents.lookup id = some t →
    ∃ n, s.native.lookup t.nativeHandle = some n ∧ n.infoHash = id
  known : ∀ h n, s.native.lookup h = some n →
    ∃ t, s.torrents.lookup n.infoHash = some t ∧ t.nativeHandle = h
  nativeBounded : ∀ h n, s.native.lookup h = some n → h < s.nextHandle
  requestsBounded : ∀ request ∈ s.requests, request.torrentHandle < s.nextHandle
  alertsBounded : ∀ alert ∈ s.alerts, alert.torrentHandle < s.nextHandle
  snapshot : ∀ id t n, s.torrents.lookup id = some t → s.native.lookup t.nativeHandle = some n →
    n.modified = false → s.lastParams id t.nativeHandle = some n.params

/-- On exit what is not saved is about to be. -/
structure Inv (s : SessionImpl) : Prop extends Base s where
  own : s.phase ≠ .running → ∀ id t, s.torrents.lookup id = some t →
    s.OwnSaved id t.own ∨ s.WillSave t.nativeHandle
  modified : s.phase ≠ .running → ∀ id t, s.torrents.lookup id = some t →
    s.NativeModified t.nativeHandle → s.Requested t.nativeHandle
  left : s.phase = .left → s.requests = [] ∧ s.alerts = []

variable {s : SessionImpl}

theorem Inv.saved (hs : Inv s) : Saved s := by
  intro hleft id t n ht hn
  obtain ⟨hrequests, halerts⟩ := hs.left hleft
  have hrunning : s.phase ≠ .running := by
    rw [hleft]
    decide
  have hnothing : ¬s.Requested t.nativeHandle := by
    rw [Requested, hrequests]
    simp
  have hown : s.OwnSaved id t.own := by
    refine (hs.own hrunning id t ht).resolve_right ?_
    rw [WillSave, hrequests, halerts]
    simp
  have hunmodified : n.modified = false := by
    cases hmodified : n.modified with
    | false => rfl
    | true => exact absurd (hs.modified hrunning id t ht ⟨n, hn, hmodified⟩) hnothing
  have hlast := hs.snapshot id t n ht hn hunmodified
  rw [lastParams, halerts] at hlast
  obtain ⟨⟨params, own⟩, hdata, hdataOwn⟩ := Option.map_eq_some_iff.1 hown
  rw [hdata] at hlast ⊢
  have hparams : params = n.params := Option.some.inj hlast
  have hprepared : own = t.own.prepared := hdataOwn
  rw [hparams, hprepared, TorrentImpl.prepareResumeData]

section counted

variable {s : SessionImpl}

theorem Counted.requestResumeData (hs : Counted s) (onlyIfModified : Bool) (id : Digest) :
    Counted (s.requestResumeData onlyIfModified id) := by
  rw [SessionImpl.requestResumeData]
  cases s.torrents.lookup id with
  | none => exact hs
  | some t =>
    dsimp only
    split_ifs
    · rw [Counted] at hs ⊢
      simp only [hs, length_append, length_singleton]
      push_cast
      ring
    · exact hs

theorem Counted.answer (hs : Counted s) : Counted s.answer := by
  rw [SessionImpl.answer]
  cases hrequests : s.requests with
  | nil => exact hs
  | cons request requests =>
    rw [Counted, hrequests, length_cons] at hs
    dsimp only
    cases s.native.lookup request.torrentHandle with
    | none =>
      rw [Counted]
      simp only [hs, length_append, length_singleton]
      push_cast
      ring
    | some n =>
      dsimp only
      split_ifs
      all_goals
        rw [Counted]
        simp only [hs, length_append, length_singleton]
        push_cast
        ring

theorem handleAlert_cases {alert : ResumeDataAlert} {alerts : List ResumeDataAlert}
    (halerts : s.alerts = alert :: alerts) {P : SessionImpl → Prop}
    (hdropped : ∀ (_ : ∀ n params, s.native.lookup alert.torrentHandle = some n →
        alert.params = some params → s.torrents.lookup n.infoHash = none),
      P { s with alerts := alerts, numResumeData := s.numResumeData - 1 })
    (hstored : ∀ n params t, s.native.lookup alert.torrentHandle = some n →
      alert.params = some params → s.torrents.lookup n.infoHash = some t →
        P { s with
          alerts := alerts
          numResumeData := s.numResumeData - 1
          stored := s.stored.insert n.infoHash (t.prepareResumeData params) }) :
    P s.handleAlert := by
  rw [handleAlert, halerts]
  dsimp only
  cases hn : s.native.lookup alert.torrentHandle with
  | none =>
    refine hdropped fun n params hn' _ => ?_
    cases hn.symm.trans hn'
  | some n =>
    cases hparams : alert.params with
    | none =>
      refine hdropped fun n params _ hparams' => ?_
      cases hparams.symm.trans hparams'
    | some params =>
      dsimp only
      cases ht : s.torrents.lookup n.infoHash with
      | none =>
        refine hdropped fun n' params' hn' _ => ?_
        cases hn.symm.trans hn'
        exact ht
      | some t => exact hstored n params t hn hparams ht

theorem Counted.handleAlert (hs : Counted s) : Counted s.handleAlert := by
  cases halerts : s.alerts with
  | nil =>
    rw [SessionImpl.handleAlert, halerts]
    exact hs
  | cons alert alerts =>
    have hcount : s.numResumeData - 1 = s.requests.length + alerts.length := by
      rw [Counted, halerts, length_cons] at hs
      rw [hs]
      push_cast
      ring
    exact handleAlert_cases halerts (fun _ => hcount) fun _ _ _ _ _ _ => hcount

theorem Counted.foldl (order : List Digest) :
    ∀ {s : SessionImpl}, Counted s →
      Counted (order.foldl (SessionImpl.requestResumeData · true) s) := by
  induction order with
  | nil =>
    intro s hs
    exact hs
  | cons id order ih =>
    intro s hs
    exact ih (hs.requestResumeData true id)

theorem Counted.changeOwn (hs : Counted s) (id : Digest) (own : OwnParams) :
    Counted (s.changeOwn id own) := by
  rw [SessionImpl.changeOwn]
  cases s.torrents.lookup id <;> exact hs

theorem Counted.next (hs : Counted s) (e : SessionEvent) : Counted (s.next e) := by
  cases e with
  | addTorrent id own params isRestored =>
    rw [SessionImpl.next, addTorrent]
    split_ifs
    · exact hs
    · refine Counted.requestResumeData ?_ false id
      exact hs
  | removeTorrent id =>
    rw [SessionImpl.next, removeTorrent]
    cases s.torrents.lookup id <;> exact hs
  | changeOwn id own => exact hs.changeOwn id own
  | changeNative h params =>
    rw [SessionImpl.next, changeNative]
    cases s.native.lookup h <;> exact hs
  | requestResumeData id => exact hs.requestResumeData false id
  | runDeferred id =>
    rw [SessionImpl.next, runDeferred]
    cases s.torrents.lookup id with
    | none => exact hs
    | some t =>
      refine Counted.requestResumeData ?_ false id
      exact hs
  | moveStorage id path context =>
    rw [SessionImpl.next, addMoveTorrentStorageJob]
    cases s.torrents.lookup id <;> exact hs
  | storageMoved success =>
    rw [SessionImpl.next, handleStorageAlert]
    cases s.movedTorrent success with
    | none => exact hs
    | some moved =>
      refine Counted.changeOwn ?_ moved.1 moved.2
      exact hs
  | queueChanged => exact hs
  | stateUpdate => exact hs
  | answer => exact hs.answer
  | handleAlert => exact hs.handleAlert
  | beginSaving order =>
    have hfold := Counted.foldl order (s :=
      { s with
        phase := .saving
        needSaveTorrentsQueue := s.needSaveTorrentsQueue || s.torrentsQueueChanged
        torrentsQueueChanged := false }) hs
    exact hfold
  | leave => exact hs

end counted

/-! ### More requests -/

/-- A torrent but for its requests in the event loop. -/
def TorrentImpl.core (t : TorrentImpl) : ℕ × OwnParams := (t.nativeHandle, t.own)

theorem exists_of_map_core {o o' : Option TorrentImpl} (h : o'.map TorrentImpl.core =
    o.map TorrentImpl.core) {t' : TorrentImpl} (ht' : o' = some t') :
    ∃ t, o = some t ∧ t'.nativeHandle = t.nativeHandle ∧ t'.own = t.own := by
  rw [ht', Option.map_some] at h
  obtain ⟨t, ht, hcore⟩ := Option.map_eq_some_iff.1 h.symm
  have hpair := Prod.mk.inj hcore
  exact ⟨t, ht, hpair.1.symm, hpair.2.symm⟩

/-- `s'` is `s` with more requests for torrents that libtorrent has. -/
structure Extends (s s' : SessionImpl) : Prop where
  phase : s'.phase = s.phase
  native : s'.native = s.native
  stored : s'.stored = s.stored
  alerts : s'.alerts = s.alerts
  nextHandle : s'.nextHandle = s.nextHandle
  torrents : ∀ id, (s'.torrents.lookup id).map TorrentImpl.core =
    (s.torrents.lookup id).map TorrentImpl.core
  requests : ∀ request ∈ s.requests, request ∈ s'.requests
  fresh : ∀ request ∈ s'.requests, request ∈ s.requests ∨
    (s.native.lookup request.torrentHandle).isSome

namespace Extends

variable {s s' s'' : SessionImpl}

theorem refl (s : SessionImpl) : Extends s s :=
  ⟨rfl, rfl, rfl, rfl, rfl, fun _ => rfl, fun _ h => h, fun _ h => .inl h⟩

theorem trans (h : Extends s s') (h' : Extends s' s'') : Extends s s'' := by
  refine ⟨h'.phase.trans h.phase, h'.native.trans h.native, h'.stored.trans h.stored,
    h'.alerts.trans h.alerts, h'.nextHandle.trans h.nextHandle,
    fun id => (h'.torrents id).trans (h.torrents id),
    fun r hr => h'.requests r (h.requests r hr), fun r hr => ?_⟩
  rcases h'.fresh r hr with hr | hr
  · exact h.fresh r hr
  · rw [h.native] at hr
    exact .inr hr

theorem before (h : Extends s s') {id : Digest} {t' : TorrentImpl}
    (ht' : s'.torrents.lookup id = some t') :
    ∃ t, s.torrents.lookup id = some t ∧ t'.nativeHandle = t.nativeHandle ∧ t'.own = t.own :=
  exists_of_map_core (h.torrents id) ht'

theorem requestResumeData (s : SessionImpl) (onlyIfModified : Bool) (id : Digest) :
    Extends s (s.requestResumeData onlyIfModified id) := by
  rw [SessionImpl.requestResumeData]
  cases ht : s.torrents.lookup id with
  | none => exact refl s
  | some t =>
    dsimp only
    split_ifs with hlive
    · refine ⟨rfl, rfl, rfl, rfl, rfl, fun id' => ?_, fun r hr => ?_, fun r hr => ?_⟩
      · rw [lookup_insert_eq]
        split_ifs with hid
        · rw [hid, ht]
          rfl
        · rfl
      · exact mem_append_left _ hr
      · rcases mem_append.1 hr with hr | hr
        · exact .inl hr
        · rw [mem_singleton.1 hr]
          exact .inr hlive
    · exact refl s

theorem foldl (order : List Digest) : ∀ s : SessionImpl,
    Extends s (order.foldl (SessionImpl.requestResumeData · true) s) := by
  induction order with
  | nil => exact refl
  | cons id order ih =>
    intro s
    exact (requestResumeData s true id).trans (ih _)

section

variable (h : Extends s s') {handle : ℕ}

include h

theorem requested (hs : s.Requested handle) : s'.Requested handle := by
  obtain ⟨r, hr, hhandle⟩ := hs
  exact ⟨r, h.requests r hr, hhandle⟩

theorem nativeModified (handle : ℕ) : s'.NativeModified handle ↔ s.NativeModified handle := by
  rw [NativeModified, NativeModified, h.native]

theorem willSave (hs : s.WillSave handle) : s'.WillSave handle := by
  rcases hs with hs | ⟨r, hr, hhandle, hr'⟩
  · rw [← h.alerts] at hs
    exact .inl hs
  · exact .inr ⟨r, h.requests r hr, hhandle, hr'.imp_right (h.nativeModified handle).2⟩

theorem base (hs : Base s) : Base s' := by
  refine ⟨fun id t' ht' => ?_, fun handle n hn => ?_, fun handle n hn => ?_, fun r hr => ?_,
    fun alert halert => ?_, fun id t' n ht' hn hmodified => ?_⟩
  · obtain ⟨t, ht, hhandle, -⟩ := h.before ht'
    rw [h.native, hhandle]
    exact hs.live id t ht
  · rw [h.native] at hn
    obtain ⟨t, ht, hhandle⟩ := hs.known handle n hn
    obtain ⟨t', ht', hhandle', -⟩ := exists_of_map_core (h.torrents n.infoHash).symm ht
    exact ⟨t', ht', hhandle'.symm.trans hhandle⟩
  · rw [h.native] at hn
    rw [h.nextHandle]
    exact hs.nativeBounded handle n hn
  · rw [h.nextHandle]
    rcases h.fresh r hr with hr | hr
    · exact hs.requestsBounded r hr
    · obtain ⟨n, hn⟩ := Option.isSome_iff_exists.1 hr
      exact hs.nativeBounded _ n hn
  · rw [h.alerts] at halert
    rw [h.nextHandle]
    exact hs.alertsBounded alert halert
  · obtain ⟨t, ht, hhandle, -⟩ := h.before ht'
    rw [h.native, hhandle] at hn
    rw [lastParams, h.alerts, h.stored, hhandle]
    exact hs.snapshot id t n ht hn hmodified

theorem inv (hs : Inv s) (hleft : s.phase ≠ .left) : Inv s' := by
  refine ⟨h.base hs.toBase, fun hrunning id t' ht' => ?_, fun hrunning id t' ht' hmodified => ?_,
    fun hleft' => ?_⟩
  · obtain ⟨t, ht, hhandle, hown⟩ := h.before ht'
    rw [h.phase] at hrunning
    rw [OwnSaved, h.stored, hhandle, hown]
    exact (hs.own hrunning id t ht).imp_right h.willSave
  · obtain ⟨t, ht, hhandle, -⟩ := h.before ht'
    rw [h.phase] at hrunning
    rw [hhandle] at hmodified ⊢
    exact h.requested (hs.modified hrunning id t ht ((h.nativeModified _).1 hmodified))
  · rw [h.phase] at hleft'
    exact absurd hleft' hleft

end

end Extends

variable {t : TorrentImpl}

theorem mem_requests {id : Digest} (ht : s.torrents.lookup id = some t)
    (hlive : (s.native.lookup t.nativeHandle).isSome) (onlyIfModified : Bool) :
    ⟨t.nativeHandle, onlyIfModified⟩ ∈ (s.requestResumeData onlyIfModified id).requests := by
  rw [requestResumeData, ht]
  dsimp only
  rw [if_pos hlive]
  exact mem_append_right _ (mem_singleton_self _)

theorem requested_foldl (hs : Base s) {id : Digest} (ht : s.torrents.lookup id = some t) :
    ∀ (order : List Digest), id ∈ order →
      (order.foldl (SessionImpl.requestResumeData · true) s).Requested t.nativeHandle := by
  intro order
  induction order generalizing s t with
  | nil =>
    intro hid
    cases hid
  | cons id' order ih =>
    intro hid
    have hextends := Extends.requestResumeData s true id'
    by_cases heq : id = id'
    · -- asked for here, and the request stays
      refine (Extends.foldl order _).requested ?_
      obtain ⟨n, hn, -⟩ := hs.live id t ht
      rw [← heq]
      exact ⟨_, mem_requests ht (hn ▸ Option.isSome_some) true, rfl⟩
    · have hid' : id ∈ order := (mem_cons.1 hid).resolve_left heq
      have ht' : (s.requestResumeData true id').torrents.lookup id = some t := by
        rw [requestResumeData]
        cases s.torrents.lookup id' with
        | none => exact ht
        | some t' =>
          dsimp only
          split_ifs
          · exact (lookup_insert_of_ne _ heq).trans ht
          · exact ht
      exact ih (hextends.base hs) ht' hid'

section inv

variable {s s s' : SessionImpl} {id : Digest} {t t' : TorrentImpl} {h : ℕ}

theorem Base.inv (hs : Base s) (hrunning : s.phase = .running) : Inv s := by
  refine ⟨hs, fun h => absurd hrunning h, fun h => absurd hrunning h, fun h => ?_⟩
  rw [hrunning] at h
  cases h

theorem Inv.setMoveStorageQueue (hs : Inv s) (queue : List MoveStorageJob) :
    Inv { s with moveStorageQueue := queue } :=
  { hs with }

theorem Base.nativeHandle_ne (hs : Base s) {id' : Digest} (ht : s.torrents.lookup id = some t)
    (ht' : s.torrents.lookup id' = some t') (hne : id' ≠ id) :
    t'.nativeHandle ≠ t.nativeHandle := by
  intro heq
  obtain ⟨n, hn, hid⟩ := hs.live id t ht
  obtain ⟨n', hn', hid'⟩ := hs.live id' t' ht'
  rw [heq] at hn'
  cases hn.symm.trans hn'
  exact hne (hid'.symm.trans hid)

theorem Base.setTorrent (hs : Base s) (ht : s.torrents.lookup id = some t)
    (hhandle : t'.nativeHandle = t.nativeHandle) :
    Base { s with torrents := s.torrents.insert id t' } := by
  have hbefore : ∀ id' t'', (s.torrents.insert id t').lookup id' = some t'' →
      ∃ t, s.torrents.lookup id' = some t ∧ t''.nativeHandle = t.nativeHandle := by
    intro id' t'' ht''
    rw [lookup_insert_eq] at ht''
    split_ifs at ht'' with hid
    · cases ht''
      exact ⟨t, hid ▸ ht, hhandle⟩
    · exact ⟨t'', ht'', rfl⟩
  refine { hs with
    live := fun id' t'' ht'' => ?_
    known := fun h n hn => ?_
    snapshot := fun id' t'' n ht'' hn hmodified => ?_ }
  · obtain ⟨t, ht, hhandle⟩ := hbefore id' t'' ht''
    rw [hhandle]
    exact hs.live id' t ht
  · obtain ⟨t₁, ht₁, hhandle₁⟩ := hs.known h n hn
    rw [lookup_insert_eq]
    split_ifs with hid
    · rw [hid, ht] at ht₁
      cases ht₁
      exact ⟨t', rfl, hhandle.trans hhandle₁⟩
    · exact ⟨t₁, ht₁, hhandle₁⟩
  · obtain ⟨t, ht, hhandle⟩ := hbefore id' t'' ht''
    rw [hhandle] at hn ⊢
    exact hs.snapshot id' t n ht hn hmodified

theorem Inv.changeOwn (hs : Inv s) {own : OwnParams}
    (hcovered : s.phase ≠ .running → s.CoveredChange id own) : Inv (s.changeOwn id own) := by
  rw [SessionImpl.changeOwn]
  cases ht : s.torrents.lookup id with
  | none => exact hs
  | some t =>
    dsimp only
    generalize ht' : ({ t with own := own } : TorrentImpl).deferredRequestResumeData = t'
    have hcore : t'.nativeHandle = t.nativeHandle ∧ t'.own = own := by
      rw [← ht', TorrentImpl.deferredRequestResumeData]
      split_ifs <;> exact ⟨rfl, rfl⟩
    refine ⟨hs.setTorrent ht hcore.1, fun hrunning id' t'' ht'' => ?_,
      fun hrunning id' t'' ht'' hmodified => ?_, hs.left⟩
    · rw [lookup_insert_eq] at ht''
      split_ifs at ht'' with hid
      · cases ht''
        rw [hcore.1, hcore.2, hid]
        rcases hcovered hrunning t ht with hsame | hsave
        · rw [OwnSaved, hsame]
          exact hs.own hrunning id t ht
        · exact .inr hsave
      · exact hs.own hrunning id' t'' ht''
    · rw [lookup_insert_eq] at ht''
      split_ifs at ht'' with hid
      · cases ht''
        rw [hcore.1] at hmodified ⊢
        exact hs.modified hrunning id t ht hmodified
      · exact hs.modified hrunning id' t'' ht'' hmodified

theorem NativeModified.congr (hlookup : s'.native.lookup h = s.native.lookup h) :
    s'.NativeModified h ↔ s.NativeModified h := by
  rw [NativeModified, NativeModified, hlookup]

theorem WillSave.of_native (hs : s.WillSave h) (halerts : s'.alerts = s.alerts)
    (hrequests : s'.requests = s.requests) (hmodified : s.NativeModified h → s'.NativeModified h) :
    s'.WillSave h := by
  rcases hs with hs | ⟨r, hr, hhandle, hr'⟩
  · rw [← halerts] at hs
    exact .inl hs
  · rw [← hrequests] at hr
    exact .inr ⟨r, hr, hhandle, hr'.imp_right hmodified⟩

theorem Base.filterMap_alerts (hs : Base s) :
    s.alerts.filterMap (·.paramsOf s.nextHandle) = [] := by
  refine filterMap_eq_nil_iff.2 fun alert halert => ?_
  rw [ResumeDataAlert.paramsOf, if_neg (Nat.ne_of_lt (hs.alertsBounded alert halert))]

theorem Base.nativeHandle_ne_nextHandle (hs : Base s) (ht : s.torrents.lookup id = some t) :
    t.nativeHandle ≠ s.nextHandle := by
  obtain ⟨n, hn, -⟩ := hs.live id t ht
  exact Nat.ne_of_lt (hs.nativeBounded _ n hn)

theorem Base.createTorrent (hs : Base s) (hid : id ∉ s.torrents) (own : OwnParams)
    (params : NativeParams) (isRestored : Bool) :
    Base (s.createTorrent id own params isRestored) := by
  have hold : ∀ id' t', s.torrents.lookup id' = some t' → id' ≠ id := by
    rintro id' t' ht' rfl
    exact hid (mem_of_lookup_eq_some ht')
  rw [SessionImpl.createTorrent]
  refine ⟨fun id' t' ht' => ?_, fun h n' hn' => ?_, fun h n' hn' => ?_, fun r hr => ?_,
    fun alert halert => ?_, fun id' t' n' ht' hn' hmodified => ?_⟩
  · rw [lookup_insert_eq] at ht'
    split_ifs at ht' with hid'
    · cases ht'
      exact ⟨_, lookup_insert _, hid'.symm⟩
    · obtain ⟨n', hn', hinfo⟩ := hs.live id' t' ht'
      exact ⟨n', (lookup_insert_of_ne _ (hs.nativeHandle_ne_nextHandle ht')).trans hn', hinfo⟩
  · rw [lookup_insert_eq] at hn'
    split_ifs at hn' with hh
    · cases hn'
      exact ⟨_, lookup_insert _, hh.symm⟩
    · obtain ⟨t', ht', hhandle⟩ := hs.known h n' hn'
      exact ⟨t', (lookup_insert_of_ne _ (hold _ t' ht')).trans ht', hhandle⟩
  · rw [lookup_insert_eq] at hn'
    split_ifs at hn' with hh
    · exact hh ▸ Nat.lt_succ_self _
    · exact (hs.nativeBounded h n' hn').trans (Nat.lt_succ_self _)
  · exact (hs.requestsBounded r hr).trans (Nat.lt_succ_self _)
  · exact (hs.alertsBounded alert halert).trans (Nat.lt_succ_self _)
  · rw [lookup_insert_eq] at ht'
    split_ifs at ht' with hid'
    · -- what is stored of a restored torrent is what it starts with
      cases ht'
      rw [lookup_insert] at hn'
      cases hn'
      have hrestored : isRestored = true := by
        cases isRestored with
        | true => rfl
        | false => cases hmodified
      rw [lastParams, hid', hrestored]
      rw [hs.filterMap_alerts, if_pos rfl, lookup_insert]
      rfl
    · rw [lookup_insert_of_ne _ (hs.nativeHandle_ne_nextHandle ht')] at hn'
      have hstored : (if isRestored = true then s.stored.insert id
          (TorrentImpl.prepareResumeData { nativeHandle := s.nextHandle, own := own } params)
            else s.stored).lookup id' = s.stored.lookup id' := by
        split_ifs
        · exact lookup_insert_of_ne _ hid'
        · rfl
      have hlast := hs.snapshot id' t' n' ht' hn' hmodified
      rw [lastParams] at hlast ⊢
      rw [hstored]
      exact hlast

theorem Inv.addTorrent (hs : Inv s) (hid : id ∉ s.torrents) (own : OwnParams)
    (params : NativeParams) {isRestored : Bool}
    (hphase : s.phase = .running ∨ s.phase = .saving ∧ isRestored = false) :
    Inv (s.addTorrent id own params isRestored) := by
  have hcreated := hs.createTorrent hid own params isRestored
  cases isRestored with
  | true =>
    have hrunning : s.phase = .running := hphase.resolve_right fun h => by cases h.2
    exact Base.inv hcreated hrunning
  | false =>
    generalize hs₁ : s.createTorrent id own params false = s₁ at hcreated
    have hadd : s.addTorrent id own params false = s₁.requestResumeData false id := by
      rw [SessionImpl.addTorrent, hs₁]
      rfl
    have hextends := Extends.requestResumeData s₁ false id
    have hcases : ∀ id' t', s₁.torrents.lookup id' = some t' →
        ⟨t'.nativeHandle, false⟩ ∈ (s₁.requestResumeData false id).requests ∨
          s.torrents.lookup id' = some t' := by
      intro id' t' ht'
      by_cases hid' : id' = id
      · rw [hid'] at ht'
        obtain ⟨n, hn, -⟩ := hcreated.live id t' ht'
        exact .inl (mem_requests ht' (hn ▸ Option.isSome_some) false)
      · rw [← hs₁] at ht'
        exact .inr ((lookup_insert_of_ne _ hid').symm.trans ht')
    have hmodified : ∀ id' t', s.torrents.lookup id' = some t' →
        (s₁.NativeModified t'.nativeHandle ↔ s.NativeModified t'.nativeHandle) := by
      intro id' t' ht'
      rw [← hs₁]
      exact NativeModified.congr
        (lookup_insert_of_ne _ (hs.nativeHandle_ne_nextHandle ht'))
    have hphase' : (s₁.requestResumeData false id).phase = s.phase := by
      rw [hextends.phase, ← hs₁]
      rfl
    rw [hadd]
    refine ⟨hextends.base hcreated, fun hrunning id' t'' ht'' => ?_,
      fun hrunning id' t'' ht'' hmodified'' => ?_, fun hleft => ?_⟩
    · obtain ⟨t', ht', hhandle, hown⟩ := hextends.before ht''
      rw [hphase'] at hrunning
      rw [hhandle, hown]
      rcases hcases id' t' ht' with hrequest | ht
      · exact .inr (.inr ⟨_, hrequest, rfl, .inl rfl⟩)
      · rcases hs.own hrunning id' t' ht with hsaved | hsave
        · rw [OwnSaved, hextends.stored, ← hs₁]
          exact .inl hsaved
        · refine .inr (hextends.willSave (WillSave.of_native hsave ?_ ?_ (hmodified id' t' ht).2))
          all_goals
            rw [← hs₁]
            rfl
    · obtain ⟨t', ht', hhandle, -⟩ := hextends.before ht''
      rw [hphase'] at hrunning
      rw [hhandle, hextends.nativeModified] at hmodified''
      rw [hhandle]
      rcases hcases id' t' ht' with hrequest | ht
      · exact ⟨_, hrequest, rfl⟩
      · refine hextends.requested ?_
        rw [← hs₁]
        exact hs.modified hrunning id' t' ht ((hmodified id' t' ht).1 hmodified'')
    · rw [hphase'] at hleft
      rcases hphase with hphase | ⟨hphase, -⟩
      all_goals
        rw [hphase] at hleft
        cases hleft

theorem Inv.removeTorrent (hs : Inv s) (id : Digest) : Inv (s.removeTorrent id) := by
  rw [SessionImpl.removeTorrent]
  cases ht : s.torrents.lookup id with
  | none => exact hs
  | some t =>
    have hbefore : ∀ id' t', (s.torrents.erase id).lookup id' = some t' →
        id' ≠ id ∧ s.torrents.lookup id' = some t' := by
      intro id' t' ht'
      rw [lookup_erase_eq] at ht'
      split_ifs at ht' with hid
      exact ⟨hid, ht'⟩
    have hnative : ∀ {id' t'}, id' ≠ id → s.torrents.lookup id' = some t' →
        (s.native.erase t.nativeHandle).lookup t'.nativeHandle =
          s.native.lookup t'.nativeHandle := by
      intro id' t' hid ht'
      exact lookup_erase_ne (hs.nativeHandle_ne ht ht' hid)
    refine ⟨⟨fun id' t' ht' => ?_, fun h n hn => ?_, fun h n hn => ?_, hs.requestsBounded,
      hs.alertsBounded, fun id' t' n ht' hn hmodified => ?_⟩, fun hrunning id' t' ht' => ?_,
      fun hrunning id' t' ht' hmodified => ?_, hs.left⟩
    · obtain ⟨hid, ht'⟩ := hbefore id' t' ht'
      rw [hnative hid ht']
      exact hs.live id' t' ht'
    · rw [lookup_erase_eq] at hn
      split_ifs at hn with hh
      obtain ⟨t', ht', hhandle⟩ := hs.known h n hn
      refine ⟨t', (lookup_erase_ne ?_).trans ht', hhandle⟩
      intro hid
      rw [hid, ht] at ht'
      cases ht'
      exact hh hhandle.symm
    · rw [lookup_erase_eq] at hn
      split_ifs at hn with hh
      exact hs.nativeBounded h n hn
    · obtain ⟨hid, ht'⟩ := hbefore id' t' ht'
      rw [hnative hid ht'] at hn
      have hlast := hs.snapshot id' t' n ht' hn hmodified
      rw [lastParams] at hlast ⊢
      rw [lookup_erase_ne hid]
      exact hlast
    · obtain ⟨hid, ht'⟩ := hbefore id' t' ht'
      rcases hs.own hrunning id' t' ht' with hsaved | hsave
      · refine .inl ?_
        rw [OwnSaved, lookup_erase_ne hid]
        exact hsaved
      · exact .inr (WillSave.of_native hsave rfl rfl (NativeModified.congr (hnative hid ht')).2)
    · obtain ⟨hid, ht'⟩ := hbefore id' t' ht'
      exact hs.modified hrunning id' t' ht' ((NativeModified.congr (hnative hid ht')).1 hmodified)

theorem Inv.changeNative (hs : Inv s) {params : NativeParams}
    (hcovered : s.phase ≠ .running → ∀ n ∈ s.native.lookup h, params = n.params ∨ s.Requested h) :
    Inv (s.changeNative h params) := by
  rw [SessionImpl.changeNative]
  cases hn : s.native.lookup h with
  | none => exact hs
  | some n =>
    dsimp only
    generalize hn' : ({ n with
      params := params, modified := n.modified || decide (params ≠ n.params) } : NativeTorrent) = n'
    have hhash : n'.infoHash = n.infoHash := by rw [← hn']
    have hmore : n.modified = true → n'.modified = true := by
      intro hmodified
      rw [← hn']
      rw [hmodified, Bool.true_or]
    have hsame : n'.modified = false → n.modified = false ∧ n'.params = n.params := by
      intro hmodified
      rw [← hn'] at hmodified
      obtain ⟨hold, hparams⟩ := Bool.or_eq_false_iff.1 hmodified
      rw [← hn']
      exact ⟨hold, not_not.1 (of_decide_eq_false hparams)⟩
    have hle : ∀ h', s.NativeModified h' →
        ({ s with native := s.native.insert h n' } : SessionImpl).NativeModified h' := by
      rintro h' ⟨n₁, hn₁, hmodified⟩
      by_cases hh : h' = h
      · rw [hh] at hn₁
        cases hn.symm.trans hn₁
        exact ⟨n', hh ▸ lookup_insert _, hmore hmodified⟩
      · exact ⟨n₁, (lookup_insert_of_ne _ hh).trans hn₁, hmodified⟩
    refine ⟨⟨fun id t ht => ?_, fun h' n₁ hn₁ => ?_, fun h' n₁ hn₁ => ?_, hs.requestsBounded,
      hs.alertsBounded, fun id t n₁ ht hn₁ hmodified => ?_⟩, fun hrunning id t ht => ?_,
      fun hrunning id t ht hmodified => ?_, hs.left⟩
    · obtain ⟨n₁, hn₁, hid⟩ := hs.live id t ht
      by_cases hh : t.nativeHandle = h
      · rw [hh] at hn₁ ⊢
        cases hn.symm.trans hn₁
        exact ⟨n', lookup_insert _, hhash.trans hid⟩
      · exact ⟨n₁, (lookup_insert_of_ne _ hh).trans hn₁, hid⟩
    · rw [lookup_insert_eq] at hn₁
      split_ifs at hn₁ with hh
      · cases hn₁
        rw [hhash, hh]
        exact hs.known h n hn
      · exact hs.known h' n₁ hn₁
    · rw [lookup_insert_eq] at hn₁
      split_ifs at hn₁ with hh
      · rw [hh]
        exact hs.nativeBounded h n hn
      · exact hs.nativeBounded h' n₁ hn₁
    · rw [lookup_insert_eq] at hn₁
      split_ifs at hn₁ with hh
      · cases hn₁
        obtain ⟨hold, hparams⟩ := hsame hmodified
        rw [hparams]
        exact hs.snapshot id t n ht (hh.symm ▸ hn) hold
      · exact hs.snapshot id t n₁ ht hn₁ hmodified
    · exact (hs.own hrunning id t ht).imp_right fun hsave => WillSave.of_native (s := s) hsave rfl rfl (hle _)
    · by_cases hh : t.nativeHandle = h
      · rcases hcovered hrunning n hn with hparams | hrequested
        · refine hs.modified hrunning id t ht ⟨n, hh.symm ▸ hn, ?_⟩
          obtain ⟨n₁, hn₁, hmodified₁⟩ := hmodified
          rw [hh] at hn₁
          cases (lookup_insert _).symm.trans hn₁
          rw [← hn'] at hmodified₁
          simpa [hparams] using hmodified₁
        · exact hh.symm ▸ hrequested
      · exact hs.modified hrunning id t ht
          ((NativeModified.congr (lookup_insert_of_ne _ hh)).1 hmodified)

theorem lastParams_append (alerts : List ResumeDataAlert) (alert : ResumeDataAlert) (h : ℕ)
    (o : Option NativeParams) :
    ((alerts ++ [alert]).filterMap (·.paramsOf h)).getLast?.or o =
      (alert.paramsOf h).or ((alerts.filterMap (·.paramsOf h)).getLast?.or o) := by
  rw [filterMap_append, filterMap_cons, filterMap_nil]
  cases alert.paramsOf h with
  | none =>
    rw [append_nil]
    rfl
  | some params =>
    rw [List.getLast?_concat]
    rfl

theorem lastParams_cons (alert : ResumeDataAlert) (alerts : List ResumeDataAlert) (h : ℕ)
    (o : Option NativeParams) :
    ((alert :: alerts).filterMap (·.paramsOf h)).getLast?.or o =
      (alerts.filterMap (·.paramsOf h)).getLast?.or ((alert.paramsOf h).or o) := by
  rw [filterMap_cons]
  cases alert.paramsOf h with
  | none => rfl
  | some params =>
    rw [List.getLast?_cons]
    cases (alerts.filterMap (·.paramsOf h)).getLast? <;> rfl

theorem WillSave.answer {request : Request} {requests : List Request} {params : Option NativeParams}
    (hs : s.WillSave h) (hrequests : s.requests = request :: requests)
    (hrequests' : s'.requests = requests)
    (halerts' : s'.alerts = s.alerts ++ [⟨request.torrentHandle, params⟩])
    (hhead : request.torrentHandle = h → request.onlyIfModified = false ∨ s.NativeModified h →
      params.isSome)
    (hmodified : ¬(request.torrentHandle = h ∧ params.isSome) → s.NativeModified h →
      s'.NativeModified h) : s'.WillSave h := by
  by_cases hanswered : request.torrentHandle = h ∧ params.isSome
  · refine .inl ⟨⟨request.torrentHandle, params⟩, ?_, hanswered⟩
    rw [halerts']
    exact mem_append_right _ (mem_singleton_self _)
  · rcases hs with ⟨alert, halert, hparams⟩ | ⟨r, hr, hhandle, hr'⟩
    · refine .inl ⟨alert, ?_, hparams⟩
      rw [halerts']
      exact mem_append_left _ halert
    · rw [hrequests] at hr
      rcases mem_cons.1 hr with rfl | hr
      · exact absurd ⟨hhandle, hhead hhandle hr'⟩ hanswered
      · rw [← hrequests'] at hr
        exact .inr ⟨r, hr, hhandle, hr'.imp_right (hmodified hanswered)⟩

theorem Inv.answer (hs : Inv s) (hleft : s.phase ≠ .left) : Inv s.answer := by
  rw [SessionImpl.answer]
  cases hrequests : s.requests with
  | nil => exact hs
  | cons request requests =>
    have hmem : ∀ r ∈ requests, r ∈ s.requests := by
      intro r hr
      rw [hrequests]
      exact mem_cons_of_mem _ hr
    have hbounded : request.torrentHandle < s.nextHandle :=
      hs.requestsBounded request (hrequests ▸ mem_cons_self)
    have halertsBounded : ∀ params, ∀ alert ∈ s.alerts ++ [⟨request.torrentHandle, params⟩],
        alert.torrentHandle < s.nextHandle := by
      intro params alert halert
      rcases mem_append.1 halert with halert | halert
      · exact hs.alertsBounded alert halert
      · rw [mem_singleton.1 halert]
        exact hbounded
    have hrequested : ∀ h, s.Requested h → h ≠ request.torrentHandle →
        ∃ r ∈ requests, r.torrentHandle = h := by
      rintro h ⟨r, hr, hhandle⟩ hne
      rw [hrequests] at hr
      rcases mem_cons.1 hr with rfl | hr
      · exact absurd hhandle.symm hne
      · exact ⟨r, hr, hhandle⟩
    -- an answer without resume data, as nothing has changed
    have hquiet : ¬s.NativeModified request.torrentHandle →
        (∀ id t, s.torrents.lookup id = some t → request.torrentHandle = t.nativeHandle →
          request.onlyIfModified ≠ false) → Inv { s with
            requests := requests
            alerts := s.alerts ++ [⟨request.torrentHandle, none⟩] } := by
      intro hnot honly
      refine ⟨⟨hs.live, hs.known, hs.nativeBounded, fun r hr => hs.requestsBounded r (hmem r hr),
        halertsBounded none, fun id t n ht hn' hmodified => ?_⟩, fun hrunning id t ht => ?_,
        fun hrunning id t ht hmodified => ?_, fun h => absurd h hleft⟩
      · rw [lastParams, lastParams_append, ResumeDataAlert.paramsOf, ite_self, Option.none_or]
        exact hs.snapshot id t n ht hn' hmodified
      · refine (hs.own hrunning id t ht).imp_right fun hsave => ?_
        refine WillSave.answer hsave hrequests rfl rfl (fun heq hbrings => ?_) fun _ h => h
        rw [← heq] at hbrings
        exact absurd (hbrings.resolve_left (honly id t ht heq)) hnot
      · refine hrequested _ (hs.modified hrunning id t ht hmodified) fun heq => hnot ?_
        rw [← heq]
        exact hmodified
    dsimp only
    cases hn : s.native.lookup request.torrentHandle with
    | none =>
      refine hquiet ?_ fun id t ht heq => ?_
      · rintro ⟨n, hn', -⟩
        cases hn.symm.trans hn'
      · obtain ⟨n, hn', -⟩ := hs.live id t ht
        rw [← heq, hn] at hn'
        cases hn'
    | some n =>
      dsimp only
      split_ifs with hunmodified
      · refine hquiet ?_ fun _ _ _ _ => by rw [hunmodified.1]; exact Bool.noConfusion
        rintro ⟨n', hn', hmodified⟩
        cases hn.symm.trans hn'
        rw [hunmodified.2] at hmodified
        cases hmodified
      · generalize hn' : ({ n with modified := false } : NativeTorrent) = n'
        have hlookup : ∀ h n₁, (s.native.insert request.torrentHandle n').lookup h = some n₁ →
            h = request.torrentHandle ∧ n₁ = n' ∨
              h ≠ request.torrentHandle ∧ s.native.lookup h = some n₁ := by
          intro h n₁ hn₁
          rw [lookup_insert_eq] at hn₁
          split_ifs at hn₁ with hh
          · exact .inl ⟨hh, (Option.some.inj hn₁).symm⟩
          · exact .inr ⟨hh, hn₁⟩
        refine ⟨⟨fun id t ht => ?_, fun h n₁ hn₁ => ?_, fun h n₁ hn₁ => ?_,
          fun r hr => hs.requestsBounded r (hmem r hr), halertsBounded _,
          fun id t n₁ ht hn₁ hmodified => ?_⟩, fun hrunning id t ht => ?_,
          fun hrunning id t ht hmodified => ?_, fun h => absurd h hleft⟩
        · obtain ⟨n₁, hn₁, hid⟩ := hs.live id t ht
          by_cases hh : t.nativeHandle = request.torrentHandle
          · rw [hh] at hn₁ ⊢
            cases hn.symm.trans hn₁
            exact ⟨n', lookup_insert _, by rw [← hn', hid]⟩
          · exact ⟨n₁, (lookup_insert_of_ne _ hh).trans hn₁, hid⟩
        · rcases hlookup h n₁ hn₁ with ⟨rfl, rfl⟩ | ⟨-, hn₁⟩
          · rw [← hn']
            exact hs.known _ n hn
          · exact hs.known h n₁ hn₁
        · rcases hlookup h n₁ hn₁ with ⟨rfl, rfl⟩ | ⟨-, hn₁⟩
          · exact hs.nativeBounded _ n hn
          · exact hs.nativeBounded h n₁ hn₁
        · rw [lastParams, lastParams_append, ResumeDataAlert.paramsOf]
          rcases hlookup _ n₁ hn₁ with ⟨hh, rfl⟩ | ⟨hh, hn₁⟩
          · rw [if_pos hh.symm, ← hn', Option.some_or]
          · rw [if_neg (Ne.symm hh), Option.none_or]
            exact hs.snapshot id t n₁ ht hn₁ hmodified
        · refine (hs.own hrunning id t ht).imp_right fun hsave => ?_
          refine WillSave.answer hsave hrequests rfl rfl (fun _ _ => rfl) fun hnot hmodified => ?_
          have hh : t.nativeHandle ≠ request.torrentHandle := fun hh => hnot ⟨hh.symm, rfl⟩
          exact (NativeModified.congr (lookup_insert_of_ne _ hh)).2 hmodified
        · obtain ⟨n₁, hn₁, hmodified₁⟩ := hmodified
          rcases hlookup _ n₁ hn₁ with ⟨hh, rfl⟩ | ⟨hh, hn₁⟩
          · rw [← hn'] at hmodified₁
            cases hmodified₁
          · exact hrequested _ (hs.modified hrunning id t ht ⟨n₁, hn₁, hmodified₁⟩) hh

theorem Inv.handleAlert (hs : Inv s) (hleft : s.phase ≠ .left) : Inv s.handleAlert := by
  cases halerts : s.alerts with
  | nil =>
    rw [SessionImpl.handleAlert, halerts]
    exact hs
  | cons alert alerts =>
    have hmem : ∀ alert ∈ alerts, alert ∈ s.alerts := by
      intro alert halert
      rw [halerts]
      exact mem_cons_of_mem _ halert
    have hlast : ∀ id h, s.lastParams id h = (alerts.filterMap (·.paramsOf h)).getLast?.or
        ((alert.paramsOf h).or ((s.stored.lookup id).map (·.ltAddTorrentParams))) := by
      intro id h
      rw [lastParams, halerts, lastParams_cons]
    have hsave : ∀ h, s.WillSave h → (alert.paramsOf h).isSome ∨
        ({ s with alerts := alerts } : SessionImpl).WillSave h := by
      rintro h (⟨alert', halert', hhandle, hparams⟩ | hrequest)
      · rw [halerts] at halert'
        rcases mem_cons.1 halert' with rfl | halert'
        · rw [ResumeDataAlert.paramsOf, if_pos hhandle]
          exact .inl hparams
        · exact .inr (.inl ⟨alert', halert', hhandle, hparams⟩)
      · exact .inr (.inr hrequest)
    refine handleAlert_cases halerts (fun hdropped => ?_) fun n params t hn hparams ht => ?_
    · -- the answer is not about a torrent, or has no resume data
      have hnone : ∀ id t, s.torrents.lookup id = some t → alert.paramsOf t.nativeHandle = none := by
        intro id t ht
        rw [ResumeDataAlert.paramsOf]
        split_ifs with hhandle
        · obtain ⟨n, hn, hid⟩ := hs.live id t ht
          rw [← hhandle] at hn
          cases hparams : alert.params with
          | none => rfl
          | some params =>
            have hmissing := hdropped n params hn hparams
            rw [hid, ht] at hmissing
            cases hmissing
        · rfl
      refine { hs with
        alertsBounded := fun alert halert => hs.alertsBounded alert (hmem alert halert),
        snapshot := fun id t n ht hn hmodified => ?_, own := fun hrunning id t ht => ?_,
        left := fun h => absurd h hleft }
      · have hold := hs.snapshot id t n ht hn hmodified
        rw [hlast, hnone id t ht, Option.none_or] at hold
        exact hold
      · refine (hs.own hrunning id t ht).imp_right fun hwill => ?_
        refine (hsave _ hwill).resolve_left ?_
        rw [hnone id t ht]
        exact Bool.false_ne_true
    · have hhandle : alert.torrentHandle = t.nativeHandle := by
        obtain ⟨t', ht', hhandle⟩ := hs.known _ n hn
        cases ht.symm.trans ht'
        exact hhandle.symm
      have hother : ∀ id t', s.torrents.lookup id = some t' → id ≠ n.infoHash →
          alert.paramsOf t'.nativeHandle = none := by
        intro id t' ht' hid
        rw [ResumeDataAlert.paramsOf, if_neg]
        rw [hhandle]
        exact (hs.nativeHandle_ne ht ht' hid).symm
      refine { hs with
        alertsBounded := fun alert halert => hs.alertsBounded alert (hmem alert halert),
        snapshot := fun id t' n' ht' hn' hmodified => ?_, own := fun hrunning id t' ht' => ?_,
        left := fun h => absurd h hleft }
      · have hold := hs.snapshot id t' n' ht' hn' hmodified
        rw [hlast] at hold
        rw [lastParams]
        by_cases hid : id = n.infoHash
        · rw [hid] at ht'
          cases ht.symm.trans ht'
          rw [ResumeDataAlert.paramsOf, if_pos hhandle, hparams, Option.some_or] at hold
          rw [hid, lookup_insert]
          exact hold
        · rw [hother id t' ht' hid, Option.none_or] at hold
          rw [lookup_insert_of_ne _ hid]
          exact hold
      · by_cases hid : id = n.infoHash
        · refine .inl ?_
          rw [hid] at ht'
          cases ht.symm.trans ht'
          rw [OwnSaved, hid, lookup_insert]
          rfl
        · rcases hs.own hrunning id t' ht' with hsaved | hwill
          · refine .inl ?_
            rw [OwnSaved, lookup_insert_of_ne _ hid]
            exact hsaved
          · refine .inr ((hsave _ hwill).resolve_left ?_)
            rw [hother id t' ht' hid]
            exact Bool.false_ne_true

theorem Inv.beginSaving (hs : Inv s) {order : List Digest} (horder : order.toFinset = s.torrents.keys)
    (hcovered : ∀ id ∈ order, s.CoveredOnExit id) : Inv (s.beginSaving order) := by
  refine Inv.setMoveStorageQueue ?_ _
  generalize hs₀ : ({ s with
    phase := .saving
    needSaveTorrentsQueue := s.needSaveTorrentsQueue || s.torrentsQueueChanged
    torrentsQueueChanged := false } : SessionImpl) = s₀
  have hbase : Base s₀ := by
    rw [← hs₀]
    exact { hs with }
  have hextends := Extends.foldl order s₀
  have hmem : ∀ id t, s₀.torrents.lookup id = some t → id ∈ order := by
    intro id t ht
    rw [← hs₀] at ht
    rw [← mem_toFinset, horder]
    exact Finmap.mem_keys.2 (mem_of_lookup_eq_some ht)
  refine ⟨hextends.base hbase, fun _ id t' ht' => ?_, fun _ id t' ht' _ => ?_, fun hleft => ?_⟩
  · obtain ⟨t, ht, hhandle, hown⟩ := hextends.before ht'
    have hid := hmem id t ht
    rw [OwnSaved, hextends.stored, hhandle, hown]
    have hcoveredOnExit := hcovered id hid t (by rw [← hs₀] at ht; exact ht)
    rcases hcoveredOnExit with hsaved | hsave | hmodified
    · rw [← hs₀]
      exact .inl hsaved
    · refine .inr (hextends.willSave ?_)
      rw [← hs₀]
      exact hsave
    · obtain ⟨r, hr, hr'⟩ := requested_foldl hbase ht order hid
      refine .inr (.inr ⟨r, hr, hr', .inr ((hextends.nativeModified _).2 ?_)⟩)
      rw [← hs₀]
      exact hmodified
  · obtain ⟨t, ht, hhandle, -⟩ := hextends.before ht'
    rw [hhandle]
    exact requested_foldl hbase ht order (hmem id t ht)
  · rw [hextends.phase, ← hs₀] at hleft
    cases hleft

end inv

theorem Inv.init : Inv {} := by
  refine ⟨⟨?_, ?_, ?_, ?_, ?_, ?_⟩, ?_, ?_, ?_⟩
  · intro id t ht
    cases ht
  · intro h n hn
    cases hn
  · intro h n hn
    cases hn
  · intro r hr
    cases hr
  · intro alert halert
    cases halert
  · intro id t n ht
    cases ht
  · intro h
    exact absurd rfl h
  · intro h
    exact absurd rfl h
  · intro h
    cases h

theorem Inv.next (hs : Inv s) (hcount : Counted s) (e : SessionEvent) (hpossible : s.Possible e)
    (hcovered : s.Covered e) : Inv (s.next e) := by
  have hsaving : s.phase ≠ .left → s.phase ≠ .running → s.phase = .saving := by
    cases s.phase <;> simp
  cases e with
  | addTorrent id own params isRestored => exact hs.addTorrent hpossible.1 own params hpossible.2
  | removeTorrent id => exact hs.removeTorrent id
  | changeOwn id own =>
    exact hs.changeOwn fun hrunning => hcovered (hsaving hpossible hrunning)
  | changeNative h params =>
    exact hs.changeNative fun hrunning => hcovered (hsaving hpossible hrunning)
  | requestResumeData id =>
    refine (Extends.requestResumeData s false id).inv hs ?_
    rw [show s.phase = .running from hpossible]
    decide
  | runDeferred id =>
    obtain ⟨hrunning, -⟩ := hpossible
    rw [SessionImpl.next, runDeferred]
    cases ht : s.torrents.lookup id with
    | none => exact hs
    | some t =>
      have hset : Base { s with
          torrents := s.torrents.insert id { t with posted := t.posted - 1 } } :=
        hs.setTorrent ht rfl
      refine (Extends.requestResumeData _ false id).inv (hset.inv hrunning) ?_
      rw [hrunning]
      decide
  | moveStorage id path context =>
    rw [SessionImpl.next, addMoveTorrentStorageJob]
    cases s.torrents.lookup id with
    | none => exact hs
    | some t => exact hs.setMoveStorageQueue _
  | storageMoved success =>
    rw [SessionImpl.next, handleStorageAlert]
    cases hmoved : s.movedTorrent success with
    | none => exact hs.setMoveStorageQueue _
    | some moved =>
      obtain ⟨id, own⟩ := moved
      refine (hs.setMoveStorageQueue _).changeOwn fun hrunning => ?_
      exact hcovered (hsaving hpossible hrunning) (id, own) hmoved
  | queueChanged =>
    exact { hs with }
  | stateUpdate =>
    exact { hs with }
  | answer => exact hs.answer hpossible
  | handleAlert => exact hs.handleAlert hpossible
  | beginSaving order => exact hs.beginSaving hpossible.2.2 hcovered
  | leave =>
    have hrunning : s.phase ≠ .running := by
      rw [hpossible.1]
      decide
    refine { hs with
      own := fun _ => hs.own hrunning
      modified := fun _ => hs.modified hrunning
      left := fun _ => ?_ }
    -- nothing is counted when the loop is left
    have hzero : s.requests.length = 0 ∧ s.alerts.length = 0 := by
      have hnum := not_lt.1 (not_or.1 hpossible.2).1
      rw [hcount] at hnum
      omega
    exact ⟨length_eq_zero_iff.1 hzero.1, length_eq_zero_iff.1 hzero.2⟩

/-- The category of a torrent is changed while libtorrent has something to save, and the torrent is
moved while its last answer is outstanding. -/
def movedRun : List SessionEvent :=
  [.addTorrent 1 { savePath := "/a" } ⟨"/a", 0⟩ false, .answer, .handleAlert,
    .moveStorage 1 "/b" .changeSavePath, .changeNative 0 ⟨"/a", 1⟩,
    .changeOwn 1 { savePath := "/a", category := "c" }, .beginSaving [1],
    .changeNative 0 ⟨"/b", 1⟩, .answer, .storageMoved true, .handleAlert, .leave]

/-- Only the category of a torrent is changed, and the session exits before the event loop runs. -/
def exitRun : List SessionEvent :=
  [.addTorrent 1 { savePath := "/a" } ⟨"/a", 0⟩ false, .answer, .handleAlert,
    .changeOwn 1 { savePath := "/a", category := "c" }, .beginSaving [1], .answer, .handleAlert,
    .leave]

end QBittorrent.Shutdown
