import QBittorrent.Lib.Dict
import QBittorrent.Lib.Machine
import QBittorrent.Session.InfoHash

/-!
# Updates of tracker statuses

An alert of a tracker says that its announce entry has changed.  The session notes the tracker in
`m_updatedTrackerStatuses`, under a lock, and has another thread read the announce entries of the
torrent and take the note.  One task is scheduled for all trackers that are noted before it takes
them.  A torrent keeps its info hash; `Session.Tables` is about torrents that get another one.

* `Inv.next` : each step in time;
* `updated_of_inTime` : then every tracker gets its latest update.
-/

namespace QBittorrent.TrackerUpdates

open List Option Finmap Dict

/-- `lt::announce_entry`, with how often it has changed. -/
structure AnnounceEntry where
  url : String
  changes : ℕ := 0

/-- A torrent of libtorrent. -/
structure NativeTorrent where
  infoHash : Digest
  trackers : List AnnounceEntry

/-- The number of peers for each endpoint and version of the protocol. -/
abbrev UpdateInfo := Dict (String × ℕ) ℕ

/-- What the session keeps for the trackers of a torrent that had alerts. -/
abbrev UpdatedTrackers := Dict String UpdateInfo

structure TorrentImpl where
  nativeHandle : ℕ
  isStopped : Bool

/-- What a task gives to the main thread. -/
structure TaskResult where
  torrentHandle : ℕ
  /-- The hash of the handle, if the torrent exists. -/
  infoHash : Option Digest
  nativeTrackers : List AnnounceEntry
  updatedTrackers : UpdatedTrackers

/-- A call of `TorrentImpl::updateTrackerEntryStatus`. -/
structure StatusUpdate where
  /-- The torrent that is updated. -/
  torrent : ℕ
  torrentHandle : ℕ
  announceEntry : AnnounceEntry
  updateInfo : UpdateInfo

/-- A number of peers, and how many calls there were when it was reported. -/
structure Report where
  numPeers : ℕ
  since : ℕ

/-- The session with its worker thread, libtorrent, and a record of the alerts. -/
structure SessionImpl where
  torrents : Dict Digest TorrentImpl := ∅
  updatedTrackerStatuses : Dict ℕ UpdatedTrackers := ∅
  /-- The torrents of the tasks that have not begun. -/
  tasks : List ℕ := []
  /-- The task that has read the announce entries of its torrent. -/
  running : Option (ℕ × List AnnounceEntry) := none
  results : List TaskResult := []
  native : Dict ℕ NativeTorrent := ∅
  nextHandle : ℕ := 0
  updates : List StatusUpdate := []
  /-- The last alert of each tracker since the statuses of its torrent were reset: how often the
  announce entry had changed then. -/
  alerted : ℕ → String → Option ℕ := fun _ _ => none
  /-- The numbers of peers that were reported last. -/
  reported : ℕ → String → String × ℕ → Option Report := fun _ _ _ => none

namespace SessionImpl

variable (s : SessionImpl)

/-- The torrent with the hash that a handle has. -/
def torrentOf (h : ℕ) : Option TorrentImpl :=
  (s.native.lookup h).bind fun n => s.torrents.lookup n.infoHash

/-- The number of peers, if the alert is a reply, for the version of the protocol. -/
def addReply (endpoint : String) (reply : Option (ℕ × ℕ)) (updateInfo : UpdateInfo) : UpdateInfo :=
  match reply with
  | none => updateInfo
  | some (protocolVersion, numPeers) => updateInfo.insert (endpoint, protocolVersion) numPeers

/-- The note of an alert. -/
def noted (h : ℕ) (url endpoint : String) (reply : Option (ℕ × ℕ)) : UpdatedTrackers :=
  let trackers := (s.updatedTrackerStatuses.lookup h).getD ∅
  trackers.insert url (addReply endpoint reply ((trackers.lookup url).getD ∅))

def recorded (h : ℕ) (url endpoint : String) (changes : ℕ) (reply : Option (ℕ × ℕ)) :
    SessionImpl :=
  { s with
    alerted := fun h' url' => if h' = h ∧ url' = url then some changes else s.alerted h' url'
    reported := fun h' url' key =>
      match reply with
      | none => s.reported h' url' key
      | some (protocolVersion, numPeers) =>
        if h' = h ∧ url' = url ∧ key = (endpoint, protocolVersion) then
          some ⟨numPeers, s.updates.length⟩
        else s.reported h' url' key }

/-- `handleTrackerAlert`; `changes` is for the record only. -/
def handleTrackerAlert (h : ℕ) (url endpoint : String) (changes : ℕ) (reply : Option (ℕ × ℕ)) :
    SessionImpl :=
  match s.torrentOf h with
  | none => s
  | some torrent =>
    let r := if torrent.isStopped then s else s.recorded torrent.nativeHandle url endpoint changes reply
    { r with
      updatedTrackerStatuses := s.updatedTrackerStatuses.insert torrent.nativeHandle
        (s.noted torrent.nativeHandle url endpoint reply)
      -- a task is scheduled for the first alert
      tasks :=
        if torrent.nativeHandle ∈ s.updatedTrackerStatuses then s.tasks
        else s.tasks ++ [torrent.nativeHandle] }

/-- The first half of a task of `updateTrackerEntryStatuses`, which throws if libtorrent does not
have the torrent. -/
def readTrackers : SessionImpl :=
  match s.tasks with
  | [] => s
  | h :: tasks =>
    { s with
      tasks := tasks
      running := (s.native.lookup h).map fun n => (h, n.trackers) }

/-- The second half of the task. -/
def takeUpdates : SessionImpl :=
  match s.running with
  | none => s
  | some (h, nativeTrackers) =>
    { s with
      running := none
      updatedTrackerStatuses := s.updatedTrackerStatuses.erase h
      results := s.results ++
        [{ torrentHandle := h
           infoHash := (s.native.lookup h).map (·.infoHash)
           nativeTrackers := nativeTrackers
           updatedTrackers := (s.updatedTrackerStatuses.lookup h).getD ∅ }] }

/-- The calls for a result. -/
def updatesOf (torrent : ℕ) (r : TaskResult) : List StatusUpdate :=
  r.nativeTrackers.filterMap fun announceEntry =>
    (r.updatedTrackers.lookup announceEntry.url).map fun updateInfo =>
      ⟨torrent, r.torrentHandle, announceEntry, updateInfo⟩

/-- The result of a task is handled by the main thread. -/
def handleResult : SessionImpl :=
  match s.results with
  | [] => s
  | r :: results =>
    let updates :=
      match r.infoHash.bind fun id => s.torrents.lookup id with
      | none => []
      | some torrent => if torrent.isStopped then [] else updatesOf torrent.nativeHandle r
    { s with results := results, updates := s.updates ++ updates }

/-- The statuses of a torrent are reset, so nothing is owed to them. -/
def resetTrackerEntryStatuses (h : ℕ) : SessionImpl :=
  { s with
    alerted := fun h' => if h' = h then fun _ => none else s.alerted h'
    reported := fun h' => if h' = h then fun _ _ => none else s.reported h' }

def addTorrent (id : Digest) (trackers : List String) (isStopped : Bool) : SessionImpl :=
  { s with
    torrents := s.torrents.insert id ⟨s.nextHandle, isStopped⟩
    native := s.native.insert s.nextHandle ⟨id, trackers.map fun url => { url := url }⟩
    nextHandle := s.nextHandle + 1 }

def removeTorrent (id : Digest) : SessionImpl :=
  match s.torrents.lookup id with
  | none => s
  | some torrent =>
    { s.resetTrackerEntryStatuses torrent.nativeHandle with
      torrents := s.torrents.erase id
      native := s.native.erase torrent.nativeHandle }

/-- `TorrentImpl::stop`, and the session's `handleTorrentStopped`. -/
def stop (id : Digest) : SessionImpl :=
  match s.torrents.lookup id with
  | none => s
  | some torrent =>
    { s.resetTrackerEntryStatuses torrent.nativeHandle with
      torrents := s.torrents.insert id { torrent with isStopped := true } }

def start (id : Digest) : SessionImpl :=
  match s.torrents.lookup id with
  | none => s
  | some torrent => { s with torrents := s.torrents.insert id { torrent with isStopped := false } }

def reset (id : Digest) : SessionImpl :=
  match s.torrents.lookup id with
  | none => s
  | some torrent => s.resetTrackerEntryStatuses torrent.nativeHandle

/-- libtorrent changes an announce entry. -/
def changeTracker (h : ℕ) (url : String) : SessionImpl :=
  match s.native.lookup h with
  | none => s
  | some n =>
    { s with
      native := s.native.insert h
        { n with
          trackers := n.trackers.map fun e =>
            if e.url = url then { e with changes := e.changes + 1 } else e } }

end SessionImpl

/-- What happens in libtorrent, in the worker and in the main thread. -/
inductive TrackerEvent where
  | addTorrent (id : Digest) (trackers : List String) (isStopped : Bool)
  | removeTorrent (id : Digest)
  | stop (id : Digest)
  | start (id : Digest)
  | reset (id : Digest)
  | changeTracker (h : ℕ) (url : String)
  | trackerAlert (h : ℕ) (url endpoint : String) (changes : ℕ) (reply : Option (ℕ × ℕ))
  | readTrackers
  | takeUpdates
  | handleResult

namespace SessionImpl

variable (s : SessionImpl)

def next : TrackerEvent → SessionImpl
  | .addTorrent id trackers isStopped => s.addTorrent id trackers isStopped
  | .removeTorrent id => s.removeTorrent id
  | .stop id => s.stop id
  | .start id => s.start id
  | .reset id => s.reset id
  | .changeTracker h url => s.changeTracker h url
  | .trackerAlert h url endpoint changes reply => s.handleTrackerAlert h url endpoint changes reply
  | .readTrackers => s.readTrackers
  | .takeUpdates => s.takeUpdates
  | .handleResult => s.handleResult

/-- libtorrent has the announce entry of a tracker with at least so many changes. -/
def Changed (trackers : List AnnounceEntry) (url : String) (changes : ℕ) : Prop :=
  ∃ e ∈ trackers, e.url = url ∧ changes ≤ e.changes
  deriving Decidable

/-- libtorrent refuses a hash that it has, and has changed the announce entry when it posts an alert;
one task runs at a time. -/
def Possible : TrackerEvent → Prop
  | .addTorrent id _ _ => id ∉ s.torrents
  | .trackerAlert h url _ changes _ => ∀ n ∈ s.native.lookup h, Changed n.trackers url changes
  | .readTrackers => s.running = none
  | .removeTorrent _ | .stop _ | .start _ | .reset _ | .changeTracker .. | .takeUpdates
  | .handleResult => True

instance : DecidablePred s.Possible := fun e => by
  cases e <;> unfold Possible <;> infer_instance

end SessionImpl

/-- The runs of a session. -/
def machine : Machine SessionImpl TrackerEvent := .guarded SessionImpl.Possible SessionImpl.next

open SessionImpl

/-! ### What is owed to a tracker -/

/-- No task is left, and no result. -/
structure Drained (s : SessionImpl) : Prop where
  tasks : s.tasks = []
  running : s.running = none
  results : s.results = []

/-- The calls that update a tracker of a torrent with its own announce entry. -/
def UpdatedBy (s : SessionImpl) (h : ℕ) (url : String) (u : StatusUpdate) : Prop :=
  u ∈ s.updates ∧ u.torrent = h ∧ u.torrentHandle = h ∧ u.announceEntry.url = url

/-- Each tracker with an alert has been updated with an announce entry that is as recent, and with
the numbers of peers that were reported, after they were. -/
structure Updated (s : SessionImpl) : Prop where
  alerts : ∀ h url changes, s.alerted h url = some changes →
    ∃ u, UpdatedBy s h url u ∧ changes ≤ u.announceEntry.changes
  reports : ∀ h url key r, s.reported h url key = some r →
    ∃ u ∈ s.updates.drop r.since, u.torrent = h ∧ u.torrentHandle = h ∧
      u.announceEntry.url = url ∧ u.updateInfo.lookup key = some r.numPeers

/-- An alert, for a torrent that is not stopped, is not handled between the two halves of a task that
has read an older announce entry. -/
def InTime (s : SessionImpl) : TrackerEvent → Prop
  | .trackerAlert h url _ changes _ => (∃ torrent ∈ s.torrentOf h, torrent.isStopped = false) →
    ∀ task ∈ s.running, task.1 = h → Changed task.2 url changes
  | .addTorrent .. | .removeTorrent _ | .stop _ | .start _ | .reset _ | .changeTracker ..
  | .readTrackers | .takeUpdates | .handleResult => True

instance (s : SessionImpl) : DecidablePred (InTime s) := fun e => by
  cases e <;> unfold InTime <;> infer_instance

/-- The note of the alerts of a tracker. -/
def SessionImpl.noteOf (s : SessionImpl) (h : ℕ) (url : String) : Option UpdateInfo :=
  (s.updatedTrackerStatuses.lookup h).bind fun trackers => trackers.lookup url

/-- An announce entry of a tracker, such that `A`. -/
def HasEntry (trackers : List AnnounceEntry) (url : String) (A : AnnounceEntry → Prop) : Prop :=
  ∃ e ∈ trackers, e.url = url ∧ A e

/-- A call, with an announce entry such that `A` and numbers of peers such that `I`, has been made, or
is to be: the result of a task is there, or the tracker is noted and the task that takes the note
does not have an older announce entry. -/
inductive Carried (s : SessionImpl) (id : Digest) (h : ℕ) (url : String)
    (A : AnnounceEntry → Prop) (I : UpdateInfo → Prop) (since : ℕ) : Prop
  | updated (u : StatusUpdate) (hu : u ∈ s.updates.drop since) (htorrent : u.torrent = h)
      (hhandle : u.torrentHandle = h) (hurl : u.announceEntry.url = url)
      (hA : A u.announceEntry) (hI : I u.updateInfo)
  | result (r : TaskResult) (hr : r ∈ s.results) (hhandle : r.torrentHandle = h)
      (hhash : r.infoHash = some id) (hA : HasEntry r.nativeTrackers url A) (info : UpdateInfo)
      (hinfo : r.updatedTrackers.lookup url = some info) (hI : I info)
  | noted (info : UpdateInfo) (hinfo : s.noteOf h url = some info) (hI : I info)
      (hA : ∀ trackers, s.running = some (h, trackers) → HasEntry trackers url A)

structure Owed (s : SessionImpl) (h : ℕ) (url : String) (A : AnnounceEntry → Prop)
    (I : UpdateInfo → Prop) (since : ℕ) : Prop where
  exists_torrent : ∃ id, s.torrents.lookup id = some ⟨h, false⟩ ∧
    (∃ n, s.native.lookup h = some n ∧ n.infoHash = id ∧ HasEntry n.trackers url A) ∧
      Carried s id h url A I since
  since_le : since ≤ s.updates.length

/-- The torrents are those of libtorrent, and what is noted for one is taken by a task. -/
structure Scheduled (s : SessionImpl) : Prop where
  live : ∀ id t, s.torrents.lookup id = some t →
    ∃ n, s.native.lookup t.nativeHandle = some n ∧ n.infoHash = id
  owned : ∀ h n, s.native.lookup h = some n →
    ∃ t, s.torrents.lookup n.infoHash = some t ∧ t.nativeHandle = h
  bounded : ∀ h, (s.native.lookup h).isSome ∨ (s.updatedTrackerStatuses.lookup h).isSome →
    h < s.nextHandle
  task : ∀ h, (s.native.lookup h).isSome → (s.updatedTrackerStatuses.lookup h).isSome →
    h ∈ s.tasks ∨ ∃ trackers, s.running = some (h, trackers)

structure Inv (s : SessionImpl) : Prop extends Scheduled s where
  alerts : ∀ h url changes, s.alerted h url = some changes →
    Owed s h url (fun e => changes ≤ e.changes) (fun _ => True) 0
  reports : ∀ h url key r, s.reported h url key = some r →
    Owed s h url (fun _ => True) (fun info => info.lookup key = some r.numPeers) r.since

namespace Owed

variable {s s' : SessionImpl} {h : ℕ} {url : String} {A : AnnounceEntry → Prop}
  {I : UpdateInfo → Prop} {since : ℕ}

theorem updated (ho : Owed s h url A I since) (hs : Scheduled s) (hd : Drained s) :
    ∃ u ∈ s.updates.drop since, u.torrent = h ∧ u.torrentHandle = h ∧
      u.announceEntry.url = url ∧ A u.announceEntry ∧ I u.updateInfo := by
  obtain ⟨id, -, ⟨n, hn, -⟩, hcarried⟩ := ho.exists_torrent
  cases hcarried with
  | updated u hu htorrent hhandle hurl hA hI => exact ⟨u, hu, htorrent, hhandle, hurl, hA, hI⟩
  | result r hr =>
    rw [hd.results] at hr
    cases hr
  | noted info hinfo =>
    obtain ⟨trackers, htrackers, -⟩ := bind_eq_some_iff.1 hinfo
    obtain htask | ⟨trackers, hrunning⟩ := hs.task h (by rw [hn]; rfl) (by rw [htrackers]; rfl)
    · rw [hd.tasks] at htask
      cases htask
    · rw [hd.running] at hrunning
      cases hrunning

end Owed

namespace SessionImpl

variable {s : SessionImpl} {h h' : ℕ} {url url' : String}

theorem torrentOf_eq_some (hs : Scheduled s) {torrent : TorrentImpl}
    (ht : s.torrentOf h = some torrent) : torrent.nativeHandle = h ∧
      ∃ n, s.native.lookup h = some n ∧ s.torrents.lookup n.infoHash = some torrent := by
  obtain ⟨n, hn, hlookup⟩ := bind_eq_some_iff.1 ht
  obtain ⟨t', ht', hhandle⟩ := hs.owned h n hn
  rw [hlookup] at ht'
  cases ht'
  exact ⟨hhandle, n, hn, hlookup⟩

theorem lookup_noted (s : SessionImpl) (h : ℕ) (url endpoint : String) (reply : Option (ℕ × ℕ))
    (url' : String) :
    (s.noted h url endpoint reply).lookup url' =
      if url' = url then some (addReply endpoint reply ((s.noteOf h url).getD ∅))
      else s.noteOf h url' := by
  rw [noted, lookup_insert_eq, noteOf, noteOf]
  cases s.updatedTrackerStatuses.lookup h <;> rfl

end SessionImpl

namespace Carried

variable {s s' : SessionImpl} {id : Digest} {h : ℕ} {url : String} {A : AnnounceEntry → Prop}
  {I : UpdateInfo → Prop} {since : ℕ}

section

variable (hc : Carried s id h url A I since) {n : NativeTorrent}

include hc

theorem extend (hupdates : s'.updates = s.updates) (hresults : s'.results = s.results)
    (hrunning : s'.running = s.running) (hnote : ∀ info, s.noteOf h url = some info → I info →
      ∃ info', s'.noteOf h url = some info' ∧ I info') : Carried s' id h url A I since := by
  cases hc with
  | updated u hu htorrent hhandle hurl hA hI =>
    exact .updated u (hupdates ▸ hu) htorrent hhandle hurl hA hI
  | result r hr hhandle hhash hA info hinfo hI =>
    exact .result r (hresults ▸ hr) hhandle hhash hA info hinfo hI
  | noted info hinfo hI hA =>
    obtain ⟨info', hinfo', hI'⟩ := hnote info hinfo hI
    exact .noted info' hinfo' hI' fun trackers ht => hA trackers (hrunning ▸ ht)

theorem congr (hupdates : s'.updates = s.updates) (hresults : s'.results = s.results)
    (hrunning : s'.running = s.running)
    (hnotes : s'.updatedTrackerStatuses = s.updatedTrackerStatuses) :
    Carried s' id h url A I since :=
  hc.extend hupdates hresults hrunning fun info hinfo hI =>
    ⟨info, by rwa [noteOf, hnotes], hI⟩

theorem readTrackers (hn : s.native.lookup h = some n) (hA : HasEntry n.trackers url A) :
    Carried s.readTrackers id h url A I since := by
  rw [SessionImpl.readTrackers]
  cases htasks : s.tasks with
  | nil => exact hc
  | cons first tasks =>
    cases hc with
    | updated u hu htorrent hhandle hurl hA hI => exact .updated u hu htorrent hhandle hurl hA hI
    | result r hr hhandle hhash hA info hinfo hI =>
      exact .result r hr hhandle hhash hA info hinfo hI
    | noted info hinfo hI _ =>
      refine .noted info hinfo hI fun trackers ht => ?_
      obtain ⟨n', hn', heq⟩ := map_eq_some_iff.1 ht
      cases heq
      rw [hn] at hn'
      cases hn'
      exact hA

theorem takeUpdates (hn : s.native.lookup h = some n) (hhash : n.infoHash = id) :
    Carried s.takeUpdates id h url A I since := by
  rw [SessionImpl.takeUpdates]
  cases hrunning : s.running with
  | none => exact hc
  | some task =>
    obtain ⟨h', trackers⟩ := task
    cases hc with
    | updated u hu htorrent hhandle hurl hA hI => exact .updated u hu htorrent hhandle hurl hA hI
    | result r hr hhandle hhash hA info hinfo hI =>
      exact .result r (mem_append_left _ hr) hhandle hhash hA info hinfo hI
    | noted info hinfo hI hA =>
      by_cases he : h' = h
      · subst he
        refine .result _ (mem_append_right _ (mem_singleton_self _)) rfl
          (by rw [hn, ← hhash]; rfl) (hA trackers hrunning) info ?_ hI
        obtain ⟨updated, hupdated, hlookup⟩ := bind_eq_some_iff.1 hinfo
        rw [hupdated]
        exact hlookup
      · refine .noted info ?_ hI fun trackers' ht => by cases ht
        rw [noteOf, lookup_erase_ne (Ne.symm he)]
        exact hinfo

theorem handleResult (hsince : since ≤ s.updates.length)
    (ht : s.torrents.lookup id = some ⟨h, false⟩) : Carried s.handleResult id h url A I since := by
  rw [SessionImpl.handleResult]
  cases hresults : s.results with
  | nil => exact hc
  | cons first results =>
    cases hc with
    | updated u hu htorrent hhandle hurl hA hI =>
      refine .updated u ?_ htorrent hhandle hurl hA hI
      rw [drop_append]
      exact mem_append_left _ hu
    | noted info hinfo hI hA => exact .noted info hinfo hI hA
    | result r hr hhandle hhash hA info hinfo hI =>
      rw [hresults] at hr
      rcases hr with _ | ⟨_, hr⟩
      · -- the call is among those for the result
        obtain ⟨e, he, hurl, hA⟩ := hA
        refine .updated ⟨h, first.torrentHandle, e, info⟩ ?_ rfl hhandle hurl hA hI
        rw [drop_append_of_le_length hsince]
        refine mem_append_right _ ?_
        rw [hhash, bind_some, ht]
        refine mem_filterMap.2 ⟨e, he, ?_⟩
        rw [hurl, hinfo]
        rfl
      · exact .result r hr hhandle hhash hA info hinfo hI

end

end Carried

namespace Owed

variable {s s' : SessionImpl} {h : ℕ} {url : String} {A : AnnounceEntry → Prop}
  {I : UpdateInfo → Prop} {since : ℕ}

section

variable (ho : Owed s h url A I since)

include ho

theorem of_torrent (htorrent : ∀ id, s.torrents.lookup id = some ⟨h, false⟩ →
      s'.torrents.lookup id = some ⟨h, false⟩) (hnative : s'.native.lookup h = s.native.lookup h)
    (hcarried : ∀ id n, s.torrents.lookup id = some ⟨h, false⟩ → s.native.lookup h = some n →
      n.infoHash = id → HasEntry n.trackers url A → Carried s id h url A I since →
        Carried s' id h url A I since) (hupdates : s.updates.length ≤ s'.updates.length) :
    Owed s' h url A I since := by
  obtain ⟨⟨id, ht, ⟨n, hn, hhash, hA⟩, hc⟩, hsince⟩ := ho
  exact ⟨⟨id, htorrent id ht, ⟨n, hnative.trans hn, hhash, hA⟩, hcarried id n ht hn hhash hA hc⟩,
    hsince.trans hupdates⟩

theorem readTrackers : Owed s.readTrackers h url A I since := by
  have hsame : s.readTrackers.torrents = s.torrents ∧ s.readTrackers.native = s.native ∧
      s.readTrackers.updates = s.updates := by
    rw [SessionImpl.readTrackers]
    cases s.tasks <;> exact ⟨rfl, rfl, rfl⟩
  obtain ⟨htorrents, hnative, hupdates⟩ := hsame
  exact ho.of_torrent (fun id ht => by rwa [htorrents]) (by rw [hnative])
    (fun id n _ hn _ hA hc => hc.readTrackers hn hA) (by rw [hupdates])

theorem takeUpdates : Owed s.takeUpdates h url A I since := by
  have hsame : s.takeUpdates.torrents = s.torrents ∧ s.takeUpdates.native = s.native ∧
      s.takeUpdates.updates = s.updates := by
    rw [SessionImpl.takeUpdates]
    cases s.running <;> exact ⟨rfl, rfl, rfl⟩
  obtain ⟨htorrents, hnative, hupdates⟩ := hsame
  exact ho.of_torrent (fun id ht => by rwa [htorrents]) (by rw [hnative])
    (fun id n _ hn hhash _ hc => hc.takeUpdates hn hhash) (by rw [hupdates])

theorem handleResult : Owed s.handleResult h url A I since := by
  have hsame : s.handleResult.torrents = s.torrents ∧ s.handleResult.native = s.native ∧
      s.updates.length ≤ s.handleResult.updates.length := by
    rw [SessionImpl.handleResult]
    cases s.results with
    | nil => exact ⟨rfl, rfl, le_rfl⟩
    | cons r results => exact ⟨rfl, rfl, by simp⟩
  obtain ⟨htorrents, hnative, hupdates⟩ := hsame
  exact ho.of_torrent (fun id ht => by rwa [htorrents]) (by rw [hnative])
    (fun id n ht _ _ _ hc => hc.handleResult ho.since_le ht) hupdates

theorem changeTracker (hmono : ∀ e : AnnounceEntry, A e → A { e with changes := e.changes + 1 })
    (h' : ℕ) (url' : String) : Owed (s.changeTracker h' url') h url A I since := by
  obtain ⟨⟨id, ht, ⟨n, hn, hhash, e, he, hurl, hA⟩, hc⟩, hsince⟩ := ho
  rw [SessionImpl.changeTracker]
  cases hn' : s.native.lookup h' with
  | none => exact ⟨⟨id, ht, ⟨n, hn, hhash, e, he, hurl, hA⟩, hc⟩, hsince⟩
  | some n' =>
    refine ⟨⟨id, ht, ?_, hc.congr rfl rfl rfl rfl⟩, hsince⟩
    rw [lookup_insert_eq]
    split_ifs with heq
    · subst heq
      cases hn.symm.trans hn'
      refine ⟨_, rfl, hhash, _, mem_map_of_mem he, ?_⟩
      split_ifs
      · exact ⟨hurl, hmono e hA⟩
      · exact ⟨hurl, hA⟩
    · exact ⟨n, hn, hhash, e, he, hurl, hA⟩

theorem other (htorrent : ∀ id, s.torrents.lookup id = some ⟨h, false⟩ →
      s'.torrents.lookup id = some ⟨h, false⟩) (hnative : s'.native.lookup h = s.native.lookup h)
    (hupdates : s'.updates = s.updates) (hresults : s'.results = s.results)
    (hrunning : s'.running = s.running)
    (hnotes : s'.updatedTrackerStatuses = s.updatedTrackerStatuses) : Owed s' h url A I since :=
  ho.of_torrent htorrent hnative
    (fun _ _ _ _ _ _ hc => hc.congr hupdates hresults hrunning hnotes) (by rw [hupdates])

end

end Owed

theorem Inv.updated {s : SessionImpl} (hs : Inv s) (hd : Drained s) : Updated s where
  alerts h url changes halerted := by
    obtain ⟨u, hu, htorrent, hhandle, hurl, hA, -⟩ :=
      (hs.alerts h url changes halerted).updated hs.toScheduled hd
    exact ⟨u, ⟨mem_of_mem_drop hu, htorrent, hhandle, hurl⟩, hA⟩
  reports h url key r hreported := by
    obtain ⟨u, hu, htorrent, hhandle, hurl, -, hI⟩ :=
      (hs.reports h url key r hreported).updated hs.toScheduled hd
    exact ⟨u, hu, htorrent, hhandle, hurl, hI⟩

section alert

variable {s : SessionImpl} {h : ℕ} {url endpoint : String} {changes : ℕ} {reply : Option (ℕ × ℕ)}
  {torrent : TorrentImpl} {A : AnnounceEntry → Prop} {I : UpdateInfo → Prop}

theorem handleTrackerAlert_of_some (ht : s.torrentOf h = some torrent)
    (hhandle : torrent.nativeHandle = h) :
    s.handleTrackerAlert h url endpoint changes reply =
      { (if torrent.isStopped then s else s.recorded h url endpoint changes reply) with
        updatedTrackerStatuses :=
          s.updatedTrackerStatuses.insert h (s.noted h url endpoint reply)
        tasks := if h ∈ s.updatedTrackerStatuses then s.tasks else s.tasks ++ [h] } := by
  rw [handleTrackerAlert, ht]
  subst hhandle
  rfl

/-- What an alert leaves as it is. -/
structure SameButNotes (s s' : SessionImpl) : Prop where
  torrents : s'.torrents = s.torrents
  native : s'.native = s.native
  nextHandle : s'.nextHandle = s.nextHandle
  updates : s'.updates = s.updates
  results : s'.results = s.results
  running : s'.running = s.running

theorem sameButNotes_handleTrackerAlert :
    SameButNotes s (s.handleTrackerAlert h url endpoint changes reply) := by
  rw [handleTrackerAlert]
  cases s.torrentOf h with
  | none => exact ⟨rfl, rfl, rfl, rfl, rfl, rfl⟩
  | some torrent =>
    dsimp only
    split_ifs <;> exact ⟨rfl, rfl, rfl, rfl, rfl, rfl⟩

theorem noteOf_handleTrackerAlert (ht : s.torrentOf h = some torrent)
    (hhandle : torrent.nativeHandle = h) (h' : ℕ) (url' : String) :
    (s.handleTrackerAlert h url endpoint changes reply).noteOf h' url' =
      if h' = h ∧ url' = url then some (addReply endpoint reply ((s.noteOf h url).getD ∅))
      else s.noteOf h' url' := by
  rw [handleTrackerAlert_of_some ht hhandle]
  change ((s.updatedTrackerStatuses.insert h _).lookup h').bind _ = _
  rw [lookup_insert_eq]
  by_cases he : h' = h
  · rw [if_pos he, bind_some, lookup_noted, he]
    simp only [true_and]
  · rw [if_neg he, if_neg fun h => he h.1]
    rfl

theorem Owed.handleTrackerAlert {h' : ℕ} {url' : String} {since : ℕ} (ho : Owed s h' url' A I since)
    (ht : s.torrentOf h = some torrent) (hhandle : torrent.nativeHandle = h)
    (hI : h' = h → url' = url → ∀ info, I info → I (addReply endpoint reply info)) :
    Owed (s.handleTrackerAlert h url endpoint changes reply) h' url' A I since := by
  have hsame : SameButNotes s (s.handleTrackerAlert h url endpoint changes reply) :=
    sameButNotes_handleTrackerAlert
  refine ho.of_torrent (fun id ht => by rwa [hsame.torrents]) (by rw [hsame.native])
    (fun id n _ _ _ _ hc => hc.extend hsame.updates hsame.results hsame.running
      fun info hinfo hinfoI => ?_) (by rw [hsame.updates])
  rw [noteOf_handleTrackerAlert ht hhandle]
  split_ifs with he
  · obtain ⟨rfl, rfl⟩ := he
    exact ⟨_, rfl, by rw [hinfo]; exact hI rfl rfl info hinfoI⟩
  · exact ⟨info, hinfo, hinfoI⟩

theorem owed_alert (hs : Scheduled s) (ht : s.torrentOf h = some torrent)
    (hstopped : torrent.isStopped = false)
    (hp : s.Possible (.trackerAlert h url endpoint changes reply))
    (htime : InTime s (.trackerAlert h url endpoint changes reply))
    (hA : ∀ e : AnnounceEntry, changes ≤ e.changes → A e)
    (hI : ∀ info, I (addReply endpoint reply info)) {since : ℕ}
    (hsince : since ≤ s.updates.length) :
    Owed (s.handleTrackerAlert h url endpoint changes reply) h url A I since := by
  have hsame : SameButNotes s (s.handleTrackerAlert h url endpoint changes reply) :=
    sameButNotes_handleTrackerAlert
  have hentry : ∀ trackers, Changed trackers url changes → HasEntry trackers url A :=
    fun trackers ⟨e, he, hurl, hchanges⟩ => ⟨e, he, hurl, hA e hchanges⟩
  obtain ⟨hhandle, n, hn, hlookup⟩ := torrentOf_eq_some hs ht
  refine ⟨⟨n.infoHash, ?_, ⟨n, ?_, rfl, hentry _ (hp n hn)⟩, ?_⟩, by rwa [hsame.updates]⟩
  · rw [hsame.torrents, hlookup, ← hhandle, ← hstopped]
  · rw [hsame.native, hn]
  · refine .noted _ ?_ (hI ((s.noteOf h url).getD ∅)) fun trackers hrunning => hentry _ ?_
    · rw [noteOf_handleTrackerAlert ht hhandle, if_pos ⟨rfl, rfl⟩]
    · rw [hsame.running] at hrunning
      exact htime ⟨torrent, ht, hstopped⟩ (h, trackers) hrunning rfl

theorem lookup_addReply_of_ne {key : String × ℕ} {info : UpdateInfo}
    (hkey : ∀ p ∈ reply, key ≠ (endpoint, p.1)) :
    (addReply endpoint reply info).lookup key = info.lookup key := by
  cases reply with
  | none => rfl
  | some p => exact lookup_insert_of_ne _ (hkey p rfl)

theorem Scheduled.handleTrackerAlert (hs : Scheduled s) (ht : s.torrentOf h = some torrent) :
    Scheduled (s.handleTrackerAlert h url endpoint changes reply) := by
  have hsame : SameButNotes s (s.handleTrackerAlert h url endpoint changes reply) :=
    sameButNotes_handleTrackerAlert
  obtain ⟨hhandle, n, hn, -⟩ := torrentOf_eq_some hs ht
  have hstep : s.handleTrackerAlert h url endpoint changes reply = _ :=
    handleTrackerAlert_of_some ht hhandle
  have hnotes : ∀ h', ((s.handleTrackerAlert h url endpoint changes
      reply).updatedTrackerStatuses.lookup h').isSome →
        h' = h ∨ (s.updatedTrackerStatuses.lookup h').isSome := by
    intro h' hsome
    rw [hstep] at hsome
    rw [lookup_insert_eq] at hsome
    split_ifs at hsome with he
    · exact .inl he
    · exact .inr hsome
  refine ⟨?_, ?_, fun h' hsome => ?_, fun h' hin hsome => ?_⟩
  · rw [hsame.torrents, hsame.native]
    exact hs.live
  · rw [hsame.torrents, hsame.native]
    exact hs.owned
  · rw [hsame.native] at hsome
    rw [hsame.nextHandle]
    rcases hsome with hin | hnote
    · exact hs.bounded h' (.inl hin)
    · rcases hnotes h' hnote with rfl | hnote
      · exact hs.bounded h' (.inl (by rw [hn]; rfl))
      · exact hs.bounded h' (.inr hnote)
  · rw [hsame.native] at hin
    rw [hsame.running, hstep]
    by_cases hnoted : h ∈ s.updatedTrackerStatuses
    · rw [if_pos hnoted]
      refine hs.task h' hin ?_
      rcases hnotes h' hsome with rfl | hnote
      · exact (mem_iff_isSome _ _).1 hnoted
      · exact hnote
    · rw [if_neg hnoted]
      rcases hnotes h' hsome with rfl | hnote
      · exact .inl (mem_append_right _ (mem_singleton_self _))
      · exact (hs.task h' hin hnote).imp_left (mem_append_left _)

theorem Inv.handleTrackerAlert (hs : Inv s)
    (hp : s.Possible (.trackerAlert h url endpoint changes reply))
    (htime : InTime s (.trackerAlert h url endpoint changes reply)) :
    Inv (s.handleTrackerAlert h url endpoint changes reply) := by
  cases ht : s.torrentOf h with
  | none =>
    rw [SessionImpl.handleTrackerAlert, ht]
    exact hs
  | some torrent =>
    obtain ⟨hhandle, n, hn, hlookup⟩ := torrentOf_eq_some hs.toScheduled ht
    have hstep : s.handleTrackerAlert h url endpoint changes reply = _ :=
      handleTrackerAlert_of_some ht hhandle
    refine ⟨hs.toScheduled.handleTrackerAlert ht, fun h' url' changes' halerted => ?_,
      fun h' url' key r hreported => ?_⟩
    · have hold : ∀ _ : _, Owed (s.handleTrackerAlert h url endpoint changes reply) h' url' _ _ _ :=
        fun ha => (hs.alerts h' url' changes' ha).handleTrackerAlert ht hhandle
          fun _ _ _ _ => trivial
      rw [hstep] at halerted
      cases hstopped : torrent.isStopped with
      | true =>
        rw [hstopped] at halerted
        exact hold halerted
      | false =>
        rw [hstopped] at halerted
        change (if h' = h ∧ url' = url then some changes else s.alerted h' url') = _ at halerted
        split_ifs at halerted with he
        · obtain ⟨rfl, rfl⟩ := he
          cases halerted
          exact owed_alert hs.toScheduled ht hstopped hp htime (fun _ he => he)
            (fun _ => trivial) (Nat.zero_le _)
        · exact hold halerted
    · rw [hstep] at hreported
      -- a report that is not superseded is left in the note
      have hold : (h' = h → url' = url → ∀ p ∈ reply, key ≠ (endpoint, p.1)) →
          s.reported h' url' key = some r →
          Owed (s.handleTrackerAlert h url endpoint changes reply) h' url' (fun _ => True)
            (fun info => info.lookup key = some r.numPeers) r.since := fun hkey hr =>
        (hs.reports h' url' key r hr).handleTrackerAlert ht hhandle fun hh hu info hinfo => by
          rwa [lookup_addReply_of_ne (hkey hh hu)]
      cases hstopped : torrent.isStopped with
      | true =>
        rw [hstopped] at hreported
        refine hold (fun hh _ => ?_) hreported
        -- nothing is owed to a torrent that is stopped
        obtain ⟨id, ht', ⟨n', hn', hhash, -⟩, -⟩ :=
          (hs.reports h' url' key r hreported).exists_torrent
        rw [hh] at ht' hn'
        cases hn.symm.trans hn'
        rw [hhash, ht'] at hlookup
        cases hlookup
        cases hstopped
      | false =>
        rw [hstopped] at hreported
        cases reply with
        | none => exact hold (fun _ _ _ hnone => by cases hnone) hreported
        | some p =>
          change (if h' = h ∧ url' = url ∧ key = (endpoint, p.1) then some _
            else s.reported h' url' key) = _ at hreported
          split_ifs at hreported with he
          · obtain ⟨rfl, rfl, rfl⟩ := he
            cases hreported
            exact owed_alert hs.toScheduled ht hstopped hp htime (fun _ _ => trivial)
              (fun info => lookup_insert _) le_rfl
          · refine hold (fun hh hu p' hp' => ?_) hreported
            cases hp'
            exact fun hkey => he ⟨hh, hu, hkey⟩

end alert

namespace Inv

variable {s : SessionImpl} {id : Digest}

theorem readTrackers (hs : Inv s) (hp : s.Possible .readTrackers) : Inv s.readTrackers := by
  have hrunning : s.running = none := hp
  refine ⟨?_, fun h url changes ha => ?_, fun h url key r hr => ?_⟩
  · rw [SessionImpl.readTrackers]
    cases htasks : s.tasks with
    | nil => exact hs.toScheduled
    | cons first tasks =>
      refine { hs with task := fun h hin hnoted => ?_ }
      obtain htask | ⟨trackers, hrun⟩ := hs.task h hin hnoted
      · rw [htasks] at htask
        rcases htask with _ | ⟨_, htask⟩
        · obtain ⟨n, hn⟩ := isSome_iff_exists.1 hin
          exact .inr ⟨n.trackers, by dsimp only at hn ⊢; rw [hn]; rfl⟩
        · exact .inl htask
      · rw [hrunning] at hrun
        cases hrun
  · refine (hs.alerts h url changes ?_).readTrackers
    rw [← ha, SessionImpl.readTrackers]
    cases s.tasks <;> rfl
  · refine (hs.reports h url key r ?_).readTrackers
    rw [← hr, SessionImpl.readTrackers]
    cases s.tasks <;> rfl

theorem takeUpdates (hs : Inv s) : Inv s.takeUpdates := by
  refine ⟨?_, fun h url changes ha => ?_, fun h url key r hr => ?_⟩
  · rw [SessionImpl.takeUpdates]
    cases hrunning : s.running with
    | none => exact hs.toScheduled
    | some task =>
      obtain ⟨h₀, trackers⟩ := task
      have hnote : ∀ h, ((s.updatedTrackerStatuses.erase h₀).lookup h).isSome →
          h ≠ h₀ ∧ (s.updatedTrackerStatuses.lookup h).isSome := by
        intro h hsome
        rw [lookup_erase_eq] at hsome
        split_ifs at hsome with he
        · cases hsome
        · exact ⟨he, hsome⟩
      refine ⟨hs.live, hs.owned, fun h hsome => hs.bounded h (hsome.imp_right fun h' =>
        (hnote h h').2), fun h hin hnoted => ?_⟩
      obtain ⟨hne, hnoted⟩ := hnote h hnoted
      obtain htask | ⟨trackers', hrun⟩ := hs.task h hin hnoted
      · exact .inl htask
      · rw [hrunning] at hrun
        cases hrun
        exact absurd rfl hne
  · refine (hs.alerts h url changes ?_).takeUpdates
    rw [← ha, SessionImpl.takeUpdates]
    cases s.running <;> rfl
  · refine (hs.reports h url key r ?_).takeUpdates
    rw [← hr, SessionImpl.takeUpdates]
    cases s.running <;> rfl

theorem handleResult (hs : Inv s) : Inv s.handleResult := by
  refine ⟨?_, fun h url changes ha => ?_, fun h url key r hr => ?_⟩
  · rw [SessionImpl.handleResult]
    cases s.results with
    | nil => exact hs.toScheduled
    | cons r results => exact { hs with }
  · refine (hs.alerts h url changes ?_).handleResult
    rw [← ha, SessionImpl.handleResult]
    cases s.results <;> rfl
  · refine (hs.reports h url key r ?_).handleResult
    rw [← hr, SessionImpl.handleResult]
    cases s.results <;> rfl

theorem changeTracker (hs : Inv s) (h : ℕ) (url : String) : Inv (s.changeTracker h url) := by
  refine ⟨?_, fun h' url' changes ha => ?_, fun h' url' key r hr => ?_⟩
  · rw [SessionImpl.changeTracker]
    cases hn : s.native.lookup h with
    | none => exact hs.toScheduled
    | some n =>
      -- the torrents of libtorrent have the hashes that they had
      have hhash : ∀ h' n', (s.native.insert h
          { n with
            trackers := n.trackers.map fun e =>
              if e.url = url then { e with changes := e.changes + 1 } else e }).lookup h' = some n' →
            ∃ n'', s.native.lookup h' = some n'' ∧ n''.infoHash = n'.infoHash := by
        intro h' n' hn'
        rw [lookup_insert_eq] at hn'
        split_ifs at hn' with he
        · cases hn'
          exact ⟨n, he ▸ hn, rfl⟩
        · exact ⟨n', hn', rfl⟩
      have hin : ∀ h', ((s.native.insert h _).lookup h').isSome →
          (s.native.lookup h').isSome := fun h' hsome => by
        obtain ⟨n', hn'⟩ := isSome_iff_exists.1 hsome
        obtain ⟨n'', hn'', -⟩ := hhash h' n' hn'
        rw [hn'']
        rfl
      refine ⟨fun id t ht => ?_, fun h' n' hn' => ?_, fun h' hsome => hs.bounded h'
        (hsome.imp_left (hin h')), fun h' hsome => hs.task h' (hin h' hsome)⟩
      · obtain ⟨n', hn', hid⟩ := hs.live id t ht
        rw [lookup_insert_eq]
        split_ifs with he
        · rw [he, hn] at hn'
          cases hn'
          exact ⟨_, rfl, hid⟩
        · exact ⟨n', hn', hid⟩
      · obtain ⟨n'', hn'', he⟩ := hhash h' n' hn'
        rw [← he]
        exact hs.owned h' n'' hn''
  · refine (hs.alerts h' url' changes ?_).changeTracker (fun e he => he.trans (Nat.le_succ _)) h url
    rw [← ha, SessionImpl.changeTracker]
    cases s.native.lookup h <;> rfl
  · refine (hs.reports h' url' key r ?_).changeTracker (fun _ _ => trivial) h url
    rw [← hr, SessionImpl.changeTracker]
    cases s.native.lookup h <;> rfl

theorem of_others (hs : Inv s) {s' : SessionImpl} (hscheduled : Scheduled s') (keep : ℕ → Prop)
    (halerted : ∀ h url, keep h ∧ s'.alerted h url = s.alerted h url ∨ s'.alerted h url = none)
    (hreported : ∀ h url key,
      keep h ∧ s'.reported h url key = s.reported h url key ∨ s'.reported h url key = none)
    (htorrent : ∀ h id, keep h → s.torrents.lookup id = some ⟨h, false⟩ →
      s'.torrents.lookup id = some ⟨h, false⟩)
    (hnative : ∀ h, keep h → (s.native.lookup h).isSome →
      s'.native.lookup h = s.native.lookup h)
    (hupdates : s'.updates = s.updates) (hresults : s'.results = s.results)
    (hrunning : s'.running = s.running)
    (hnotes : s'.updatedTrackerStatuses = s.updatedTrackerStatuses) : Inv s' := by
  have hother : ∀ {h url A I since}, keep h → Owed s h url A I since →
      Owed s' h url A I since := by
    intro h url A I since hk ho
    obtain ⟨id, -, ⟨n, hn, -⟩, -⟩ := ho.exists_torrent
    exact ho.other (fun id => htorrent h id hk) (hnative h hk (by rw [hn]; rfl)) hupdates hresults
      hrunning hnotes
  refine ⟨hscheduled, fun h url changes ha => ?_, fun h url key r hr => ?_⟩
  · obtain ⟨hk, he⟩ | hnone := halerted h url
    · exact hother hk (hs.alerts h url changes (he.symm.trans ha))
    · rw [hnone] at ha
      cases ha
  · obtain ⟨hk, he⟩ | hnone := hreported h url key
    · exact hother hk (hs.reports h url key r (he.symm.trans hr))
    · rw [hnone] at hr
      cases hr

theorem alerted_reset (s : SessionImpl) (h₀ h : ℕ) (url : String) :
    h ≠ h₀ ∧ (s.resetTrackerEntryStatuses h₀).alerted h url = s.alerted h url ∨
      (s.resetTrackerEntryStatuses h₀).alerted h url = none := by
  simp only [resetTrackerEntryStatuses]
  by_cases he : h = h₀
  · exact .inr (by rw [if_pos he])
  · exact .inl ⟨he, by rw [if_neg he]⟩

theorem reported_reset (s : SessionImpl) (h₀ h : ℕ) (url : String) (key : String × ℕ) :
    h ≠ h₀ ∧ (s.resetTrackerEntryStatuses h₀).reported h url key = s.reported h url key ∨
      (s.resetTrackerEntryStatuses h₀).reported h url key = none := by
  simp only [resetTrackerEntryStatuses]
  by_cases he : h = h₀
  · exact .inr (by rw [if_pos he])
  · exact .inl ⟨he, by rw [if_neg he]⟩

theorem reset (hs : Inv s) (id : Digest) : Inv (s.reset id) := by
  rw [SessionImpl.reset]
  cases s.torrents.lookup id with
  | none => exact hs
  | some t =>
    exact hs.of_others { hs with } (· ≠ t.nativeHandle)
      (alerted_reset s _) (reported_reset s _) (fun _ _ _ ht => ht) (fun _ _ _ => rfl) rfl rfl rfl
      rfl

theorem scheduled_insert (hs : Scheduled s) {t : TorrentImpl} (ht : s.torrents.lookup id = some t)
    (isStopped : Bool) :
    Scheduled { s with torrents := s.torrents.insert id { t with isStopped := isStopped } } := by
  refine ⟨fun id' t' ht' => ?_, fun h n hn => ?_, hs.bounded, hs.task⟩
  · rw [lookup_insert_eq] at ht'
    split_ifs at ht' with he
    · cases ht'
      exact he ▸ hs.live id t ht
    · exact hs.live id' t' ht'
  · obtain ⟨t', ht', hh⟩ := hs.owned h n hn
    rw [lookup_insert_eq]
    split_ifs with he
    · rw [he, ht] at ht'
      cases ht'
      exact ⟨_, rfl, hh⟩
    · exact ⟨t', ht', hh⟩

theorem stop (hs : Inv s) (id : Digest) : Inv (s.stop id) := by
  rw [SessionImpl.stop]
  cases ht : s.torrents.lookup id with
  | none => exact hs
  | some t =>
    have hscheduled := scheduled_insert hs.toScheduled ht true
    refine hs.of_others ⟨hscheduled.live, hscheduled.owned, hs.bounded, hs.task⟩
      (· ≠ t.nativeHandle) (alerted_reset s _) (reported_reset s _) (fun h id' hk ht' => ?_)
      (fun _ _ _ => rfl) rfl rfl rfl rfl
    rw [lookup_insert_eq, if_neg, ht']
    rintro rfl
    rw [ht] at ht'
    cases ht'
    exact hk rfl

theorem start (hs : Inv s) (id : Digest) : Inv (s.start id) := by
  rw [SessionImpl.start]
  cases ht : s.torrents.lookup id with
  | none => exact hs
  | some t =>
    refine hs.of_others (scheduled_insert hs.toScheduled ht false) (fun _ => True)
      (fun _ _ => .inl ⟨trivial, rfl⟩) (fun _ _ _ => .inl ⟨trivial, rfl⟩) (fun h id' _ ht' => ?_)
      (fun _ _ _ => rfl) rfl rfl rfl rfl
    rw [lookup_insert_eq]
    split_ifs with he
    · rw [he, ht] at ht'
      cases ht'
      rfl
    · exact ht'

theorem removeTorrent (hs : Inv s) (id : Digest) : Inv (s.removeTorrent id) := by
  rw [SessionImpl.removeTorrent]
  cases ht : s.torrents.lookup id with
  | none => exact hs
  | some t =>
    obtain ⟨n, hn, hid⟩ := hs.live id t ht
    have hlookup : ∀ h, ((s.native.erase t.nativeHandle).lookup h).isSome →
        h ≠ t.nativeHandle ∧ (s.native.lookup h).isSome := by
      intro h hsome
      rw [lookup_erase_eq] at hsome
      split_ifs at hsome with he
      · cases hsome
      · exact ⟨he, hsome⟩
    refine hs.of_others ⟨fun id' t' ht' => ?_, fun h n' hn' => ?_, fun h hsome => hs.bounded h
      (hsome.imp_left fun h' => (hlookup h h').2), fun h hsome => hs.task h (hlookup h hsome).2⟩
      (· ≠ t.nativeHandle) (alerted_reset s _) (reported_reset s _) (fun h id' hk ht' => ?_)
      (fun h hk _ => lookup_erase_ne hk) rfl rfl rfl rfl
    · rw [lookup_erase_eq] at ht'
      split_ifs at ht' with he
      obtain ⟨n', hn', hid'⟩ := hs.live id' t' ht'
      refine ⟨n', ?_, hid'⟩
      rw [lookup_erase_ne, hn']
      intro hh
      rw [hh, hn] at hn'
      cases hn'
      exact he (hid'.symm.trans hid)
    · rw [lookup_erase_eq] at hn'
      split_ifs at hn' with he
      obtain ⟨t', ht', hh⟩ := hs.owned h n' hn'
      refine ⟨t', ?_, hh⟩
      rw [lookup_erase_ne, ht']
      intro hid'
      rw [hid', ht] at ht'
      cases ht'
      exact he hh.symm
    · rw [lookup_erase_ne, ht']
      rintro rfl
      rw [ht] at ht'
      cases ht'
      exact hk rfl

theorem addTorrent (hs : Inv s) (hid : id ∉ s.torrents) (trackers : List String)
    (isStopped : Bool) : Inv (s.addTorrent id trackers isStopped) := by
  have hnone : s.torrents.lookup id = none := lookup_eq_none.2 hid
  have hnew : ∀ h, h ≠ s.nextHandle ∧ (s.native.insert s.nextHandle
      ⟨id, trackers.map fun url => { url := url }⟩).lookup h = s.native.lookup h ∨
        h = s.nextHandle := fun h => by
    by_cases he : h = s.nextHandle
    · exact .inr he
    · exact .inl ⟨he, lookup_insert_of_ne _ he⟩
  refine hs.of_others ⟨fun id' t' ht' => ?_, fun h n hn => ?_, fun h hsome => ?_,
    fun h hin hnoted => ?_⟩ (· ≠ s.nextHandle) (fun h url => ?_) (fun h url key => ?_)
    (fun h id' _ ht' => ?_) (fun h hk _ => lookup_insert_of_ne _ hk) rfl rfl rfl rfl
  · dsimp only [SessionImpl.addTorrent] at ht' ⊢
    rw [lookup_insert_eq] at ht'
    split_ifs at ht' with he
    · cases ht'
      exact ⟨_, lookup_insert _, he.symm⟩
    · obtain ⟨n, hn, hid'⟩ := hs.live id' t' ht'
      refine ⟨n, ?_, hid'⟩
      rw [lookup_insert_of_ne, hn]
      exact (hs.bounded _ (.inl (by rw [hn]; rfl))).ne
  · dsimp only [SessionImpl.addTorrent] at hn ⊢
    rw [lookup_insert_eq] at hn
    split_ifs at hn with he
    · cases hn
      exact ⟨_, lookup_insert _, he.symm⟩
    · obtain ⟨t', ht', hh⟩ := hs.owned h n hn
      refine ⟨t', ?_, hh⟩
      rw [lookup_insert_of_ne, ht']
      intro hid'
      rw [hid', hnone] at ht'
      cases ht'
  · change h < s.nextHandle + 1
    obtain ⟨-, he⟩ | he := hnew h
    · exact Nat.lt_succ_of_lt (hs.bounded h (hsome.imp_left fun h' => he ▸ h'))
    · omega
  · obtain ⟨-, he⟩ | he := hnew h
    · exact hs.task h (he ▸ hin) hnoted
    · exact absurd (hs.bounded h (.inr hnoted)) (by omega)
  · cases ha : s.alerted h url with
    | none => exact .inr ha
    | some changes =>
      obtain ⟨id', -, ⟨n, hn, -⟩, -⟩ := (hs.alerts h url changes ha).exists_torrent
      exact .inl ⟨(hs.bounded h (.inl (by rw [hn]; rfl))).ne, ha⟩
  · cases hr : s.reported h url key with
    | none => exact .inr hr
    | some r =>
      obtain ⟨id', -, ⟨n, hn, -⟩, -⟩ := (hs.reports h url key r hr).exists_torrent
      exact .inl ⟨(hs.bounded h (.inl (by rw [hn]; rfl))).ne, hr⟩
  · dsimp only [SessionImpl.addTorrent]
    rw [lookup_insert_of_ne, ht']
    intro hid'
    rw [hid', hnone] at ht'
    cases ht'

theorem init : Inv {} where
  live id t ht := by cases ht
  owned h n hn := by cases hn
  bounded h hsome := by rcases hsome with h' | h' <;> cases h'
  task h hin := by cases hin
  alerts h url changes ha := by cases ha
  reports h url key r hr := by cases hr

theorem next (hs : Inv s) (e : TrackerEvent) (hp : s.Possible e) (htime : InTime s e) :
    Inv (s.next e) := by
  cases e with
  | addTorrent id trackers isStopped => exact hs.addTorrent hp trackers isStopped
  | removeTorrent id => exact hs.removeTorrent id
  | stop id => exact hs.stop id
  | start id => exact hs.start id
  | reset id => exact hs.reset id
  | changeTracker h url => exact hs.changeTracker h url
  | trackerAlert h url endpoint changes reply => exact hs.handleTrackerAlert hp htime
  | readTrackers => exact hs.readTrackers hp
  | takeUpdates => exact hs.takeUpdates
  | handleResult => exact hs.handleResult

end Inv

/-- **No update of a tracker is lost in time.**  In a run in which no alert is handled between the two
halves of a task that has read an older announce entry, whenever no task and no result is left each
tracker with an alert has been updated with an announce entry that is as recent, and with the numbers
of peers that were reported. -/
theorem updated_of_inTime (es : List TrackerEvent) (htime : machine.Meets InTime {} es) :
    machine.Always (fun s => Drained s → Updated s) {} es :=
  Machine.guarded_always Inv.init (fun _ hs hd => hs.updated hd)
    (fun _ e hs hp htime => hs.next e hp htime) htime

/-- A reply of a tracker, and the task for it. -/
theorem updated_of_inTime_reply :
    machine.Always (fun s => Drained s → Updated s) {}
      [.addTorrent 1 ["u"] false, .changeTracker 0 "u", .trackerAlert 0 "u" "e" 1 (some (1, 5)),
        .readTrackers, .takeUpdates, .handleResult] :=
  updated_of_inTime _ (by decide)

/-- The announce entry changes again, and the alert is handled, between the halves of the task. -/
def lateRun : List TrackerEvent :=
  [.addTorrent 1 ["u"] false, .changeTracker 0 "u", .trackerAlert 0 "u" "e" 1 none,
    .readTrackers, .changeTracker 0 "u", .trackerAlert 0 "u" "e" 2 none, .takeUpdates,
    .handleResult]

/-- The tracker is updated with the announce entry from before only. -/
theorem lateRun_not_updated :
    (machine.run {} lateRun).isSome = true ∧
      ¬machine.Always (fun s => Drained s → Updated s) {} lateRun := by
  refine ⟨by decide, fun h => ?_⟩
  obtain ⟨s, hs⟩ : ∃ s, machine.run {} lateRun = some s := isSome_iff_exists.1 (by decide)
  have hend : ∀ s ∈ machine.run {} lateRun, s.tasks = [] ∧ s.running = none ∧
      s.results.length = 0 ∧ s.alerted 0 "u" = some 2 ∧
        ∀ u ∈ s.updates, u.announceEntry.changes = 1 := by decide
  obtain ⟨htasks, hrunning, hresults, halerted, hold⟩ := hend s hs
  have hupdated := h.at_end hs ⟨htasks, hrunning, length_eq_zero_iff.1 hresults⟩
  obtain ⟨u, ⟨hu, -⟩, hchanges⟩ := hupdated.alerts 0 "u" 2 halerted
  rw [hold u hu] at hchanges
  omega

end QBittorrent.TrackerUpdates
