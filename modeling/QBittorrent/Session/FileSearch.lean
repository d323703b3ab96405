import QBittorrent.Lib.Machine
import QBittorrent.Session.Tables

/-!
# Searches for the files of torrents

When a torrent with metadata is added, or the metadata of a magnet link has come, the session looks
for files that are there already, with their own names or as incomplete ones.  The search runs in
another thread, and its answer names the torrent by its ID only: `fileSearchFinished` gives it to the
torrent under this ID, or else to the request to add one.  Here an answer also says who asked.

* `Inv.next` : each step whose answer is current;
* `matched_iff_current` : answers go to those who asked exactly if all are.
-/

namespace QBittorrent.FileSearch

open List Finmap Tables Option

/-! ### The search -/

/-- `operator/` of paths. -/
def joinPath (lhs rhs : String) : String :=
  if rhs = "" then lhs else if lhs = "" then rhs else lhs ++ "/" ++ rhs

/-- `QB_EXT` -/
def incompleteExt : String := ".!qB"

/-- `findInDir`: whether there is a file, and the names by which the files are known. -/
def findInDir (isFile : String → Bool) (dirPath : String) (forceAppendExt : Bool) :
    List String → Bool × List String
  | [] => (false, [])
  | fileName :: fileNames =>
    let (found, rest) := findInDir isFile dirPath forceAppendExt fileNames
    if isFile (joinPath dirPath fileName) then (true, fileName :: rest)
    else if isFile (joinPath dirPath (fileName ++ incompleteExt)) then
      (true, (fileName ++ incompleteExt) :: rest)
    else if forceAppendExt then (found, (fileName ++ incompleteExt) :: rest)
    else (found, fileName :: rest)

/-- Where the files of a torrent are looked for. -/
structure Places where
  originalFileNames : List String
  savePath : String
  downloadPath : String := ""
  /-- `isAppendExtensionEnabled()` when the search runs. -/
  forceAppendExt : Bool := false

/-- `FileSearcher::search`: the path that is used, and the names of the files. -/
def Places.search (isFile : String → Bool) (p : Places) : String × List String :=
  let (found, names) := findInDir isFile p.savePath (p.forceAppendExt && p.downloadPath = "")
    p.originalFileNames
  if ¬found ∧ p.downloadPath ≠ "" then
    (p.downloadPath, (findInDir isFile p.downloadPath p.forceAppendExt names).2)
  else (p.savePath, names)

/-! ### The session -/

/-- Who asks for a search: a request to add a torrent, or a torrent with new metadata. -/
inductive Origin where
  | adding (request : ℕ)
  | metadata (torrent : ℕ)
  deriving DecidableEq

/-- A search that `findIncompleteFiles` has asked for. -/
structure Search where
  id : Digest
  places : Places
  origin : Origin

/-- `searchFinished` -/
structure Answer where
  id : Digest
  savePath : String
  fileNames : List String
  origin : Origin
  deriving DecidableEq

/-- `LoadTorrentParams`, of a request with a number. -/
structure LoadTorrentParams where
  request : ℕ
  infoHash : InfoHash
  hasMetadata : Bool
  savePath : String
  renamedFiles : List String := []

inductive MaintenanceJob where
  | none | handleMetadata
  deriving DecidableEq

structure TorrentImpl where
  maintenanceJob : MaintenanceJob := .none
  deferredRequestResumeDataInvoked : Bool := false
  /-- The calls that `deferredRequestResumeData` has posted. -/
  posted : ℕ := 0
  /-- The `metadata_received_alert` of the torrent is still to come. -/
  awaitsMetadata : Bool := false
  savePath : String := ""
  renamedFiles : List String := []

/-- The session with the file searcher and libtorrent. -/
structure State where
  tables : Tables := {}
  /-- The parameters in `m_loadingTorrents`. -/
  loading : Dict Digest LoadTorrentParams := ∅
  /-- The torrents, by the numbers they have in `tables`. -/
  torrents : Dict ℕ TorrentImpl := ∅
  /-- The searches to be run, and the answers to be handled. -/
  searches : List Search := []
  answers : List Answer := []
  /-- The requests that libtorrent is adding. -/
  nativeAdds : List LoadTorrentParams := []
  /-- The calls of `save_resume_data`, with `save_info_dict` or without. -/
  requests : List (ℕ × Bool) := []
  /-- The alerts with resume data, with an info dictionary or without. -/
  alerts : List (ℕ × Bool) := []
  nextRequest : ℕ := 0
  /-- The requests for which `async_add_torrent` was called. -/
  issued : List ℕ := []
  /-- The torrents that have received metadata, and those that have ended to handle it. -/
  received : List ℕ := []
  ended : List ℕ := []
  /-- The answers that were used, and for whom. -/
  applications : List (Origin × Answer) := []

namespace State

variable (s : State)

/-- The state of a torrent. -/
def impl (torrent : ℕ) : TorrentImpl := (s.torrents.lookup torrent).getD {}

/-- Another state of a torrent. -/
def setImpl (torrent : ℕ) (t : TorrentImpl) : State :=
  { s with torrents := s.torrents.insert torrent t }

def asyncAddTorrent (params : LoadTorrentParams) : State :=
  { s with
    nativeAdds := s.nativeAdds ++ [params]
    issued := s.issued ++ [params.request] }

def findIncompleteFiles (id : Digest) (places : Places) (origin : Origin) : State :=
  { s with searches := s.searches ++ [⟨id, places, origin⟩] }

/-- `addTorrent_impl` -/
def addTorrent (infoHash : InfoHash) (hasMetadata hasFinishedStatus : Bool) (places : Places) :
    State :=
  match s.tables.addTorrent infoHash with
  | none => s
  | some tables =>
    let isFindingIncompleteFiles := hasMetadata && !hasFinishedStatus
    let params : LoadTorrentParams :=
      { request := s.nextRequest
        infoHash := infoHash
        hasMetadata := hasMetadata
        savePath := places.savePath
        renamedFiles :=
          if hasMetadata ∧ ¬isFindingIncompleteFiles then places.originalFileNames else [] }
    let s' : State :=
      { s with
        tables := tables
        loading := s.loading.insert infoHash.toTorrentID params
        nextRequest := s.nextRequest + 1 }
    if isFindingIncompleteFiles then
      s'.findIncompleteFiles infoHash.toTorrentID places (.adding s.nextRequest)
    else s'.asyncAddTorrent params

/-- The next search is run. -/
def search (isFile : String → Bool) : State :=
  match s.searches with
  | [] => s
  | search :: searches =>
    let (savePath, fileNames) := search.places.search isFile
    { s with
      searches := searches
      answers := s.answers ++ [⟨search.id, savePath, fileNames, search.origin⟩] }

/-- `TorrentImpl::endReceivedMetadataHandling` -/
def endReceivedMetadataHandling (torrent : ℕ) (answer : Answer) : State :=
  { s with
    ended := s.ended ++ [torrent]
    applications := s.applications ++ [(Origin.metadata torrent, answer)]
    torrents := s.torrents.insert torrent
      { s.impl torrent with
        maintenanceJob := .none
        savePath := answer.savePath
        renamedFiles := answer.fileNames } }

/-- `TorrentImpl::fileSearchFinished` -/
def torrentFileSearchFinished (torrent : ℕ) (answer : Answer) : State :=
  if (s.impl torrent).maintenanceJob = .handleMetadata then
    s.endReceivedMetadataHandling torrent answer
  else s

/-- `SessionImpl::fileSearchFinished` -/
def fileSearchFinished (answer : Answer) : State :=
  match s.tables.torrents.lookup answer.id with
  | some torrent => s.torrentFileSearchFinished torrent answer
  | none =>
    match s.loading.lookup answer.id with
    | some params =>
      let params :=
        { params with savePath := answer.savePath, renamedFiles := answer.fileNames }
      { s with
        loading := s.loading.insert answer.id params
        applications := s.applications ++ [(Origin.adding params.request, answer)] }.asyncAddTorrent params
    | none => s

/-- The next answer is handled. -/
def handleAnswer : State :=
  match s.answers with
  | [] => s
  | answer :: answers => { s with answers := answers }.fileSearchFinished answer

/-- `handleAddTorrentAlert`: libtorrent has added a torrent, which has the info-hash `current` when
the alert is handled. -/
def handleAddTorrentAlert (i : ℕ) (current : InfoHash) : State :=
  match s.nativeAdds[i]? with
  | none => s
  | some native =>
    let s' : State := { s with nativeAdds := s.nativeAdds.eraseIdx i }
    match s.loading.lookup current.toTorrentID with
    | none => s'
    | some params =>
      -- `createTorrent` requests the resume data of the torrent
      { s' with
        tables := s.tables.handleAddTorrentAlert current
        loading := s.loading.erase current.toTorrentID
        torrents := s.torrents.insert s.tables.nextTorrent
          { awaitsMetadata := !native.hasMetadata
            savePath := params.savePath
            renamedFiles := params.renamedFiles }
        requests := s.requests ++ [(s.tables.nextTorrent, true)] }

/-- `handleAddTorrentAlert` with an error. -/
def handleAddTorrentError (i : ℕ) : State :=
  match s.nativeAdds[i]? with
  | none => s
  | some native =>
    { s with
      nativeAdds := s.nativeAdds.eraseIdx i
      tables := s.tables.handleAddTorrentError native.infoHash
      loading := s.loading.erase native.infoHash.toTorrentID }

/-- `TorrentImpl::requestResumeData` -/
def requestResumeData (torrent : ℕ) (saveInfoDict : Bool) : State :=
  { s with
    requests := s.requests ++ [(torrent, saveInfoDict)]
    torrents := s.torrents.insert torrent
      { s.impl torrent with deferredRequestResumeDataInvoked := false } }

/-- `TorrentImpl::deferredRequestResumeData` -/
def deferredRequestResumeData (torrent : ℕ) : State :=
  if ¬(s.impl torrent).deferredRequestResumeDataInvoked then
    s.setImpl torrent
      { s.impl torrent with
        posted := (s.impl torrent).posted + 1
        deferredRequestResumeDataInvoked := true }
  else s

/-- A call that `deferredRequestResumeData` has posted. -/
def runDeferred (torrent : ℕ) : State :=
  (s.setImpl torrent
      { s.impl torrent with posted := (s.impl torrent).posted - 1 }).requestResumeData torrent
    ((s.impl torrent).maintenanceJob = .handleMetadata)

/-- `TorrentImpl::handleMetadataReceivedAlert`; `infoHash` is what the native torrent has now. -/
def handleMetadataReceived (infoHash : InfoHash) : State :=
  match s.tables.metadataTarget infoHash with
  | none => s
  | some torrent =>
    ({ s with
      tables := s.tables.handleMetadataReceived infoHash
      received := s.received ++ [torrent]
      torrents := s.torrents.insert torrent
        { s.impl torrent with
          maintenanceJob := .handleMetadata
          awaitsMetadata := false } } : State).deferredRequestResumeData torrent

/-- The torrent that an alert about a native torrent reaches, by the info-hash of its handle; the
handle of a torrent that was removed has none. -/
def dispatch (torrent : ℕ) : Option ℕ :=
  (s.tables.objects.lookup torrent).bind fun infoHash =>
    s.tables.torrents.lookup infoHash.toTorrentID

/-- libtorrent saves resume data, with the info dictionary if it was asked for and is known. -/
def answerSaveResumeData (torrent : ℕ) (saveInfoDict : Bool) : State :=
  { s with
    requests := s.requests.erase (torrent, saveInfoDict)
    alerts := s.alerts ++ [(torrent, saveInfoDict && !(s.impl torrent).awaitsMetadata)] }

/-- `TorrentImpl::handleSaveResumeDataAlert`; `places` come with the alert and from the torrent. -/
def handleSaveResumeDataAlert (places : Places) : State :=
  match s.alerts with
  | [] => s
  | (native, hasInfo) :: alerts =>
    let s' : State := { s with alerts := alerts }
    match s.dispatch native with
    | none => s'
    | some torrent =>
      match s.tables.objects.lookup torrent with
      | none => s'
      | some infoHash =>
        if (s.impl torrent).maintenanceJob = .handleMetadata ∧ hasInfo then
          s'.findIncompleteFiles infoHash.toTorrentID places (.metadata torrent)
        else s'

def removeTorrent (id : Digest) : State :=
  match s.tables.torrents.lookup id with
  | none => s
  | some torrent =>
    { s with
      tables := s.tables.removeTorrent id
      torrents := s.torrents.erase torrent }

/-- Something that a torrent of the session does. -/
def onTorrent (id : Digest) (f : ℕ → State) : State := (s.tables.torrents.lookup id).elim s f

end State

/-- What the session, the file searcher and libtorrent do. -/
inductive Event where
  | addTorrent (infoHash : InfoHash) (hasMetadata hasFinishedStatus : Bool) (places : Places)
  | search (isFile : String → Bool)
  | handleAnswer
  | addTorrentAlert (i : ℕ) (current : InfoHash)
  | addTorrentError (i : ℕ)
  | requestResumeData (id : Digest)
  | deferredRequestResumeData (id : Digest)
  | runDeferred (id : Digest)
  | metadataReceived (prevInfoHash infoHash : InfoHash)
  | answerSaveResumeData (torrent : ℕ) (saveInfoDict : Bool)
  | handleSaveResumeDataAlert (places : Places)
  | removeTorrent (id : Digest)

namespace State

variable (s : State)

def next : Event → State
  | .addTorrent infoHash hasMetadata hasFinishedStatus places =>
    s.addTorrent infoHash hasMetadata hasFinishedStatus places
  | .search isFile => s.search isFile
  | .handleAnswer => s.handleAnswer
  | .addTorrentAlert i current => s.handleAddTorrentAlert i current
  | .addTorrentError i => s.handleAddTorrentError i
  | .requestResumeData id => s.onTorrent id fun torrent => s.requestResumeData torrent false
  | .deferredRequestResumeData id => s.onTorrent id s.deferredRequestResumeData
  | .runDeferred id => s.onTorrent id s.runDeferred
  | .metadataReceived _ infoHash => s.handleMetadataReceived infoHash
  | .answerSaveResumeData torrent saveInfoDict => s.answerSaveResumeData torrent saveInfoDict
  | .handleSaveResumeDataAlert places => s.handleSaveResumeDataAlert places
  | .removeTorrent id => s.removeTorrent id

/-- The torrent under an ID is one that `p` holds of. -/
def Under (id : Digest) (p : TorrentImpl → Prop) : Prop :=
  ∃ torrent ∈ s.tables.torrents.lookup id, p (s.impl torrent)

instance (id : Digest) (p : TorrentImpl → Prop) [DecidablePred p] : Decidable (s.Under id p) :=
  (s.tables.torrents.lookup id).decidableExistsMem

/-- What libtorrent has added for a request, which may have become hybrid with its metadata. -/
def Adds (i : ℕ) (current : InfoHash) : Prop :=
  ∃ native ∈ s.nativeAdds[i]?, current = native.infoHash ∨
    (native.hasMetadata = false ∧ ¬native.infoHash.isHybrid = true ∧ current.isHybrid = true ∧
      native.infoHash.Shares current)

instance (i : ℕ) (current : InfoHash) : Decidable (s.Adds i current) :=
  (s.nativeAdds[i]?).decidableExistsMem

/-- What can happen: libtorrent answers what it was asked, has no two torrents with an ID in common,
and a torrent without metadata gets it once. -/
def Possible : Event → Prop
  | .addTorrentAlert i current =>
    s.Adds i current ∧ s.tables.Possible (.addTorrentAlert current)
  | .addTorrentError i => i < s.nativeAdds.length
  | .runDeferred id => s.Under id fun t => 0 < t.posted
  | .metadataReceived prevInfoHash infoHash =>
    prevInfoHash ∈ s.tables.live ∧
      s.Under prevInfoHash.toTorrentID (fun t => t.awaitsMetadata = true) ∧
      (infoHash = prevInfoHash ∨ s.tables.Possible (.metadataReceived prevInfoHash infoHash))
  | .answerSaveResumeData torrent saveInfoDict => (torrent, saveInfoDict) ∈ s.requests
  | _ => True

instance : DecidablePred s.Possible := fun e => by
  cases e <;> unfold Possible <;> infer_instance

end State

/-- The runs of the session. -/
def machine : Machine State Event := .guarded State.Possible State.next

namespace State

variable (s : State)

def pending : List (Digest × Origin) :=
  s.searches.map (fun search => (search.id, search.origin)) ++
    s.answers.map fun answer => (answer.id, answer.origin)

/-- How many answers are still to come for someone. -/
def waiting (origin : Origin) : ℕ := (s.pending.map Prod.snd).count origin

/-- Something is under way by which the metadata of a torrent will be handled. -/
def Coming (torrent : ℕ) : Prop :=
  0 < (s.impl torrent).posted ∨ (torrent, true) ∈ s.requests ∨ (torrent, true) ∈ s.alerts ∨
    0 < s.waiting (.metadata torrent)

def HandlesOnce (torrent : ℕ) : Prop :=
  ((s.impl torrent).maintenanceJob = .handleMetadata ∧ s.ended.count torrent = 0 ∧
      s.Coming torrent) ∨
    ((s.impl torrent).maintenanceJob = .none ∧ s.ended.count torrent = 1)

end State

/-- An answer is used for the one that asked; a request to add a torrent is passed to libtorrent once,
when it does not wait for an answer any more; and the metadata that a torrent has received is handled
once, or is going to be handled. -/
structure Matched (s : State) : Prop where
  applied : ∀ a ∈ s.applications, a.2.origin = a.1
  issued : ∀ r < s.nextRequest, s.issued.count r + s.waiting (.adding r) = 1
  ended : ∀ torrent, s.ended.count torrent ≤ 1
  received : ∀ id torrent, s.tables.torrents.lookup id = some torrent → torrent ∈ s.received →
    s.HandlesOnce torrent

/-- The answer is for what its ID stands for: the request is the one that is being added, and no
torrent has its ID; or the torrent is the one with the metadata.  An answer for a torrent that was
removed may also find nothing under its ID, or a torrent that does not handle metadata. -/
def Answer.Current (s : State) (answer : Answer) : Prop :=
  match answer.origin with
  | .adding request =>
    s.tables.torrents.lookup answer.id = none ∧
      (s.loading.lookup answer.id).map (·.request) = some request
  | .metadata torrent =>
    (∀ torrent' ∈ s.tables.torrents.lookup answer.id,
      torrent' = torrent ∨ (s.impl torrent').maintenanceJob = .none) ∧
    (s.tables.torrents.lookup answer.id = none → s.loading.lookup answer.id = none)

instance (s : State) (answer : Answer) : Decidable (answer.Current s) :=
  match h : answer.origin with
  | .adding request => decidable_of_iff (s.tables.torrents.lookup answer.id = none ∧
      (s.loading.lookup answer.id).map (·.request) = some request) (by rw [Answer.Current, h])
  | .metadata torrent =>
    have : Decidable (∀ torrent' ∈ s.tables.torrents.lookup answer.id,
        torrent' = torrent ∨ (s.impl torrent').maintenanceJob = .none) :=
      (s.tables.torrents.lookup answer.id).decidableForallMem
    decidable_of_iff ((∀ torrent' ∈ s.tables.torrents.lookup answer.id,
        torrent' = torrent ∨ (s.impl torrent').maintenanceJob = .none) ∧
      (s.tables.torrents.lookup answer.id = none → s.loading.lookup answer.id = none))
      (by rw [Answer.Current, h])

/-- The condition on what happens: an answer is handled while it is current. -/
def Current (s : State) : Event → Prop
  | .handleAnswer => ∀ answer ∈ s.answers.head?, answer.Current s
  | _ => True

instance (s : State) : DecidablePred (Current s) := fun e => by
  cases e <;> unfold Current <;> infer_instance

/-! ### The invariant -/

open State

/-- What holds of a torrent: a call is posted if it says so, and metadata that was received is handled
once. -/
structure TorrentInv (s : State) (torrent : ℕ) : Prop where
  posted : (s.impl torrent).deferredRequestResumeDataInvoked = true → 0 < (s.impl torrent).posted
  received : torrent ∈ s.received →
    (s.impl torrent).awaitsMetadata = false ∧ s.HandlesOnce torrent
  unreceived : torrent ∉ s.received → (s.impl torrent).maintenanceJob = .none

/-- `Matched`, with the torrents under their IDs and the answers to come under the IDs of those who
asked. -/
structure Inv (s : State) : Prop where
  keyed : s.tables.Keyed
  owned : s.tables.Owned
  loading : ∀ id, id ∈ s.loading ↔ id ∈ s.tables.loadingTorrents
  applied : ∀ a ∈ s.applications, a.2.origin = a.1
  issued : ∀ r, s.issued.count r + s.waiting (.adding r) = if r < s.nextRequest then 1 else 0
  ended : ∀ torrent, s.ended.count torrent ≤ if torrent ∈ s.received then 1 else 0
  asked : ∀ p ∈ s.pending, ∀ torrent, p.2 = .metadata torrent → torrent ∈ s.received ∧
    ∀ h, s.tables.objects.lookup torrent = some h → p.1 = h.toTorrentID
  fresh : ∀ torrent ∈ s.received, torrent < s.tables.nextTorrent
  torrents : ∀ torrent h, s.tables.objects.lookup torrent = some h → TorrentInv s torrent

theorem Inv.matched {s : State} (hs : Inv s) : Matched s := by
  refine ⟨hs.applied, fun r hr => ?_, fun torrent => ?_, fun id torrent ht hreceived => ?_⟩
  · rw [hs.issued r, if_pos hr]
  · refine (hs.ended torrent).trans ?_
    split_ifs <;> omega
  · obtain ⟨h, ho, -⟩ := hs.keyed.exist id torrent ht
    exact ((hs.torrents torrent h ho).received hreceived).2

theorem Inv.init : Inv {} := by
  refine ⟨Tables.Keyed.empty, fun torrent h ho => ?_, fun id => Iff.rfl, fun a ha => ?_,
    fun r => ?_, fun torrent => ?_, fun p hp => ?_, fun torrent ht => ?_, fun torrent h ho => ?_⟩
  · cases ho
  · cases ha
  · rfl
  · exact Nat.zero_le _
  · cases hp
  · cases ht
  · cases ho

section frames

variable {s s' : State} {torrent : ℕ}

theorem TorrentInv.congr (ht : TorrentInv s torrent)
    (hjob : (s'.impl torrent).maintenanceJob = (s.impl torrent).maintenanceJob)
    (hawaits : (s'.impl torrent).awaitsMetadata = (s.impl torrent).awaitsMetadata)
    (hposted : (s'.impl torrent).deferredRequestResumeDataInvoked = true →
      0 < (s'.impl torrent).posted)
    (hreceived : torrent ∈ s'.received ↔ torrent ∈ s.received)
    (hended : s'.ended.count torrent = s.ended.count torrent)
    (hcoming : torrent ∈ s.received → (s.impl torrent).maintenanceJob = .handleMetadata →
      s.Coming torrent → s'.Coming torrent) : TorrentInv s' torrent := by
  refine ⟨hposted, fun hr => ?_, fun hr => ?_⟩
  · rw [hreceived] at hr
    obtain ⟨ha, honce⟩ := ht.received hr
    refine ⟨hawaits.trans ha, ?_⟩
    rw [HandlesOnce, hjob, hended]
    rcases honce with ⟨hhandles, hcount, hcomes⟩ | hdone
    · exact .inl ⟨hhandles, hcount, hcoming hr hhandles hcomes⟩
    · exact .inr hdone
  · rw [hjob]
    exact ht.unreceived fun h => hr (hreceived.2 h)

theorem TorrentInv.frame (ht : TorrentInv s torrent) (himpl : s'.impl torrent = s.impl torrent)
    (hreceived : torrent ∈ s'.received ↔ torrent ∈ s.received)
    (hended : s'.ended.count torrent = s.ended.count torrent)
    (hcoming : torrent ∈ s.received → (s.impl torrent).maintenanceJob = .handleMetadata →
      s.Coming torrent → s'.Coming torrent) : TorrentInv s' torrent := by
  refine ht.congr (by rw [himpl]) (by rw [himpl]) ?_ hreceived hended hcoming
  rw [himpl]
  exact ht.posted

theorem State.Coming.mono (hcomes : s.Coming torrent)
    (hposted : 0 < (s.impl torrent).posted → 0 < (s'.impl torrent).posted)
    (hrequests : (torrent, true) ∈ s.requests → (torrent, true) ∈ s'.requests)
    (halerts : (torrent, true) ∈ s.alerts → (torrent, true) ∈ s'.alerts)
    (hwaiting : 0 < s.waiting (.metadata torrent) → 0 < s'.waiting (.metadata torrent)) :
    s'.Coming torrent := by
  rcases hcomes with h | h | h | h
  · exact .inl (hposted h)
  · exact .inr (.inl (hrequests h))
  · exact .inr (.inr (.inl (halerts h)))
  · exact .inr (.inr (.inr (hwaiting h)))

theorem Inv.frame (hs : Inv s) (hmap : s'.tables.torrents = s.tables.torrents)
    (hobjects : s'.tables.objects = s.tables.objects)
    (hnext : s'.tables.nextTorrent = s.tables.nextTorrent)
    (hloading : ∀ id, id ∈ s'.loading ↔ id ∈ s'.tables.loadingTorrents)
    (happlications : s'.applications = s.applications)
    (hissued : ∀ r, s'.issued.count r + s'.waiting (.adding r) = if r < s'.nextRequest then 1 else 0)
    (hreceived : s'.received = s.received) (hended : s'.ended = s.ended)
    (hasked : ∀ p ∈ s'.pending, ∀ torrent, p.2 = .metadata torrent → p ∈ s.pending ∨
      torrent ∈ s.received ∧ ∀ h, s.tables.objects.lookup torrent = some h → p.1 = h.toTorrentID)
    (htorrents : ∀ torrent h, s.tables.objects.lookup torrent = some h → TorrentInv s torrent →
      TorrentInv s' torrent) : Inv s' := by
  refine ⟨hs.keyed.congr hmap hobjects hnext, hs.owned.congr hmap hobjects, hloading, ?_, hissued,
    ?_, fun p hp torrent hpt => ?_, ?_, fun torrent h ho => ?_⟩
  · rw [happlications]
    exact hs.applied
  · rw [hreceived, hended]
    exact hs.ended
  · rw [hreceived, hobjects]
    rcases hasked p hp torrent hpt with hold | hnew
    · exact hs.asked p hold torrent hpt
    · exact hnew
  · rw [hreceived, hnext]
    exact hs.fresh
  · rw [hobjects] at ho
    exact htorrents torrent h ho (hs.torrents torrent h ho)

theorem State.impl_insert (s' : State) (torrents : Dict ℕ TorrentImpl) (torrent torrent' : ℕ)
    (t : TorrentImpl) (htorrents : s'.torrents = torrents.insert torrent' t) :
    (torrent = torrent' → s'.impl torrent = t) ∧
      (torrent ≠ torrent' → s'.impl torrent = (torrents.lookup torrent).getD {}) := by
  rw [impl, htorrents, Dict.lookup_insert_eq]
  constructor
  · intro heq
    rw [if_pos heq]
    rfl
  · intro hne
    rw [if_neg hne]

end frames

section steps

variable {s : State} {id : Digest} {torrent : ℕ} {answer : Answer} {answers : List Answer}

theorem torrentFileSearchFinished_pop :
    ({ s with answers := answers } : State).torrentFileSearchFinished torrent answer =
      if (s.impl torrent).maintenanceJob = .handleMetadata then
        ({ s with answers := answers } : State).endReceivedMetadataHandling torrent answer
      else { s with answers := answers } := rfl

theorem State.waiting_of_perm {s' : State} (h : s'.pending.Perm s.pending) (origin : Origin) :
    s'.waiting origin = s.waiting origin :=
  (h.map Prod.snd).count_eq origin

theorem State.waiting_findIncompleteFiles (places : Places) (origin origin' : Origin) :
    (s.findIncompleteFiles id places origin).waiting origin' =
      s.waiting origin' + if origin = origin' then 1 else 0 := by
  simp only [waiting, pending, findIncompleteFiles, map_append, map_cons, map_nil,
    count_append, count_singleton, beq_iff_eq]
  omega

theorem State.mem_pending_findIncompleteFiles {places : Places} {origin : Origin}
    {p : Digest × Origin} (hp : p ∈ (s.findIncompleteFiles id places origin).pending) :
    p ∈ s.pending ∨ p = (id, origin) := by
  simp only [pending, findIncompleteFiles, map_append, map_cons, map_nil,
    mem_append, List.mem_singleton] at hp ⊢
  tauto

theorem State.waiting_pop (ha : s.answers = answer :: answers) (origin : Origin) :
    s.waiting origin =
      ({ s with answers := answers } : State).waiting origin +
        if answer.origin = origin then 1 else 0 := by
  simp only [waiting, pending, ha, map_append, map_cons, count_append,
    count_cons, beq_iff_eq]
  omega

section

variable (hs : Inv s)

include hs

theorem Inv.search (isFile : String → Bool) : Inv (s.search isFile) := by
  cases hsearches : s.searches with
  | nil =>
    rw [State.search, hsearches]
    exact hs
  | cons search searches =>
    have hperm : (s.search isFile).pending.Perm s.pending := by
      rw [State.search, hsearches, pending, pending, hsearches]
      simp only [map_append, map_cons, map_nil, cons_append]
      rw [← append_assoc]
      exact perm_append_singleton _ _
    rw [State.search, hsearches] at hperm ⊢
    refine hs.frame rfl rfl rfl hs.loading rfl (fun r => ?_) rfl rfl
      (fun p hp _ _ => .inl (hperm.mem_iff.1 hp)) fun torrent h ho ht => ?_
    · rw [waiting_of_perm hperm]
      exact hs.issued r
    · refine ht.frame rfl Iff.rfl rfl fun _ _ hcomes =>
        hcomes.mono (fun h => h) (fun h => h) (fun h => h) fun hwaiting => ?_
      rw [waiting_of_perm hperm]
      exact hwaiting

theorem Inv.requests (requests alerts : List (ℕ × Bool)) (torrents : Dict ℕ TorrentImpl)
    (htorrents : ∀ torrent h, s.tables.objects.lookup torrent = some h → TorrentInv s torrent →
      TorrentInv { s with requests := requests, alerts := alerts, torrents := torrents } torrent) :
    Inv { s with requests := requests, alerts := alerts, torrents := torrents } :=
  hs.frame rfl rfl rfl hs.loading rfl hs.issued rfl rfl (fun _ hp _ _ => .inl hp) htorrents

theorem Inv.requestResumeData (torrent : ℕ) (saveInfoDict : Bool) :
    Inv (s.requestResumeData torrent saveInfoDict) := by
  refine hs.requests _ s.alerts _ fun torrent' h ho ht => ?_
  have himpl := impl_insert (s.requestResumeData torrent saveInfoDict) s.torrents torrent' torrent
    { s.impl torrent with deferredRequestResumeDataInvoked := false } rfl
  have hcoming : s.Coming torrent' → (s.requestResumeData torrent saveInfoDict).Coming torrent' := by
    refine fun hcomes => hcomes.mono (fun hposted => ?_)
      (fun hmem => mem_append_left _ hmem) (fun h => h) fun h => h
    by_cases heq : torrent' = torrent
    · rw [himpl.1 heq]
      rw [heq] at hposted
      exact hposted
    · rw [himpl.2 heq]
      exact hposted
  by_cases heq : torrent' = torrent
  · replace himpl := himpl.1 heq
    subst heq
    show TorrentInv (s.requestResumeData torrent' saveInfoDict) torrent'
    refine ht.congr ?_ ?_ ?_ Iff.rfl rfl fun _ _ => hcoming
    · rw [himpl]
    · rw [himpl]
    · rw [himpl]
      exact fun hfalse => by cases hfalse
  · replace himpl := himpl.2 heq
    exact ht.frame himpl Iff.rfl rfl fun _ _ => hcoming

theorem Inv.deferredRequestResumeData (torrent : ℕ) :
    Inv (s.deferredRequestResumeData torrent) := by
  rw [State.deferredRequestResumeData]
  by_cases hinvoked : ¬(s.impl torrent).deferredRequestResumeDataInvoked
  · rw [if_pos hinvoked]
    refine hs.requests s.requests s.alerts _ fun torrent' h ho ht => ?_
    generalize hs' : ({ s with torrents := _ } : State) = s'
    have himpl := impl_insert s' s.torrents torrent' torrent _
      (congrArg State.torrents hs'.symm)
    subst hs'
    by_cases heq : torrent' = torrent
    · replace himpl := himpl.1 heq
      subst heq
      refine ht.congr (by rw [himpl]) (by rw [himpl]) ?_ Iff.rfl rfl fun _ _ _ => .inl ?_
      · rw [himpl]
        exact fun _ => Nat.succ_pos _
      · rw [himpl]
        exact Nat.succ_pos _
    · replace himpl := himpl.2 heq
      exact ht.frame himpl Iff.rfl rfl fun _ _ hcomes =>
        hcomes.mono (fun h => by rwa [himpl]) (fun h => h) (fun h => h) fun h => h
  · rw [if_neg hinvoked]
    exact hs

theorem Inv.runDeferred (torrent : ℕ) : Inv (s.runDeferred torrent) := by
  refine hs.requests _ s.alerts _ fun torrent' h ho ht => ?_
  have himpl := impl_insert (s.runDeferred torrent)
    (s.torrents.insert torrent { s.impl torrent with posted := (s.impl torrent).posted - 1 })
    torrent' torrent _ rfl
  show TorrentInv (s.runDeferred torrent) torrent'
  by_cases heq : torrent' = torrent
  · replace himpl := himpl.1 heq
    subst heq
    have hold : (s.setImpl torrent'
        { s.impl torrent' with posted := (s.impl torrent').posted - 1 }).impl torrent' =
        { s.impl torrent' with posted := (s.impl torrent').posted - 1 } := by
      rw [(impl_insert _ s.torrents torrent' torrent' _ rfl).1 rfl]
    rw [hold] at himpl
    refine ht.congr ?_ ?_ ?_ Iff.rfl rfl fun _ hjob _ => .inr (.inl ?_)
    · rw [himpl]
    · rw [himpl]
    · rw [himpl]
      exact fun hfalse => by cases hfalse
    · refine mem_append_right _ (mem_singleton.2 ?_)
      rw [hjob]
      rfl
  · replace himpl := himpl.2 heq
    rw [Dict.lookup_insert_eq, if_neg heq] at himpl
    refine ht.frame himpl Iff.rfl rfl fun _ _ hcomes =>
      hcomes.mono (fun h => by rwa [himpl]) (fun hmem => mem_append_left _ hmem)
        (fun h => h) fun h => h

theorem Inv.answerSaveResumeData (torrent : ℕ) (saveInfoDict : Bool) :
    Inv (s.answerSaveResumeData torrent saveInfoDict) := by
  refine hs.requests _ _ s.torrents fun torrent' h ho ht => ?_
  refine ht.frame rfl Iff.rfl rfl fun hreceived _ hcomes => ?_
  by_cases heq : (torrent', true) = (torrent, saveInfoDict)
  · cases heq
    refine .inr (.inr (.inl (mem_append_right _ (mem_singleton.2 ?_))))
    rw [(ht.received hreceived).1]
    rfl
  · exact hcomes.mono (fun h => h) (fun hmem => (mem_erase_of_ne heq).2 hmem)
      (fun hmem => mem_append_left _ hmem) fun h => h

theorem Inv.handleSaveResumeDataAlert (places : Places) :
    Inv (s.handleSaveResumeDataAlert places) := by
  cases halerts : s.alerts with
  | nil =>
    rw [State.handleSaveResumeDataAlert, halerts]
    exact hs
  | cons alert alerts =>
    obtain ⟨native, hasInfo⟩ := alert
    have hpop : (∀ h, s.tables.objects.lookup native = some h →
        ¬((s.impl native).maintenanceJob = .handleMetadata ∧ hasInfo = true)) →
        Inv { s with alerts := alerts } := by
      refine fun hnot => hs.requests s.requests alerts s.torrents fun torrent' h ho ht =>
        ht.frame rfl Iff.rfl rfl fun _ hjob hcomes => hcomes.mono (fun h => h) (fun h => h) ?_
          fun h => h
      rw [halerts]
      rintro (_ | ⟨_, hmem⟩)
      · exact absurd ⟨hjob, rfl⟩ (hnot h ho)
      · exact hmem
    cases hnative : s.tables.objects.lookup native with
    | none =>
      have hdispatch : s.dispatch native = none := by rw [dispatch, hnative]; rfl
      rw [State.handleSaveResumeDataAlert, halerts]
      dsimp only
      rw [hdispatch]
      exact hpop fun h ho => by cases hnative.symm.trans ho
    | some infoHash =>
      have hdispatch : s.dispatch native = some native := by
        rw [dispatch, hnative]
        exact hs.owned native infoHash hnative
      rw [State.handleSaveResumeDataAlert, halerts]
      dsimp only
      rw [hdispatch]
      dsimp only
      rw [hnative]
      dsimp only
      by_cases hhandles : (s.impl native).maintenanceJob = .handleMetadata ∧ hasInfo = true
      · rw [if_pos hhandles]
        have hreceived : native ∈ s.received := by
          by_contra hnot
          rw [(hs.torrents native infoHash hnative).unreceived hnot] at hhandles
          cases hhandles.1
        refine hs.frame rfl rfl rfl hs.loading rfl (fun r => ?_) rfl rfl
          (fun p hp torrent hpt => ?_) fun torrent h ho ht => ?_
        · rw [waiting_findIncompleteFiles, if_neg (by rintro ⟨⟩), Nat.add_zero]
          exact hs.issued r
        · rcases mem_pending_findIncompleteFiles hp with hold | rfl
          · exact .inl hold
          · cases hpt
            refine .inr ⟨hreceived, fun h ho => ?_⟩
            cases hnative.symm.trans ho
            rfl
        · refine ht.frame rfl Iff.rfl rfl fun _ _ hcomes => ?_
          by_cases heq : torrent = native
          · refine .inr (.inr (.inr ?_))
            rw [waiting_findIncompleteFiles, heq, if_pos rfl]
            exact Nat.succ_pos _
          · refine hcomes.mono (fun h => h) (fun h => h) (fun hmem => ?_) fun hwaiting => ?_
            · rw [halerts] at hmem
              rcases hmem with _ | ⟨_, hmem⟩
              · exact absurd rfl heq
              · exact hmem
            · rw [waiting_findIncompleteFiles]
              exact Nat.lt_of_lt_of_le hwaiting (Nat.le_add_right _ _)
      · rw [if_neg hhandles]
        exact hpop fun _ _ => hhandles

theorem Inv.removeTorrent (id : Digest) : Inv (s.removeTorrent id) := by
  cases ht : s.tables.torrents.lookup id with
  | none =>
    rw [State.removeTorrent, ht]
    exact hs
  | some torrent =>
    have hobjects : ∀ {torrent' h}, (s.tables.removeTorrent id).objects.lookup torrent' = some h →
        torrent' ≠ torrent ∧ s.tables.objects.lookup torrent' = some h := by
      intro torrent' h ho
      have herase : (s.tables.removeTorrent id).objects = s.tables.objects.erase torrent := by
        rw [Tables.removeTorrent, ht]
      rw [herase, Dict.lookup_erase_eq] at ho
      split_ifs at ho with heq
      exact ⟨heq, ho⟩
    have hloading : (s.tables.removeTorrent id).loadingTorrents = s.tables.loadingTorrents := by
      rw [Tables.removeTorrent, ht]
    have hnext : (s.tables.removeTorrent id).nextTorrent = s.tables.nextTorrent := by
      rw [Tables.removeTorrent, ht]
    rw [State.removeTorrent, ht]
    refine ⟨hs.keyed.removeTorrent id, hs.owned.removeTorrent hs.keyed id, fun id' => ?_, hs.applied, hs.issued,
      hs.ended, fun p hp torrent' hpt => ?_, fun torrent' hr => ?_, fun torrent' h ho => ?_⟩
    · rw [hloading]
      exact hs.loading id'
    · obtain ⟨hr, hkey⟩ := hs.asked p hp torrent' hpt
      exact ⟨hr, fun h ho => hkey h (hobjects ho).2⟩
    · rw [hnext]
      exact hs.fresh torrent' hr
    · obtain ⟨hne, ho⟩ := hobjects ho
      have himpl : ((s.torrents.erase torrent).lookup torrent').getD {} = s.impl torrent' := by
        rw [lookup_erase_ne hne]
        rfl
      exact (hs.torrents torrent' h ho).frame himpl Iff.rfl rfl fun _ _ hcomes =>
        hcomes.mono (fun h => lt_of_lt_of_eq h (congrArg TorrentImpl.posted himpl).symm)
          (fun h => h) (fun h => h) fun h => h

theorem Inv.handleAddTorrentError (i : ℕ) : Inv (s.handleAddTorrentError i) := by
  rw [State.handleAddTorrentError]
  cases hi : s.nativeAdds[i]? with
  | none => exact hs
  | some native =>
    refine hs.frame rfl rfl rfl (fun id => ?_) rfl hs.issued rfl rfl (fun _ hp _ _ => .inl hp)
      fun torrent h ho ht => ht.frame rfl Iff.rfl rfl fun _ _ hcomes => hcomes
    show id ∈ s.loading.erase _ ↔ id ∈ s.tables.loadingTorrents.erase _
    rw [mem_erase, mem_erase, hs.loading]

theorem Inv.addTorrent (infoHash : InfoHash) (hasMetadata hasFinishedStatus : Bool)
    (places : Places) : Inv (s.addTorrent infoHash hasMetadata hasFinishedStatus places) := by
  rw [State.addTorrent]
  cases hadd : s.tables.addTorrent infoHash with
  | none => exact hs
  | some tables =>
    have hloading : ∀ (params : LoadTorrentParams) id,
        id ∈ s.loading.insert infoHash.toTorrentID params ↔ id ∈ tables.loadingTorrents := by
      intro params id
      rw [eq_of_addTorrent hadd, mem_insert, mem_insert, hs.loading]
    have hlt : ∀ r, (if r < s.nextRequest + 1 then 1 else 0) =
        (if r < s.nextRequest then 1 else 0) + if s.nextRequest = r then 1 else 0 := by
      intro r
      split_ifs <;> omega
    dsimp only
    by_cases hfinding : (hasMetadata && !hasFinishedStatus) = true
    · rw [if_pos hfinding]
      refine hs.frame ?_ ?_ ?_ (hloading _) rfl (fun r => ?_) rfl rfl (fun p hp torrent hpt => ?_)
        fun torrent h ho ht => ht.frame rfl Iff.rfl rfl fun _ _ hcomes =>
          hcomes.mono (fun h => h) (fun h => h) (fun h => h) fun hwaiting => ?_
      · show tables.torrents = _
        rw [eq_of_addTorrent hadd]
      · show tables.objects = _
        rw [eq_of_addTorrent hadd]
      · show tables.nextTorrent = _
        rw [eq_of_addTorrent hadd]
      · rw [waiting_findIncompleteFiles]
        show s.issued.count r + (s.waiting _ + _) = if r < s.nextRequest + 1 then 1 else 0
        rw [hlt, ← Nat.add_assoc, hs.issued r]
        by_cases heq : s.nextRequest = r
        · rw [if_pos heq, if_pos (congrArg Origin.adding heq)]
        · rw [if_neg heq, if_neg fun h => heq (Origin.adding.inj h)]
      · rcases mem_pending_findIncompleteFiles hp with hold | rfl
        · exact .inl hold
        · cases hpt
      · rw [waiting_findIncompleteFiles]
        exact Nat.lt_of_lt_of_le hwaiting (Nat.le_add_right _ _)
    · rw [if_neg hfinding]
      refine hs.frame ?_ ?_ ?_ (hloading _) rfl (fun r => ?_) rfl rfl (fun _ hp _ _ => .inl hp)
        fun torrent h ho ht => ht.frame rfl Iff.rfl rfl fun _ _ hcomes => hcomes
      · show tables.torrents = _
        rw [eq_of_addTorrent hadd]
      · show tables.objects = _
        rw [eq_of_addTorrent hadd]
      · show tables.nextTorrent = _
        rw [eq_of_addTorrent hadd]
      · show (s.issued ++ [s.nextRequest]).count r + s.waiting _ =
          if r < s.nextRequest + 1 then 1 else 0
        rw [hlt, ← hs.issued r, count_append, count_singleton]
        by_cases heq : s.nextRequest = r
        · rw [if_pos heq, if_pos (beq_iff_eq.2 heq)]
          omega
        · rw [if_neg heq, if_neg fun h => heq (beq_iff_eq.1 h)]
          omega

theorem Inv.handleAddTorrentAlert {i : ℕ} {current : InfoHash}
    (hp : s.tables.Possible (.addTorrentAlert current)) :
    Inv (s.handleAddTorrentAlert i current) := by
  rw [State.handleAddTorrentAlert]
  cases hi : s.nativeAdds[i]? with
  | none => exact hs
  | some native =>
    cases hparams : s.loading.lookup current.toTorrentID with
    | none =>
      exact hs.frame rfl rfl rfl hs.loading rfl hs.issued rfl rfl (fun _ hp _ _ => .inl hp)
        fun torrent h ho ht => ht.frame rfl Iff.rfl rfl fun _ _ hcomes => hcomes
    | some params =>
      have hmem : current.toTorrentID ∈ s.tables.loadingTorrents :=
        (hs.loading _).1 (mem_of_lookup_eq_some hparams)
      have hput := hs.keyed.addTorrentAlert_put hmem hp
      have hnot : s.tables.nextTorrent ∉ s.received := fun hr =>
        Nat.lt_irrefl _ (hs.fresh _ hr)
      refine ⟨hs.keyed.of_put hput, hs.owned.of_put hput, fun id => ?_,
        hs.applied, hs.issued, hs.ended, fun p hpending torrent hpt => ?_, fun torrent hr => ?_,
        fun torrent h ho => ?_⟩
      · rw [Tables.handleAddTorrentAlert, if_pos hmem]
        show _ ↔ id ∈ s.tables.loadingTorrents.erase _
        rw [mem_erase, mem_erase, hs.loading]
      · obtain ⟨hr, hkey⟩ := hs.asked p hpending torrent hpt
        refine ⟨hr, fun h ho => hkey h ?_⟩
        refine (hput.lookup_objects_of_ne ?_).symm.trans ho
        rintro rfl
        exact hnot hr
      · rw [Tables.handleAddTorrentAlert, if_pos hmem]
        exact Nat.lt_succ_of_lt (hs.fresh torrent hr)
      · by_cases heq : torrent = s.tables.nextTorrent
        · refine ⟨?_, fun hr => absurd (heq ▸ hr) hnot, fun _ => ?_⟩
          · rw [(impl_insert _ s.torrents torrent s.tables.nextTorrent _ rfl).1 heq]
            exact fun hfalse => by cases hfalse
          · rw [(impl_insert _ s.torrents torrent s.tables.nextTorrent _ rfl).1 heq]
        · have ht := hs.torrents torrent h ((hput.lookup_objects_of_ne heq).symm.trans ho)
          refine ht.frame ?_ Iff.rfl rfl fun _ _ hcomes =>
            hcomes.mono (fun hposted => ?_) (fun hmem => mem_append_left _ hmem)
              (fun h => h) fun h => h
          · rw [(impl_insert _ s.torrents torrent s.tables.nextTorrent _ rfl).2 heq]
            rfl
          · rw [(impl_insert _ s.torrents torrent s.tables.nextTorrent _ rfl).2 heq]
            exact hposted

theorem Inv.handleMetadataReceived {prevInfoHash infoHash : InfoHash}
    (hp : s.Possible (.metadataReceived prevInfoHash infoHash)) :
    Inv (s.handleMetadataReceived infoHash) := by
  obtain ⟨hlive, ⟨torrent', ht', hawaits⟩, hchange⟩ := hp
  obtain ⟨torrent, ht, htarget, hput, hloading, hnext⟩ :=
    hs.keyed.metadataReceived_put hlive hchange
  rw [← some.inj (ht.symm.trans ht')] at hawaits
  obtain ⟨h, ho, -⟩ := hs.keyed.exist _ _ ht
  have hold := hs.torrents torrent h ho
  have hnot : torrent ∉ s.received := fun hr => by
    rw [(hold.received hr).1] at hawaits
    cases hawaits
  have hended : s.ended.count torrent = 0 := by
    have := hs.ended torrent
    rw [if_neg hnot] at this
    exact Nat.le_zero.1 this
  -- whether a call is posted already or not, there is one afterwards
  have hstate : ∃ t : TorrentImpl, t.maintenanceJob = .handleMetadata ∧ t.awaitsMetadata = false ∧
      0 < t.posted ∧ s.handleMetadataReceived infoHash =
        { s with
          tables := s.tables.handleMetadataReceived infoHash
          received := s.received ++ [torrent]
          torrents := s.torrents.insert torrent t } := by
    let t : TorrentImpl :=
      { s.impl torrent with maintenanceJob := .handleMetadata, awaitsMetadata := false }
    have himpl := impl_insert
      { s with
        tables := s.tables.handleMetadataReceived infoHash
        received := s.received ++ [torrent]
        torrents := s.torrents.insert torrent t } s.torrents torrent torrent t rfl
    replace himpl := himpl.1 rfl
    rw [State.handleMetadataReceived, htarget]
    dsimp only
    rw [State.deferredRequestResumeData, himpl]
    by_cases hinvoked : (s.impl torrent).deferredRequestResumeDataInvoked = true
    · refine ⟨t, rfl, rfl, hold.posted hinvoked, ?_⟩
      rw [if_neg (not_not.2 hinvoked)]
    · refine ⟨{ t with posted := t.posted + 1, deferredRequestResumeDataInvoked := true }, rfl, rfl,
        Nat.succ_pos _, ?_⟩
      rw [if_pos hinvoked, setImpl]
      rw [insert_insert]
  obtain ⟨t, hjob, hknown, hposted, hstate⟩ := hstate
  rw [hstate]
  have hkey : ∀ {torrent' : ℕ}, torrent' ∈ s.received →
      (s.tables.handleMetadataReceived infoHash).objects.lookup torrent' =
        s.tables.objects.lookup torrent' := by
    intro torrent' hr
    refine hput.lookup_objects_of_ne ?_
    rintro rfl
    exact hnot hr
  refine ⟨hs.keyed.of_put hput, hs.owned.of_put hput, fun id => ?_,
    hs.applied, hs.issued, fun torrent' => ?_, fun p hpending torrent' hpt => ?_,
    fun torrent' hr => ?_, fun torrent' h ho => ?_⟩
  · rw [hloading]
    exact hs.loading id
  · refine (hs.ended torrent').trans ?_
    split_ifs with h₁ h₂
    · exact le_rfl
    · exact absurd (mem_append_left _ h₁) h₂
    · exact Nat.zero_le _
    · exact le_rfl
  · obtain ⟨hr, hkeys⟩ := hs.asked p hpending torrent' hpt
    exact ⟨mem_append_left _ hr, fun h ho => hkeys h ((hkey hr).symm.trans ho)⟩
  · rw [hnext]
    rcases mem_append.1 hr with hr | hr
    · exact hs.fresh torrent' hr
    · rw [mem_singleton.1 hr]
      by_contra hle
      cases ho.symm.trans (hs.keyed.fresh torrent (Nat.not_lt.1 hle))
  · have himpl := impl_insert
      { s with
        tables := s.tables.handleMetadataReceived infoHash
        received := s.received ++ [torrent]
        torrents := s.torrents.insert torrent t } s.torrents torrent' torrent t rfl
    by_cases heq : torrent' = torrent
    · subst heq
      replace himpl := himpl.1 rfl
      refine ⟨fun _ => ?_, fun _ => ⟨?_, .inl ⟨?_, hended, .inl ?_⟩⟩, fun hr => ?_⟩
      · rw [himpl]
        exact hposted
      · rw [himpl]
        exact hknown
      · rw [himpl]
        exact hjob
      · rw [himpl]
        exact hposted
      · exact absurd (mem_append_right _ (mem_singleton_self _)) hr
    · replace himpl := himpl.2 heq
      have ht := hs.torrents torrent' h ((hput.lookup_objects_of_ne heq).symm.trans ho)
      refine ht.frame himpl ?_ rfl fun _ _ hcomes =>
        hcomes.mono (fun h => by rwa [himpl]) (fun h => h) (fun h => h) fun h => h
      rw [mem_append, List.mem_singleton]
      exact or_iff_left heq

theorem Inv.drop (ha : s.answers = answer :: answers) (hnot : ∀ r, answer.origin ≠ .adding r)
    (hdone : ∀ torrent h, s.tables.objects.lookup torrent = some h →
      (s.impl torrent).maintenanceJob = .handleMetadata → answer.origin ≠ .metadata torrent) :
    Inv { s with answers := answers } := by
  refine hs.frame rfl rfl rfl hs.loading rfl (fun r => ?_) rfl rfl (fun p hp _ _ => .inl ?_)
    fun torrent h ho ht => ht.frame rfl Iff.rfl rfl fun _ hjob hcomes =>
      hcomes.mono (fun h => h) (fun h => h) (fun h => h) fun hwaiting => ?_
  · rw [← hs.issued r, waiting_pop ha, if_neg (hnot r), Nat.add_zero]
  · rw [pending, mem_append] at hp ⊢
    rw [ha, map_cons, mem_cons]
    exact hp.imp_right .inr
  · rw [waiting_pop ha, if_neg (hdone torrent h ho hjob)] at hwaiting
    exact hwaiting

end

theorem State.mem_pending_head (ha : s.answers = answer :: answers) :
    (answer.id, answer.origin) ∈ s.pending := by
  rw [pending, ha, map_cons]
  exact mem_append_right _ (mem_cons_self)

theorem Inv.answerAdding (hs : Inv s) (ha : s.answers = answer :: answers)
    {params : LoadTorrentParams} (horigin : answer.origin = .adding params.request)
    (hparams : s.loading.lookup answer.id = some params)
    (hnone : s.tables.torrents.lookup answer.id = none) :
    Inv (({ s with answers := answers } : State).fileSearchFinished answer) := by
  rw [fileSearchFinished]
  rw [hnone]
  rw [hparams]
  have hpop := waiting_pop ha
  refine ⟨hs.keyed, hs.owned, fun id => ?_, fun a hmem => ?_, fun r => ?_, hs.ended,
    fun p hp torrent hpt => hs.asked p ?_ torrent hpt, hs.fresh, fun torrent h ho => ?_⟩
  · show id ∈ s.loading.insert answer.id _ ↔ _
    rw [mem_insert]
    refine Iff.trans ?_ (hs.loading id)
    refine or_iff_right_of_imp ?_
    rintro rfl
    exact mem_of_lookup_eq_some hparams
  · rcases mem_append.1 hmem with hmem | hmem
    · exact hs.applied a hmem
    · rw [mem_singleton.1 hmem]
      exact horigin
  · refine Eq.trans ?_ (hs.issued r)
    show (s.issued ++ [params.request]).count r +
      ({ s with answers := answers } : State).waiting (.adding r) = _
    rw [hpop, horigin, count_append, count_singleton]
    by_cases hr : params.request = r
    · rw [if_pos (beq_iff_eq.2 hr), if_pos (congrArg Origin.adding hr)]
      omega
    · rw [if_neg fun h => hr (beq_iff_eq.1 h), if_neg fun h => hr (Origin.adding.inj h)]
      omega
  · rw [pending, mem_append, ha, map_cons, mem_cons]
    exact (mem_append.1 hp).imp_right .inr
  · refine (hs.torrents torrent h ho).frame rfl Iff.rfl rfl fun _ _ hcomes =>
      hcomes.mono (fun h => h) (fun h => h) (fun h => h) fun hwaiting => ?_
    rw [hpop, horigin, if_neg (by rintro ⟨⟩)] at hwaiting
    exact hwaiting

theorem Inv.answerMetadata (hs : Inv s) (ha : s.answers = answer :: answers)
    (horigin : answer.origin = .metadata torrent)
    (ht : s.tables.torrents.lookup answer.id = some torrent)
    (hjob : (s.impl torrent).maintenanceJob = .handleMetadata) :
    Inv (({ s with answers := answers } : State).endReceivedMetadataHandling torrent answer) := by
  have hpop := waiting_pop ha
  obtain ⟨h, ho, -⟩ := hs.keyed.exist _ _ ht
  have hold := hs.torrents torrent h ho
  have hreceived : torrent ∈ s.received := (hs.asked _ (mem_pending_head ha) torrent horigin).1
  obtain ⟨hknown, ⟨-, hcount, -⟩ | ⟨hdone, -⟩⟩ := hold.received hreceived
  · have hended : ∀ torrent', (s.ended ++ [torrent]).count torrent' =
        s.ended.count torrent' + if torrent = torrent' then 1 else 0 := by
      intro torrent'
      rw [count_append, count_singleton]
      simp only [beq_iff_eq]
    refine ⟨hs.keyed, hs.owned, hs.loading, fun a hmem => ?_, fun r => ?_, fun torrent' => ?_,
      fun p hp torrent' hpt => hs.asked p ?_ torrent' hpt, hs.fresh, fun torrent' h' ho' => ?_⟩
    · rcases mem_append.1 hmem with hmem | hmem
      · exact hs.applied a hmem
      · rw [mem_singleton.1 hmem]
        exact horigin
    · refine Eq.trans ?_ (hs.issued r)
      rw [hpop, horigin, if_neg (by rintro ⟨⟩)]
      rfl
    · show (s.ended ++ [torrent]).count torrent' ≤ _
      rw [hended]
      by_cases heq : torrent = torrent'
      · subst heq
        rw [if_pos rfl, hcount]
        exact le_of_eq (if_pos hreceived).symm
      · rw [if_neg heq, Nat.add_zero]
        exact hs.ended torrent'
    · rw [pending, mem_append, ha, map_cons, mem_cons]
      exact (mem_append.1 hp).imp_right .inr
    · have himpl := impl_insert
        (({ s with answers := answers } : State).endReceivedMetadataHandling torrent answer)
        s.torrents torrent' torrent _ rfl
      by_cases heq : torrent' = torrent
      · subst heq
        replace himpl := himpl.1 rfl
        refine ⟨?_, fun _ => ⟨?_, .inr ⟨?_, ?_⟩⟩, fun hr => absurd hreceived hr⟩
        · rw [himpl]
          exact hold.posted
        · rw [himpl]
          exact hknown
        · rw [himpl]
        · show (s.ended ++ [torrent']).count torrent' = 1
          rw [hended, hcount, if_pos rfl]
      · replace himpl := himpl.2 heq
        refine (hs.torrents torrent' h' ho').frame himpl Iff.rfl ?_ fun _ _ hcomes =>
          hcomes.mono (fun h => by rwa [himpl]) (fun h => h) (fun h => h) fun hwaiting => ?_
        · show (s.ended ++ [torrent]).count torrent' = _
          rw [hended, if_neg (Ne.symm heq), Nat.add_zero]
        · rw [hpop, horigin, if_neg fun h => heq (Origin.metadata.inj h).symm] at hwaiting
          exact hwaiting
  · rw [hjob] at hdone
    cases hdone

theorem Inv.handleAnswer (hs : Inv s) (hcurrent : Current s .handleAnswer) :
    Inv s.handleAnswer := by
  cases ha : s.answers with
  | nil =>
    rw [State.handleAnswer, ha]
    exact hs
  | cons answer answers =>
    rw [State.handleAnswer, ha]
    dsimp only
    have hcurrent : answer.Current s := hcurrent answer (by rw [ha]; rfl)
    rw [Answer.Current] at hcurrent
    cases horigin : answer.origin with
    | adding r =>
      rw [horigin] at hcurrent
      obtain ⟨hnone, hr⟩ := hcurrent
      obtain ⟨params, hparams, rfl⟩ := map_eq_some_iff.1 hr
      exact hs.answerAdding ha horigin hparams hnone
    | metadata torrent =>
      rw [horigin] at hcurrent
      obtain ⟨hlive, hgone⟩ := hcurrent
      have hkey := (hs.asked _ (mem_pending_head ha) torrent horigin).2
      have hdrop : (∀ torrent', s.tables.torrents.lookup answer.id = some torrent' →
          (s.impl torrent').maintenanceJob = .none) → Inv { s with answers := answers } := by
        refine fun hidle => hs.drop ha (fun r hr => ?_) fun torrent' h ho hjob hfor => ?_
        · cases horigin.symm.trans hr
        · cases horigin.symm.trans hfor
          have ht := hs.owned torrent h ho
          rw [← hkey h ho] at ht
          rw [hidle torrent ht] at hjob
          cases hjob
      rw [fileSearchFinished]
      cases ht : s.tables.torrents.lookup answer.id with
      | none =>
        rw [hgone ht]
        exact hdrop fun torrent' ht' => by cases ht.symm.trans ht'
      | some torrent' =>
        dsimp only
        rw [torrentFileSearchFinished_pop]
        cases hjob : (s.impl torrent').maintenanceJob with
        | handleMetadata =>
          rcases hlive torrent' ht with rfl | hnone
          · exact hs.answerMetadata ha horigin ht hjob
          · cases hjob.symm.trans hnone
        | none =>
          refine hdrop fun torrent'' ht'' => ?_
          cases ht.symm.trans ht''
          exact hjob

theorem not_matched_handleAnswer (hs : Inv s) (hcurrent : ¬Current s .handleAnswer) :
    ¬Matched s.handleAnswer := by
  intro hmatched
  cases ha : s.answers with
  | nil =>
    refine hcurrent fun answer hmem => ?_
    rw [ha] at hmem
    cases hmem
  | cons answer answers =>
    have hnot : ¬answer.Current s := by
      refine fun h => hcurrent fun answer' hmem => ?_
      rw [ha] at hmem
      cases hmem
      exact h
    have hstep : s.handleAnswer =
        ({ s with answers := answers } : State).fileSearchFinished answer := by
      rw [State.handleAnswer, ha]
    have hpop := waiting_pop ha
    -- the request of a lost answer is not passed to libtorrent
    have hlost : ∀ r, answer.origin = .adding r →
        s.handleAnswer ≠ { s with answers := answers } := by
      intro r hr heq
      have hwaiting := hpop (.adding r)
      have hissued := hs.issued r
      rw [if_pos hr] at hwaiting
      have hlt : r < s.nextRequest := by
        by_contra hge
        rw [if_neg hge] at hissued
        omega
      rw [if_pos hlt] at hissued
      have hone := hmatched.issued r
      rw [heq] at hone
      have : s.issued.count r + ({ s with answers := answers } : State).waiting (.adding r) = 1 :=
        hone hlt
      omega
    have hused : ∀ origin, (origin, answer) ∈ s.handleAnswer.applications → answer.origin = origin :=
      fun origin hmem => hmatched.applied (origin, answer) hmem
    refine hnot ?_
    rw [fileSearchFinished] at hstep
    rw [Answer.Current]
    cases ht : s.tables.torrents.lookup answer.id with
    | some torrent' =>
      rw [ht] at hstep
      dsimp only at hstep
      rw [torrentFileSearchFinished_pop] at hstep
      cases hjob : (s.impl torrent').maintenanceJob with
      | handleMetadata =>
        rw [hjob, if_pos rfl] at hstep
        have horigin : answer.origin = .metadata torrent' := by
          refine hused _ ?_
          rw [hstep]
          exact mem_append_right _ (mem_singleton_self _)
        rw [horigin]
        refine ⟨fun torrent'' hmem => .inl ?_, fun hnone => by cases hnone⟩
        exact (some.inj hmem).symm
      | none =>
        rw [hjob, if_neg (by rintro ⟨⟩)] at hstep
        cases horigin : answer.origin with
        | adding r => exact absurd hstep (hlost r horigin)
        | metadata torrent =>
          refine ⟨fun torrent'' hmem => .inr ?_, fun hnone => by cases hnone⟩
          rw [← some.inj hmem]
          exact hjob
    | none =>
      rw [ht] at hstep
      cases hparams : s.loading.lookup answer.id with
      | some params =>
        rw [hparams] at hstep
        have horigin : answer.origin = .adding params.request := by
          refine hused _ ?_
          rw [hstep]
          exact mem_append_right _ (mem_singleton_self _)
        rw [horigin]
        exact ⟨rfl, rfl⟩
      | none =>
        rw [hparams] at hstep
        cases horigin : answer.origin with
        | adding r => exact absurd hstep (hlost r horigin)
        | metadata torrent => exact ⟨(fun _ hmem => by cases hmem), fun _ => rfl⟩

theorem Inv.onTorrent (hs : Inv s) (id : Digest) {f : ℕ → State} (hf : ∀ torrent, Inv (f torrent)) :
    Inv (s.onTorrent id f) := by
  rw [State.onTorrent]
  cases s.tables.torrents.lookup id with
  | none => exact hs
  | some torrent => exact hf torrent

theorem Inv.next (hs : Inv s) (e : Event) (hpossible : s.Possible e) (hcurrent : Current s e) :
    Inv (s.next e) := by
  cases e with
  | addTorrent infoHash hasMetadata hasFinishedStatus places =>
    exact hs.addTorrent infoHash hasMetadata hasFinishedStatus places
  | search isFile => exact hs.search isFile
  | handleAnswer => exact hs.handleAnswer hcurrent
  | addTorrentAlert i current => exact hs.handleAddTorrentAlert hpossible.2
  | addTorrentError i => exact hs.handleAddTorrentError i
  | requestResumeData id => exact hs.onTorrent id fun torrent => hs.requestResumeData torrent false
  | deferredRequestResumeData id => exact hs.onTorrent id hs.deferredRequestResumeData
  | runDeferred id => exact hs.onTorrent id hs.runDeferred
  | metadataReceived prevInfoHash infoHash => exact hs.handleMetadataReceived hpossible
  | answerSaveResumeData torrent saveInfoDict => exact hs.answerSaveResumeData torrent saveInfoDict
  | handleSaveResumeDataAlert places => exact hs.handleSaveResumeDataAlert places
  | removeTorrent id => exact hs.removeTorrent id

end steps

/-- **Answers are matched.**  Whatever is requested, removed and requested again while searches run,
and however metadata comes, answers are used for those who asked, requests are passed on once and
metadata is handled once, throughout a run, exactly when every answer that is handled is current. -/
theorem matched_iff_current (es : List Event) (hr : (machine.run {} es).isSome) :
    machine.Always Matched {} es ↔ machine.Meets Current {} es := by
  refine Machine.guarded_always_iff_meets Inv.init (fun _ hs => hs.matched)
    (fun _ e hs hpossible hcurrent => hs.next e hpossible hcurrent)
    (fun s e hs _ hcurrent => ?_) hr
  cases e with
  | handleAnswer => exact not_matched_handleAnswer hs hcurrent
  | _ => exact absurd trivial hcurrent

/-- A torrent, and where its file is looked for. -/
def someHash : InfoHash := ⟨1, 0⟩

def somePlaces : Places := { originalFileNames := ["f"], savePath := "/a" }

/-- The torrent is added by a magnet link, its metadata comes and its file is searched. -/
def magnetRun : List Event :=
  [.addTorrent someHash false false somePlaces, .addTorrentAlert 0 someHash,
    .metadataReceived someHash someHash, .runDeferred 1, .answerSaveResumeData 0 true,
    .handleSaveResumeDataAlert somePlaces, .search fun path => path = "/a/f.!qB"]

theorem matched_iff_current_magnetRun :
    machine.Always Matched {} (magnetRun ++ [.handleAnswer]) :=
  (matched_iff_current (magnetRun ++ [.handleAnswer]) (by decide)).2 (by decide)

/-- Before the answer is handled the torrent is removed, and added again with a search in another
place. -/
def addedAgainRun : List Event :=
  magnetRun ++
    [.removeTorrent 1, .addTorrent someHash true false { somePlaces with savePath := "/b" },
      .handleAnswer]

/-- The torrent that is added again gets the place where the removed one was. -/
theorem addedAgainRun_not_matched :
    (machine.run {} addedAgainRun).isSome = true ∧ ¬machine.Always Matched {} addedAgainRun := by
  refine ⟨by decide, fun h => ?_⟩
  obtain ⟨s, hs⟩ : ∃ s, machine.run {} addedAgainRun = some s :=
    isSome_iff_exists.1 (by decide)
  have hend : ∀ s ∈ machine.run {} addedAgainRun,
      (Origin.adding 1, (⟨1, "/a", ["f.!qB"], .metadata 0⟩ : Answer)) ∈ s.applications := by decide
  cases (h.at_end hs).applied _ (hend s hs)

end QBittorrent.FileSearch
