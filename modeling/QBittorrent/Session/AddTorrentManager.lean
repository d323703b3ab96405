import QBittorrent.Lib.Machine
import QBittorrent.Session.Tables

/-!
# Requests to add torrents

`AddTorrentManager` takes the sources of torrents: URLs, that are downloaded first, magnet links and
files.  What a request is waiting for is kept under its source while it is downloaded, and under its
info-hash while the session adds the torrent.  Here each request has a number too, by which it is
known what a report is about.

* `Answered` : each request is reported once, with its own source;
* `answered_of_apart` : so it is if those under way are apart.
-/

namespace QBittorrent.AddTorrentManager

open Finmap List Option Dict Tables

inductive AddTorrentErrorKind where
  | duplicateTorrent | other
  deriving DecidableEq

/-- The two signals of the manager. -/
inductive Outcome where
  | torrentAdded
  | addTorrentFailed (reason : AddTorrentErrorKind)
  deriving DecidableEq

/-- A call of `addTorrent`. -/
structure Request (Params : Type) where
  source : String
  params : Params
  deriving DecidableEq

/-- A signal, with the number of the request that it is about. -/
structure Report where
  source : String
  outcome : Outcome
  request : Option ℕ

/-- The manager with the session and the downloads it has started. -/
structure State (Params : Type) where
  tables : Tables := {}
  isRestored : Bool := false
  /-- `m_downloadedTorrents` -/
  downloadedTorrents : Dict String Params := ∅
  /-- `m_sourcesByInfoHash` -/
  sourcesByInfoHash : Dict InfoHash String := ∅
  /-- The URLs that are downloaded, by their requests. -/
  downloads : Dict ℕ String := ∅
  /-- The requests with a source, by their numbers. -/
  requests : List (Request Params) := []
  /-- The requests whose torrents are in `m_loadingTorrents`. -/
  adding : Dict Digest ℕ := ∅
  /-- The parameters that requests were processed with. -/
  processed : List (ℕ × Params) := []
  reports : List Report := []

/-- How a download ends. -/
inductive DownloadResult where
  /-- A torrent file, or a redirection to a magnet link. -/
  | torrent (infoHash : InfoHash)
  /-- Neither of them, or the download has failed. -/
  | failed
  /-- `checkDownloadSize` has stopped the download. -/
  | tooLarge

variable {Params : Type} [Inhabited Params]

namespace State

variable (s : State Params)

/-- A signal of the manager. -/
def report (source : String) (outcome : Outcome) (request : Option ℕ) : State Params :=
  { s with reports := s.reports ++ [⟨source, outcome, request⟩] }

/-- `onSessionTorrentAdded` and `onSessionAddTorrentFailed`. -/
def onSessionSignal (infoHash : InfoHash) (outcome : Outcome) (request : Option ℕ) : State Params :=
  match s.sourcesByInfoHash.lookup infoHash with
  | none => s
  | some source =>
    let s' := { s with sourcesByInfoHash := s.sourcesByInfoHash.erase infoHash }
    if source = "" then s' else s'.report source outcome request

/-- `Session::addTorrent`, for a request of the manager or for someone else, and what it returns. -/
def sessionAddTorrent (infoHash : InfoHash) (request : Option ℕ) : State Params × Bool :=
  if s.isRestored = false then (s, false)
  else
    match s.tables.addTorrent infoHash with
    | none => (s.onSessionSignal infoHash (.addTorrentFailed .duplicateTorrent) request, false)
    | some tables =>
      ({ s with
        tables := tables
        adding := request.elim s.adding (s.adding.insert infoHash.toTorrentID) }, true)

def addTorrentToSession (source : String) (infoHash : InfoHash) (request : ℕ) : State Params :=
  let (s', result) := s.sessionAddTorrent infoHash (some request)
  if result then { s' with sourcesByInfoHash := s'.sourcesByInfoHash.insert infoHash source } else s'

def processTorrent (source : String) (infoHash : InfoHash) (params : Params) (request : ℕ) :
    State Params :=
  let s' := { s with processed := s.processed ++ [(request, params)] }
  if (s.tables.findTorrent infoHash).isSome then
    s'.report source (.addTorrentFailed .duplicateTorrent) (some request)
  else s'.addTorrentToSession source infoHash request

/-- `source.startsWith("magnet:", Qt::CaseInsensitive)` -/
def isMagnet (source : String) : Bool :=
  "magnet:".toList.isPrefixOf (source.toList.map Char.toLower)

/-- `addTorrent`; `loaded` is what `loadFromFile` gives. -/
def addTorrent (hasSupportedScheme : String → Bool) (parse : String → Option InfoHash)
    (source : String) (params : Params) (loaded : Option InfoHash) : State Params :=
  if source = "" then s
  else
    let request := s.requests.length
    let s' : State Params := { s with requests := s.requests ++ [⟨source, params⟩] }
    if hasSupportedScheme source then
      { s' with
        downloads := s'.downloads.insert request source
        downloadedTorrents := s'.downloadedTorrents.insert source params }
    else
      match parse source with
      | some infoHash => s'.processTorrent source infoHash params request
      | none =>
        if isMagnet source then s'.report source (.addTorrentFailed .other) (some request)
        else
          match loaded with
          | some infoHash => s'.processTorrent source infoHash params request
          | none => s'.report source (.addTorrentFailed .other) (some request)

/-- `onDownloadFinished`, of a result with a torrent or without. -/
def onDownloadFinished (source : String) (result : Option InfoHash) (request : ℕ) : State Params :=
  let params := (s.downloadedTorrents.lookup source).getD default
  let s' := { s with downloadedTorrents := s.downloadedTorrents.erase source }
  match result with
  | some infoHash => s'.processTorrent source infoHash params request
  | none => s'.report source (.addTorrentFailed .other) (some request)

/-- The end of a download.  `checkDownloadSize` aborts the reply, which finishes the download, and
finishes it itself. -/
def downloadFinished (request : ℕ) (result : DownloadResult) : State Params :=
  match s.downloads.lookup request with
  | none => s
  | some source =>
    let s' := { s with downloads := s.downloads.erase request }
    match result with
    | .torrent infoHash => s'.onDownloadFinished source (some infoHash) request
    | .failed => s'.onDownloadFinished source none request
    | .tooLarge =>
      (s'.onDownloadFinished source none request).onDownloadFinished source none request

/-- `handleAddTorrentAlert`: libtorrent has added the torrent that was requested under `id`, and
`infoHash` is the info-hash that it has when the alert is handled. -/
def addTorrentAlert (id : Digest) (infoHash : InfoHash) : State Params :=
  let s' :=
    { s with
      tables := s.tables.handleAddTorrentAlert infoHash
      adding := s.adding.erase id }
  if infoHash.toTorrentID ∈ s.tables.loadingTorrents then
    s'.onSessionSignal infoHash .torrentAdded (s.adding.lookup id)
  else s'

/-- `handleAddTorrentAlert` with an error. -/
def addTorrentError (id : Digest) (infoHash : InfoHash) (reason : AddTorrentErrorKind) :
    State Params :=
  let s' :=
    { s with
      tables := s.tables.handleAddTorrentError infoHash
      adding := s.adding.erase id }
  if infoHash.toTorrentID ∈ s.tables.loadingTorrents then
    s'.onSessionSignal infoHash (.addTorrentFailed reason) (s.adding.lookup id)
  else s'

end State

/-- Requests, downloads that end, and what else the session does. -/
inductive ManagerEvent (Params : Type) where
  | restoreTorrent (infoHash : InfoHash)
  | restored
  | addTorrent (source : String) (params : Params) (loaded : Option InfoHash)
  | downloadFinished (request : ℕ) (result : DownloadResult)
  /-- Someone else adds a torrent to the session. -/
  | sessionAddTorrent (infoHash : InfoHash)
  | addTorrentAlert (id : Digest) (infoHash : InfoHash)
  | addTorrentError (id : Digest) (infoHash : InfoHash) (reason : AddTorrentErrorKind)
  | metadataReceived (prevInfoHash infoHash : InfoHash)
  | removeTorrent (id : Digest)

namespace State

variable (hasSupportedScheme : String → Bool) (parse : String → Option InfoHash) (s : State Params)

def next : ManagerEvent Params → State Params
  | .restoreTorrent infoHash => { s with tables := s.tables.createTorrent infoHash }
  | .restored => { s with isRestored := true }
  | .addTorrent source params loaded => s.addTorrent hasSupportedScheme parse source params loaded
  | .downloadFinished request result => s.downloadFinished request result
  | .sessionAddTorrent infoHash => (s.sessionAddTorrent infoHash none).1
  | .addTorrentAlert id infoHash => s.addTorrentAlert id infoHash
  | .addTorrentError id infoHash reason => s.addTorrentError id infoHash reason
  | .metadataReceived _ infoHash => { s with tables := s.tables.handleMetadataReceived infoHash }
  | .removeTorrent id => { s with tables := s.tables.removeTorrent id }

def Possible : ManagerEvent Params → Prop
  | .restoreTorrent infoHash =>
    s.isRestored = false ∧ s.tables.Possible (.addTorrentAlert infoHash)
  | .downloadFinished request _ => request ∈ s.downloads
  | .addTorrentAlert id infoHash =>
    id ∈ s.tables.loadingTorrents ∧ s.tables.Possible (.addTorrentAlert infoHash)
  | .addTorrentError id _ _ => id ∈ s.tables.loadingTorrents
  | .metadataReceived prevInfoHash infoHash =>
    s.tables.Possible (.metadataReceived prevInfoHash infoHash)
  | .restored | .addTorrent .. | .sessionAddTorrent _ | .removeTorrent _ => True

instance : DecidablePred s.Possible := fun e => by
  cases e <;> unfold Possible <;> infer_instance

end State

/-- The runs of the manager with a session. -/
def machine (hasSupportedScheme : String → Bool) (parse : String → Option InfoHash) :
    Machine (State Params) (ManagerEvent Params) :=
  .guarded State.Possible (State.next hasSupportedScheme parse)

namespace State

variable (s : State Params)

/-- The request is downloaded, or its torrent is being added. -/
def InFlight (request : ℕ) : Prop :=
  request ∈ s.downloads ∨ ∃ id, s.adding.lookup id = some request

def answersOf (request : ℕ) : List String :=
  s.reports.filterMap fun report => if report.request = some request then some report.source else none

end State

/-- Each request is processed with its own parameters, and is reported once, when it is not under way
any more, and under its own source. -/
structure Answered (s : State Params) : Prop where
  processed : ∀ p ∈ s.processed, (s.requests[p.1]?).map (·.params) = some p.2
  inFlight : ∀ i r, s.requests[i]? = some r → s.InFlight i → s.answersOf i = []
  answered : ∀ i r, s.requests[i]? = some r → ¬s.InFlight i → s.answersOf i = [r.source]
  about : ∀ report ∈ s.reports, ∃ i, report.request = some i ∧ i < s.requests.length

namespace State

variable (hasSupportedScheme : String → Bool) (parse : String → Option InfoHash) (s : State Params)

/-- The torrent is one of the session's, or the session takes it. -/
def Takes (infoHash : InfoHash) : Prop :=
  (s.tables.findTorrent infoHash).isSome ∨ (s.isRestored = true ∧ s.tables.isLoading infoHash = false)
  deriving Decidable

/-- The torrent that a source stands for, other than a URL. -/
def descriptor (source : String) (loaded : Option InfoHash) : Option InfoHash :=
  (parse source).or (if isMagnet source then none else loaded)

/-- The URL is not downloaded, or neither request has parameters. -/
def NotDownloading [DecidableEq Params] (source : String) (params : Params) : Prop :=
  ∀ request ∈ s.downloads.keys, s.downloads.lookup request = some source →
    params = default ∧ (s.requests[request]?).map (·.params) = some default
  deriving Decidable

/-- The condition on what happens: a URL that is downloaded is not requested again, the session takes
the torrents of requests, and they keep their info-hashes while they are added; nobody else adds such
a torrent; and downloads are not too large. -/
def Apart [DecidableEq Params] : ManagerEvent Params → Prop
  | .addTorrent source params loaded =>
    if hasSupportedScheme source then s.NotDownloading source params
    else ∀ infoHash ∈ descriptor parse source loaded, s.Takes infoHash
  | .downloadFinished _ result =>
    result ≠ .tooLarge ∧ ∀ infoHash, result = .torrent infoHash → s.Takes infoHash
  | .sessionAddTorrent infoHash => infoHash ∉ s.sourcesByInfoHash
  | .addTorrentAlert id infoHash | .addTorrentError id infoHash _ =>
    s.tables.loadingTorrents.lookup id = some infoHash
  | .restoreTorrent _ | .restored | .metadataReceived .. | .removeTorrent _ => True

instance [DecidableEq Params] : DecidablePred (s.Apart hasSupportedScheme parse)
  | .addTorrent source params loaded =>
    if h : hasSupportedScheme source then
      decidable_of_iff (s.NotDownloading source params) (by rw [Apart, if_pos h])
    else
      have : Decidable (∀ infoHash ∈ descriptor parse source loaded, s.Takes infoHash) :=
        (descriptor parse source loaded).decidableForallMem
      decidable_of_iff (∀ infoHash ∈ descriptor parse source loaded, s.Takes infoHash)
        (by rw [Apart, if_neg h])
  | .downloadFinished _ (.torrent infoHash) =>
    decidable_of_iff (s.Takes infoHash) (by simp [Apart])
  | .downloadFinished _ .failed => isTrue (by simp [Apart])
  | .downloadFinished _ .tooLarge => isFalse (by simp [Apart])
  | .sessionAddTorrent _ => inferInstanceAs (Decidable (_ ∉ _))
  | .addTorrentAlert .. | .addTorrentError .. => inferInstanceAs (Decidable (_ = _))
  | .restoreTorrent _ | .restored | .metadataReceived .. | .removeTorrent _ => isTrue trivial

end State

/-! ### The invariant -/

open State

/-- What is under way is in the tables of the manager, under its source or its info-hash.  The request
`exempt` is neither under way nor reported. -/
structure InvBut (exempt : Option ℕ) (s : State Params) : Prop where
  processed : ∀ p ∈ s.processed, (s.requests[p.1]?).map (·.params) = some p.2
  inFlight : ∀ i r, s.requests[i]? = some r → s.InFlight i → s.answersOf i = []
  answered : ∀ i r, s.requests[i]? = some r → ¬s.InFlight i → some i ≠ exempt →
    s.answersOf i = [r.source]
  about : ∀ report ∈ s.reports, ∃ i, report.request = some i ∧ i < s.requests.length
  exempted : ∀ i ∈ exempt, i < s.requests.length ∧ ¬s.InFlight i ∧ s.answersOf i = []
  nonempty : ∀ r ∈ s.requests, r.source ≠ ""
  downloads : ∀ i source, s.downloads.lookup i = some source →
    ∃ r, s.requests[i]? = some r ∧ r.source = source ∧
      (s.downloadedTorrents.lookup source).getD default = r.params
  same : ∀ i i' source r, s.downloads.lookup i = some source →
    s.downloads.lookup i' = some source → i ≠ i' → s.requests[i]? = some r → r.params = default
  loading : ∀ id h, s.tables.loadingTorrents.lookup id = some h → h.toTorrentID = id
  adding : ∀ id i, s.adding.lookup id = some i → i ∉ s.downloads ∧
    ∃ h r, s.tables.loadingTorrents.lookup id = some h ∧ s.requests[i]? = some r ∧
      s.sourcesByInfoHash.lookup h = some r.source
  once : ∀ id id' i, s.adding.lookup id = some i → s.adding.lookup id' = some i → id = id'
  sources : ∀ h source, s.sourcesByInfoHash.lookup h = some source →
    s.tables.loadingTorrents.lookup h.toTorrentID = some h ∧ h.toTorrentID ∈ s.adding

theorem InvBut.answeredAll {s : State Params} (hs : InvBut none s) : Answered s :=
  { hs with answered := fun i r hr hnot => hs.answered i r hr hnot (by simp) }

section steps

variable {s : State Params} {i : ℕ} {r : Request Params} {tables t t' : Tables} {id : Digest}
  {h : InfoHash} {exempt : Option ℕ} {source : String}

omit [Inhabited Params] in
theorem answersOf_report (s : State Params) (source : String) (outcome : Outcome)
    (request : Option ℕ) (i : ℕ) :
    (s.report source outcome request).answersOf i =
      s.answersOf i ++ if request = some i then [source] else [] := by
  rw [answersOf, report, filterMap_append, filterMap_cons, filterMap_nil]
  split_ifs <;> rfl

theorem InvBut.report (hs : InvBut (some i) s) (hr : s.requests[i]? = some r) (outcome : Outcome) :
    InvBut none (s.report r.source outcome (some i)) := by
  obtain ⟨hlt, hidle, hempty⟩ := hs.exempted i rfl
  refine { hs with
    inFlight := fun j r' hr' hj => ?_
    answered := fun j r' hr' hj _ => ?_
    about := fun report hreport => ?_
    exempted := fun j hj => ?_ }
  · have hne : i ≠ j := by
      rintro rfl
      exact hidle hj
    rw [answersOf_report, if_neg (by simpa using hne), append_nil]
    exact hs.inFlight j r' hr' hj
  · rw [answersOf_report]
    by_cases heq : i = j
    · subst heq
      have hsame : r' = r := by
        rw [State.report, hr] at hr'
        exact (some.inj hr').symm
      rw [if_pos rfl, hempty, hsame]
      rfl
    · rw [if_neg (by simpa using heq), append_nil]
      exact hs.answered j r' hr' hj (by simpa using Ne.symm heq)
  · rcases mem_append.1 hreport with hreport | hreport
    · exact hs.about report hreport
    · rw [mem_singleton.1 hreport]
      exact ⟨i, rfl, hlt⟩
  · cases hj

theorem InvBut.setTables (hs : InvBut exempt s)
    (hloading : tables.loadingTorrents = s.tables.loadingTorrents) (isRestored : Bool) :
    InvBut exempt { s with tables := tables, isRestored := isRestored } := by
  refine { hs with
    loading := fun id h hid => ?_
    adding := fun id i hi => ?_
    sources := fun h source hsource => ?_ }
  · rw [hloading] at hid
    exact hs.loading id h hid
  · rw [hloading]
    exact hs.adding id i hi
  · rw [hloading]
    exact hs.sources h source hsource

theorem InvBut.finishAdding (hs : InvBut none s) (hi : s.adding.lookup id = some i)
    (hh : s.tables.loadingTorrents.lookup id = some h)
    (hloading : tables.loadingTorrents = s.tables.loadingTorrents.erase id) :
    InvBut (some i) { s with
      tables := tables
      adding := s.adding.erase id
      sourcesByInfoHash := s.sourcesByInfoHash.erase h } := by
  have hid : h.toTorrentID = id := hs.loading id h hh
  obtain ⟨hdownloads, h', r, hh', hr, hsource⟩ := hs.adding id i hi
  have hlt : i < s.requests.length := (List.getElem?_eq_some_iff.1 hr).1
  have hadding : ∀ id' j, (s.adding.erase id).lookup id' = some j →
      id' ≠ id ∧ s.adding.lookup id' = some j := by
    intro id' j hj
    rw [lookup_erase_eq] at hj
    split_ifs at hj with heq
    exact ⟨heq, hj⟩
  have hflight : ∀ j, ({ s with
      tables := tables
      adding := s.adding.erase id
      sourcesByInfoHash := s.sourcesByInfoHash.erase h } : State Params).InFlight j ↔
        s.InFlight j ∧ j ≠ i := by
    intro j
    constructor
    · rintro (hj | ⟨id', hj⟩)
      · exact ⟨.inl hj, fun heq => hdownloads (heq ▸ hj)⟩
      · obtain ⟨hne, hj⟩ := hadding id' j hj
        exact ⟨.inr ⟨id', hj⟩, fun heq => hne (hs.once id' id i (heq ▸ hj) hi)⟩
    · rintro ⟨hj | ⟨id', hj⟩, hne⟩
      · exact .inl hj
      · refine .inr ⟨id', (lookup_erase_ne ?_).trans hj⟩
        rintro rfl
        exact hne (some.inj (hj.symm.trans hi))
  refine ⟨hs.processed, fun j r' hr' hj => hs.inFlight j r' hr' ((hflight j).1 hj).1,
    fun j r' hr' hj hne => ?_, hs.about, fun j hj => ?_, hs.nonempty, hs.downloads, hs.same,
    fun id' h' hh' => ?_, fun id' j hj => ?_, fun id₁ id₂ j h₁ h₂ => ?_,
    fun h' source hsource' => ?_⟩
  · refine hs.answered j r' hr' (fun h => hj ((hflight j).2 ⟨h, fun heq => hne ?_⟩)) (by simp)
    rw [heq]
  · cases hj
    exact ⟨hlt, fun h => ((hflight i).1 h).2 rfl, hs.inFlight i r hr (.inr ⟨id, hi⟩)⟩
  · rw [hloading, lookup_erase_eq] at hh'
    split_ifs at hh'
    exact hs.loading id' h' hh'
  · obtain ⟨hne, hj⟩ := hadding id' j hj
    obtain ⟨hfree, h₁, r₁, hh₁, hr₁, hsource₁⟩ := hs.adding id' j hj
    refine ⟨hfree, h₁, r₁, ?_, hr₁, ?_⟩
    · rw [hloading, lookup_erase_ne hne]
      exact hh₁
    · refine (lookup_erase_ne ?_).trans hsource₁
      rintro rfl
      exact hne ((hs.loading id' h₁ hh₁).symm.trans hid)
  · exact hs.once id₁ id₂ j (hadding id₁ j h₁).2 (hadding id₂ j h₂).2
  · rw [lookup_erase_eq] at hsource'
    split_ifs at hsource' with heq
    obtain ⟨hloaded, hmem⟩ := hs.sources h' source hsource'
    have hne : h'.toTorrentID ≠ id := by
      intro hid'
      rw [hid', hh] at hloaded
      exact heq (some.inj hloaded).symm
    rw [hloading, lookup_erase_ne hne]
    exact ⟨hloaded, mem_erase.2 ⟨hne, hmem⟩⟩

theorem InvBut.finishOther (hs : InvBut none s) (hid : s.adding.lookup id = none)
    (hloading : tables.loadingTorrents = s.tables.loadingTorrents.erase id) :
    InvBut none { s with tables := tables, adding := s.adding.erase id } := by
  have herase : s.adding.erase id = s.adding := by
    refine ext_lookup fun id' => ?_
    rw [lookup_erase_eq]
    split_ifs with heq
    · rw [heq, hid]
    · rfl
  have hne : ∀ id' j, s.adding.lookup id' = some j → id' ≠ id := by
    rintro id' j hj rfl
    rw [hid] at hj
    cases hj
  rw [herase]
  refine { hs with
    loading := fun id' h hh => ?_
    adding := fun id' i hi => ?_
    sources := fun h source hsource => ?_ }
  · rw [hloading, lookup_erase_eq] at hh
    split_ifs at hh
    exact hs.loading id' h hh
  · rw [hloading, lookup_erase_ne (hne id' i hi)]
    exact hs.adding id' i hi
  · obtain ⟨hloaded, hmem⟩ := hs.sources h source hsource
    obtain ⟨j, hj⟩ := mem_iff.1 hmem
    rw [hloading, lookup_erase_ne (hne _ j hj)]
    exact ⟨hloaded, hmem⟩

theorem InvBut.onSessionSignal (hs : InvBut none s)
    (hh : s.tables.loadingTorrents.lookup id = some h)
    (hloading : tables.loadingTorrents = s.tables.loadingTorrents.erase id) (outcome : Outcome) :
    InvBut none (({ s with tables := tables, adding := s.adding.erase id } :
      State Params).onSessionSignal h outcome (s.adding.lookup id)) := by
  have hid : h.toTorrentID = id := hs.loading id h hh
  cases hi : s.adding.lookup id with
  | none =>
    have hnone : s.sourcesByInfoHash.lookup h = none := by
      cases hsource : s.sourcesByInfoHash.lookup h with
      | none => rfl
      | some source =>
        have hmem := (hs.sources h source hsource).2
        rw [hid, mem_iff] at hmem
        obtain ⟨j, hj⟩ := hmem
        rw [hi] at hj
        cases hj
    rw [State.onSessionSignal]
    rw [hnone]
    exact hs.finishOther hi hloading
  | some i =>
    obtain ⟨-, h', r, hh', hr, hsource⟩ := hs.adding id i hi
    cases hh.symm.trans hh'
    have hne : r.source ≠ "" := hs.nonempty r (mem_of_getElem? hr)
    rw [State.onSessionSignal]
    rw [hsource]
    dsimp only
    rw [if_neg hne]
    exact (hs.finishAdding hi hh hloading).report hr outcome

theorem notMem_loadingTorrents (hloading : t.isLoading h = false) :
    h.toTorrentID ∉ t.loadingTorrents := by
  rw [isLoading, Bool.or_eq_false_iff] at hloading
  exact of_decide_eq_false hloading.1

theorem addTorrent_eq_some (hloading : t.isLoading h = false)
    (hfound : (t.findTorrent h).isSome = false) : ∃ t', t.addTorrent h = some t' := by
  rw [Tables.addTorrent, hloading, hfound, if_neg Bool.false_ne_true, if_neg Bool.false_ne_true]
  exact ⟨_, rfl⟩

theorem loadingTorrents_of_addTorrent (ht' : t.addTorrent h = some t') :
    t'.loadingTorrents = t.loadingTorrents.insert h.toTorrentID h := by
  rw [eq_of_addTorrent ht']

theorem loadingTorrents_handleMetadataReceived (t : Tables) (h : InfoHash) :
    (t.handleMetadataReceived h).loadingTorrents = t.loadingTorrents := by
  rw [handleMetadataReceived]
  cases t.metadataTarget h with
  | none => rfl
  | some torrent =>
    dsimp only
    cases t.objects.lookup torrent with
    | none => rfl
    | some prevInfoHash =>
      dsimp only
      split_ifs
      · rw [handleTorrentInfoHashChanged]
        split_ifs
        · cases t.torrents.lookup prevInfoHash.toTorrentID <;> rfl
        · rfl
      · rfl

omit [Inhabited Params] in
theorem sessionAddTorrent_of_eq_some (hrestored : s.isRestored = true)
    (ht' : s.tables.addTorrent h = some t') (request : Option ℕ) :
    s.sessionAddTorrent h request =
      ({ s with
        tables := t'
        adding := request.elim s.adding (s.adding.insert h.toTorrentID) }, true) := by
  rw [sessionAddTorrent, if_neg (by rw [hrestored]; decide), ht']

theorem InvBut.insertLoading (hs : InvBut exempt s)
    (hnew : h.toTorrentID ∉ s.tables.loadingTorrents)
    (hloading : tables.loadingTorrents = s.tables.loadingTorrents.insert h.toTorrentID h) :
    InvBut exempt { s with tables := tables } := by
  have hold : ∀ id h', s.tables.loadingTorrents.lookup id = some h' →
      tables.loadingTorrents.lookup id = some h' := by
    intro id h' hh'
    rw [hloading]
    refine (lookup_insert_of_ne _ ?_).trans hh'
    rintro rfl
    exact hnew (mem_of_lookup_eq_some hh')
  refine { hs with
    loading := fun id h' hh' => ?_
    adding := fun id i hi => ?_
    sources := fun h' source hsource => ?_ }
  · rw [hloading, lookup_insert_eq] at hh'
    split_ifs at hh' with hid
    · cases hh'
      exact hid.symm
    · exact hs.loading id h' hh'
  · obtain ⟨hfree, h', r, hh', hr, hsource⟩ := hs.adding id i hi
    exact ⟨hfree, h', r, hold id h' hh', hr, hsource⟩
  · obtain ⟨hloaded, hmem⟩ := hs.sources h' source hsource
    exact ⟨hold _ h' hloaded, hmem⟩

theorem InvBut.insertAdding (hs : InvBut (some i) s) (hr : s.requests[i]? = some r)
    (hh : s.tables.loadingTorrents.lookup h.toTorrentID = some h)
    (hnew : h.toTorrentID ∉ s.adding) :
    InvBut none { s with
      adding := s.adding.insert h.toTorrentID i
      sourcesByInfoHash := s.sourcesByInfoHash.insert h r.source } := by
  obtain ⟨hlt, hidle, hempty⟩ := hs.exempted i rfl
  have hadding : ∀ id j, (s.adding.insert h.toTorrentID i).lookup id = some j →
      id = h.toTorrentID ∧ j = i ∨ id ≠ h.toTorrentID ∧ j ≠ i ∧ s.adding.lookup id = some j := by
    intro id j hj
    rw [lookup_insert_eq] at hj
    split_ifs at hj with hid
    · exact .inl ⟨hid, (some.inj hj).symm⟩
    · exact .inr ⟨hid, fun heq => hidle (.inr ⟨id, heq ▸ hj⟩), hj⟩
  refine ⟨hs.processed, fun j r' hr' hj => ?_, fun j r' hr' hj _ => ?_, hs.about, fun j hj => ?_,
    hs.nonempty, hs.downloads, hs.same, hs.loading, fun id j hj => ?_, fun id₁ id₂ j h₁ h₂ => ?_,
    fun h' source hsource => ?_⟩
  · by_cases heq : j = i
    · rw [heq]
      exact hempty
    · refine hs.inFlight j r' hr' (hj.imp_right ?_)
      rintro ⟨id, hid⟩
      rcases hadding id j hid with ⟨-, rfl⟩ | ⟨-, -, hid⟩
      · exact absurd rfl heq
      · exact ⟨id, hid⟩
  · have hne : j ≠ i := by
      rintro rfl
      exact hj (.inr ⟨h.toTorrentID, lookup_insert _⟩)
    refine hs.answered j r' hr' (fun hflight => hj (hflight.imp_right ?_)) (by simpa using hne)
    rintro ⟨id, hid⟩
    refine ⟨id, (lookup_insert_of_ne _ ?_).trans hid⟩
    rintro rfl
    exact hnew (mem_of_lookup_eq_some hid)
  · cases hj
  · rcases hadding id j hj with ⟨rfl, rfl⟩ | ⟨hid, -, hj⟩
    · exact ⟨fun hmem => hidle (.inl hmem), h, r, hh, hr, lookup_insert _⟩
    · obtain ⟨hfree, h', r', hh', hr', hsource⟩ := hs.adding id j hj
      refine ⟨hfree, h', r', hh', hr', (lookup_insert_of_ne _ ?_).trans hsource⟩
      rintro rfl
      exact hid (hs.loading id h' hh').symm
  · rcases hadding id₁ j h₁ with ⟨rfl, rfl⟩ | ⟨-, hj, h₁⟩
    · rcases hadding id₂ j h₂ with ⟨rfl, -⟩ | ⟨-, hj, -⟩
      · rfl
      · exact absurd rfl hj
    · rcases hadding id₂ j h₂ with ⟨-, rfl⟩ | ⟨-, -, h₂⟩
      · exact absurd rfl hj
      · exact hs.once id₁ id₂ j h₁ h₂
  · rw [lookup_insert_eq] at hsource
    split_ifs at hsource with heq
    · rw [heq]
      exact ⟨hh, mem_insert.2 (.inl rfl)⟩
    · obtain ⟨hloaded, hmem⟩ := hs.sources h' source hsource
      exact ⟨hloaded, mem_insert.2 (.inr hmem)⟩

theorem InvBut.addTorrentToSession (hs : InvBut (some i) s) (hr : s.requests[i]? = some r)
    (hrestored : s.isRestored = true) (hloading : s.tables.isLoading h = false)
    (hfound : (s.tables.findTorrent h).isSome = false) :
    InvBut none (s.addTorrentToSession r.source h i) := by
  obtain ⟨t', ht'⟩ := addTorrent_eq_some hloading hfound
  have hnew := notMem_loadingTorrents hloading
  have hloading' := loadingTorrents_of_addTorrent ht'
  have hinserted := hs.insertLoading hnew hloading'
  rw [State.addTorrentToSession, sessionAddTorrent_of_eq_some hrestored ht']
  refine hinserted.insertAdding hr ?_ fun hmem => ?_
  · rw [hloading']
    exact lookup_insert _
  · obtain ⟨j, hj⟩ := mem_iff.1 hmem
    obtain ⟨-, h', r', hh', -⟩ := hs.adding _ j hj
    exact hnew (mem_of_lookup_eq_some hh')

theorem InvBut.processTorrent (hs : InvBut (some i) s) (hr : s.requests[i]? = some r)
    (htakes : s.Takes h) : InvBut none (s.processTorrent r.source h r.params i) := by
  have hprocessed : InvBut (some i) { s with processed := s.processed ++ [(i, r.params)] } := by
    refine { hs with processed := fun p hp => ?_ }
    rcases mem_append.1 hp with hp | hp
    · exact hs.processed p hp
    · rw [mem_singleton.1 hp]
      rw [hr]
      rfl
  rw [State.processTorrent]
  split_ifs with hfound
  · exact hprocessed.report hr _
  · obtain ⟨hrestored, hloading⟩ := htakes.resolve_left hfound
    exact hprocessed.addTorrentToSession hr hrestored hloading (Bool.eq_false_iff.2 hfound)

theorem InvBut.push (hs : InvBut none s) (hne : r.source ≠ "") :
    InvBut (some s.requests.length) { s with requests := s.requests ++ [r] } := by
  have hold : ∀ {i : ℕ} {r' : Request Params}, s.requests[i]? = some r' → (s.requests ++ [r])[i]? = some r' := by
    intro i r' hr'
    rw [getElem?_append_left (List.getElem?_eq_some_iff.1 hr').1]
    exact hr'
  have hsplit : ∀ {i : ℕ} {r' : Request Params}, (s.requests ++ [r])[i]? = some r' → i ≠ s.requests.length →
      s.requests[i]? = some r' := by
    intro i r' hr' hi
    have hlt : i < s.requests.length := by
      have := (List.getElem?_eq_some_iff.1 hr').1
      rw [length_append, length_singleton] at this
      omega
    rwa [getElem?_append_left hlt] at hr'
  have hidle : ¬s.InFlight s.requests.length := by
    rintro (hmem | ⟨id, hid⟩)
    · obtain ⟨source, hsource⟩ := mem_iff.1 hmem
      obtain ⟨r', hr', -⟩ := hs.downloads _ source hsource
      exact Nat.lt_irrefl _ (List.getElem?_eq_some_iff.1 hr').1
    · obtain ⟨-, h', r', -, hr', -⟩ := hs.adding id _ hid
      exact Nat.lt_irrefl _ (List.getElem?_eq_some_iff.1 hr').1
  have hempty : s.answersOf s.requests.length = [] := by
    refine filterMap_eq_nil_iff.2 fun report hreport => if_neg fun heq => ?_
    obtain ⟨i, hi, hlt⟩ := hs.about report hreport
    rw [hi] at heq
    exact absurd (some.inj heq) (Nat.ne_of_lt hlt)
  refine ⟨fun p hp => ?_, fun i r' hr' hi => ?_, fun i r' hr' hi hex => ?_, fun report hreport => ?_,
    fun i hi => ?_, fun r' hr' => ?_, fun i source hsource => ?_,
    fun i i' source r' hi hi' hii hr' => ?_, hs.loading, fun id i hi => ?_, hs.once, hs.sources⟩
  · obtain ⟨r', hr', hparams⟩ := map_eq_some_iff.1 (hs.processed p hp)
    rw [hold hr', map_some, hparams]
  · refine hs.inFlight i r' (hsplit hr' ?_) hi
    rintro rfl
    exact hidle hi
  · exact hs.answered i r' (hsplit hr' fun heq => hex (by rw [heq])) hi (by simp)
  · obtain ⟨i, hi, hlt⟩ := hs.about report hreport
    refine ⟨i, hi, ?_⟩
    rw [length_append]
    omega
  · cases hi
    refine ⟨?_, hidle, hempty⟩
    rw [length_append, length_singleton]
    omega
  · rcases mem_append.1 hr' with hr' | hr'
    · exact hs.nonempty r' hr'
    · rw [mem_singleton.1 hr']
      exact hne
  · obtain ⟨r', hr', hrest⟩ := hs.downloads i source hsource
    exact ⟨r', hold hr', hrest⟩
  · obtain ⟨r₁, hr₁, -⟩ := hs.downloads i source hi
    cases (hold hr₁).symm.trans hr'
    exact hs.same i i' source _ hi hi' hii hr₁
  · obtain ⟨hfree, h', r', hh', hr', hsource⟩ := hs.adding id i hi
    exact ⟨hfree, h', r', hh', hold hr', hsource⟩

theorem InvBut.download [DecidableEq Params] (hs : InvBut (some i) s) (hr : s.requests[i]? = some r)
    (hnot : s.NotDownloading r.source r.params) :
    InvBut none { s with
      downloads := s.downloads.insert i r.source
      downloadedTorrents := s.downloadedTorrents.insert r.source r.params } := by
  obtain ⟨hlt, hidle, hempty⟩ := hs.exempted i rfl
  have hdownloads : ∀ j source, (s.downloads.insert i r.source).lookup j = some source →
      j = i ∧ source = r.source ∨ j ≠ i ∧ s.downloads.lookup j = some source := by
    intro j source hj
    rw [lookup_insert_eq] at hj
    split_ifs at hj with hji
    · exact .inl ⟨hji, (some.inj hj).symm⟩
    · exact .inr ⟨hji, hj⟩
  have hdefault : ∀ j r', s.downloads.lookup j = some r.source → s.requests[j]? = some r' →
      r.params = default ∧ r'.params = default := by
    intro j r' hj hr'
    obtain ⟨hparams, hparams'⟩ :=
      hnot j (mem_keys.2 (mem_of_lookup_eq_some hj)) hj
    rw [hr', map_some] at hparams'
    exact ⟨hparams, some.inj hparams'⟩
  refine ⟨hs.processed, fun j r' hr' hj => ?_, fun j r' hr' hj _ => ?_, hs.about, fun j hj => ?_,
    hs.nonempty, fun j source hj => ?_, fun j j' source r' hj hj' hne hr' => ?_, hs.loading,
    fun id j hj => ?_, hs.once, hs.sources⟩
  · by_cases heq : j = i
    · rw [heq]
      exact hempty
    · refine hs.inFlight j r' hr' (hj.imp_left fun hmem => ?_)
      exact (mem_insert.1 hmem).resolve_left heq
  · have hne : j ≠ i := by
      rintro rfl
      exact hj (.inl (mem_insert.2 (.inl rfl)))
    refine hs.answered j r' hr' (fun hflight => hj (hflight.imp_left fun hmem => ?_))
      (by simpa using hne)
    exact mem_insert.2 (.inr hmem)
  · cases hj
  · rcases hdownloads j source hj with ⟨rfl, rfl⟩ | ⟨-, hj⟩
    · refine ⟨r, hr, rfl, ?_⟩
      rw [lookup_insert]
      rfl
    · obtain ⟨r', hr', hsource, hparams⟩ := hs.downloads j source hj
      refine ⟨r', hr', hsource, ?_⟩
      rw [lookup_insert_eq]
      split_ifs with heq
      · rw [heq] at hj
        obtain ⟨h₁, h₂⟩ := hdefault j r' hj hr'
        rw [getD_some, h₁, h₂]
      · exact hparams
  · rcases hdownloads j source hj with ⟨rfl, rfl⟩ | ⟨-, hj⟩
    · rcases hdownloads j' _ hj' with ⟨rfl, -⟩ | ⟨-, hj'⟩
      · exact absurd rfl hne
      · obtain ⟨r₁, hr₁, -⟩ := hs.downloads j' _ hj'
        cases hr.symm.trans hr'
        exact (hdefault j' r₁ hj' hr₁).1
    · rcases hdownloads j' source hj' with ⟨-, rfl⟩ | ⟨-, hj'⟩
      · exact (hdefault j r' hj hr').2
      · exact hs.same j j' source r' hj hj' hne hr'
  · obtain ⟨hfree, hrest⟩ := hs.adding id j hj
    refine ⟨fun hmem => ?_, hrest⟩
    rcases mem_insert.1 hmem with rfl | hmem
    · exact hidle (.inr ⟨id, hj⟩)
    · exact hfree hmem

theorem InvBut.takeDownload (hs : InvBut none s) (hi : s.downloads.lookup i = some source) :
    InvBut (some i) { s with
      downloads := s.downloads.erase i
      downloadedTorrents := s.downloadedTorrents.erase source } := by
  obtain ⟨r, hr, hsource, -⟩ := hs.downloads i source hi
  have hdownloads : ∀ j source', (s.downloads.erase i).lookup j = some source' →
      j ≠ i ∧ s.downloads.lookup j = some source' := by
    intro j source' hj
    rw [lookup_erase_eq] at hj
    split_ifs at hj with hji
    exact ⟨hji, hj⟩
  have hidle : ∀ id, s.adding.lookup id ≠ some i := fun id hid =>
    (hs.adding id i hid).1 (mem_of_lookup_eq_some hi)
  refine ⟨hs.processed, fun j r' hr' hj => ?_, fun j r' hr' hj hex => ?_, hs.about, fun j hj => ?_,
    hs.nonempty, fun j source' hj => ?_, fun j j' source' r' hj hj' => ?_, hs.loading,
    fun id j hj => ?_, hs.once, hs.sources⟩
  · exact hs.inFlight j r' hr' (hj.imp_left fun hmem => (mem_erase.1 hmem).2)
  · have hne : j ≠ i := fun heq => hex (by rw [heq])
    refine hs.answered j r' hr' (fun hflight => hj (hflight.imp_left fun hmem => ?_)) (by simp)
    exact mem_erase.2 ⟨hne, hmem⟩
  · cases hj
    refine ⟨(List.getElem?_eq_some_iff.1 hr).1, ?_,
      hs.inFlight i r hr (.inl (mem_of_lookup_eq_some hi))⟩
    rintro (hmem | ⟨id, hid⟩)
    · exact (mem_erase.1 hmem).1 rfl
    · exact hidle id hid
  · obtain ⟨hne, hj⟩ := hdownloads j source' hj
    obtain ⟨r', hr', hsource', hparams⟩ := hs.downloads j source' hj
    refine ⟨r', hr', hsource', ?_⟩
    rw [lookup_erase_eq]
    split_ifs with heq
    · rw [heq] at hj
      exact (hs.same j i source r' hj hi hne hr').symm
    · exact hparams
  · exact hs.same j j' source' r' (hdownloads j source' hj).2 (hdownloads j' source' hj').2
  · obtain ⟨hfree, hrest⟩ := hs.adding id j hj
    exact ⟨fun hmem => hfree (mem_erase.1 hmem).2, hrest⟩

variable [DecidableEq Params] {hasSupportedScheme : String → Bool}
  {parse : String → Option InfoHash}

theorem InvBut.addTorrent (hs : InvBut none s) {params : Params} {loaded : Option InfoHash}
    (hapart : s.Apart hasSupportedScheme parse (.addTorrent source params loaded)) :
    InvBut none (s.addTorrent hasSupportedScheme parse source params loaded) := by
  rw [State.addTorrent]
  by_cases hempty : source = ""
  · rw [if_pos hempty]
    exact hs
  · have hpush := hs.push (r := ⟨source, params⟩) hempty
    have hr : (s.requests ++ [⟨source, params⟩])[s.requests.length]? = some ⟨source, params⟩ :=
      getElem?_concat_length
    rw [if_neg hempty]
    rw [Apart] at hapart
    by_cases hurl : hasSupportedScheme source = true
    · rw [if_pos hurl] at hapart ⊢
      refine hpush.download hr fun request hmem hrequest => ?_
      obtain ⟨hdefault, hparams⟩ := hapart request hmem hrequest
      obtain ⟨r', hr', hparams'⟩ := map_eq_some_iff.1 hparams
      refine ⟨hdefault, ?_⟩
      rw [getElem?_append_left (List.getElem?_eq_some_iff.1 hr').1]
      exact hparams
    · rw [if_neg hurl] at hapart ⊢
      cases hparse : parse source with
      | some h =>
        refine hpush.processTorrent hr (hapart h ?_)
        rw [descriptor, hparse]
        rfl
      | none =>
        by_cases hmagnet : isMagnet source = true
        · rw [if_pos hmagnet]
          exact hpush.report hr _
        · rw [if_neg hmagnet]
          cases loaded with
          | none => exact hpush.report hr _
          | some h =>
            refine hpush.processTorrent hr (hapart h ?_)
            rw [descriptor, hparse, if_neg hmagnet]
            rfl

theorem InvBut.downloadFinished (hs : InvBut none s) {result : DownloadResult}
    (hapart : s.Apart hasSupportedScheme parse (.downloadFinished i result)) :
    InvBut none (s.downloadFinished i result) := by
  rw [State.downloadFinished]
  cases hi : s.downloads.lookup i with
  | none => exact hs
  | some source =>
    obtain ⟨r, hr, rfl, hparams⟩ := hs.downloads i source hi
    have htaken := hs.takeDownload hi
    cases result with
    | torrent h =>
      dsimp only
      rw [onDownloadFinished]
      rw [hparams]
      exact htaken.processTorrent hr (hapart.2 h rfl)
    | failed => exact htaken.report hr _
    | tooLarge => exact absurd rfl hapart.1

theorem InvBut.next (hs : InvBut none s) (e : ManagerEvent Params) (hpossible : s.Possible e)
    (hapart : s.Apart hasSupportedScheme parse e) :
    InvBut none (s.next hasSupportedScheme parse e) := by
  cases e with
  | restoreTorrent h =>
    exact hs.setTables
      (show (s.tables.createTorrent h).loadingTorrents = s.tables.loadingTorrents from rfl)
      s.isRestored
  | restored => exact hs.setTables rfl true
  | addTorrent source params loaded => exact hs.addTorrent hapart
  | downloadFinished i result => exact hs.downloadFinished hapart
  | sessionAddTorrent h =>
    have hnone : s.sourcesByInfoHash.lookup h = none := lookup_eq_none.2 hapart
    rw [State.next, sessionAddTorrent]
    by_cases hrestored : s.isRestored = false
    · rw [if_pos hrestored]
      exact hs
    · rw [if_neg hrestored]
      cases hadd : s.tables.addTorrent h with
      | none =>
        rw [State.onSessionSignal, hnone]
        exact hs
      | some t' =>
        refine hs.insertLoading ?_ (loadingTorrents_of_addTorrent hadd)
        refine notMem_loadingTorrents (Bool.eq_false_iff.2 fun hloading => ?_)
        rw [Tables.addTorrent, if_pos hloading] at hadd
        cases hadd
  | addTorrentAlert id h =>
    have hid : h.toTorrentID = id := hs.loading id h hapart
    have hmem : h.toTorrentID ∈ s.tables.loadingTorrents := by
      rw [hid]
      exact mem_of_lookup_eq_some hapart
    rw [State.next, addTorrentAlert, if_pos hmem]
    refine hs.onSessionSignal hapart ?_ _
    rw [handleAddTorrentAlert, if_pos hmem, hid]
    rfl
  | addTorrentError id h reason =>
    have hid : h.toTorrentID = id := hs.loading id h hapart
    have hmem : h.toTorrentID ∈ s.tables.loadingTorrents := by
      rw [hid]
      exact mem_of_lookup_eq_some hapart
    rw [State.next, addTorrentError, if_pos hmem]
    refine hs.onSessionSignal hapart ?_ _
    rw [handleAddTorrentError, hid]
  | metadataReceived prevInfoHash h =>
    exact hs.setTables (loadingTorrents_handleMetadataReceived s.tables h) s.isRestored
  | removeTorrent id =>
    refine hs.setTables ?_ s.isRestored
    rw [removeTorrent]
    cases s.tables.torrents.lookup id <;> rfl

omit [DecidableEq Params] in
theorem InvBut.init : InvBut none ({} : State Params) := by
  refine ⟨fun p hp => ?_, fun i r hr => ?_, fun i r hr => ?_, fun report hreport => ?_, fun i hi => ?_,
    fun r hr => ?_, fun i source hi => ?_, fun i i' source r hi => ?_, fun id h hh => ?_,
    fun id i hi => ?_, fun id id' i hi => ?_, fun h source hsource => ?_⟩
  · cases hp
  · cases hr
  · cases hr
  · cases hreport
  · cases hi
  · cases hr
  · cases hi
  · cases hi
  · cases hh
  · cases hi
  · cases hi
  · cases hsource

end steps

/-- **Requests are answered.**  Whatever sources are requested and however downloads and additions
overlap, as long as requests that are under way are apart each one is processed with its own
parameters and reported once, under its own source. -/
theorem answered_of_apart [DecidableEq Params] (hasSupportedScheme : String → Bool)
    (parse : String → Option InfoHash) (es : List (ManagerEvent Params))
    (hapart : (machine hasSupportedScheme parse).Meets
      (fun s e => s.Apart hasSupportedScheme parse e) {} es) :
    (machine hasSupportedScheme parse).Always Answered ({} : State Params) es :=
  Machine.guarded_always InvBut.init (fun _ hs => hs.answeredAll)
    (fun _ e hs hpossible hapart => hs.next e hpossible hapart) hapart

/-- A torrent of a URL and one of a magnet link. -/
def urlHash : InfoHash := ⟨1, 0⟩
def magnetHash : InfoHash := ⟨2, 0⟩

/-- `hasSupportedScheme` and `parse` in the runs below. -/
def isURL (source : String) : Bool := source = "http://a/1.torrent"

def parseMagnet (source : String) : Option InfoHash :=
  if source = "magnet:?xt=2" ∨ source = "magnet:?dn=b&xt=2" then some magnetHash else none

/-- A URL and a magnet link are requested, and a file that is not there. -/
def apartRun : List (ManagerEvent ℕ) :=
  [.restored, .addTorrent "http://a/1.torrent" 1 none, .addTorrent "magnet:?xt=2" 2 none,
    .addTorrent "/none.torrent" 3 none, .downloadFinished 0 (.torrent urlHash),
    .addTorrentAlert 2 magnetHash, .addTorrentError 1 urlHash .other]

theorem answered_of_apart_apartRun :
    ((machine isURL parseMagnet).run {} apartRun).isSome = true ∧
      (machine isURL parseMagnet).Always Answered {} apartRun :=
  ⟨by decide, answered_of_apart _ _ _ (by decide)⟩

/-- Two magnet links for one torrent are requested, the second one while the torrent is being
added. -/
def sharedRun : List (ManagerEvent ℕ) :=
  [.restored, .addTorrent "magnet:?xt=2" 1 none, .addTorrent "magnet:?dn=b&xt=2" 2 none]

/-- The failure of the second request is reported under the source of the first one. -/
theorem sharedRun_not_answered :
    ((machine isURL parseMagnet).run {} sharedRun).isSome = true ∧
      ¬(machine isURL parseMagnet).Always Answered {} sharedRun := by
  refine ⟨by decide, fun h => ?_⟩
  obtain ⟨s, hs⟩ : ∃ s, (machine isURL parseMagnet).run {} sharedRun = some s :=
    isSome_iff_exists.1 (by decide)
  have hend : ∀ s ∈ (machine isURL parseMagnet).run {} sharedRun,
      s.requests[1]? = some ⟨"magnet:?dn=b&xt=2", 2⟩ ∧ s.answersOf 1 = ["magnet:?xt=2"] := by decide
  obtain ⟨hr, hanswers⟩ := hend s hs
  have hanswered := h.at_end hs
  by_cases hflight : s.InFlight 1
  · rw [hanswered.inFlight 1 _ hr hflight] at hanswers
    cases hanswers
  · rw [hanswered.answered 1 _ hr hflight] at hanswers
    exact absurd hanswers (by decide)

end QBittorrent.AddTorrentManager
