import QBittorrent.Session.AddTorrentManager

/-!
# Deletion of torrent files

A `TorrentFileGuard` removes the file of a request when it is destroyed, if it is to.  The manager
keeps the guards of files that have been loaded in `m_guardedTorrentFiles`, under the sources, and
takes them from there when the session reports a torrent.

* `GuardedManager.always_kept` : **files are removed as configured in every run in which the session
  takes the torrents, and sources that are under way are not requested again.**
-/

namespace QBittorrent.AddTorrentManager

open Finmap List Option State Dict

/-- `TorrentFileGuard::AutoDeleteMode` -/
inductive AutoDeleteMode where
  | never | ifAdded | always
  deriving DecidableEq, Inhabited

/-- A `TorrentFileGuard`, with the request that it has been made for. -/
structure TorrentFileGuard where
  request : ℕ
  path : String
  mode : AutoDeleteMode
  remove : Bool := true
  wasAdded : Bool := false

namespace TorrentFileGuard

/-- The constructor. -/
def new (request : ℕ) (path : String) (mode : AutoDeleteMode) : TorrentFileGuard :=
  { request, path := if mode ≠ .never then path else "", mode }

def markAsAddedToSession (guard : TorrentFileGuard) : TorrentFileGuard :=
  { guard with wasAdded := true }

def setAutoRemove (remove : Bool) (guard : TorrentFileGuard) : TorrentFileGuard :=
  { guard with remove }

/-- What the destructors remove, `~TorrentFileGuard` before `~FileGuard`. -/
def destroy (guard : TorrentFileGuard) : List (ℕ × String) :=
  let remove := if guard.wasAdded = false ∧ guard.mode ≠ .always then false else guard.remove
  if remove = true ∧ guard.path ≠ "" then [(guard.request, guard.path)] else []

end TorrentFileGuard

/-- The manager, with its guards and the files that they have removed.  A request has the setting of
its time for a parameter. -/
structure GuardedManager where
  manager : State AutoDeleteMode := {}
  /-- `m_guardedTorrentFiles` -/
  guardedTorrentFiles : Dict String TorrentFileGuard := ∅
  removedFiles : List (ℕ × String) := []

namespace GuardedManager

variable (hasSupportedScheme : String → Bool) (parse : String → Option InfoHash)
  (toLocalFile : String → String) (s : GuardedManager)

/-- The file that a source names; `toLocalFile` is that of `QUrl`. -/
def decodedPath (source : String) : String :=
  if "file://".toList.isPrefixOf (source.toList.map Char.toLower) then toLocalFile source else source

/-- `emplace`, which destroys the value that it replaces. -/
def setTorrentFileGuard (source : String) (guard : TorrentFileGuard) : GuardedManager :=
  { s with
    guardedTorrentFiles := s.guardedTorrentFiles.insert source guard
    removedFiles :=
      s.removedFiles ++ (s.guardedTorrentFiles.lookup source).elim [] TorrentFileGuard.destroy }

/-- What the handlers of the two signals do to the guard. -/
def takeGuard (infoHash : InfoHash) (f : TorrentFileGuard → TorrentFileGuard) : GuardedManager :=
  match s.manager.sourcesByInfoHash.lookup infoHash with
  | none => s
  | some source =>
    if source = "" then s
    else { s with
      guardedTorrentFiles := s.guardedTorrentFiles.erase source
      removedFiles :=
        s.removedFiles ++
          (s.guardedTorrentFiles.lookup source).elim [] fun guard => (f guard).destroy }

def onSessionTorrentAdded (infoHash : InfoHash) : GuardedManager :=
  s.takeGuard infoHash TorrentFileGuard.markAsAddedToSession

def onSessionAddTorrentFailed (infoHash : InfoHash) : GuardedManager :=
  s.takeGuard infoHash (TorrentFileGuard.setAutoRemove false)

/-- `processTorrent`, as far as guards go: the session may report a failure at once. -/
def processTorrent (infoHash : InfoHash) : GuardedManager :=
  if (s.manager.tables.findTorrent infoHash).isSome then s
  else if s.manager.isRestored = false then s
  else if (s.manager.tables.addTorrent infoHash).isSome then s
  else s.onSessionAddTorrentFailed infoHash

/-- `addTorrent` of a file.  If it is not loaded its guard is destroyed at once. -/
def addTorrent (source : String) (mode : AutoDeleteMode) (loaded : Option InfoHash) :
    GuardedManager :=
  let torrentFileGuard :=
    TorrentFileGuard.new s.manager.requests.length (decodedPath toLocalFile source) mode
  let s' : GuardedManager :=
    match loaded with
    | none => { s with removedFiles := s.removedFiles ++ torrentFileGuard.destroy }
    | some infoHash => (s.setTorrentFileGuard source torrentFileGuard).processTorrent infoHash
  { s' with manager := s.manager.addTorrent hasSupportedScheme parse source mode loaded }

/-- What an event does to the guards. -/
def handle : ManagerEvent AutoDeleteMode → GuardedManager
  | .addTorrent source mode loaded =>
    s.addTorrent hasSupportedScheme parse toLocalFile source mode loaded
  | .addTorrentAlert _ infoHash =>
    if infoHash.toTorrentID ∈ s.manager.tables.loadingTorrents then s.onSessionTorrentAdded infoHash
    else s
  | .addTorrentError _ infoHash _ =>
    if infoHash.toTorrentID ∈ s.manager.tables.loadingTorrents then
      s.onSessionAddTorrentFailed infoHash
    else s
  | _ => s

def next (e : ManagerEvent AutoDeleteMode) : GuardedManager :=
  { s.handle hasSupportedScheme parse toLocalFile e with
    manager := s.manager.next hasSupportedScheme parse e }

/-- All sources are torrent files.  They have their metadata, so that libtorrent adds the torrents
under the info-hashes that are requested. -/
def Possible (e : ManagerEvent AutoDeleteMode) : Prop :=
  s.manager.Possible e ∧
    match e with
    | .addTorrent source _ loaded =>
      source ≠ "" ∧ hasSupportedScheme source = false ∧ parse source = none ∧
        State.isMagnet source = false ∧ (loaded.isSome → decodedPath toLocalFile source ≠ "")
    | .downloadFinished .. | .sessionAddTorrent _ => False
    | .addTorrentAlert id infoHash | .addTorrentError id infoHash _ =>
      s.manager.tables.loadingTorrents.lookup id = some infoHash
    | _ => True

instance : DecidablePred (s.Possible hasSupportedScheme parse toLocalFile) := fun e => by
  cases e <;> unfold Possible <;> infer_instance

/-! ### Deletion as configured -/

/-- The files that have been removed for a request. -/
def filesOf (request : ℕ) : List String :=
  s.removedFiles.filterMap fun file => if file.1 = request then some file.2 else none

/-- The torrent of the request has been added to the session. -/
def WasAdded (request : ℕ) : Prop :=
  ∃ report ∈ s.manager.reports, report.request = some request ∧ report.outcome = .torrentAdded

/-- The file of a torrent that is added is removed, once, unless it is never to be; that of one that is
not added is removed in the third mode only. -/
structure Configured (i : ℕ) (r : Request AutoDeleteMode) : Prop where
  never : r.params = .never → s.filesOf i = []
  added : r.params ≠ .never → s.WasAdded i → s.filesOf i = [decodedPath toLocalFile r.source]
  failed : r.params ≠ .always → ¬ s.WasAdded i → s.filesOf i = []

/-- Files are removed as configured, and the guards are those of requests under way.  So nothing is
removed later for a request that has been answered, not even at the end of the program. -/
structure Kept : Prop where
  configured : ∀ i r, s.manager.requests[i]? = some r → s.Configured toLocalFile i r
  released : ∀ source guard, s.guardedTorrentFiles.lookup source = some guard →
    s.manager.InFlight guard.request

/-- The session takes the torrent of a file that is loaded, and its source is not under way. -/
def Apart : ManagerEvent AutoDeleteMode → Prop
  | .addTorrent source _ (some infoHash) =>
    s.manager.isRestored = true ∧ (s.manager.tables.findTorrent infoHash).isSome = false ∧
      s.manager.tables.isLoading infoHash = false ∧ source ∉ s.guardedTorrentFiles
  | _ => True

instance : DecidablePred s.Apart
  | .addTorrent _ _ (some _) => inferInstanceAs (Decidable (_ ∧ _ ∧ _ ∧ _ ∉ _))
  | .addTorrent _ _ none | .restoreTorrent _ | .restored | .downloadFinished ..
  | .sessionAddTorrent _ | .addTorrentAlert .. | .addTorrentError .. | .metadataReceived ..
  | .removeTorrent _ => isTrue trivial

/-- The runs of the manager with its guards. -/
def machine : Machine GuardedManager (ManagerEvent AutoDeleteMode) :=
  .guarded (fun s => s.Possible hasSupportedScheme parse toLocalFile)
    fun s => s.next hasSupportedScheme parse toLocalFile

end GuardedManager

/-! ### Guards -/

namespace TorrentFileGuard

variable {guard : TorrentFileGuard} {n : ℕ} {path : String} {mode : AutoDeleteMode}
  {file : ℕ × String}

theorem mem_destroy : file ∈ guard.destroy ↔
    (guard.wasAdded = true ∨ guard.mode = .always) ∧ guard.remove = true ∧ guard.path ≠ "" ∧
      file = (guard.request, guard.path) := by
  rw [destroy]
  by_cases h : guard.wasAdded = false ∧ guard.mode ≠ .always
  · rw [if_pos h, if_neg fun h => Bool.false_ne_true h.1]
    refine iff_of_false not_mem_nil fun h' => h'.1.elim (fun hadded => ?_) h.2
    exact Bool.false_ne_true (h.1.symm.trans hadded)
  · rw [if_neg h]
    have h' : guard.wasAdded = true ∨ guard.mode = .always := by
      rwa [not_and_or, not_not, Bool.not_eq_false] at h
    rw [and_iff_right h', ← and_assoc]
    split_ifs with hremove
    · rw [List.mem_singleton, and_iff_right hremove]
    · exact iff_of_false not_mem_nil fun h => hremove h.1

theorem eq_of_mem_destroy (h : file ∈ guard.destroy) : file.1 = guard.request := by
  rw [(mem_destroy.1 h).2.2.2]

theorem destroy_setAutoRemove (guard : TorrentFileGuard) : (guard.setAutoRemove false).destroy = [] :=
  eq_nil_iff_forall_not_mem.2 fun _ h => Bool.false_ne_true (mem_destroy.1 h).2.1

theorem destroy_new (h : mode ≠ .always) : (new n path mode).destroy = [] :=
  eq_nil_iff_forall_not_mem.2 fun _ hfile => (mem_destroy.1 hfile).1.elim Bool.false_ne_true h

theorem destroy_markAsAdded_never : (new n path .never).markAsAddedToSession.destroy = [] :=
  eq_nil_iff_forall_not_mem.2 fun _ h => (mem_destroy.1 h).2.2.1 rfl

theorem destroy_markAsAdded (hmode : mode ≠ .never) (hpath : path ≠ "") :
    (new n path mode).markAsAddedToSession.destroy = [(n, path)] := by
  rw [new, if_pos hmode]
  exact if_pos ⟨rfl, hpath⟩

end TorrentFileGuard

namespace GuardedManager

variable {hasSupportedScheme : String → Bool} {parse : String → Option InfoHash}
  {toLocalFile : String → String} {s s' : GuardedManager} {l : List (ℕ × String)} {i : ℕ}
  {r : Request AutoDeleteMode} {h : InfoHash} {source : String} {mode : AutoDeleteMode}

theorem filesOf_append (hfiles : s'.removedFiles = s.removedFiles ++ l)
    (hl : ∀ file ∈ l, file.1 ≠ i) : s'.filesOf i = s.filesOf i := by
  rw [filesOf, hfiles, filterMap_append,
    filterMap_eq_nil_iff.2 fun file hfile => if_neg (hl file hfile), append_nil, filesOf]

theorem takeGuard_of_eq_some (f : TorrentFileGuard → TorrentFileGuard)
    (hsource : s.manager.sourcesByInfoHash.lookup h = some source) (hne : source ≠ "") :
    s.takeGuard h f = { s with
      guardedTorrentFiles := s.guardedTorrentFiles.erase source
      removedFiles := s.removedFiles ++
        (s.guardedTorrentFiles.lookup source).elim [] fun guard => (f guard).destroy } := by
  rw [takeGuard, hsource]
  exact if_neg hne

/-! ### The invariant -/

/-- The guards in the map are those of the requests under way, as they were made. -/
structure Inv (toLocalFile : String → String) (s : GuardedManager) : Prop where
  manager : InvBut none s.manager
  guards : ∀ source guard, s.guardedTorrentFiles.lookup source = some guard →
    ∃ id r, s.manager.adding.lookup id = some guard.request ∧
      s.manager.requests[guard.request]? = some r ∧ r.source = source
  own : ∀ id i r, s.manager.adding.lookup id = some i → s.manager.requests[i]? = some r →
    decodedPath toLocalFile r.source ≠ "" ∧ s.guardedTorrentFiles.lookup r.source =
      some (.new i (decodedPath toLocalFile r.source) r.params)
  waiting : ∀ id i, s.manager.adding.lookup id = some i → s.filesOf i = []
  numbers : ∀ file ∈ s.removedFiles, file.1 < s.manager.requests.length
  configured : ∀ i r, s.manager.requests[i]? = some r → s.Configured toLocalFile i r

theorem Inv.kept (hs : Inv toLocalFile s) : Kept toLocalFile s := by
  refine ⟨hs.configured, fun source guard hguard => ?_⟩
  obtain ⟨id, r, hid, -⟩ := hs.guards source guard hguard
  exact .inr ⟨id, hid⟩

theorem Configured.congr (h : s.Configured toLocalFile i r) (hfiles : s'.filesOf i = s.filesOf i)
    (hadded : s'.WasAdded i ↔ s.WasAdded i) : s'.Configured toLocalFile i r := by
  refine ⟨?_, ?_, ?_⟩ <;> rw [hfiles]
  · exact h.never
  · rw [hadded]
    exact h.added
  · rw [hadded]
    exact h.failed

theorem Configured.of_nil (hfiles : r.params ≠ .always → s.filesOf i = [])
    (hadded : ¬ s.WasAdded i) : s.Configured toLocalFile i r where
  never hmode := hfiles (by simp [hmode])
  added _ h := (hadded h).elim
  failed hmode _ := hfiles hmode

theorem Inv.setManager (hs : Inv toLocalFile s) {m : State AutoDeleteMode} (hm : InvBut none m)
    (hrequests : m.requests = s.manager.requests) (hadding : m.adding = s.manager.adding)
    (hreports : m.reports = s.manager.reports) : Inv toLocalFile { s with manager := m } := by
  refine ⟨hm, ?_, ?_, ?_, ?_, fun i r hr => ?_⟩
  · simpa only [hrequests, hadding] using hs.guards
  · simpa only [hrequests, hadding] using hs.own
  · exact fun id i hi => hs.waiting id i (hadding ▸ hi)
  · simpa only [hrequests] using hs.numbers
  · refine (hs.configured i r (hrequests ▸ hr)).congr rfl ?_
    simp only [WasAdded, hreports]

theorem wasAdded_concat {report : Report}
    (hreports : s'.manager.reports = s.manager.reports ++ [report]) :
    s'.WasAdded i ↔ s.WasAdded i ∨ report.request = some i ∧ report.outcome = .torrentAdded := by
  simp only [WasAdded, hreports, mem_append, List.mem_singleton, or_and_right, exists_or,
    exists_eq_left]

/-! ### A signal of the session -/

theorem Inv.signal (hs : Inv toLocalFile s) {id : Digest} {tables : Tables} {outcome : Outcome}
    {f : TorrentFileGuard → TorrentFileGuard}
    (hf : outcome = .torrentAdded ∧ f = TorrentFileGuard.markAsAddedToSession ∨
      outcome ≠ .torrentAdded ∧ f = TorrentFileGuard.setAutoRemove false)
    (hh : s.manager.tables.loadingTorrents.lookup id = some h)
    (hloading : tables.loadingTorrents = s.manager.tables.loadingTorrents.erase id) :
    Inv toLocalFile { s.takeGuard h f with
      manager := ({ s.manager with tables := tables, adding := s.manager.adding.erase id } :
        State AutoDeleteMode).onSessionSignal h outcome (s.manager.adding.lookup id) } := by
  have hm := hs.manager.onSessionSignal hh hloading outcome
  cases hi : s.manager.adding.lookup id with
  | none =>
    -- a torrent that no request is about
    have hnone : s.manager.sourcesByInfoHash.lookup h = none := by
      refine eq_none_iff_forall_ne_some.2 fun source hsource => ?_
      have hmem := (hs.manager.sources h source hsource).2
      rw [hs.manager.loading id h hh] at hmem
      exact lookup_eq_none.1 hi hmem
    have hadding : s.manager.adding.erase id = s.manager.adding := by
      refine ext_lookup fun id' => ?_
      rw [lookup_erase_eq]
      split_ifs with heq
      · rw [heq, hi]
      · rfl
    rw [hi, onSessionSignal, hnone] at hm
    rw [takeGuard, onSessionSignal, hnone]
    exact hs.setManager hm rfl hadding rfl
  | some i =>
    obtain ⟨-, h', r, hh', hr, hsource⟩ := hs.manager.adding id i hi
    cases hh.symm.trans hh'
    have hne : r.source ≠ "" := hs.manager.nonempty r (mem_of_getElem? hr)
    have hlt : i < s.manager.requests.length := (List.getElem?_eq_some_iff.1 hr).1
    obtain ⟨hpath, hguard⟩ := hs.own id i r hi hr
    rw [hi, onSessionSignal, hsource] at hm
    rw [takeGuard_of_eq_some f hsource hne, onSessionSignal, hsource, hguard]
    dsimp only at hm ⊢
    rw [if_neg hne] at hm ⊢
    have hadding (id' : Digest) (j : ℕ) : (s.manager.adding.erase id).lookup id' = some j ↔
        j ≠ i ∧ s.manager.adding.lookup id' = some j := by
      rw [lookup_erase_eq]
      split_ifs with hid
      · refine iff_of_false (by simp) fun h => h.1 ?_
        rw [hid, hi] at h
        exact (some.inj h.2).symm
      · refine (and_iff_right_of_imp fun hj => ?_).symm
        rintro rfl
        exact hid (hs.manager.once id' id j hj hi)
    -- the guard is that of the request
    have hdestroy (file : ℕ × String) (hfile : file ∈ (f (.new i (decodedPath toLocalFile r.source)
        r.params)).destroy) : file.1 = i := by
      rw [TorrentFileGuard.eq_of_mem_destroy hfile]
      rcases hf with ⟨-, rfl⟩ | ⟨-, rfl⟩ <;> rfl
    have hothers (j : ℕ) (hji : j ≠ i) : ∀ file ∈ (f (.new i (decodedPath toLocalFile r.source)
        r.params)).destroy, file.1 ≠ j :=
      fun file hfile heq => hji (heq.symm.trans (hdestroy file hfile))
    refine ⟨hm, fun source guard hguard' => ?_, fun id' j r' hj hr' => ?_, fun id' j hj => ?_,
      fun file hfile => ?_, fun j r' hr' => ?_⟩
    · rw [lookup_erase_eq] at hguard'
      split_ifs at hguard' with heq
      obtain ⟨id', r', hid', hr', hsource'⟩ := hs.guards source guard hguard'
      refine ⟨id', r', (hadding id' _).2 ⟨fun hji => heq ?_, hid'⟩, hr', hsource'⟩
      rw [hji, hr] at hr'
      rw [← hsource', ← some.inj hr']
    · obtain ⟨hji, hj⟩ := (hadding id' j).1 hj
      obtain ⟨hpath', hguard'⟩ := hs.own id' j r' hj hr'
      refine ⟨hpath', (lookup_erase_ne fun heq => hji ?_).trans hguard'⟩
      rw [heq, hguard] at hguard'
      exact (congrArg TorrentFileGuard.request (some.inj hguard')).symm
    · obtain ⟨hji, hj⟩ := (hadding id' j).1 hj
      exact (filesOf_append rfl (hothers j hji)).trans (hs.waiting id' j hj)
    · rcases mem_append.1 hfile with hfile | hfile
      · exact hs.numbers file hfile
      · rw [hdestroy file hfile]
        exact hlt
    · by_cases hji : j = i
      · subst hji
        cases hr.symm.trans hr'
        have hnot : ¬ s.WasAdded j := by
          rintro ⟨report, hreport, hrequest, -⟩
          have hanswers := hs.manager.inFlight j r hr (.inr ⟨id, hi⟩)
          exact some_ne_none _
            ((if_pos hrequest).symm.trans (filterMap_eq_nil_iff.1 hanswers report hreport))
        have hfiles : filesOf { s with
            removedFiles := s.removedFiles ++ (f (.new j (decodedPath toLocalFile r.source)
              r.params)).destroy } j =
              (f (.new j (decodedPath toLocalFile r.source) r.params)).destroy.map Prod.snd := by
          rw [filesOf, filterMap_append, ← filesOf, hs.waiting id j hi, nil_append,
            ← filterMap_eq_map]
          exact filterMap_congr fun file hfile => if_pos (hdestroy file hfile)
        rcases hf with ⟨rfl, rfl⟩ | ⟨houtcome, rfl⟩
        · refine ⟨fun hmode => hfiles.trans ?_, fun hmode _ => hfiles.trans ?_, fun _ hnot' => ?_⟩
          · rw [hmode, TorrentFileGuard.destroy_markAsAdded_never, map_nil]
          · rw [TorrentFileGuard.destroy_markAsAdded hmode hpath, map_singleton]
          · exact (hnot' ((wasAdded_concat rfl).2 (.inr ⟨rfl, rfl⟩))).elim
        · refine .of_nil (fun _ => hfiles.trans ?_) fun hadded => ?_
          · rw [TorrentFileGuard.destroy_setAutoRemove, map_nil]
          · exact ((wasAdded_concat rfl).1 hadded).elim hnot fun h => houtcome h.2
      · refine (hs.configured j r' hr').congr (filesOf_append rfl (hothers j hji)) ?_
        rw [wasAdded_concat rfl]
        exact or_iff_left fun h => hji (some.inj h.1).symm

/-! ### A new request -/

theorem eq_some_of_concat {a : Request AutoDeleteMode} {requests : List (Request AutoDeleteMode)}
    (hr : (requests ++ [a])[i]? = some r) :
    requests[i]? = some r ∨ i = requests.length ∧ r = a := by
  rcases Nat.lt_trichotomy i requests.length with hlt | rfl | hlt
  · rw [getElem?_append_left hlt] at hr
    exact .inl hr
  · rw [getElem?_concat_length] at hr
    exact .inr ⟨rfl, (some.inj hr).symm⟩
  · rw [getElem?_eq_none (by rw [length_append, length_singleton]; omega)] at hr
    cases hr

theorem Inv.push (hs : Inv toLocalFile s) (hm : InvBut none s'.manager)
    (hrequests : s'.manager.requests = s.manager.requests ++ [r])
    (hremoved : s'.removedFiles = s.removedFiles ++ l)
    (hl : ∀ file ∈ l, file.1 = s.manager.requests.length)
    (hadded : ∀ i, s'.WasAdded i ↔ s.WasAdded i)
    (hadding : ∀ id i, s'.manager.adding.lookup id = some i →
      s.manager.adding.lookup id = some i ∨ i = s.manager.requests.length ∧ l = [])
    (hmode : r.params ≠ .always → l = [])
    (hguards : ∀ source guard, s'.guardedTorrentFiles.lookup source = some guard →
      ∃ id r, s'.manager.adding.lookup id = some guard.request ∧
        s'.manager.requests[guard.request]? = some r ∧ r.source = source)
    (hown : ∀ id i r, s'.manager.adding.lookup id = some i → s'.manager.requests[i]? = some r →
      decodedPath toLocalFile r.source ≠ "" ∧ s'.guardedTorrentFiles.lookup r.source =
        some (.new i (decodedPath toLocalFile r.source) r.params)) : Inv toLocalFile s' := by
  have hold (j : ℕ) (hj : j < s.manager.requests.length) : s'.filesOf j = s.filesOf j :=
    filesOf_append hremoved fun file hfile heq => Nat.ne_of_gt hj ((hl file hfile).symm.trans heq)
  have hnew (hnil : l = []) : s'.filesOf s.manager.requests.length = [] := by
    rw [filesOf, hremoved, hnil, append_nil]
    exact filterMap_eq_nil_iff.2 fun file hfile => if_neg (Nat.ne_of_lt (hs.numbers file hfile))
  refine ⟨hm, hguards, hown, fun id j hj => ?_, fun file hfile => ?_, fun j r' hr' => ?_⟩
  · rcases hadding id j hj with hj | ⟨rfl, hnil⟩
    · obtain ⟨-, -, r₀, -, hr₀, -⟩ := hs.manager.adding id j hj
      exact (hold j (List.getElem?_eq_some_iff.1 hr₀).1).trans (hs.waiting id j hj)
    · exact hnew hnil
  · rw [hrequests, length_append, length_singleton]
    rw [hremoved] at hfile
    rcases mem_append.1 hfile with hfile | hfile
    · exact Nat.lt_succ_of_lt (hs.numbers file hfile)
    · exact Nat.lt_succ_of_le (Nat.le_of_eq (hl file hfile))
  · rw [hrequests] at hr'
    rcases eq_some_of_concat hr' with hr' | ⟨rfl, rfl⟩
    · exact (hs.configured j r' hr').congr (hold j (List.getElem?_eq_some_iff.1 hr').1) (hadded j)
    · refine .of_nil (fun h => hnew (hmode h)) fun h => ?_
      obtain ⟨report, hreport, hrequest, -⟩ := (hadded _).1 h
      obtain ⟨j, hj, hlt⟩ := hs.manager.about report hreport
      exact Nat.ne_of_lt hlt (some.inj (hj.symm.trans hrequest))

/-- What a request does to the manager, if the session takes the torrent. -/
theorem addTorrent_of_takes {m m' : State AutoDeleteMode} (hne : source ≠ "")
    (hurl : hasSupportedScheme source = false) (hparse : parse source = none)
    (hmagnet : State.isMagnet source = false) (hrestored : m.isRestored = true)
    (hfound : (m.tables.findTorrent h).isSome = false) (hloading : m.tables.isLoading h = false)
    (hm' : m.addTorrent hasSupportedScheme parse source mode (some h) = m') :
    m'.requests = m.requests ++ [⟨source, mode⟩] ∧
      m'.adding = m.adding.insert h.toTorrentID m.requests.length ∧ m'.reports = m.reports := by
  obtain ⟨t', ht'⟩ := addTorrent_eq_some hloading hfound
  rw [State.addTorrent, if_neg hne, if_neg (by simp [hurl]), hparse] at hm'
  dsimp only at hm'
  rw [if_neg (by simp [hmagnet]), State.processTorrent, if_neg (by simp [hfound]),
    addTorrentToSession, sessionAddTorrent_of_eq_some ?_ ?_] at hm'
  · rw [← hm']
    exact ⟨rfl, rfl, rfl⟩
  all_goals assumption

theorem next_of_takes (hrestored : s.manager.isRestored = true)
    (hfound : (s.manager.tables.findTorrent h).isSome = false)
    (hloading : s.manager.tables.isLoading h = false) (hsource : source ∉ s.guardedTorrentFiles) :
    s.next hasSupportedScheme parse toLocalFile (.addTorrent source mode (some h)) =
      { s with
        manager := s.manager.addTorrent hasSupportedScheme parse source mode (some h)
        guardedTorrentFiles := s.guardedTorrentFiles.insert source
          (.new s.manager.requests.length (decodedPath toLocalFile source) mode) } := by
  obtain ⟨t', ht'⟩ := addTorrent_eq_some hloading hfound
  rw [next, handle, addTorrent]
  dsimp only
  rw [processTorrent, setTorrentFileGuard, lookup_eq_none.2 hsource]
  dsimp only
  rw [if_neg (by simp [hfound]), if_neg (by simp [hrestored]), if_pos (by rw [ht']; rfl),
    elim_none, append_nil]
  rfl

theorem Inv.addTorrent (hs : Inv toLocalFile s)
    (hpossible : s.Possible hasSupportedScheme parse toLocalFile (.addTorrent source mode (some h)))
    (hapart : s.Apart (.addTorrent source mode (some h))) :
    Inv toLocalFile (s.next hasSupportedScheme parse toLocalFile
      (.addTorrent source mode (some h))) := by
  obtain ⟨-, hne, hurl, hparse, hmagnet, hpath⟩ := hpossible
  obtain ⟨hrestored, hfound, hloading, hsource⟩ := hapart
  rw [next_of_takes hrestored hfound hloading hsource]
  have hm : InvBut none (s.manager.addTorrent hasSupportedScheme parse source mode (some h)) := by
    refine hs.manager.addTorrent ?_
    rw [State.Apart, if_neg (by simp [hurl])]
    rintro h' hh'
    rw [descriptor, hparse, hmagnet] at hh'
    cases hh'
    exact .inr ⟨hrestored, hloading⟩
  obtain ⟨hrequests, hadding, hreports⟩ :=
    addTorrent_of_takes hne hurl hparse hmagnet hrestored hfound hloading rfl
  have hlt (id : Digest) (j : ℕ) (hj : s.manager.adding.lookup id = some j) :
      j < s.manager.requests.length := by
    obtain ⟨-, -, r', -, hr', -⟩ := hs.manager.adding id j hj
    exact (List.getElem?_eq_some_iff.1 hr').1
  have hold (id : Digest) (j : ℕ) (hj : s.manager.adding.lookup id = some j) :
      (s.manager.adding.insert h.toTorrentID s.manager.requests.length).lookup id = some j := by
    refine (lookup_insert_of_ne _ ?_).trans hj
    rintro rfl
    obtain ⟨-, h', r', hh', -⟩ := hs.manager.adding _ j hj
    exact notMem_loadingTorrents hloading (mem_of_lookup_eq_some hh')
  refine hs.push (l := []) hm hrequests (append_nil _).symm (by simp)
    (fun i => by simp only [WasAdded, hreports]) (fun id j hj => ?_) (fun _ => rfl)
    (fun source' guard hguard => ?_) fun id j r' hj hr' => ?_
  · rw [hadding, lookup_insert_eq] at hj
    split_ifs at hj
    · exact .inr ⟨(some.inj hj).symm, rfl⟩
    · exact .inl hj
  · rw [hrequests, hadding]
    rw [lookup_insert_eq] at hguard
    split_ifs at hguard with heq
    · cases hguard
      exact ⟨h.toTorrentID, _, lookup_insert _, getElem?_concat_length, heq.symm⟩
    · obtain ⟨id, r', hid, hr', hsource'⟩ := hs.guards source' guard hguard
      refine ⟨id, r', hold id _ hid, ?_, hsource'⟩
      rwa [getElem?_append_left (hlt id _ hid)]
  · rw [hadding, lookup_insert_eq] at hj
    rw [hrequests] at hr'
    split_ifs at hj
    · cases hj
      rw [getElem?_concat_length] at hr'
      cases hr'
      exact ⟨hpath rfl, lookup_insert _⟩
    · rw [getElem?_append_left (hlt id j hj)] at hr'
      obtain ⟨hpath', hguard⟩ := hs.own id j r' hj hr'
      refine ⟨hpath', (lookup_insert_of_ne _ fun heq => hsource ?_).trans hguard⟩
      exact heq ▸ mem_of_lookup_eq_some hguard

/-- A file that is not loaded. -/
theorem Inv.addTorrent_none (hs : Inv toLocalFile s)
    (hpossible : s.Possible hasSupportedScheme parse toLocalFile (.addTorrent source mode none)) :
    Inv toLocalFile (s.next hasSupportedScheme parse toLocalFile (.addTorrent source mode none)) := by
  obtain ⟨-, hne, hurl, hparse, hmagnet, -⟩ := hpossible
  have hm : InvBut none (s.manager.addTorrent hasSupportedScheme parse source mode none) := by
    refine hs.manager.addTorrent ?_
    rw [State.Apart, if_neg (by simp [hurl]), descriptor, hparse, hmagnet]
    intro h' hh'
    cases hh'
  have hmanager : s.manager.addTorrent hasSupportedScheme parse source mode none =
      ({ s.manager with requests := s.manager.requests ++ [⟨source, mode⟩] } :
        State AutoDeleteMode).report source (.addTorrentFailed .other)
          (some s.manager.requests.length) := by
    rw [State.addTorrent, if_neg hne, if_neg (by simp [hurl]), hparse]
    dsimp only
    rw [if_neg (by simp [hmagnet])]
  rw [hmanager] at hm
  rw [next, handle, GuardedManager.addTorrent, State.next, hmanager]
  have hold {j : ℕ} {r' : Request AutoDeleteMode} (hr' : s.manager.requests[j]? = some r') :
      (s.manager.requests ++ [⟨source, mode⟩])[j]? = some r' := by
    rwa [getElem?_append_left (List.getElem?_eq_some_iff.1 hr').1]
  refine hs.push (r := ⟨source, mode⟩) hm rfl rfl
    (fun file hfile => TorrentFileGuard.eq_of_mem_destroy hfile) (fun i => ?_)
    (fun id j hj => .inl hj) TorrentFileGuard.destroy_new (fun source' guard hguard => ?_)
    fun id j r' hj hr' => ?_
  · rw [wasAdded_concat rfl]
    exact or_iff_left fun h => Outcome.noConfusion h.2
  · obtain ⟨id, r', hid, hr', hsource⟩ := hs.guards source' guard hguard
    exact ⟨id, r', hid, hold hr', hsource⟩
  · obtain ⟨-, -, r₀, -, hr₀, -⟩ := hs.manager.adding id j hj
    cases (hold hr₀).symm.trans hr'
    exact hs.own id j _ hj hr₀

/-! ### Runs -/

theorem Inv.next (hs : Inv toLocalFile s) (e : ManagerEvent AutoDeleteMode)
    (hpossible : s.Possible hasSupportedScheme parse toLocalFile e) (hapart : s.Apart e) :
    Inv toLocalFile (s.next hasSupportedScheme parse toLocalFile e) := by
  cases e with
  | addTorrent source mode loaded =>
    cases loaded with
    | none => exact hs.addTorrent_none hpossible
    | some h => exact hs.addTorrent hpossible hapart
  | addTorrentAlert id h =>
    have hid : h.toTorrentID = id := hs.manager.loading id h hpossible.2
    have hmem : h.toTorrentID ∈ s.manager.tables.loadingTorrents := by
      rw [hid]
      exact mem_of_lookup_eq_some hpossible.2
    rw [GuardedManager.next, handle, if_pos hmem, State.next, addTorrentAlert, if_pos hmem]
    refine hs.signal (.inl ⟨rfl, rfl⟩) hpossible.2 ?_
    rw [Tables.handleAddTorrentAlert, if_pos hmem, hid]
    rfl
  | addTorrentError id h reason =>
    have hid : h.toTorrentID = id := hs.manager.loading id h hpossible.2
    have hmem : h.toTorrentID ∈ s.manager.tables.loadingTorrents := by
      rw [hid]
      exact mem_of_lookup_eq_some hpossible.2
    rw [GuardedManager.next, handle, if_pos hmem, State.next, addTorrentError, if_pos hmem]
    refine hs.signal (.inr ⟨by simp, rfl⟩) hpossible.2 ?_
    rw [Tables.handleAddTorrentError, hid]
  | downloadFinished _ _ | sessionAddTorrent _ => exact hpossible.2.elim
  | restoreTorrent h =>
    exact hs.setManager (hs.manager.next (.restoreTorrent h) hpossible.1 trivial) rfl rfl rfl
  | restored => exact hs.setManager (hs.manager.next .restored hpossible.1 trivial) rfl rfl rfl
  | metadataReceived _ h =>
    exact hs.setManager (hs.manager.next (.metadataReceived _ h) hpossible.1 trivial) rfl rfl rfl
  | removeTorrent id =>
    exact hs.setManager (hs.manager.next (.removeTorrent id) hpossible.1 trivial) rfl rfl rfl

theorem Inv.init : Inv toLocalFile ({} : GuardedManager) := by
  refine ⟨InvBut.init, fun source guard hguard => ?_, fun id i r hi => ?_, fun id i hi => ?_, nofun,
    fun i r hr => ?_⟩
  · cases hguard
  · cases hi
  · cases hi
  · cases hr

/-- **Torrent files are deleted as configured.**  In every run in which the session takes the torrents
of the files that are loaded, and no source is requested again while it is under way, the file of a
request is removed when its torrent is added, unless it never is to be, and no guard is left of a
request that has been answered. -/
theorem always_kept (hasSupportedScheme : String → Bool) (parse : String → Option InfoHash)
    (toLocalFile : String → String) (es : List (ManagerEvent AutoDeleteMode))
    (hapart : (machine hasSupportedScheme parse toLocalFile).Meets Apart {} es) :
    (machine hasSupportedScheme parse toLocalFile).Always (Kept toLocalFile) {} es :=
  Machine.guarded_always Inv.init (fun _ hs => hs.kept)
    (fun _ e hs hpossible hapart => hs.next e hpossible hapart) hapart

/-- Two files are requested, of which one can not be added, and one that is not there. -/
def fileRun : List (ManagerEvent AutoDeleteMode) :=
  [.restored, .addTorrent "/a.torrent" .ifAdded (some ⟨1, 0⟩),
    .addTorrent "/b.torrent" .always (some ⟨2, 0⟩), .addTorrent "/none.torrent" .ifAdded none,
    .addTorrentAlert 1 ⟨1, 0⟩, .addTorrentError 2 ⟨2, 0⟩ .other, .removeTorrent 1]

theorem always_kept_fileRun :
    ((machine isURL parseMagnet id).run {} fileRun).isSome = true ∧
      (machine isURL parseMagnet id).Always (Kept id) {} fileRun :=
  ⟨by decide, always_kept _ _ _ _ (by decide)⟩

end GuardedManager

end QBittorrent.AddTorrentManager
