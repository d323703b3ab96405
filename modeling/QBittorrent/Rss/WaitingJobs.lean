import QBittorrent.Rss.Processing

/-!
# Jobs that wait for the manager

A job of `AutoDownloader` whose torrent is downloaded waits under its source until
`AddTorrentManager` reports about that source.  The manager reports in its own time, also before
`addTorrent` has returned, and under the sources that it keeps for itself.

* `Pays` : reports made and owed by a step of the manager;
* `Downloader.fresh_of_answerable` : one report is owed for every job that waits.
-/

namespace QBittorrent.Rss.Processing

open AutoDownloadRule AddTorrentManager AddTorrentManager.State List Option Finmap Dict

section Manager

variable {Params : Type}

/-- How many reports about a source are owed: one for each download of it, and one for each torrent
that was requested from it and is being added. -/
def owed (m : AddTorrentManager.State Params) (source : String) : ℕ :=
  m.downloads.count (fun url => decide (url = source)) +
    m.sourcesByInfoHash.count fun s => decide (s = source)

/-- How many reports about a source were made. -/
def reported (m : AddTorrentManager.State Params) (source : String) : ℕ :=
  m.reports.countP fun report => decide (report.source = source)

/-- The torrents that were requested from a source and not reported are being added. -/
def AreAdded (m : AddTorrentManager.State Params) (source : String) : Prop :=
  ∀ infoHash, m.sourcesByInfoHash.lookup infoHash = some source →
    m.tables.loadingTorrents.lookup infoHash.toTorrentID = some infoHash

def TakesNew (m : AddTorrentManager.State Params) (infoHash : InfoHash) : Prop :=
  m.isRestored = true ∧ m.tables.isLoading infoHash = false ∧ m.tables.findTorrent infoHash = none
  deriving Decidable

variable (hasSupportedScheme : String → Bool) (parse : String → Option InfoHash)

/-- A request that will be reported after `addTorrent` has returned. -/
def Keeps (m : AddTorrentManager.State Params) (source : String) (loaded : Option InfoHash) : Prop :=
  hasSupportedScheme source = true ∨ ∃ infoHash ∈ descriptor parse source loaded, TakesNew m infoHash
  deriving Decidable

/-- A request that will be reported at all. -/
def Answers (m : AddTorrentManager.State Params) (source : String) (loaded : Option InfoHash) :
    Prop :=
  hasSupportedScheme source = true ∨ ∀ infoHash ∈ descriptor parse source loaded, m.Takes infoHash
  deriving Decidable

/-- The torrent that is added under the ID has this info-hash, if a source among `sources` is reported
for it. -/
def AgreesAt (m : AddTorrentManager.State Params) (sources : Finset String) (infoHash : InfoHash)
    (id : Digest) : Prop :=
  ∀ h ∈ m.tables.loadingTorrents.lookup id, ∀ source ∈ m.sourcesByInfoHash.lookup h,
    source ∈ sources → h = infoHash

instance (m : AddTorrentManager.State Params) (sources : Finset String) (infoHash : InfoHash)
    (id : Digest) : Decidable (AgreesAt m sources infoHash id) :=
  have : ∀ h, Decidable (∀ source ∈ m.sourcesByInfoHash.lookup h,
      source ∈ sources → h = infoHash) := fun h => (m.sourcesByInfoHash.lookup h).decidableForallMem
  (m.tables.loadingTorrents.lookup id).decidableForallMem

def KeepsHash (m : AddTorrentManager.State Params) (sources : Finset String) (id : Digest)
    (infoHash : InfoHash) : Prop :=
  AgreesAt m sources infoHash id ∧ AgreesAt m sources infoHash infoHash.toTorrentID
  deriving Decidable

/-- The end of a download that is reported once. -/
def IsReported (m : AddTorrentManager.State Params) : DownloadResult → Prop
  | .torrent infoHash => m.Takes infoHash
  | .failed => True
  | .tooLarge => False

instance (m : AddTorrentManager.State Params) : DecidablePred (IsReported m)
  | .torrent infoHash => inferInstanceAs (Decidable (m.Takes infoHash))
  | .failed => isTrue trivial
  | .tooLarge => isFalse id

/-- What happens to the manager does not concern the sources, or it is reported once about them. -/
def Undisturbed (m : AddTorrentManager.State Params) (sources : Finset String) :
    ManagerEvent Params → Prop
  | .addTorrent source _ loaded =>
    source ∈ sources → ¬ Answers hasSupportedScheme parse m source loaded
  | .downloadFinished request result =>
    ∀ source ∈ m.downloads.lookup request, source ∈ sources → IsReported m result
  | .addTorrentAlert id infoHash | .addTorrentError id infoHash _ => KeepsHash m sources id infoHash
  | .restoreTorrent _ | .restored | .sessionAddTorrent _ | .metadataReceived .. | .removeTorrent _ =>
    True

instance (m : AddTorrentManager.State Params) (sources : Finset String) :
    DecidablePred (Undisturbed hasSupportedScheme parse m sources)
  | .addTorrent .. | .downloadFinished .. | .addTorrentAlert .. | .addTorrentError ..
  | .restoreTorrent _ | .restored | .sessionAddTorrent _ | .metadataReceived .. | .removeTorrent _ => by
    unfold Undisturbed; infer_instance

/-! ### Steps of the manager -/

variable {m m' m'' : AddTorrentManager.State Params} {source : String} {n k : ℕ}
  {infoHash : InfoHash} {loaded : Option InfoHash} {tables : Tables}

/-- A step after which `n` more reports about the source are made or owed. -/
structure Balances (source : String) (n : ℕ) (m m' : AddTorrentManager.State Params) : Prop where
  reports : m.reports <+: m'.reports
  due : reported m' source + owed m' source = reported m source + owed m source + n

/-- The same, where the torrents that were requested are being added afterwards. -/
structure Pays (source : String) (n : ℕ) (m m' : AddTorrentManager.State Params) : Prop extends
    Balances source n m m' where
  added : AreAdded m' source

theorem Pays.of_eq (hadded : AreAdded m source) (hreports : m'.reports = m.reports)
    (hdownloads : m'.downloads = m.downloads)
    (hsources : m'.sourcesByInfoHash = m.sourcesByInfoHash)
    (hloading : m'.tables.loadingTorrents = m.tables.loadingTorrents) : Pays source 0 m m' := by
  refine ⟨⟨by rw [hreports], ?_⟩, fun infoHash h => ?_⟩
  · unfold reported owed
    rw [hreports, hdownloads, hsources, Nat.add_zero]
  · rw [hsources] at h
    rw [hloading]
    exact hadded infoHash h

theorem Pays.trans (h : Pays source n m m') (h' : Pays source k m' m'') :
    Pays source (n + k) m m'' :=
  ⟨⟨h.reports.trans h'.reports, by rw [h'.due, h.due, Nat.add_assoc]⟩, h'.added⟩

theorem report_balances (m : AddTorrentManager.State Params) (source source' : String)
    (outcome : Outcome) (request : Option ℕ) :
    Balances source (if source' = source then 1 else 0) m (m.report source' outcome request) := by
  refine ⟨prefix_append _ _, ?_⟩
  have hreported : reported (m.report source' outcome request) source =
      reported m source + if source' = source then 1 else 0 := by
    unfold reported report
    simp
  have howed : owed (m.report source' outcome request) source = owed m source := rfl
  omega

theorem pays_report (hadded : AreAdded m source) (source' : String) (outcome : Outcome)
    (request : Option ℕ) :
    Pays source (if source' = source then 1 else 0) m (m.report source' outcome request) :=
  ⟨report_balances m source source' outcome request, hadded⟩

theorem onSessionSignal_sources (m : AddTorrentManager.State Params) (infoHash : InfoHash)
    (outcome : Outcome) (request : Option ℕ) :
    (m.onSessionSignal infoHash outcome request).sourcesByInfoHash =
      m.sourcesByInfoHash.erase infoHash := by
  unfold onSessionSignal
  split
  case h_1 hnone =>
    refine ext_lookup fun k => ?_
    rw [lookup_erase_eq]
    split_ifs with hk
    · rw [hk, hnone]
    · rfl
  case h_2 => split_ifs <;> rfl

theorem onSessionSignal_tables (m : AddTorrentManager.State Params) (infoHash : InfoHash)
    (outcome : Outcome) (request : Option ℕ) :
    (m.onSessionSignal infoHash outcome request).tables = m.tables := by
  unfold onSessionSignal
  split
  · rfl
  · split_ifs <;> rfl

theorem onSessionSignal_balances (m : AddTorrentManager.State Params) (hne : source ≠ "")
    (infoHash : InfoHash) (outcome : Outcome) (request : Option ℕ) :
    Balances source 0 m (m.onSessionSignal infoHash outcome request) := by
  unfold onSessionSignal
  split
  case h_1 => exact ⟨prefix_refl _, rfl⟩
  case h_2 source' hsource =>
    have hcount := count_erase (fun s => decide (s = source)) hsource
    split_ifs with hempty
    · refine ⟨prefix_refl _, ?_⟩
      rw [hempty, if_neg (by simpa using Ne.symm hne)] at hcount
      unfold reported owed
      dsimp only
      omega
    · have hreport := report_balances { m with
        sourcesByInfoHash := m.sourcesByInfoHash.erase infoHash } source source' outcome request
      refine ⟨hreport.reports, ?_⟩
      rw [hreport.due]
      unfold reported owed
      dsimp only
      simp only [decide_eq_true_eq] at hcount
      omega

theorem pays_onSessionSignal (hadded : AreAdded m source) (hne : source ≠ "") (infoHash : InfoHash)
    (outcome : Outcome) (request : Option ℕ) :
    Pays source 0 m (m.onSessionSignal infoHash outcome request) := by
  refine ⟨onSessionSignal_balances m hne infoHash outcome request, fun h hh => ?_⟩
  rw [onSessionSignal_sources, lookup_erase_eq] at hh
  rw [onSessionSignal_tables]
  split_ifs at hh
  exact hadded h hh

def Numbered (m : AddTorrentManager.State Params) : Prop := ∀ i ∈ m.downloads, i < m.requests.length

/-- Neither a request nor a download more. -/
def SameRequests (m m' : AddTorrentManager.State Params) : Prop :=
  m'.downloads = m.downloads ∧ m'.requests = m.requests

theorem Numbered.of_same (h : Numbered m) (hsame : SameRequests m m') : Numbered m' := by
  unfold Numbered
  rw [hsame.1, hsame.2]
  exact h

theorem onSessionSignal_same (m : AddTorrentManager.State Params) (infoHash : InfoHash)
    (outcome : Outcome) (request : Option ℕ) :
    SameRequests m (m.onSessionSignal infoHash outcome request) := by
  unfold onSessionSignal
  split
  · exact ⟨rfl, rfl⟩
  · split_ifs <;> exact ⟨rfl, rfl⟩

theorem Keeps.answers (h : Keeps hasSupportedScheme parse m source loaded) :
    Answers hasSupportedScheme parse m source loaded := by
  obtain h | ⟨infoHash, hmem, htakes⟩ := h
  · exact Or.inl h
  · refine Or.inr fun infoHash' hmem' => Or.inr ?_
    cases mem_unique hmem hmem'
    exact ⟨htakes.1, htakes.2.1⟩

theorem addTorrent_eq_none {t : Tables} :
    t.addTorrent infoHash = none ↔
      ¬ (t.isLoading infoHash = false ∧ t.findTorrent infoHash = none) := by
  unfold Tables.addTorrent
  split_ifs with hloading hfound
  · simp [hloading]
  · rw [isSome_iff_ne_none] at hfound
    simp [hfound]
  · refine iff_of_false (by simp) (not_not.2 ⟨by simpa using hloading, ?_⟩)
    simpa using hfound

theorem areAdded_insertLoading (hadded : AreAdded m source) (htakes : TakesNew m infoHash)
    {adding : Dict Digest ℕ} (hloading : tables.loadingTorrents =
      m.tables.loadingTorrents.insert infoHash.toTorrentID infoHash) :
    AreAdded { m with tables := tables, adding := adding } source := fun h hh => by
  dsimp only at hh ⊢
  rw [hloading, lookup_insert_eq]
  have hold := hadded h hh
  split_ifs with hid
  · refine absurd ?_ (notMem_loadingTorrents htakes.2.1)
    rw [← hid]
    exact mem_of_lookup_eq_some hold
  · exact hold

theorem pays_finishAdding (hadded : AreAdded m source) (hne : source ≠ "") {sources : Finset String}
    (hsource : source ∈ sources) {id : Digest} (hkeeps : KeepsHash m sources id infoHash)
    (adding : Dict Digest ℕ) (outcome : Outcome) (request : Option ℕ)
    (hloading : tables.loadingTorrents = m.tables.loadingTorrents.erase infoHash.toTorrentID) :
    Pays source 0 m (State.onSessionSignal { m with tables := tables, adding := adding } infoHash
      outcome request) := by
  have hsignal := onSessionSignal_balances { m with tables := tables, adding := adding } hne infoHash
    outcome request
  refine ⟨⟨hsignal.reports, hsignal.due⟩, fun h hh => ?_⟩
  rw [onSessionSignal_sources, lookup_erase_eq] at hh
  rw [onSessionSignal_tables]
  split_ifs at hh with hother
  have hold := hadded h hh
  rw [hloading, lookup_erase_eq, if_neg, hold]
  intro hid
  rw [hid] at hold
  exact hother (hkeeps.2 h hold source hh hsource)

theorem sessionAddTorrent_cases (m : AddTorrentManager.State Params) (infoHash : InfoHash)
    (request : Option ℕ) :
    (¬ TakesNew m infoHash ∧ (m.sessionAddTorrent infoHash request).2 = false ∧
      ((m.sessionAddTorrent infoHash request).1 = m ∨ (m.sessionAddTorrent infoHash request).1 =
        m.onSessionSignal infoHash (.addTorrentFailed .duplicateTorrent) request)) ∨
    (TakesNew m infoHash ∧ (m.sessionAddTorrent infoHash request).2 = true ∧
      ∃ tables adding, (m.sessionAddTorrent infoHash request).1 =
          { m with tables := tables, adding := adding } ∧
        tables.loadingTorrents =
          m.tables.loadingTorrents.insert infoHash.toTorrentID infoHash) := by
  by_cases hrestored : m.isRestored = true
  · cases htables : m.tables.addTorrent infoHash with
    | none =>
      refine Or.inl ⟨fun h => addTorrent_eq_none.1 htables h.2, ?_⟩
      unfold sessionAddTorrent
      rw [if_neg (by rw [hrestored]; decide), htables]
      exact ⟨rfl, Or.inr rfl⟩
    | some tables =>
      have htakes : m.tables.isLoading infoHash = false ∧ m.tables.findTorrent infoHash = none := by
        by_contra hnot
        rw [addTorrent_eq_none.2 hnot] at htables
        cases htables
      rw [sessionAddTorrent_of_eq_some hrestored htables]
      exact Or.inr ⟨⟨hrestored, htakes⟩, rfl, _, _, rfl, loadingTorrents_of_addTorrent htables⟩
  · refine Or.inl ⟨fun h => hrestored h.1, ?_⟩
    unfold sessionAddTorrent
    rw [if_pos (by simpa using hrestored)]
    exact ⟨rfl, Or.inl rfl⟩

section

variable (hadded : AreAdded m source)

include hadded

section

variable (hne : source ≠ "")

include hne

theorem pays_sessionAddTorrent (infoHash : InfoHash) (request : Option ℕ) :
    Pays source 0 m (m.sessionAddTorrent infoHash request).1 := by
  obtain ⟨-, -, heq | heq⟩ | ⟨htakes, -, tables, adding, heq, hloading⟩ :=
    sessionAddTorrent_cases m infoHash request
  · rw [heq]
    exact Pays.of_eq hadded rfl rfl rfl rfl
  · rw [heq]
    exact pays_onSessionSignal hadded hne infoHash _ request
  · rw [heq]
    exact ⟨⟨prefix_refl _, rfl⟩, areAdded_insertLoading hadded htakes hloading⟩

theorem pays_addTorrentToSession (source' : String) (infoHash : InfoHash) (request : ℕ) :
    Pays source (if source' = source ∧ TakesNew m infoHash then 1 else 0) m
      (m.addTorrentToSession source' infoHash request) := by
  have hpays := pays_sessionAddTorrent hadded hne infoHash (some request)
  unfold addTorrentToSession
  obtain ⟨hnot, hresult, -⟩ | ⟨htakes, hresult, tables, adding, heq, hloading⟩ :=
    sessionAddTorrent_cases m infoHash (some request)
  · rw [if_neg fun h => hnot h.2]
    dsimp only
    rw [hresult, if_neg Bool.false_ne_true]
    exact hpays
  · have hlookup : (m.sourcesByInfoHash.lookup infoHash).any (fun s => decide (s = source)) = false := by
      cases h : m.sourcesByInfoHash.lookup infoHash with
      | none => rfl
      | some old =>
        rw [any_some, decide_eq_false_iff_not]
        rintro rfl
        exact notMem_loadingTorrents htakes.2.1 (mem_of_lookup_eq_some (hadded infoHash h))
    have hcount := count_insert_add (fun s => decide (s = source)) m.sourcesByInfoHash infoHash
      source'
    rw [hlookup, if_neg Bool.false_ne_true] at hcount
    have hsource : (source' = source ∧ TakesNew m infoHash) ↔ source' = source :=
      and_iff_left htakes
    dsimp only
    rw [hresult, if_pos rfl, heq]
    refine ⟨⟨prefix_refl _, ?_⟩, fun h hh => ?_⟩
    · unfold reported owed
      simp only [hsource]
      simp only [decide_eq_true_eq] at hcount
      omega
    · rw [lookup_insert_eq] at hh
      split_ifs at hh with hsame
      · rw [hsame, hloading, lookup_insert_eq, if_pos rfl]
      · have htaken : AreAdded { m with tables := tables, adding := adding } source :=
          areAdded_insertLoading hadded htakes hloading
        exact htaken h hh

theorem pays_processTorrent (source' : String) (infoHash : InfoHash) (params : Params)
    (request : ℕ) :
    Pays source (if source' = source ∧ m.Takes infoHash then 1 else 0) m
      (m.processTorrent source' infoHash params request) := by
  have hadded' : AreAdded { m with processed := m.processed ++ [(request, params)] } source := hadded
  unfold processTorrent
  by_cases hfound : (m.tables.findTorrent infoHash).isSome
  · have htakes : (source' = source ∧ m.Takes infoHash) ↔ source' = source :=
      and_iff_left (Or.inl hfound)
    rw [if_pos hfound]
    simp only [htakes]
    have hreport := pays_report hadded' source' (.addTorrentFailed .duplicateTorrent) (some request)
    exact ⟨⟨hreport.reports, hreport.due⟩, hreport.added⟩
  · have htakes : m.Takes infoHash ↔
        TakesNew { m with processed := m.processed ++ [(request, params)] } infoHash :=
      ⟨fun h => h.elim (fun h => absurd h hfound) fun h => ⟨h.1, h.2, by simpa using hfound⟩,
        fun h => Or.inr ⟨h.1, h.2.1⟩⟩
    rw [if_neg hfound]
    simp only [htakes]
    have hsession := pays_addTorrentToSession hadded' hne source' infoHash request
    exact ⟨⟨hsession.reports, hsession.due⟩, hsession.added⟩

theorem pays_addTorrent (hfresh : ∀ i ∈ m.downloads, i < m.requests.length) (source' : String)
    (params : Params) (loaded : Option InfoHash) :
    Pays source
      (if source' = source ∧ Answers hasSupportedScheme parse m source' loaded then 1 else 0) m
      (m.addTorrent hasSupportedScheme parse source' params loaded) := by
  unfold addTorrent
  by_cases hempty : source' = ""
  · have hother : ¬ (source' = source ∧ Answers hasSupportedScheme parse m source' loaded) :=
      fun h => hne (h.1 ▸ hempty)
    rw [if_pos hempty, if_neg hother]
    exact Pays.of_eq hadded rfl rfl rfl rfl
  rw [if_neg hempty]
  have hadded' : AreAdded { m with requests := m.requests ++ [⟨source', params⟩] } source := hadded
  by_cases hscheme : hasSupportedScheme source' = true
  · have hanswers : (source' = source ∧ Answers hasSupportedScheme parse m source' loaded) ↔
        source' = source := and_iff_left (Or.inl hscheme)
    have hcount := count_insert (fun url => decide (url = source)) source'
      fun hmem => lt_irrefl _ (hfresh m.requests.length hmem)
    rw [if_pos hscheme]
    simp only [hanswers]
    refine ⟨⟨prefix_refl _, ?_⟩, hadded⟩
    unfold reported owed
    dsimp only
    simp only [decide_eq_true_eq] at hcount
    omega
  rw [if_neg hscheme]
  have hanswers : Answers hasSupportedScheme parse m source' loaded ↔
      ∀ infoHash ∈ descriptor parse source' loaded, m.Takes infoHash := or_iff_right hscheme
  have hprocess : ∀ infoHash, descriptor parse source' loaded = some infoHash →
      Pays source
        (if source' = source ∧ Answers hasSupportedScheme parse m source' loaded then 1 else 0) m
        (processTorrent { m with requests := m.requests ++ [⟨source', params⟩] } source' infoHash
          params m.requests.length) := fun infoHash h => by
    have htakes : Answers hasSupportedScheme parse m source' loaded ↔ m.Takes infoHash := by
      rw [hanswers, h]
      exact ⟨fun hall => hall infoHash rfl, fun ht _ heq => some.inj heq ▸ ht⟩
    simp only [htakes]
    have hpays := pays_processTorrent hadded' hne source' infoHash params m.requests.length
    exact ⟨⟨hpays.reports, hpays.due⟩, hpays.added⟩
  have hfail : descriptor parse source' loaded = none →
      Pays source
        (if source' = source ∧ Answers hasSupportedScheme parse m source' loaded then 1 else 0) m
        (report { m with requests := m.requests ++ [⟨source', params⟩] } source'
          (.addTorrentFailed .other) (some m.requests.length)) := fun h => by
    have htrue : Answers hasSupportedScheme parse m source' loaded ↔ True := by
      rw [hanswers, h]
      exact iff_true_intro fun _ heq => by cases heq
    simp only [htrue, and_true]
    have hpays := pays_report hadded' source' (.addTorrentFailed .other) (some m.requests.length)
    exact ⟨⟨hpays.reports, hpays.due⟩, hpays.added⟩
  unfold descriptor at hprocess hfail
  cases hparse : parse source' with
  | some infoHash =>
    rw [hparse] at hprocess
    exact hprocess infoHash rfl
  | none =>
    rw [hparse] at hprocess hfail
    by_cases hmagnet : isMagnet source' = true
    · rw [if_pos hmagnet] at hfail ⊢
      exact hfail rfl
    · rw [if_neg hmagnet] at hprocess hfail ⊢
      cases loaded with
      | some infoHash => exact hprocess infoHash rfl
      | none => exact hfail rfl

variable [Inhabited Params]

theorem pays_onDownloadFinished (source' : String) {result : Option InfoHash}
    (hresult : source' = source → ∀ infoHash, result = some infoHash → m.Takes infoHash)
    (request : ℕ) :
    Pays source (if source' = source then 1 else 0) m
      (m.onDownloadFinished source' result request) := by
  have hadded' : AreAdded { m with
      downloadedTorrents := m.downloadedTorrents.erase source' } source := hadded
  cases result with
  | some infoHash =>
    have htakes : (source' = source ∧ State.Takes { m with
        downloadedTorrents := m.downloadedTorrents.erase source' } infoHash) ↔ source' = source :=
      ⟨And.left, fun heq => ⟨heq, hresult heq infoHash rfl⟩⟩
    have hpays := pays_processTorrent hadded' hne source' infoHash
      ((m.downloadedTorrents.lookup source').getD default) request
    simp only [htakes] at hpays
    exact ⟨⟨hpays.reports, hpays.due⟩, hpays.added⟩
  | none =>
    have hpays := pays_report hadded' source' (.addTorrentFailed .other) (some request)
    exact ⟨⟨hpays.reports, hpays.due⟩, hpays.added⟩

theorem pays_downloadFinished {request : ℕ} {source' : String}
    (hdownload : m.downloads.lookup request = some source') {result : DownloadResult}
    (hresult : source' = source → IsReported m result) :
    Pays source 0 m (m.downloadFinished request result) := by
  have hcount := count_erase (fun url => decide (url = source)) hdownload
  have hadded' : AreAdded { m with downloads := m.downloads.erase request } source := hadded
  have hpaid : ∀ m', Pays source (if source' = source then 1 else 0)
      { m with downloads := m.downloads.erase request } m' → Pays source 0 m m' := fun m' h => by
    refine ⟨⟨h.reports, ?_⟩, h.added⟩
    rw [h.due]
    unfold reported owed
    dsimp only
    simp only [decide_eq_true_eq] at hcount
    omega
  unfold downloadFinished
  rw [hdownload]
  cases result with
  | torrent infoHash =>
    exact hpaid _ (pays_onDownloadFinished hadded' hne source'
      (fun heq h hh => some.inj hh ▸ hresult heq) request)
  | failed =>
    exact hpaid _ (pays_onDownloadFinished hadded' hne source' (fun _ _ hh => by cases hh) request)
  | tooLarge =>
    -- finished twice, but for another source
    have hother : source' ≠ source := hresult
    have honce : ∀ m₀ : AddTorrentManager.State Params, AreAdded m₀ source →
        Pays source 0 m₀ (m₀.onDownloadFinished source' none request) := fun m₀ h => by
      have hpays : Pays source (if source' = source then 1 else 0) m₀
          (m₀.onDownloadFinished source' none request) :=
        pays_onDownloadFinished h hne source' (fun _ _ hh => by cases hh) request
      rwa [if_neg hother] at hpays
    refine hpaid _ ?_
    rw [if_neg hother]
    exact (honce _ hadded').trans (honce _ (honce _ hadded').added)

theorem pays_next (hfresh : ∀ i ∈ m.downloads, i < m.requests.length) {sources : Finset String}
    (hsource : source ∈ sources) {e : ManagerEvent Params} (hp : m.Possible e)
    (he : Undisturbed hasSupportedScheme parse m sources e) :
    Pays source 0 m (m.next hasSupportedScheme parse e) := by
  cases e with
  | restoreTorrent infoHash => exact Pays.of_eq hadded rfl rfl rfl rfl
  | restored => exact Pays.of_eq hadded rfl rfl rfl rfl
  | addTorrent source' params loaded =>
    have hpays := pays_addTorrent hasSupportedScheme parse hadded hne hfresh source' params loaded
    have hnot : ¬ (source' = source ∧ Answers hasSupportedScheme parse m source' loaded) :=
      fun h => he (h.1.symm ▸ hsource) h.2
    rwa [if_neg hnot] at hpays
  | downloadFinished request result =>
    obtain ⟨source', hdownload⟩ := isSome_iff_exists.1 ((mem_iff_isSome _ _).1 hp)
    exact pays_downloadFinished hadded hne hdownload fun heq =>
      he source' hdownload (heq.symm ▸ hsource)
  | sessionAddTorrent infoHash => exact pays_sessionAddTorrent hadded hne infoHash none
  | addTorrentAlert id infoHash =>
    change Pays source 0 m (m.addTorrentAlert id infoHash)
    unfold addTorrentAlert
    split_ifs with hloading
    · refine pays_finishAdding hadded hne hsource he _ _ _ ?_
      unfold Tables.handleAddTorrentAlert
      rw [if_pos hloading]
      rfl
    · refine Pays.of_eq hadded rfl rfl rfl ?_
      unfold Tables.handleAddTorrentAlert
      rw [if_neg hloading]
  | addTorrentError id infoHash reason =>
    change Pays source 0 m (m.addTorrentError id infoHash reason)
    unfold addTorrentError
    split_ifs with hloading
    · exact pays_finishAdding hadded hne hsource he _ _ _ rfl
    · refine Pays.of_eq hadded rfl rfl rfl ?_
      refine ext_lookup fun k => ?_
      unfold Tables.handleAddTorrentError
      rw [lookup_erase_eq]
      split_ifs with hk
      · rw [hk, lookup_eq_none.2 hloading]
      · rfl
  | metadataReceived prevInfoHash infoHash =>
    exact Pays.of_eq hadded rfl rfl rfl (loadingTorrents_handleMetadataReceived _ _)
  | removeTorrent id =>
    refine Pays.of_eq hadded rfl rfl rfl ?_
    change (m.tables.removeTorrent id).loadingTorrents = _
    unfold Tables.removeTorrent
    split <;> rfl

end

end

theorem reports_processTorrent (htakes : TakesNew m infoHash) (params : Params) (request : ℕ) :
    (m.processTorrent source infoHash params request).reports = m.reports := by
  have hnone : ¬ (m.tables.findTorrent infoHash).isSome := by
    rw [htakes.2.2]
    exact Bool.false_ne_true
  unfold processTorrent addTorrentToSession
  dsimp only
  rw [if_neg hnone]
  obtain ⟨hnot, -⟩ | ⟨-, hresult, tables, adding, heq, -⟩ := sessionAddTorrent_cases
    { m with processed := m.processed ++ [(request, params)] } infoHash (some request)
  · exact absurd htakes hnot
  · rw [hresult, if_pos rfl, heq]

theorem reports_addTorrent (hkeeps : Keeps hasSupportedScheme parse m source loaded)
    (params : Params) :
    (m.addTorrent hasSupportedScheme parse source params loaded).reports = m.reports := by
  unfold addTorrent
  by_cases hempty : source = ""
  · rw [if_pos hempty]
  rw [if_neg hempty]
  by_cases hscheme : hasSupportedScheme source = true
  · rw [if_pos hscheme]
  rw [if_neg hscheme]
  obtain ⟨infoHash, hmem, htakes⟩ := hkeeps.resolve_left hscheme
  have hprocess : (processTorrent { m with requests := m.requests ++ [⟨source, params⟩] } source
      infoHash params m.requests.length).reports = m.reports :=
    reports_processTorrent (m := { m with requests := m.requests ++ [⟨source, params⟩] }) htakes params
      m.requests.length
  unfold descriptor at hmem
  cases hparse : parse source with
  | some infoHash' =>
    rw [hparse] at hmem
    cases some.inj hmem
    exact hprocess
  | none =>
    rw [hparse] at hmem
    by_cases hmagnet : isMagnet source = true
    · rw [if_pos hmagnet] at hmem
      cases hmem
    · rw [if_neg hmagnet] at hmem ⊢
      cases loaded with
      | some infoHash' =>
        cases some.inj hmem
        exact hprocess
      | none => cases hmem

/-! ### Downloads are numbered -/

theorem sessionAddTorrent_same (m : AddTorrentManager.State Params) (infoHash : InfoHash)
    (request : Option ℕ) : SameRequests m (m.sessionAddTorrent infoHash request).1 := by
  obtain ⟨-, -, heq | heq⟩ | ⟨-, -, tables, adding, heq, -⟩ :=
    sessionAddTorrent_cases m infoHash request
  · rw [heq]
    exact ⟨rfl, rfl⟩
  · rw [heq]
    exact onSessionSignal_same m infoHash _ request
  · rw [heq]
    exact ⟨rfl, rfl⟩

theorem processTorrent_same (m : AddTorrentManager.State Params) (source : String)
    (infoHash : InfoHash) (params : Params) (request : ℕ) :
    SameRequests m (m.processTorrent source infoHash params request) := by
  have hsession := sessionAddTorrent_same
    { m with processed := m.processed ++ [(request, params)] } infoHash (some request)
  unfold processTorrent
  split_ifs
  · exact ⟨rfl, rfl⟩
  · unfold addTorrentToSession
    dsimp only
    split_ifs <;> exact hsession

theorem Numbered.addTorrent (h : Numbered m) (source : String) (params : Params)
    (loaded : Option InfoHash) :
    Numbered (m.addTorrent hasSupportedScheme parse source params loaded) := by
  have hmore : Numbered { m with requests := m.requests ++ [⟨source, params⟩] } := fun i hi => by
    rw [length_append]
    exact (h i hi).trans_le (Nat.le_add_right _ _)
  unfold State.addTorrent
  split_ifs
  · exact h
  · intro i hi
    rw [length_append, length_singleton]
    obtain rfl | hi := mem_insert.1 hi
    · exact Nat.lt_succ_self _
    · exact (h i hi).trans (Nat.lt_succ_self _)
  · split
    · exact hmore.of_same (processTorrent_same _ source _ params _)
    · exact hmore.of_same ⟨rfl, rfl⟩
  · split
    · exact hmore.of_same (processTorrent_same _ source _ params _)
    · split
      · exact hmore.of_same (processTorrent_same _ source _ params _)
      · exact hmore.of_same ⟨rfl, rfl⟩

variable [Inhabited Params]

theorem onDownloadFinished_same (m : AddTorrentManager.State Params) (source : String)
    (result : Option InfoHash) (request : ℕ) :
    SameRequests m (m.onDownloadFinished source result request) := by
  cases result with
  | some infoHash => exact processTorrent_same _ source infoHash _ request
  | none => exact ⟨rfl, rfl⟩

theorem Numbered.next (h : Numbered m) (e : ManagerEvent Params) :
    Numbered (m.next hasSupportedScheme parse e) := by
  cases e with
  | restoreTorrent infoHash => exact h
  | restored => exact h
  | addTorrent source params loaded => exact h.addTorrent hasSupportedScheme parse source params loaded
  | downloadFinished request result =>
    change Numbered (m.downloadFinished request result)
    unfold downloadFinished
    cases m.downloads.lookup request with
    | none => exact h
    | some source =>
      have herased : Numbered { m with downloads := m.downloads.erase request } := fun i hi =>
        h i (mem_erase.1 hi).2
      cases result with
      | torrent infoHash => exact herased.of_same (onDownloadFinished_same _ source _ request)
      | failed => exact herased.of_same (onDownloadFinished_same _ source _ request)
      | tooLarge =>
        exact (herased.of_same (onDownloadFinished_same _ source _ request)).of_same
          (onDownloadFinished_same _ source _ request)
  | sessionAddTorrent infoHash => exact h.of_same (sessionAddTorrent_same m infoHash none)
  | addTorrentAlert id infoHash =>
    change Numbered (m.addTorrentAlert id infoHash)
    unfold addTorrentAlert
    split_ifs
    · exact h.of_same (onSessionSignal_same _ infoHash _ _)
    · exact h
  | addTorrentError id infoHash reason =>
    change Numbered (m.addTorrentError id infoHash reason)
    unfold addTorrentError
    split_ifs
    · exact h.of_same (onSessionSignal_same _ infoHash _ _)
    · exact h
  | metadataReceived prevInfoHash infoHash => exact h
  | removeTorrent id => exact h

end Manager

namespace Downloader

variable {E : Platform}

/-- The manager owes one report about every source that a job waits for, and what was requested from
it is being added; where it owes nothing, an article can be queued again. -/
structure Fresh (s : Downloader E) : Prop where
  owed : ∀ source ∈ s.waitingJobs, owed s.manager source = 1
  added : ∀ source ∈ s.waitingJobs, AreAdded s.manager source
  free : ∀ article : Article, Processing.owed s.manager article.torrentURL = 0 →
    (s.addJobForArticle article).processingQueue = s.processingQueue ++ [article]

section Properties

variable (Q : Qt) (hasSupportedScheme : String → Bool) (parse : String → Option InfoHash)

/-- The manager reports once about a source that a job waits for, or it still owes that report. -/
def Settled (S : RuleSort E) [∀ lhs rhs : AutoDownloadRule E, Decidable (lhs.Equal Q rhs)]
    (s : Downloader E) (e : Event E) : Prop :=
  ∀ source ∈ s.waitingJobs,
    reported (s.next Q hasSupportedScheme parse S e).manager source +
      Processing.owed (s.next Q hasSupportedScheme parse S e).manager source =
        reported s.manager source + 1

/-- A job that is to wait is kept by the manager, which has nothing under its source; and what is
under way for a job that waits is not disturbed. -/
def Answerable (s : Downloader E) : Event E → Prop
  | .process loaded => ∀ article ∈ s.handsOver Q, parse article.torrentURL = none →
      Keeps hasSupportedScheme parse s.manager article.torrentURL loaded ∧
        Processing.owed s.manager article.torrentURL = 0
  | .manager e => Undisturbed hasSupportedScheme parse s.manager s.waitingJobs.keys e
  | .newArticle _ _ | .markAsRead _ | .setProcessingEnabled _ | .rules _ => True

instance (s : Downloader E) : DecidablePred (s.Answerable Q hasSupportedScheme parse)
  | .process _ | .manager _ | .newArticle .. | .markAsRead _ | .setProcessingEnabled _ | .rules _ => by
    unfold Answerable; infer_instance

end Properties

/-! ### What the events do to the jobs that wait -/

variable {s s' : Downloader E} {source : String}
  {m : AddTorrentManager.State (BitTorrent.AddTorrentParams E)}

theorem mem_waitingJobs_handleReport {report : Report} :
    source ∈ (s.handleReport report).waitingJobs ↔
      source ∈ s.waitingJobs ∧ report.source ≠ source := by
  unfold handleReport
  dsimp only
  split
  case h_1 hnone =>
    refine (and_iff_left_of_imp ?_).symm
    rintro hmem rfl
    rw [mem_iff_isSome, hnone] at hmem
    cases hmem
  case h_2 job hjob =>
    have herase : source ∈ s.waitingJobs.erase report.source ↔
        source ∈ s.waitingJobs ∧ report.source ≠ source := by
      rw [mem_erase, and_comm, ne_comm]
    split_ifs
    · unfold markAsRead
      split_ifs <;> exact herase
    · exact herase

theorem mem_waitingJobs_foldl {reports : List Report} :
    source ∈ (reports.foldl (fun s report => s.handleReport report) s).waitingJobs ↔
      source ∈ s.waitingJobs ∧ ∀ report ∈ reports, report.source ≠ source := by
  induction reports generalizing s with
  | nil => simp
  | cons report reports ih =>
    rw [foldl_cons, ih, mem_waitingJobs_handleReport, forall_mem_cons, and_assoc]

theorem mem_waitingJobs_advance (hstart : s.manager.reports <+: m.reports) :
    source ∈ (s.advance m).waitingJobs ↔
      source ∈ s.waitingJobs ∧ reported m source = reported s.manager source := by
  obtain ⟨new, hnew⟩ := hstart
  have hcount : reported m source = reported s.manager source +
      new.countP fun report => decide (report.source = source) := by
    unfold reported
    rw [← hnew, countP_append]
  unfold Downloader.advance
  rw [mem_waitingJobs_foldl, ← hnew, drop_left]
  rw [hcount, Nat.add_eq_left, countP_eq_zero]
  simp

theorem mem_waitingJobs_of_advance (h : source ∈ (s.advance m).waitingJobs) :
    source ∈ s.waitingJobs :=
  (mem_waitingJobs_foldl.1 h).1

/-- Neither the manager nor a job that waits has changed, and the articles in the queue have
torrents. -/
structure Calm (s s' : Downloader E) : Prop where
  manager : s'.manager = s.manager
  waitingJobs : s'.waitingJobs = s.waitingJobs
  queued : ∀ a ∈ s'.processingQueue, a ∈ s.processingQueue ∨ a.torrentURL ≠ ""

theorem Calm.refl (s : Downloader E) : Calm s s := ⟨rfl, rfl, fun _ => Or.inl⟩

theorem Calm.trans {s'' : Downloader E} (h : Calm s s') (h' : Calm s' s'') : Calm s s'' :=
  ⟨h'.manager.trans h.manager, h'.waitingJobs.trans h.waitingJobs,
    fun a ha => (h'.queued a ha).elim (h.queued a) Or.inr⟩

theorem calm_requeue {l : List Article} (hl : ∀ a ∈ l, a.torrentURL ≠ "") (t : Bool)
    (s : Downloader E) : Calm s { s with processingQueue := l, isTimerActive := t } :=
  ⟨rfl, rfl, fun a ha => Or.inr (hl a ha)⟩

theorem torrentURL_ne_of_mem_pending {article : Article} (h : article ∈ s.pending) :
    article.torrentURL ≠ "" := by
  have hwants := (mem_filter.1 h).2
  simp only [wants, Bool.and_eq_true, decide_eq_true_eq] at hwants
  exact hwants.1.2

theorem calm_resetProcessingQueue (s : Downloader E) : Calm s s.resetProcessingQueue := by
  rw [resetProcessingQueue_eq]
  refine calm_requeue (fun a ha => ?_) _ s
  split_ifs at ha
  · exact torrentURL_ne_of_mem_pending ha
  · cases ha

theorem calm_startProcessing (s : Downloader E) : Calm s s.startProcessing := by
  have hreset := calm_resetProcessingQueue s
  unfold startProcessing
  dsimp only
  rw [foldl_handleNewArticle]
  refine hreset.trans ⟨rfl, rfl, fun a ha => ?_⟩
  obtain ha | ha := mem_append.1 ha
  · exact Or.inl ha
  · exact Or.inr (torrentURL_ne_of_mem_pending ha)

theorem calm_setProcessingEnabled (enabled : Bool) (s : Downloader E) :
    Calm s (s.setProcessingEnabled enabled) := by
  unfold setProcessingEnabled
  dsimp only
  split_ifs
  · have hset : Calm s { s with isProcessingEnabled := enabled } := ⟨rfl, rfl, fun _ => Or.inl⟩
    exact hset.trans (calm_startProcessing _)
  · exact ⟨rfl, rfl, fun _ => Or.inl⟩
  · exact ⟨rfl, rfl, fun a ha => by cases ha⟩
  · exact Calm.refl s

section Steps

variable {Q : Qt} {S : RuleSort E} {hasSupportedScheme : String → Bool}
  {parse : String → Option InfoHash}
  [∀ lhs rhs : AutoDownloadRule E, Decidable (lhs.Equal Q rhs)] {job : Article}
  {loaded : Option InfoHash} {m : AddTorrentManager.State (BitTorrent.AddTorrentParams E)}

theorem calm_setRule (rule : AutoDownloadRule E) (s : Downloader E) :
    Calm s (s.setRule Q S rule) := by
  have hindex : Calm s { s with index := AutoDownloader.setRule Q S rule s.index } :=
    ⟨rfl, rfl, fun _ => Or.inl⟩
  unfold setRule
  split_ifs
  · exact hindex.trans (calm_resetProcessingQueue _)
  · exact hindex

theorem calm_setRules (rules : Except String (List (AutoDownloadRule E))) (s : Downloader E) :
    Calm s (s.setRules Q S rules) := by
  cases rules with
  | error _ => exact Calm.refl s
  | ok rules =>
    induction rules generalizing s with
    | nil => exact Calm.refl s
    | cons rule rules ih => exact (calm_setRule rule s).trans (ih _)

theorem calm_changeRules (e : AutoDownloader.Event E) (s : Downloader E) :
    Calm s (s.changeRules Q S e) := by
  have hindex : Calm s { s with index := AutoDownloader.next Q S s.index e } :=
    ⟨rfl, rfl, fun _ => Or.inl⟩
  cases e with
  | setRule rule => exact calm_setRule rule s
  | importRulesFromJSONFormat jsonDoc => exact calm_setRules (AutoDownloader.rulesFromJSON Q jsonDoc) s
  | importRulesFromLegacyFormat rules => exact calm_setRules rules s
  | loadRulesLegacy rules => exact calm_setRules (.ok (rules.filter (·.name ≠ ""))) s
  | renameRule _ _ => exact hindex
  | removeRule _ => exact hindex
  | loadRules _ => exact hindex
  | handleFeedURLChanged _ _ => exact hindex
  | savingTimer => exact hindex

theorem calm_newArticle (article : Article) (isRead : Bool) (s : Downloader E) :
    Calm s (s.next Q hasSupportedScheme parse S (.newArticle article isRead)) := by
  have hadd : Calm s (s.addArticle article isRead) := ⟨rfl, rfl, fun _ => Or.inl⟩
  unfold Downloader.next
  dsimp only
  split_ifs
  · rw [handleNewArticle_eq]
    refine hadd.trans ⟨rfl, rfl, fun a ha => ?_⟩
    obtain ha | ha := mem_append.1 ha
    · exact Or.inl ha
    · split_ifs at ha with hwants
      · rw [mem_singleton.1 ha]
        simp only [wants, Bool.and_eq_true, decide_eq_true_eq] at hwants
        exact Or.inr hwants.1.2
      · cases ha
  · exact hadd

theorem calm_markAsRead (key : String × String) (s : Downloader E) : Calm s (s.markAsRead key) := by
  unfold Downloader.markAsRead
  split_ifs <;> exact ⟨rfl, rfl, fun _ => Or.inl⟩

/-! ### The invariant -/

/-- The manager owes one report about every source that a job waits for. -/
structure Owing (parse : String → Option InfoHash) (s : Downloader E) : Prop where
  owed : ∀ source ∈ s.waitingJobs, owed s.manager source = 1
  added : ∀ source ∈ s.waitingJobs, AreAdded s.manager source
  source : ∀ source ∈ s.waitingJobs, source ≠ "" ∧ parse source = none
  numbered : Numbered s.manager
  queued : ∀ a ∈ s.processingQueue, a.torrentURL ≠ ""

theorem Owing.fresh (h : Owing parse s) : s.Fresh := by
  refine ⟨h.owed, h.added, fun article hfree => ?_⟩
  unfold addJobForArticle
  rw [if_neg]
  intro hmem
  rw [h.owed _ hmem] at hfree
  cases hfree

theorem Owing.calm (h : Owing parse s) (hcalm : Calm s s') : Owing parse s' := by
  refine ⟨?_, ?_, ?_, ?_, fun a ha => (hcalm.queued a ha).elim (h.queued a) id⟩
  · rw [hcalm.waitingJobs, hcalm.manager]
    exact h.owed
  · rw [hcalm.waitingJobs, hcalm.manager]
    exact h.added
  · rw [hcalm.waitingJobs]
    exact h.source
  · rw [hcalm.manager]
    exact h.numbered

theorem Owing.advance (h : Owing parse s)
    (hpays : ∀ source ∈ s.waitingJobs, Pays source 0 s.manager m) (hnumbered : Numbered m) :
    Owing parse (s.advance m) := by
  have hheard := advance_heard m s
  have hmanager : (s.advance m).manager = m := hheard.manager
  refine ⟨fun source hmem => ?_, fun source hmem => ?_,
    fun source hmem => h.source source (mem_waitingJobs_of_advance hmem), ?_, ?_⟩
  · have hwaiting := mem_waitingJobs_of_advance hmem
    have hreported := ((mem_waitingJobs_advance (hpays source hwaiting).reports).1 hmem).2
    have hdue := (hpays source hwaiting).due
    rw [h.owed source hwaiting, hreported] at hdue
    rw [hmanager]
    omega
  · rw [hmanager]
    exact (hpays source (mem_waitingJobs_of_advance hmem)).added
  · rw [hmanager]
    exact hnumbered
  · rw [hheard.processingQueue]
    exact h.queued

/-! ### A job is processed -/

/-- What is done with a job after the manager was asked for its torrent. -/
def afterAsking (parse : String → Option InfoHash) (job : Article) (s : Downloader E) : Downloader E :=
  if (parse job.torrentURL).isSome then s.markAsRead job.key
  else { s with waitingJobs := s.waitingJobs.insert job.torrentURL job }

section

omit [∀ lhs rhs : AutoDownloadRule E, Decidable (lhs.Equal Q rhs)]

theorem processJob_of_eq_none (hasSupportedScheme : String → Bool)
    (parse : String → Option InfoHash) (h : (acceptingRule Q s.settings job s.index.rules).1 = none)
    (loaded : Option InfoHash) :
    s.processJob Q hasSupportedScheme parse job loaded = { s with
      index := { s.index with rules := (acceptingRule Q s.settings job s.index.rules).2 } } := by
  unfold Downloader.processJob
  dsimp only
  rw [h]

theorem processJob_of_eq_some (hasSupportedScheme : String → Bool)
    (parse : String → Option InfoHash) {params : BitTorrent.AddTorrentParams E}
    (h : (acceptingRule Q s.settings job s.index.rules).1 = some params)
    (loaded : Option InfoHash) :
    ∃ s₁, Calm s s₁ ∧ s.processJob Q hasSupportedScheme parse job loaded =
      (s₁.advance (s.manager.addTorrent hasSupportedScheme parse job.torrentURL params
        loaded)).afterAsking parse job := by
  refine ⟨{ s with
    index := { s.index with
      rules := (acceptingRule Q s.settings job s.index.rules).2
      dirty := true }
    asked := s.asked ++ [job] }, ⟨rfl, rfl, fun _ => Or.inl⟩, ?_⟩
  unfold Downloader.processJob
  dsimp only
  rw [h]
  rfl

theorem process_cases (Q : Qt) (hasSupportedScheme : String → Bool)
    (parse : String → Option InfoHash) (s : Downloader E) (loaded : Option InfoHash) :
    (s.handsOver Q = none ∧ Calm s (s.process Q hasSupportedScheme parse loaded)) ∨
    ∃ job params s₁, s.handsOver Q = some job ∧ job ∈ s.processingQueue ∧ Calm s s₁ ∧
      Calm ((s₁.advance (s.manager.addTorrent hasSupportedScheme parse job.torrentURL params
        loaded)).afterAsking parse job) (s.process Q hasSupportedScheme parse loaded) := by
  unfold Downloader.process handsOver
  cases hqueue : s.processingQueue with
  | nil => exact Or.inl ⟨rfl, rfl, rfl, fun a ha => absurd ha not_mem_nil⟩
  | cons job jobs =>
    have htaken : Calm s { s with isTimerActive := false, processingQueue := jobs } :=
      ⟨rfl, rfl, fun a ha => Or.inl (by rw [hqueue]; exact mem_cons_of_mem job ha)⟩
    have htimer : ∀ s' : Downloader E, Calm s' { s' with isTimerActive := true } :=
      fun _ => ⟨rfl, rfl, fun _ => Or.inl⟩
    dsimp only
    rw [head?_cons, filter_some]
    cases hparams : (acceptingRule Q s.settings job s.index.rules).1 with
    | none =>
      have hjob := processJob_of_eq_none hasSupportedScheme parse
        (s := { s with isTimerActive := false, processingQueue := jobs }) hparams loaded
      have hcalm : Calm s (Downloader.processJob Q hasSupportedScheme parse job loaded
          { s with isTimerActive := false, processingQueue := jobs }) := by
        rw [hjob]
        exact htaken.trans ⟨rfl, rfl, fun _ => Or.inl⟩
      refine Or.inl ⟨rfl, ?_⟩
      split_ifs
      · exact hcalm.trans (htimer _)
      · exact hcalm
    | some params =>
      obtain ⟨s₁, hcalm, hjob⟩ := processJob_of_eq_some hasSupportedScheme parse
        (s := { s with isTimerActive := false, processingQueue := jobs }) hparams loaded
      refine Or.inr ⟨job, params, s₁, rfl, mem_cons_self, htaken.trans hcalm, ?_⟩
      rw [← hjob]
      split_ifs
      · exact htimer _
      · exact Calm.refl _

end

theorem areAdded_of_owed_eq_zero (h : Processing.owed m source = 0) :
    AreAdded m source := fun infoHash hh => by
  have := count_pos (fun s => decide (s = source)) hh (decide_eq_true rfl)
  unfold Processing.owed at h
  omega

theorem Owing.pays_addTorrent (h : Owing parse s) (hjob : parse job.torrentURL = none →
      Keeps hasSupportedScheme parse s.manager job.torrentURL loaded ∧
        Processing.owed s.manager job.torrentURL = 0) (params : BitTorrent.AddTorrentParams E) :
    ∀ source ∈ s.waitingJobs, Pays source 0 s.manager
      (s.manager.addTorrent hasSupportedScheme parse job.torrentURL params loaded) := by
  intro source hsource
  obtain ⟨hne, hparse⟩ := h.source source hsource
  have hother : job.torrentURL ≠ source := by
    rintro rfl
    have howed := (hjob hparse).2
    rw [h.owed _ hsource] at howed
    cases howed
  have hpays := Processing.pays_addTorrent hasSupportedScheme parse (h.added source hsource) hne
    h.numbered job.torrentURL params loaded
  have hnot : ¬ (job.torrentURL = source ∧
      Answers hasSupportedScheme parse s.manager job.torrentURL loaded) := fun hboth =>
    hother hboth.1
  rwa [if_neg hnot] at hpays

theorem Owing.afterAsking (h : Owing parse s) (hurl : job.torrentURL ≠ "")
    (hjob : parse job.torrentURL = none →
      Keeps hasSupportedScheme parse s.manager job.torrentURL loaded ∧
        Processing.owed s.manager job.torrentURL = 0) (params : BitTorrent.AddTorrentParams E) :
    Owing parse ((s.advance (s.manager.addTorrent hasSupportedScheme parse job.torrentURL params
      loaded)).afterAsking parse job) := by
  have hadv := h.advance (h.pays_addTorrent hjob params)
    (h.numbered.addTorrent hasSupportedScheme parse job.torrentURL params loaded)
  have hmanager := (advance_heard
    (s.manager.addTorrent hasSupportedScheme parse job.torrentURL params loaded) s).manager
  unfold Downloader.afterAsking
  split_ifs with hparse
  · exact hadv.calm (calm_markAsRead job.key _)
  · have hnone : parse job.torrentURL = none := by simpa using hparse
    obtain ⟨hkeeps, howed⟩ := hjob hnone
    have hpays := Processing.pays_addTorrent hasSupportedScheme parse
      (areAdded_of_owed_eq_zero howed) hurl h.numbered job.torrentURL params loaded
    have hanswers := hkeeps.answers
    rw [if_pos ⟨rfl, hanswers⟩] at hpays
    have hreported : reported (s.manager.addTorrent hasSupportedScheme parse job.torrentURL params
        loaded) job.torrentURL = reported s.manager job.torrentURL := by
      unfold reported
      rw [reports_addTorrent hasSupportedScheme parse hkeeps params]
    refine ⟨fun source hsource => ?_, fun source hsource => ?_, fun source hsource => ?_,
      hadv.numbered, hadv.queued⟩
    · obtain rfl | hsource := mem_insert.1 hsource
      · rw [hmanager]
        have hdue := hpays.due
        dsimp only at hdue ⊢
        omega
      · exact hadv.owed source hsource
    · obtain rfl | hsource := mem_insert.1 hsource
      · rw [hmanager]
        exact hpays.added
      · exact hadv.added source hsource
    · obtain rfl | hsource := mem_insert.1 hsource
      · exact ⟨hurl, hnone⟩
      · exact hadv.source source hsource

omit [∀ lhs rhs : AutoDownloadRule E, Decidable (lhs.Equal Q rhs)] in
theorem afterAsking_manager (job : Article) (s : Downloader E) :
    (s.afterAsking parse job).manager = s.manager := by
  unfold Downloader.afterAsking
  split_ifs
  · exact (markAsRead_heard job.key s).manager
  · rfl

theorem Owing.settled {e : Event E} (h : Owing parse s)
    (hpays : ∀ source ∈ s.waitingJobs, Pays source 0 s.manager
      (s.next Q hasSupportedScheme parse S e).manager) :
    s.Settled Q hasSupportedScheme parse S e := fun source hsource => by
  rw [(hpays source hsource).due, h.owed source hsource]

omit [∀ lhs rhs : AutoDownloadRule E, Decidable (Equal Q lhs rhs)] in
theorem Owing.process (h : Owing parse s)
    (hanswerable : s.Answerable Q hasSupportedScheme parse (.process loaded)) :
    Owing parse (s.process Q hasSupportedScheme parse loaded) ∧
      ∀ source ∈ s.waitingJobs, Pays source 0 s.manager
        (s.process Q hasSupportedScheme parse loaded).manager := by
  obtain ⟨-, hcalm⟩ | ⟨job, params, s₁, hands, hjob, hcalm₁, hcalm⟩ :=
    process_cases Q hasSupportedScheme parse s loaded
  · refine ⟨h.calm hcalm, fun source hsource => ?_⟩
    rw [hcalm.manager]
    exact Pays.of_eq (h.added source hsource) rfl rfl rfl rfl
  · have hkept := hanswerable job hands
    have howing := h.calm hcalm₁
    rw [← hcalm₁.manager] at hkept hcalm
    refine ⟨(howing.afterAsking (h.queued job hjob) hkept params).calm hcalm, ?_⟩
    rw [hcalm.manager, afterAsking_manager, (advance_heard _ s₁).manager, ← hcalm₁.waitingJobs,
      ← hcalm₁.manager]
    exact howing.pays_addTorrent hkept params

theorem Owing.next (h : Owing parse s) {e : Event E} (hp : s.Possible e)
    (hanswerable : s.Answerable Q hasSupportedScheme parse e) :
    Owing parse (s.next Q hasSupportedScheme parse S e) ∧
      s.Settled Q hasSupportedScheme parse S e := by
  have hcalmly : Calm s (s.next Q hasSupportedScheme parse S e) →
      Owing parse (s.next Q hasSupportedScheme parse S e) ∧
        s.Settled Q hasSupportedScheme parse S e := fun hcalm =>
    ⟨h.calm hcalm, h.settled fun source hsource => by
      rw [hcalm.manager]
      exact Pays.of_eq (h.added source hsource) rfl rfl rfl rfl⟩
  cases e with
  | newArticle article isRead => exact hcalmly (calm_newArticle article isRead s)
  | markAsRead key => exact hcalmly (calm_markAsRead key s)
  | setProcessingEnabled enabled => exact hcalmly (calm_setProcessingEnabled enabled s)
  | rules e => exact hcalmly (calm_changeRules e s)
  | process loaded =>
    obtain ⟨howing, hpays⟩ := h.process hanswerable
    exact ⟨howing, h.settled hpays⟩
  | manager e =>
    have hpays : ∀ source ∈ s.waitingJobs, Pays source 0 s.manager
        (s.manager.next hasSupportedScheme parse e) := fun source hsource =>
      pays_next hasSupportedScheme parse (h.added source hsource) (h.source source hsource).1
        h.numbered (mem_keys.2 hsource) hp.1 hanswerable
    have hadv := h.advance hpays (h.numbered.next hasSupportedScheme parse e)
    have hmanager := (advance_heard (s.manager.next hasSupportedScheme parse e) s).manager
    have hcalm : Calm (s.advance (s.manager.next hasSupportedScheme parse e))
        (s.next Q hasSupportedScheme parse S (.manager e)) := by
      unfold Downloader.next
      dsimp only
      split_ifs
      · exact calm_startProcessing _
      · exact Calm.refl _
    refine ⟨hadv.calm hcalm, h.settled ?_⟩
    rw [hcalm.manager, hmanager]
    exact hpays

/-- **Jobs that wait are answered.**  In every run where jobs are not answered before they wait, and
what is under way for one that waits is neither requested by others nor changed nor refused, the
manager always owes exactly one report about every source that is waited for, and each of these
sources is reported once or goes on to be owed. -/
theorem fresh_of_answerable (index : AutoDownloader E) (settings : Settings) (enabled : Bool)
    (events : List (Event E))
    (h : (machine Q hasSupportedScheme parse S).Meets
      (fun s e => s.Answerable Q hasSupportedScheme parse e)
      { index := index, settings := settings, isProcessingEnabled := enabled } events) :
    (machine Q hasSupportedScheme parse S).Always Fresh
        { index := index, settings := settings, isProcessingEnabled := enabled } events ∧
      (machine Q hasSupportedScheme parse S).Meets
        (fun s e => s.Possible e → s.Settled Q hasSupportedScheme parse S e)
        { index := index, settings := settings, isProcessingEnabled := enabled } events := by
  have hinit : Owing parse ({ index := index, settings := settings, isProcessingEnabled := enabled } :
      Downloader E) :=
    ⟨fun source hsource => absurd hsource notMem_empty,
      fun source hsource => absurd hsource notMem_empty,
      fun source hsource => absurd hsource notMem_empty,
      fun i hi => absurd hi notMem_empty, fun a ha => by cases ha⟩
  refine ⟨Machine.guarded_always hinit (fun _ hs => hs.fresh)
    (fun s e hs hp hC => (hs.next hp hC).1) h, ?_⟩
  refine h.mono (I := Owing parse) hinit (fun s e s' hs hC hl => ?_) fun s e hs hC hp =>
    (hs.next hp hC).2
  obtain ⟨hp, rfl⟩ := Machine.guarded_step_eq_some.1 hl
  exact (hs.next hp hC).1

end Steps

/-- A torrent is downloaded and added while its job waits, and one is added from a magnet link. -/
def answeredRun : List (Event Platform.plain) :=
  [.manager .restored, .newArticle urlArticle false, .newArticle magnetArticle false,
    .process none, .process none, .manager (.downloadFinished 0 (.torrent urlHash)),
    .manager (.addTorrentAlert 2 magnetHash), .manager (.addTorrentAlert 1 urlHash)]

theorem fresh_of_answerable_answeredRun :
    (machine Qt.plain isURL parseMagnet prioritySort).Always Fresh
        { index := feedIndex, settings := ⟨"", true⟩, isProcessingEnabled := true } answeredRun ∧
      (machine Qt.plain isURL parseMagnet prioritySort).Meets
        (fun s e => s.Possible e → s.Settled Qt.plain isURL parseMagnet prioritySort e)
        { index := feedIndex, settings := ⟨"", true⟩, isProcessingEnabled := true } answeredRun :=
  fresh_of_answerable feedIndex ⟨"", true⟩ true answeredRun (by decide +kernel)

/-- A magnet link that cannot be read. -/
def brokenArticle : Article := ⟨"feed", "3", "magnet:?dn=three", ⟨"three", .invalid⟩⟩

/-- The failure of the link is reported before its job waits. -/
def brokenRun : List (Event Platform.plain) :=
  [.manager .restored, .newArticle brokenArticle false, .process none]

theorem brokenRun_not_fresh :
    ((machine Qt.plain isURL parseMagnet prioritySort).run
      { index := feedIndex, settings := ⟨"", true⟩, isProcessingEnabled := true }
      brokenRun).isSome = true ∧
    ¬ (machine Qt.plain isURL parseMagnet prioritySort).Always Fresh
      { index := feedIndex, settings := ⟨"", true⟩, isProcessingEnabled := true } brokenRun := by
  refine ⟨by decide, fun h => ?_⟩
  obtain ⟨s, hs⟩ : ∃ s, (machine Qt.plain isURL parseMagnet prioritySort).run
      { index := feedIndex, settings := ⟨"", true⟩, isProcessingEnabled := true } brokenRun =
        some s := isSome_iff_exists.1 (by decide)
  have hend : ∀ s ∈ (machine Qt.plain isURL parseMagnet prioritySort).run
      { index := feedIndex, settings := ⟨"", true⟩, isProcessingEnabled := true } brokenRun,
      brokenArticle.torrentURL ∈ s.waitingJobs ∧
        Processing.owed s.manager brokenArticle.torrentURL = 0 := by decide
  obtain ⟨hwaits, howed⟩ := hend s hs
  rw [(h.at_end hs).owed _ hwaits] at howed
  cases howed

end Downloader

end QBittorrent.Rss.Processing
