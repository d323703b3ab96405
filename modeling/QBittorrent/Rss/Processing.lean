import QBittorrent.Rss.RuleIndex
import QBittorrent.Session.AddTorrentManager

/-!
# Automatic downloads of articles

`AutoDownloader` puts the articles that are new and unread into a queue, takes one job after the
other out of it, and hands the torrents of those that a rule accepts to `AddTorrentManager`.  A job
whose torrent is downloaded first waits under the source of the torrent until the manager reports
about that source; then its article is marked as read.

The manager stands here with all that it does, for the downloader and for others.

* `Downloader.taken_once` : torrents are taken from unread articles that wait for no answer.
-/

namespace QBittorrent.Rss.Processing

open AddTorrentManager List Option

variable {E : Platform}

instance : Inhabited (BitTorrent.AddTorrentParams E) := ⟨defaultAddTorrentParams⟩

/-- An article of a feed, and what a job knows of it. -/
structure Article where
  feedURL : String
  guid : String
  torrentURL : String
  data : ArticleData
  deriving DecidableEq

/-- What an article is found by. -/
def Article.key (article : Article) : String × String := (article.feedURL, article.guid)

/-- The downloader with the articles of all feeds and the manager. -/
structure Downloader (E : Platform) where
  index : AutoDownloader E := {}
  settings : Settings
  isProcessingEnabled : Bool
  /-- The downloader hears of new articles. -/
  isListening : Bool := false
  articles : List Article := []
  /-- The articles that are read. -/
  read : Finset (String × String) := ∅
  /-- `m_processingQueue` -/
  processingQueue : List Article := []
  /-- `m_processingTimer` -/
  isTimerActive : Bool := false
  /-- `m_waitingJobs` -/
  waitingJobs : Dict String Article := ∅
  manager : AddTorrentManager.State (BitTorrent.AddTorrentParams E) := {}
  /-- The jobs that were handed over, until their sources are reported. -/
  asked : List Article := []

namespace Downloader

/-! ### The queue -/

def isRead (s : Downloader E) (article : Article) : Bool := decide (article.key ∈ s.read)

/-- `Article::markAsRead`, of the article with this key if it is there. -/
def markAsRead (key : String × String) (s : Downloader E) : Downloader E :=
  if key ∈ s.articles.map Article.key then { s with read := insert key s.read } else s

/-- `AutoDownloader::addJobForArticle`. -/
def addJobForArticle (article : Article) (s : Downloader E) : Downloader E :=
  if article.torrentURL ∈ s.waitingJobs then s
  else { s with
    processingQueue := s.processingQueue ++ [article]
    isTimerActive := true }

/-- `AutoDownloader::handleNewArticle`. -/
def handleNewArticle (article : Article) (s : Downloader E) : Downloader E :=
  if !s.isRead article && decide (article.torrentURL ≠ "") then s.addJobForArticle article else s

/-- `AutoDownloader::resetProcessingQueue`.  Its loop does the same as `handleNewArticle`. -/
def resetProcessingQueue (s : Downloader E) : Downloader E :=
  let s := { s with processingQueue := [] }
  if !s.isProcessingEnabled then s
  else s.articles.foldl (fun s article => s.handleNewArticle article) s

/-- `AutoDownloader::startProcessing`. -/
def startProcessing (s : Downloader E) : Downloader E :=
  let s := s.resetProcessingQueue
  { s.articles.foldl (fun s article => s.handleNewArticle article) s with isListening := true }

/-- `AutoDownloader::setProcessingEnabled`. -/
def setProcessingEnabled (enabled : Bool) (s : Downloader E) : Downloader E :=
  if s.isProcessingEnabled ≠ enabled then
    let s := { s with isProcessingEnabled := enabled }
    if enabled then
      if s.manager.isRestored then s.startProcessing else s
    else { s with processingQueue := [], isListening := false }
  else s

/-! ### Answers of the manager -/

/-- `handleTorrentAdded` and `handleAddTorrentFailed`. -/
def handleReport (report : Report) (s : Downloader E) : Downloader E :=
  let s := { s with asked := s.asked.filter fun job => decide (job.torrentURL ≠ report.source) }
  match s.waitingJobs.lookup report.source with
  | none => s
  | some job =>
    let s := { s with waitingJobs := s.waitingJobs.erase report.source }
    if report.outcome = .torrentAdded ∨ report.outcome = .addTorrentFailed .duplicateTorrent then
      s.markAsRead job.key
    else s

/-- The manager does something, and the downloader hears of what it reports. -/
def advance (manager : AddTorrentManager.State (BitTorrent.AddTorrentParams E)) (s : Downloader E) :
    Downloader E :=
  (manager.reports.drop s.manager.reports.length).foldl (fun s report => s.handleReport report)
    { s with manager := manager }

section Functions

variable (Q : Qt)

/-- The parameters of the first rule that accepts a job, and the rules after they were asked. -/
def acceptingRule (settings : Settings) (job : Article) : List (AutoDownloadRule E) →
    Option (BitTorrent.AddTorrentParams E) × List (AutoDownloadRule E)
  | [] => (none, [])
  | rule :: rules =>
    if !rule.enabled || decide (job.feedURL ∉ rule.feedURLs) then
      ((acceptingRule settings job rules).1, rule :: (acceptingRule settings job rules).2)
    else
      match rule.accepts Q settings job.data with
      | (true, rule) => (some rule.addTorrentParams, rule :: rules)
      | (false, rule) =>
        ((acceptingRule settings job rules).1, rule :: (acceptingRule settings job rules).2)

variable (hasSupportedScheme : String → Bool) (parse : String → Option InfoHash)

/-- `AutoDownloader::processJob`; `loaded` is what the manager gets when it loads the source as a
file. -/
def processJob (job : Article) (loaded : Option InfoHash) (s : Downloader E) : Downloader E :=
  let (params, rules) := acceptingRule Q s.settings job s.index.rules
  let s := { s with index := { s.index with rules := rules } }
  match params with
  | none => s
  | some params =>
    let s := { s with index := { s.index with dirty := true }, asked := s.asked ++ [job] }
    let s := s.advance (s.manager.addTorrent hasSupportedScheme parse job.torrentURL params loaded)
    if (parse job.torrentURL).isSome then s.markAsRead job.key
    else { s with waitingJobs := s.waitingJobs.insert job.torrentURL job }

/-- `AutoDownloader::process`. -/
def process (loaded : Option InfoHash) (s : Downloader E) : Downloader E :=
  let s := { s with isTimerActive := false }
  match s.processingQueue with
  | [] => s
  | job :: processingQueue =>
    let s := { s with processingQueue := processingQueue }.processJob Q hasSupportedScheme parse
      job loaded
    if s.processingQueue ≠ [] then { s with isTimerActive := true } else s

variable (S : RuleSort E) [∀ lhs rhs : AutoDownloadRule E, Decidable (lhs.Equal Q rhs)]

/-- `AutoDownloader::setRule`, with the queue. -/
def setRule (rule : AutoDownloadRule E) (s : Downloader E) : Downloader E :=
  let s' := { s with index := AutoDownloader.setRule Q S rule s.index }
  if !s.index.hasRule rule.name || decide ¬ (s.index.ruleByName rule.name).Equal Q rule then
    s'.resetProcessingQueue
  else s'

/-- Rules that are set one after the other. -/
def setRules (rules : Except String (List (AutoDownloadRule E))) (s : Downloader E) :
    Downloader E :=
  match rules with
  | .error _ => s
  | .ok rules => rules.foldl (fun s rule => s.setRule Q S rule) s

/-- What is done to the rules, with the queue. -/
def changeRules (s : Downloader E) : AutoDownloader.Event E → Downloader E
  | .setRule rule => s.setRule Q S rule
  | .importRulesFromJSONFormat jsonDoc => s.setRules Q S (AutoDownloader.rulesFromJSON Q jsonDoc)
  | .importRulesFromLegacyFormat rules => s.setRules Q S rules
  | .loadRulesLegacy rules => s.setRules Q S (.ok (rules.filter (·.name ≠ "")))
  | e => { s with index := AutoDownloader.next Q S s.index e }

end Functions

end Downloader

/-! ### Events -/

/-- What happens to articles, rules and the manager; `process` is the timer. -/
inductive Event (E : Platform) where
  | newArticle (article : Article) (isRead : Bool)
  | markAsRead (key : String × String)
  | setProcessingEnabled (enabled : Bool)
  | rules (e : AutoDownloader.Event E)
  | process (loaded : Option InfoHash)
  | manager (e : ManagerEvent (BitTorrent.AddTorrentParams E))

/-- The signal `Session::restored`. -/
def isRestored : ManagerEvent (BitTorrent.AddTorrentParams E) → Bool
  | .restored => true
  | _ => false

def isFeedURLChange : AutoDownloader.Event E → Bool
  | .handleFeedURLChanged _ _ => true
  | _ => false

namespace Downloader

/-- An article that is new was not there before; the feeds keep their addresses; the session is
restored once. -/
def Possible (s : Downloader E) : Event E → Prop
  | .newArticle article _ => article.key ∉ s.articles.map Article.key
  | .rules e => isFeedURLChange e = false
  | .process _ => s.isTimerActive = true
  | .manager e => s.manager.Possible e ∧ (isRestored e = true → s.manager.isRestored = false)
  | .markAsRead _ | .setProcessingEnabled _ => True

instance (s : Downloader E) : DecidablePred s.Possible := fun e => by
  cases e <;> unfold Possible <;> infer_instance

/-- A feed has one article more. -/
def addArticle (article : Article) (isRead : Bool) (s : Downloader E) : Downloader E :=
  { s with
    articles := s.articles ++ [article]
    read := if isRead then insert article.key s.read else s.read }

section Runs

variable (Q : Qt) (hasSupportedScheme : String → Bool) (parse : String → Option InfoHash)
  (S : RuleSort E) [∀ lhs rhs : AutoDownloadRule E, Decidable (lhs.Equal Q rhs)]

def next (s : Downloader E) : Event E → Downloader E
  | .newArticle article isRead =>
    let s := s.addArticle article isRead
    if s.isListening then s.handleNewArticle article else s
  | .markAsRead key => s.markAsRead key
  | .setProcessingEnabled enabled => s.setProcessingEnabled enabled
  | .rules e => s.changeRules Q S e
  | .process loaded => s.process Q hasSupportedScheme parse loaded
  | .manager e =>
    let s := s.advance (s.manager.next hasSupportedScheme parse e)
    if isRestored e && s.isProcessingEnabled then s.startProcessing else s

def machine : Machine (Downloader E) (Event E) :=
  .guarded Possible (next Q hasSupportedScheme parse S)

end Runs

section Properties

variable (Q : Qt)

/-- The article whose torrent the next job hands over. -/
def handsOver (s : Downloader E) : Option Article :=
  s.processingQueue.head?.filter fun job => (acceptingRule Q s.settings job s.index.rules).1.isSome

/-- The torrent of an article is only handed over if the article is unread, and no job of it waits
for an answer. -/
def TakenOnce (s : Downloader E) : Event E → Prop
  | .process _ => ∀ article ∈ s.handsOver Q, article.key ∉ s.read ∧
      (∀ job ∈ s.asked, job.key ≠ article.key) ∧
      ∀ source job, s.waitingJobs.lookup source = some job → job.key ≠ article.key
  | _ => True

end Properties

def wants (s : Downloader E) (article : Article) : Bool :=
  !s.isRead article && decide (article.torrentURL ≠ "") &&
    decide (article.torrentURL ∉ s.waitingJobs)

/-- The articles that are put into the queue when it is made anew. -/
def pending (s : Downloader E) : List Article := s.articles.filter s.wants

/-- When processing starts there are no articles for it yet, and an article is not marked as read
while it is in the queue. -/
def Orderly (s : Downloader E) : Event E → Prop
  | .manager e => isRestored e = true → s.isProcessingEnabled = true → s.pending = []
  | .setProcessingEnabled enabled =>
    enabled = true → s.isProcessingEnabled = false → s.manager.isRestored = true → s.pending = []
  | .markAsRead key => key ∉ s.processingQueue.map Article.key
  | .newArticle _ _ | .rules _ | .process _ => True

instance (s : Downloader E) : DecidablePred s.Orderly := fun e => by
  cases e <;> unfold Orderly <;> infer_instance

/-! ### The queue -/

variable {s : Downloader E} {article job : Article} {key : String × String} {source : String}
  {exempt : Option Article}

/-- Articles are put into the queue. -/
def enqueue (l : List Article) (s : Downloader E) : Downloader E :=
  { s with
    processingQueue := s.processingQueue ++ l
    isTimerActive := s.isTimerActive || !l.isEmpty }

theorem enqueue_nil : s.enqueue [] = s := by
  simp [enqueue]

theorem enqueue_enqueue (l l' : List Article) (s : Downloader E) :
    (s.enqueue l).enqueue l' = s.enqueue (l ++ l') := by
  cases l <;> simp [enqueue]

theorem wants_enqueue (l : List Article) : (s.enqueue l).wants = s.wants := rfl

theorem handleNewArticle_eq (article : Article) (s : Downloader E) :
    s.handleNewArticle article = s.enqueue (if s.wants article then [article] else []) := by
  unfold handleNewArticle addJobForArticle wants
  by_cases hwait : article.torrentURL ∈ s.waitingJobs
  · simp [hwait, enqueue_nil]
  · cases !s.isRead article && decide (article.torrentURL ≠ "")
    · simp [enqueue_nil]
    · simp [hwait, enqueue]

theorem foldl_handleNewArticle (l : List Article) (s : Downloader E) :
    l.foldl (fun s article => s.handleNewArticle article) s = s.enqueue (l.filter s.wants) := by
  induction l generalizing s with
  | nil => rw [filter_nil, enqueue_nil, foldl_nil]
  | cons article l ih =>
    rw [foldl_cons, handleNewArticle_eq, ih, enqueue_enqueue, wants_enqueue]
    congr 1
    rw [filter_cons]
    split <;> rfl

theorem resetProcessingQueue_eq (s : Downloader E) :
    s.resetProcessingQueue = Downloader.enqueue (if s.isProcessingEnabled then s.pending else [])
      { s with processingQueue := [] } := by
  unfold resetProcessingQueue
  cases henabled : s.isProcessingEnabled
  · simp [enqueue_nil]
  · exact foldl_handleNewArticle s.articles _

theorem startProcessing_eq (hpending : s.pending = []) :
    s.startProcessing = { s with processingQueue := [], isListening := true } := by
  have hreset : s.resetProcessingQueue = { s with processingQueue := [] } := by
    rw [resetProcessingQueue_eq, hpending, ite_self, enqueue_nil]
  unfold startProcessing
  rw [hreset]
  dsimp only
  rw [foldl_handleNewArticle]
  have hnone : s.articles.filter (wants { s with processingQueue := [] }) = [] := hpending
  rw [hnone, enqueue_nil]

/-! ### The invariant -/

/-- The jobs in the queue are of unread articles, one of each, and no job of these is waiting or was
asked about; the job `exempt` does not wait yet. -/
structure TidyBut (exempt : Option Article) (s : Downloader E) : Prop where
  present : (s.articles.map Article.key).Nodup
  readPresent : ∀ key ∈ s.read, key ∈ s.articles.map Article.key
  queueOnce : (s.processingQueue.map Article.key).Nodup
  queued : ∀ a ∈ s.processingQueue, a ∈ s.articles ∧ a.key ∉ s.read
  asked : ∀ job ∈ s.asked, job ∈ s.articles ∧
    (job.torrentURL ∈ s.waitingJobs ∨ job.key ∈ s.read ∨ exempt = some job)
  waiting : ∀ source job, s.waitingJobs.lookup source = some job →
    job ∈ s.articles ∧ job.torrentURL = source
  askedApart : ∀ a ∈ s.processingQueue, ∀ job ∈ s.asked, job.key ≠ a.key
  waitingApart : ∀ a ∈ s.processingQueue, ∀ source job, s.waitingJobs.lookup source = some job →
    job.key ≠ a.key

abbrev Tidy (s : Downloader E) : Prop := TidyBut none s

theorem TidyBut.eq_of_key (h : TidyBut exempt s) (ha : article ∈ s.articles) (hj : job ∈ s.articles)
    (hkey : job.key = article.key) : job = article :=
  inj_on_of_nodup_map h.present hj ha hkey

theorem TidyBut.requeue (h : s.Tidy) {l : List Article}
    (hl : ∀ a ∈ l, a ∈ s.processingQueue ∨ a ∈ s.pending) (honce : (l.map Article.key).Nodup)
    (t : Bool) : Tidy { s with processingQueue := l, isTimerActive := t } := by
  have hwants : ∀ a ∈ s.pending,
      a ∈ s.articles ∧ a.key ∉ s.read ∧ a.torrentURL ∉ s.waitingJobs := fun a ha => by
    obtain ⟨hpresent, hwants⟩ := mem_filter.1 ha
    simp only [wants, isRead, Bool.and_eq_true, Bool.not_eq_true', decide_eq_false_iff_not,
      decide_eq_true_eq] at hwants
    exact ⟨hpresent, hwants.1.1, hwants.2⟩
  refine ⟨h.present, h.readPresent, honce, fun a ha => ?_, h.asked, h.waiting,
    fun a ha job hj heq => ?_, fun a ha source job hj heq => ?_⟩
  · exact (hl a ha).elim (h.queued a) fun ha => ⟨(hwants a ha).1, (hwants a ha).2.1⟩
  · obtain ha | ha := hl a ha
    · exact h.askedApart a ha job hj heq
    · obtain ⟨hpresent, hread, hnot⟩ := hwants a ha
      obtain ⟨hjob, hwait⟩ := h.asked job hj
      rw [h.eq_of_key hpresent hjob heq] at hwait
      obtain hwait | hwait | hnone := hwait
      · exact hnot hwait
      · exact hread hwait
      · cases hnone
  · obtain ha | ha := hl a ha
    · exact h.waitingApart a ha source job hj heq
    · obtain ⟨hpresent, -, hnot⟩ := hwants a ha
      obtain ⟨hjob, hsource⟩ := h.waiting source job hj
      rw [h.eq_of_key hpresent hjob heq] at hsource
      refine hnot ?_
      rw [hsource]
      exact Finmap.mem_of_lookup_eq_some hj

theorem TidyBut.resetProcessingQueue (h : s.Tidy) : s.resetProcessingQueue.Tidy := by
  rw [resetProcessingQueue_eq]
  have hsub : (if s.isProcessingEnabled then s.pending else []).Sublist s.pending := by
    split_ifs
    · exact Sublist.refl _
    · exact nil_sublist _
  refine h.requeue ?_ ?_ _
  · exact fun a ha => Or.inr (hsub.subset ha)
  · exact h.present.sublist ((hsub.trans filter_sublist).map _)

theorem TidyBut.markAsRead (h : TidyBut exempt s) (hkey : key ∉ s.processingQueue.map Article.key) :
    TidyBut exempt (s.markAsRead key) := by
  unfold Downloader.markAsRead
  split_ifs with hpresent
  · refine { h with
    readPresent := fun k hk => ?_
    queued := fun a ha => ⟨(h.queued a ha).1, fun hread => ?_⟩
    asked := fun job hj => ⟨(h.asked job hj).1, ?_⟩ }
    · obtain rfl | hk := Finset.mem_insert.1 hk
      · exact hpresent
      · exact h.readPresent k hk
    · obtain heq | hread := Finset.mem_insert.1 hread
      · exact hkey (mem_map.2 ⟨a, ha, heq⟩)
      · exact (h.queued a ha).2 hread
    · exact (h.asked job hj).2.imp_right (Or.imp_left (Finset.mem_insert_of_mem))
  · exact h

/-- What reports leave as it is. -/
structure Heard (s s' : Downloader E) : Prop where
  index : s'.index = s.index
  settings : s'.settings = s.settings
  isProcessingEnabled : s'.isProcessingEnabled = s.isProcessingEnabled
  isListening : s'.isListening = s.isListening
  articles : s'.articles = s.articles
  processingQueue : s'.processingQueue = s.processingQueue
  manager : s'.manager = s.manager

theorem Heard.refl (s : Downloader E) : Heard s s := ⟨rfl, rfl, rfl, rfl, rfl, rfl, rfl⟩

theorem Heard.trans {s' s'' : Downloader E} (h : Heard s s') (h' : Heard s' s'') : Heard s s'' :=
  ⟨h'.index.trans h.index, h'.settings.trans h.settings,
    h'.isProcessingEnabled.trans h.isProcessingEnabled, h'.isListening.trans h.isListening,
    h'.articles.trans h.articles, h'.processingQueue.trans h.processingQueue,
    h'.manager.trans h.manager⟩

theorem markAsRead_heard (key : String × String) (s : Downloader E) : Heard s (s.markAsRead key) := by
  unfold Downloader.markAsRead
  split_ifs <;> exact ⟨rfl, rfl, rfl, rfl, rfl, rfl, rfl⟩

theorem handleReport_heard (report : Report) (s : Downloader E) :
    Heard s (s.handleReport report) := by
  unfold handleReport
  dsimp only
  split
  case h_1 => exact ⟨rfl, rfl, rfl, rfl, rfl, rfl, rfl⟩
  case h_2 job hjob =>
    have hmark := markAsRead_heard job.key { s with
      asked := s.asked.filter fun job => decide (job.torrentURL ≠ report.source)
      waitingJobs := s.waitingJobs.erase report.source }
    split_ifs
    · exact { hmark with }
    · exact ⟨rfl, rfl, rfl, rfl, rfl, rfl, rfl⟩

theorem TidyBut.handleReport (h : TidyBut exempt s) (report : Report) :
    TidyBut exempt (s.handleReport report) := by
  have hasked : ∀ job ∈ s.asked.filter fun job => decide (job.torrentURL ≠ report.source),
      job ∈ s.asked ∧ job.torrentURL ≠ report.source := fun job hj => by
    obtain ⟨hj, hne⟩ := mem_filter.1 hj
    exact ⟨hj, of_decide_eq_true hne⟩
  unfold Downloader.handleReport
  dsimp only
  split
  case h_1 => exact { h with
    asked := fun job hj => h.asked job (hasked job hj).1
    askedApart := fun a ha job hj => h.askedApart a ha job (hasked job hj).1 }
  case h_2 job hjob =>
    have hwaiting : ∀ source job, (s.waitingJobs.erase report.source).lookup source = some job →
        s.waitingJobs.lookup source = some job := fun source job hj => by
      rw [Dict.lookup_erase_eq] at hj
      split_ifs at hj
      exact hj
    have herased : TidyBut exempt { s with
        asked := s.asked.filter fun job => decide (job.torrentURL ≠ report.source)
        waitingJobs := s.waitingJobs.erase report.source } := by
      refine ⟨h.present, h.readPresent, h.queueOnce, h.queued, fun job' hj => ?_,
        fun source job' hj => h.waiting source job' (hwaiting source job' hj),
        fun a ha job' hj => h.askedApart a ha job' (hasked job' hj).1,
        fun a ha source job' hj => h.waitingApart a ha source job' (hwaiting source job' hj)⟩
      obtain ⟨hj, hne⟩ := hasked job' hj
      obtain ⟨hpresent, hwait⟩ := h.asked job' hj
      refine ⟨hpresent, hwait.imp_left fun hmem => ?_⟩
      rw [Dict.mem_iff_isSome, Dict.lookup_erase_eq, if_neg hne]
      exact (Dict.mem_iff_isSome _ _).1 hmem
    split_ifs
    · refine herased.markAsRead fun hmem => ?_
      obtain ⟨a, ha, heq⟩ := mem_map.1 hmem
      exact h.waitingApart a ha _ job hjob heq.symm
    · exact herased

theorem foldl_handleReport (h : TidyBut exempt s) (reports : List Report) :
    TidyBut exempt (reports.foldl (fun s report => s.handleReport report) s) := by
  induction reports generalizing s with
  | nil => exact h
  | cons report reports ih => exact ih (h.handleReport report)

theorem foldl_handleReport_heard (reports : List Report) (s : Downloader E) :
    Heard s (reports.foldl (fun s report => s.handleReport report) s) := by
  induction reports generalizing s with
  | nil => exact Heard.refl s
  | cons report reports ih => exact (handleReport_heard report s).trans (ih _)

theorem TidyBut.advance (h : TidyBut exempt s)
    (manager : AddTorrentManager.State (BitTorrent.AddTorrentParams E)) :
    TidyBut exempt (s.advance manager) := by
  refine foldl_handleReport ?_ _
  exact { h with }

theorem advance_heard (manager : AddTorrentManager.State (BitTorrent.AddTorrentParams E))
    (s : Downloader E) : Heard { s with manager := manager } (s.advance manager) :=
  foldl_handleReport_heard _ _

section Steps

variable {Q : Qt} {S : RuleSort E} {hasSupportedScheme : String → Bool}
  {parse : String → Option InfoHash}

theorem TidyBut.finish (h : TidyBut (some job) s) (hpresent : job ∈ s.articles)
    (hne : ∀ a ∈ s.processingQueue, job.key ≠ a.key) :
    Tidy (if (parse job.torrentURL).isSome then s.markAsRead job.key
      else { s with waitingJobs := s.waitingJobs.insert job.torrentURL job }) := by
  split_ifs
  · have hkey : job.key ∉ s.processingQueue.map Article.key := fun hmem => by
      obtain ⟨a, ha, heq⟩ := mem_map.1 hmem
      exact hne a ha heq.symm
    have hmark := h.markAsRead hkey
    have hread : job.key ∈ (s.markAsRead job.key).read := by
      unfold Downloader.markAsRead
      rw [if_pos (mem_map_of_mem hpresent)]
      exact Finset.mem_insert_self _ _
    refine { hmark with asked := fun job' hj => ?_ }
    obtain ⟨hpresent', hwait | hread' | heq⟩ := hmark.asked job' hj
    · exact ⟨hpresent', Or.inl hwait⟩
    · exact ⟨hpresent', Or.inr (Or.inl hread')⟩
    · rw [← some.inj heq] at hpresent' ⊢
      exact ⟨hpresent', Or.inr (Or.inl hread)⟩
  · have hlookup : ∀ source job', (s.waitingJobs.insert job.torrentURL job).lookup source = some job' →
        (source = job.torrentURL ∧ job' = job) ∨ s.waitingJobs.lookup source = some job' :=
      fun source job' hj => by
        rw [Dict.lookup_insert_eq] at hj
        split_ifs at hj with heq
        · exact Or.inl ⟨heq, (some.inj hj).symm⟩
        · exact Or.inr hj
    refine { h with
      asked := fun job' hj => ?_
      waiting := fun source job' hj => ?_
      waitingApart := fun a ha source job' hj => ?_ }
    · obtain ⟨hpresent', hwait | hread' | heq⟩ := h.asked job' hj
      · exact ⟨hpresent', Or.inl (Finmap.mem_insert.2 (Or.inr hwait))⟩
      · exact ⟨hpresent', Or.inr (Or.inl hread')⟩
      · rw [← some.inj heq] at hpresent' ⊢
        exact ⟨hpresent', Or.inl (Finmap.mem_insert.2 (Or.inl rfl))⟩
    · obtain ⟨rfl, rfl⟩ | hj := hlookup source job' hj
      · exact ⟨hpresent, rfl⟩
      · exact h.waiting source job' hj
    · obtain ⟨-, rfl⟩ | hj := hlookup source job' hj
      · exact hne a ha
      · exact h.waitingApart a ha source job' hj

theorem TidyBut.processJob (h : s.Tidy) {jobs : List Article} (hqueue : s.processingQueue = job :: jobs)
    (loaded : Option InfoHash) :
    Tidy ({ s with processingQueue := jobs }.processJob Q hasSupportedScheme parse job loaded) := by
  obtain ⟨hpresent, hread⟩ := h.queued job (by rw [hqueue]; exact mem_cons_self)
  have hsub : ∀ a ∈ jobs, a ∈ s.processingQueue := fun a ha => by
    rw [hqueue]
    exact mem_cons_of_mem job ha
  have honce := h.queueOnce
  rw [hqueue, map_cons, nodup_cons] at honce
  have hrest : Tidy { s with processingQueue := jobs } :=
    ⟨h.present, h.readPresent, honce.2, fun a ha => h.queued a (hsub a ha), h.asked, h.waiting,
      fun a ha => h.askedApart a (hsub a ha), fun a ha => h.waitingApart a (hsub a ha)⟩
  have hne : ∀ a ∈ jobs, job.key ≠ a.key := fun a ha heq => honce.1 (mem_map.2 ⟨a, ha, heq.symm⟩)
  unfold Downloader.processJob
  dsimp only
  split
  · exact { hrest with }
  case h_2 params hparams =>
    have hbut : TidyBut (some job) { s with
        processingQueue := jobs
        index := { s.index with
          rules := (acceptingRule Q s.settings job s.index.rules).2
          dirty := true }
        asked := s.asked ++ [job] } := by
      refine ⟨h.present, h.readPresent, honce.2, hrest.queued, fun job' hj => ?_, h.waiting,
        fun a ha job' hj => ?_, hrest.waitingApart⟩
      · obtain hj | hj := mem_append.1 hj
        · exact ⟨(h.asked job' hj).1, (h.asked job' hj).2.imp_right (Or.imp_right (by simp))⟩
        · rw [mem_singleton.1 hj]
          exact ⟨hpresent, Or.inr (Or.inr rfl)⟩
      · obtain hj | hj := mem_append.1 hj
        · exact hrest.askedApart a ha job' hj
        · rw [mem_singleton.1 hj]
          exact hne a ha
    refine (hbut.advance _).finish ?_ ?_
    · rw [(advance_heard _ _).articles]
      exact hpresent
    · rw [(advance_heard _ _).processingQueue]
      exact hne

theorem TidyBut.process (h : s.Tidy) (loaded : Option InfoHash) :
    (s.process Q hasSupportedScheme parse loaded).Tidy := by
  unfold Downloader.process
  dsimp only
  split
  case h_1 hqueue => exact { h with }
  case h_2 job jobs hqueue =>
    have hidle : Tidy { s with isTimerActive := false } := { h with }
    have hjob : Tidy ({ { s with isTimerActive := false } with processingQueue := jobs }.processJob Q
        hasSupportedScheme parse job loaded) := hidle.processJob hqueue loaded
    split_ifs
    · exact { hjob with }
    · exact hjob

theorem TidyBut.takenOnce (h : s.Tidy) (e : Event E) : s.TakenOnce Q e := by
  cases e with
  | process loaded =>
    intro article harticle
    have hmem : article ∈ s.processingQueue :=
      mem_of_mem_head? (mem_filter_iff.1 harticle).1
    exact ⟨(h.queued article hmem).2, h.askedApart article hmem, h.waitingApart article hmem⟩
  | newArticle _ _ => trivial
  | markAsRead _ => trivial
  | setProcessingEnabled _ => trivial
  | rules _ => trivial
  | manager _ => trivial

variable [∀ lhs rhs : AutoDownloadRule E, Decidable (lhs.Equal Q rhs)]

section

variable (h : s.Tidy)

include h

theorem TidyBut.setRule (rule : AutoDownloadRule E) : (s.setRule Q S rule).Tidy := by
  have hindex : Tidy { s with index := AutoDownloader.setRule Q S rule s.index } :=
    { h with }
  unfold Downloader.setRule
  split_ifs
  · exact hindex.resetProcessingQueue
  · exact hindex

theorem TidyBut.setRules (rules : Except String (List (AutoDownloadRule E))) :
    (s.setRules Q S rules).Tidy := by
  cases rules with
  | error _ => exact h
  | ok rules =>
    induction rules generalizing s with
    | nil => exact h
    | cons rule rules ih => exact ih (h.setRule rule)

theorem TidyBut.changeRules (e : AutoDownloader.Event E) : (s.changeRules Q S e).Tidy := by
  have hindex : Tidy { s with index := AutoDownloader.next Q S s.index e } :=
    { h with }
  cases e with
  | setRule rule => exact h.setRule rule
  | importRulesFromJSONFormat jsonDoc => exact h.setRules (AutoDownloader.rulesFromJSON Q jsonDoc)
  | importRulesFromLegacyFormat rules => exact h.setRules rules
  | loadRulesLegacy rules => exact h.setRules (.ok (rules.filter (·.name ≠ "")))
  | renameRule _ _ => exact hindex
  | removeRule _ => exact hindex
  | loadRules _ => exact hindex
  | handleFeedURLChanged _ _ => exact hindex
  | savingTimer => exact hindex

theorem TidyBut.newArticle (hnew : article.key ∉ s.articles.map Article.key) (isRead : Bool) :
    (s.next Q hasSupportedScheme parse S (.newArticle article isRead)).Tidy := by
  have hadd : (s.addArticle article isRead).Tidy := by
    have hread : ∀ key ∈ (if isRead then insert article.key s.read else s.read),
        key = article.key ∨ key ∈ s.read := fun key hkey => by
      split_ifs at hkey
      · exact Finset.mem_insert.1 hkey
      · exact Or.inr hkey
    have hne : ∀ a ∈ s.articles, a.key ≠ article.key := fun a ha heq =>
      hnew (mem_map.2 ⟨a, ha, heq⟩)
    refine ⟨?_, fun key hkey => ?_, h.queueOnce, fun a ha => ⟨?_, fun hmem => ?_⟩,
      fun job hj => ⟨?_, ?_⟩, fun source job hj => ⟨?_, (h.waiting source job hj).2⟩, h.askedApart,
      h.waitingApart⟩
    · unfold addArticle
      rw [map_append, nodup_append]
      refine ⟨h.present, nodup_singleton _, fun key hkey key' hkey' heq => ?_⟩
      rw [map_singleton, mem_singleton] at hkey'
      exact hnew (hkey' ▸ heq ▸ hkey)
    · unfold addArticle
      rw [map_append, mem_append, map_singleton, mem_singleton]
      exact (hread key hkey).symm.imp_left (h.readPresent key)
    · exact mem_append_left _ (h.queued a ha).1
    · obtain heq | hmem := hread _ hmem
      · exact hne a (h.queued a ha).1 heq
      · exact (h.queued a ha).2 hmem
    · exact mem_append_left _ (h.asked job hj).1
    · refine (h.asked job hj).2.imp_right (Or.imp_left fun hmem => ?_)
      unfold addArticle
      split_ifs
      · exact Finset.mem_insert_of_mem hmem
      · exact hmem
    · exact mem_append_left _ (h.waiting source job hj).1
  have hnot : article.key ∉ s.processingQueue.map Article.key := fun hmem => by
    obtain ⟨a, ha, heq⟩ := mem_map.1 hmem
    exact hnew (mem_map.2 ⟨a, (h.queued a ha).1, heq⟩)
  unfold Downloader.next
  dsimp only
  split_ifs
  · rw [handleNewArticle_eq]
    split_ifs with hwants
    · refine hadd.requeue (fun a ha => ?_) ?_ _
      · obtain ha | ha := mem_append.1 ha
        · exact Or.inl ha
        · rw [mem_singleton.1 ha]
          exact Or.inr (mem_filter.2
            ⟨mem_append_right _ mem_cons_self, hwants⟩)
      · rw [map_append, nodup_append]
        refine ⟨h.queueOnce, nodup_singleton _, fun key hkey key' hkey' heq => ?_⟩
        rw [map_singleton, mem_singleton] at hkey'
        exact hnot (hkey' ▸ heq ▸ hkey)
    · rw [enqueue_nil]
      exact hadd
  · exact hadd

theorem TidyBut.setProcessingEnabled {enabled : Bool}
    (horderly : s.Orderly (.setProcessingEnabled enabled)) :
    (s.setProcessingEnabled enabled).Tidy := by
  have hempty : ∀ enabled listening : Bool, Tidy { s with
      processingQueue := []
      isProcessingEnabled := enabled
      isListening := listening } := fun _ _ =>
    ⟨h.present, h.readPresent, nodup_nil, fun a ha => (by cases ha), h.asked, h.waiting,
      fun a ha => (by cases ha), fun a ha => (by cases ha)⟩
  unfold Downloader.setProcessingEnabled
  dsimp only
  split_ifs with hchange henabled hrestored
  · have hpending : pending { s with isProcessingEnabled := enabled } = [] :=
      horderly henabled (by rw [henabled] at hchange; simpa using hchange) hrestored
    rw [startProcessing_eq hpending]
    exact hempty enabled true
  · exact { h with }
  · exact hempty enabled false
  · exact h

theorem TidyBut.next {e : Event E} (hp : s.Possible e) (horderly : s.Orderly e) :
    (s.next Q hasSupportedScheme parse S e).Tidy := by
  cases e with
  | newArticle article isRead => exact h.newArticle hp isRead
  | markAsRead key => exact h.markAsRead horderly
  | setProcessingEnabled enabled => exact h.setProcessingEnabled horderly
  | rules e => exact h.changeRules e
  | process loaded => exact h.process loaded
  | manager e =>
    have hadv := h.advance (s.manager.next hasSupportedScheme parse e)
    unfold Downloader.next
    dsimp only
    split_ifs with hstart
    · rw [Bool.and_eq_true] at hstart
      obtain ⟨hrestored, henabled⟩ := hstart
      have hpending : s.pending = [] := horderly hrestored <| by
        rw [(advance_heard _ s).isProcessingEnabled] at henabled
        exact henabled
      have heq : s.advance (s.manager.next hasSupportedScheme parse e) =
          { s with manager := s.manager.next hasSupportedScheme parse e } := by
        cases e <;> first | exact absurd hrestored Bool.false_ne_true | skip
        unfold Downloader.advance AddTorrentManager.State.next
        rw [drop_length]
        rfl
      rw [heq, startProcessing_eq (s := { s with
        manager := s.manager.next hasSupportedScheme parse e }) hpending]
      exact ⟨h.present, h.readPresent, nodup_nil, fun a ha => (by cases ha), h.asked,
        h.waiting, fun a ha => (by cases ha), fun a ha => (by cases ha)⟩
    · exact hadv

end

end Steps

/-! ### Runs with one rule -/

/-- No rule is set in the runs below, so none is compared. -/
noncomputable instance (lhs rhs : AutoDownloadRule Platform.plain) :
    Decidable (lhs.Equal Qt.plain rhs) := Classical.dec _

def prioritySort : RuleSort Platform.plain :=
  .insertion fun rule : AutoDownloadRule Platform.plain => rule.priority.toInt

/-- A rule that accepts the articles of one feed. -/
def feedRule : AutoDownloadRule Platform.plain :=
  { smartRule with feedURLs := ["feed"], smartFilter := false }

/-- Where a torrent is downloaded, and one of a magnet link. -/
def urlArticle : Article := ⟨"feed", "1", "http://a/1.torrent", ⟨"one", .invalid⟩⟩
def magnetArticle : Article := ⟨"feed", "2", "magnet:?xt=2", ⟨"two", .invalid⟩⟩

def feedIndex : AutoDownloader Platform.plain :=
  { rules := [feedRule], rulesByName := Finmap.singleton "rule" 0 }

/-- Two articles come while processing is on, and the torrent of one fails. -/
def orderlyRun : List (Event Platform.plain) :=
  [.manager .restored, .newArticle urlArticle false, .newArticle magnetArticle false,
    .process none, .process none, .manager (.downloadFinished 0 .failed), .rules (.removeRule "x"),
    .setProcessingEnabled false, .markAsRead urlArticle.key, .setProcessingEnabled true]

/-- An article is there when processing starts, and it is queued twice. -/
def startRun : List (Event Platform.plain) :=
  [.newArticle urlArticle false, .manager .restored, .process none]

end Downloader

end QBittorrent.Rss.Processing
