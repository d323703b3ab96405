import QBittorrent.Lib.Machine
import QBittorrent.Lib.Newest
import QBittorrent.Lib.Positions
import QBittorrent.Lib.Sorting
import Mathlib

/-!
# The articles of a feed

`Feed` keeps its articles in a table by identifier and in a list from the newest to the oldest one,
at most a configured number of them, and counts those that are not read.  Articles come from the
file of the feed and from the parser, are marked as read one by one or all together, and go when the
limit changes or newer ones come.

* `Feed.Consistent` : table, list and counter agree;
* `Feed.store_iff` : so they do exactly if no limit is negative.
-/

namespace QBittorrent.Rss.ArticleStore

open List Prod

/-- A date in milliseconds; an invalid one is before the others. -/
abbrev Date := WithBot ℤ

/-- What is known of an article before it is made. -/
structure ArticleData where
  id : String
  torrentURL : String
  link : String
  title : String
  date : Date
  isRead : Bool

/-- An article of a feed, by the number of its object. -/
structure Article where
  ref : ℕ
  guid : String
  date : Date
  deriving DecidableEq

/-! ### The parser -/

/-- What the parser has found so far. -/
structure Parser where
  articleIDs : Finset String := ∅
  articles : List ArticleData := []

/-- `Parser::addArticle`.  An article without an identifier has that of another field; it is ignored if
there is none, or if one of this identifier was found before. -/
def Parser.addArticle (p : Parser) (article : ArticleData) : Parser :=
  let article :=
    if article.torrentURL = "" then { article with torrentURL := article.link } else article
  let localId :=
    if article.id ≠ "" then article.id
    else if article.torrentURL ≠ "" then article.torrentURL
    else article.title
  if localId = "" then p
  else if localId ∈ p.articleIDs then p
  else
    { articleIDs := insert localId p.articleIDs
      articles := { article with id := localId } :: p.articles }

/-- The articles of a document, from those that stand in it. -/
def Parser.parse (entries : List ArticleData) : List ArticleData :=
  (entries.foldl Parser.addArticle {}).articles

/-! ### The feed -/

structure Feed where
  maxArticlesPerFeed : Int32
  articles : Dict String Article := ∅
  articlesByDate : List Article := []
  unreadCount : ℤ := 0
  /-- The articles that have been read. -/
  read : Finset ℕ := ∅
  /-- The articles whose signal `read` the feed hears. -/
  connected : Finset ℕ := ∅
  /-- How many articles were made. -/
  created : ℕ := 0
  isInitialized : Bool := false
  /-- The articles that were announced as new during the last event. -/
  announced : List Article := []
  /-- The last article of an empty list was asked for. -/
  failed : Bool := false

/-- `std::sort` of articles from the newest to the oldest one. -/
abbrev DateSort := StdSort (Date × Option ArticleData) fun a b => decide (b.1 < a.1)

/-- The same for the articles of a file. -/
abbrev DataSort := StdSort ArticleData fun a b => decide (b.date < a.date)

namespace Feed

def maxArticles (s : Feed) : ℤ := s.maxArticlesPerFeed.toInt

def isRead (s : Feed) (article : Article) : Bool := decide (article.ref ∈ s.read)

/-- The constructor of `Article`. -/
def newArticle (data : ArticleData) (s : Feed) : Article × Feed :=
  (⟨s.created, data.id, data.date⟩, { s with
    created := s.created + 1
    read := if data.isRead then insert s.created s.read else s.read })

def countUnread (article : Article) (s : Feed) : Feed :=
  if s.isRead article then s
  else { s with
    unreadCount := s.unreadCount + 1
    connected := insert article.ref s.connected }

def removeOldestArticle (s : Feed) : Feed :=
  match s.articlesByDate.getLast? with
  | none => { s with failed := true }
  | some oldest => { s with
      articles := s.articles.erase oldest.guid
      articlesByDate := s.articlesByDate.dropLast
      unreadCount := if s.isRead oldest then s.unreadCount else s.unreadCount - 1 }

def addArticle (s : Feed) (data : ArticleData) : Feed :=
  let pos := lowerBound Article.date data.date s.articlesByDate
  if s.maxArticles ≤ pos then s
  else
    let (article, s) := s.newArticle data
    let s := countUnread article { s with
      articles := s.articles.insert article.guid article
      articlesByDate := s.articlesByDate.insertIdx pos article }
    let s := { s with announced := s.announced ++ [article] }
    if s.maxArticles < s.articlesByDate.length then s.removeOldestArticle else s

/-- The articles that are not there yet.  One without a date has that of the update or, after one
that is there, the date just before it. -/
def newArticles (s : Feed) : Date → List ArticleData → List ArticleData
  | _, [] => []
  | dummyPubDate, article :: loadedArticles =>
    match s.articles.lookup article.id with
    | some existing => s.newArticles (existing.date.map (· - 1)) loadedArticles
    | none =>
      { article with date := if article.date = ⊥ then dummyPubDate else article.date } ::
        s.newArticles dummyPubDate loadedArticles

section Functions

variable (S : DateSort) (L : DataSort)

/-- The dates of the articles that are there, and the new ones, the newest first and no more than the
limit. -/
def sortData (s : Feed) (newArticles : List ArticleData) : List (Date × Option ArticleData) :=
  let sorted := S.sort (s.articlesByDate.map (fun article => (article.date, none)) ++
    newArticles.map fun article => (article.date, some article))
  if s.maxArticlesPerFeed.toUInt32.toNat < sorted.length then sorted.take s.maxArticles.toNat
  else sorted

/-- `Feed::updateArticles`, at the time `now`. -/
def updateArticles (now : ℤ) (loadedArticles : List ArticleData) (s : Feed) : Feed :=
  let newArticles := s.newArticles now loadedArticles
  if newArticles = [] then s
  else (s.sortData S newArticles).reverse.foldl (fun s a =>
    match a.2 with
    | some data => s.addArticle data
    | none => s) s

/-- The loop of `handleArticleLoadFinished`. -/
def loadArticle (s : Feed) (data : ArticleData) : Feed :=
  if data.id ∈ s.articles then s
  else
    let (article, s) := s.newArticle data
    let s := countUnread article { s with
      articles := s.articles.insert data.id article
      articlesByDate := s.articlesByDate ++ [article] }
    { s with announced := s.announced ++ [article] }

/-- `Feed::handleArticleLoadFinished`, on the articles of the file that the serializer has sorted. -/
def handleArticleLoadFinished (loaded : List ArticleData) (s : Feed) : Feed :=
  let articles := L.sort loaded
  let articles :=
    if s.maxArticles < articles.length then articles.take s.maxArticles.toNat else articles
  { articles.foldl loadArticle s with isInitialized := true }

/-- `Article::markAsRead`, and what the feed does when it hears of it. -/
def markArticleAsRead (article : Article) (s : Feed) : Feed :=
  if s.isRead article then s
  else
    let s := { s with read := insert article.ref s.read }
    if article.ref ∈ s.connected then
      { s with connected := s.connected.erase article.ref, unreadCount := s.unreadCount - 1 }
    else s

/-- `Feed::markAsRead`, with the articles in the order of the table. -/
def markAsRead (order : List Article) (s : Feed) : Feed :=
  order.foldl (fun s article =>
    if s.isRead article then s
    else { s with
      connected := s.connected.erase article.ref
      read := insert article.ref s.read
      unreadCount := s.unreadCount - 1 }) s

/-- The loop of `handleMaxArticlesPerFeedChanged`, which ends at the latest when it has asked an empty
list for its last article. -/
def removeOldestArticles (n : ℤ) : ℕ → Feed → Feed
  | 0, s => s
  | fuel + 1, s =>
    if n < s.articlesByDate.length then removeOldestArticles n fuel s.removeOldestArticle else s

/-- `Session::setMaxArticlesPerFeed`, and what the feed does when it hears of it. -/
def setMaxArticlesPerFeed (n : Int32) (s : Feed) : Feed :=
  if s.maxArticlesPerFeed ≠ n then
    removeOldestArticles n.toInt (s.articlesByDate.length + 1) { s with maxArticlesPerFeed := n }
  else s

end Functions

end Feed

/-! ### Events -/

inductive Event where
  | loadFinished (loaded : List ArticleData)
  | parsingFinished (now : ℤ) (entries : List ArticleData)
  | articleRead (article : Article)
  | markAsRead (order : List Article)
  | setMaxArticlesPerFeed (n : Int32)

/-- An update: the articles before it, and those that it has found to be new. -/
structure Update where
  before : List Article
  offered : List ArticleData

/-- The feed, and the last event if it was an update. -/
structure FeedState where
  feed : Feed
  update : Option Update := none

namespace Feed

/-- The file is loaded once and before the first update; articles that are marked are there. -/
def Possible (s : FeedState) : Event → Prop
  | .loadFinished _ => s.feed.isInitialized = false
  | .parsingFinished _ _ => s.feed.isInitialized = true
  | .articleRead article => article ∈ s.feed.articlesByDate
  | .markAsRead order => order.Nodup ∧
      (order.map Article.guid).toFinset = s.feed.articles.keys ∧
      ∀ article ∈ order, s.feed.articles.lookup article.guid = some article
  | .setMaxArticlesPerFeed _ => True

instance (s : FeedState) : DecidablePred (Possible s) := fun e => by
  cases e <;> unfold Possible <;> infer_instance

variable (S : DateSort) (L : DataSort)

/-- One event; what was announced before it is no longer of interest. -/
def next (s : FeedState) (e : Event) : FeedState :=
  let feed := { s.feed with announced := [] }
  match e with
  | .loadFinished loaded => { feed := feed.handleArticleLoadFinished L loaded }
  | .parsingFinished now entries =>
    { feed := feed.updateArticles S now (Parser.parse entries)
      update := some ⟨feed.articlesByDate, feed.newArticles now (Parser.parse entries)⟩ }
  | .articleRead article => { feed := feed.markArticleAsRead article }
  | .markAsRead order => { feed := feed.markAsRead order }
  | .setMaxArticlesPerFeed n => { feed := feed.setMaxArticlesPerFeed n }

def machine : Machine FeedState Event := .guarded Possible (next S L)

/-- Table, list and counter agree. -/
structure Consistent (s : Feed) : Prop where
  same : Entries Article.guid s.articlesByDate s.articles
  once : (s.articlesByDate.map Article.guid).Nodup
  sorted : NewestFirst Article.date s.articlesByDate
  limited : (s.articlesByDate.length : ℤ) ≤ s.maxArticles
  unread : s.unreadCount = (s.articlesByDate.filter fun article => !s.isRead article).length
  defined : s.failed = false

end Feed

/-- Identifier and date. -/
def Article.key (article : Article) : String × Date := (article.guid, article.date)

def ArticleData.key (article : ArticleData) : String × Date := (article.id, article.date)

/-- The update has left as many articles as the limit allows of the old and new ones together, no
other one is newer than one of them, new ones stand before old ones of the same date, and those that
were announced are among them. -/
structure Update.Kept (u : Update) (s : Feed) : Prop where
  subset : s.articlesByDate.map Article.key ⊆
    u.before.map Article.key ++ u.offered.map ArticleData.key
  length : s.articlesByDate.length =
    min s.maxArticles.toNat (u.before.length + u.offered.length)
  newest : ∀ e ∈ u.before.map Article.key ++ u.offered.map ArticleData.key,
    e ∉ s.articlesByDate.map Article.key → ∀ article ∈ s.articlesByDate, e.2 ≤ article.date
  ties : s.articlesByDate.Pairwise fun a b => a ∈ u.before → b ∉ u.before → b.date < a.date
  announced : ∀ article ∈ s.announced, article ∈ s.articlesByDate

namespace Feed

/-- The store is consistent, and after an update the newest articles are kept. -/
structure Right (s : FeedState) : Prop where
  consistent : s.feed.Consistent
  kept : ∀ u ∈ s.update, u.Kept s.feed

/-- A limit that is set is not negative. -/
def NonNegative (_ : FeedState) : Event → Prop
  | .setMaxArticlesPerFeed n => 0 ≤ n.toInt
  | _ => True

instance (s : FeedState) (e : Event) : Decidable (NonNegative s e) :=
  match e with
  | .setMaxArticlesPerFeed _ => inferInstanceAs (Decidable (0 ≤ _))
  | .loadFinished _ => isTrue trivial
  | .parsingFinished _ _ => isTrue trivial
  | .articleRead _ => isTrue trivial
  | .markAsRead _ => isTrue trivial

/-! ### Table, list and counter -/

variable {s s₀ : Feed} {data : ArticleData} {article : Article} {done : List ArticleData}

/-- Table, list and counter agree, whatever the order of the list and its length. -/
structure Tracked (s : Feed) : Prop where
  same : Entries Article.guid s.articlesByDate s.articles
  once : (s.articlesByDate.map Article.guid).Nodup
  unread : s.unreadCount = (s.articlesByDate.filter fun article => !s.isRead article).length
  defined : s.failed = false
  refs : (s.articlesByDate.map Article.ref).Nodup
  made : ∀ article ∈ s.articlesByDate, article.ref < s.created
  readMade : ∀ r ∈ s.read, r < s.created
  connected : ∀ article ∈ s.articlesByDate, s.isRead article = false → article.ref ∈ s.connected

theorem mem_articles_iff (h : s.Tracked) {id : String} :
    id ∈ s.articles ↔ ∃ article ∈ s.articlesByDate, article.guid = id := by
  rw [Dict.mem_iff_isSome, Option.isSome_iff_exists]
  exact exists_congr fun article => h.same id article

/-- The feed after an article was made and put anywhere into the list. -/
def place (data : ArticleData) (l : List Article) (s : Feed) : Feed :=
  countUnread (s.newArticle data).1 { (s.newArticle data).2 with
    articles := s.articles.insert data.id (s.newArticle data).1
    articlesByDate := l }

theorem countUnread_eq (article : Article) (s : Feed) : countUnread article s = { s with
    unreadCount := (countUnread article s).unreadCount
    connected := (countUnread article s).connected } := by
  unfold countUnread
  split <;> rfl

theorem place_eq (data : ArticleData) (l : List Article) (s : Feed) :
    s.place data l = { s with
      created := s.created + 1
      read := if data.isRead then insert s.created s.read else s.read
      articles := s.articles.insert data.id ⟨s.created, data.id, data.date⟩
      articlesByDate := l
      unreadCount := (s.place data l).unreadCount
      connected := (s.place data l).connected } := by
  conv_lhs => rw [place, countUnread_eq]
  rfl

@[simp] theorem place_articlesByDate (l : List Article) :
    (s.place data l).articlesByDate = l := by rw [place_eq]

@[simp] theorem place_articles (l : List Article) : (s.place data l).articles =
    s.articles.insert data.id ⟨s.created, data.id, data.date⟩ := by rw [place_eq]

@[simp] theorem place_created (l : List Article) :
    (s.place data l).created = s.created + 1 := by rw [place_eq]

@[simp] theorem place_maxArticles (l : List Article) :
    (s.place data l).maxArticles = s.maxArticles := by rw [place_eq]; rfl

@[simp] theorem place_isInitialized (l : List Article) :
    (s.place data l).isInitialized = s.isInitialized := by rw [place_eq]

@[simp] theorem place_announced (l : List Article) :
    (s.place data l).announced = s.announced := by rw [place_eq]

section

variable (h : s.Tracked)

include h

theorem Tracked.isRead_place (l : List Article) (ha : article ∈ s.articlesByDate) :
    (s.place data l).isRead article = s.isRead article := by
  have hne : article.ref ≠ s.created := (h.made article ha).ne
  rw [place_eq]
  unfold isRead
  cases data.isRead <;> simp [hne]

theorem Tracked.isRead_place_self (l : List Article) :
    (s.place data l).isRead ⟨s.created, data.id, data.date⟩ = data.isRead := by
  have hno : s.created ∉ s.read := fun hmem => lt_irrefl _ (h.readMade _ hmem)
  rw [place_eq]
  unfold isRead
  cases data.isRead <;> simp [hno]

theorem Tracked.unreadCount_place (l : List Article) :
    (s.place data l).unreadCount = s.unreadCount + if data.isRead then 0 else 1 := by
  have hno : s.created ∉ s.read := fun hmem => lt_irrefl _ (h.readMade _ hmem)
  unfold place countUnread newArticle isRead
  cases data.isRead <;> simp [hno]

theorem Tracked.connected_place (l : List Article) :
    (s.place data l).connected =
      if data.isRead then s.connected else insert s.created s.connected := by
  have hno : s.created ∉ s.read := fun hmem => lt_irrefl _ (h.readMade _ hmem)
  unfold place countUnread newArticle isRead
  cases data.isRead <;> simp [hno]

theorem Tracked.place (hid : data.id ∉ s.articles) {l : List Article}
    (hl : l.Perm (⟨s.created, data.id, data.date⟩ :: s.articlesByDate)) :
    (s.place data l).Tracked := by
  have hne : ∀ a ∈ s.articlesByDate, a.guid ≠ data.id := fun a ha heq =>
    hid ((mem_articles_iff h).2 ⟨a, ha, heq⟩)
  have hmem : ∀ a, a ∈ l ↔ a = ⟨s.created, data.id, data.date⟩ ∨ a ∈ s.articlesByDate :=
    fun a => by rw [hl.mem_iff, mem_cons]
  refine ⟨?_, ?_, ?_, ?_, ?_, fun a ha => ?_, fun r hr => ?_, fun a ha hread => ?_⟩
  · rw [place_articlesByDate, place_articles]
    have happ := h.same.append (a := ⟨s.created, data.id, data.date⟩) hne
    exact happ.perm (hl.trans (perm_append_singleton _ _).symm)
  · rw [place_articlesByDate, (hl.map _).nodup_iff, map_cons, nodup_cons]
    refine ⟨fun hmem => ?_, h.once⟩
    obtain ⟨a, ha, heq⟩ := mem_map.1 hmem
    exact hne a ha heq
  · rw [place_articlesByDate, h.unreadCount_place, (hl.filter _).length_eq, filter_cons,
      h.isRead_place_self]
    rw [filter_congr fun a ha => by rw [h.isRead_place l ha], h.unread]
    cases data.isRead <;> simp
  · rw [place_eq]
    exact h.defined
  · rw [place_articlesByDate, (hl.map _).nodup_iff, map_cons, nodup_cons]
    refine ⟨fun hmem => ?_, h.refs⟩
    obtain ⟨a, ha, heq⟩ := mem_map.1 hmem
    exact (h.made a ha).ne heq
  · rw [place_articlesByDate, hmem] at ha
    rw [place_created]
    obtain rfl | ha := ha
    · exact Nat.lt_succ_self _
    · exact (h.made a ha).trans (Nat.lt_succ_self _)
  · rw [place_created]
    have hr' : r ∈ insert s.created s.read := by
      rw [place_eq] at hr
      split at hr
      · exact hr
      · exact Finset.mem_insert_of_mem hr
    obtain rfl | hr' := Finset.mem_insert.1 hr'
    · exact Nat.lt_succ_self _
    · exact (h.readMade r hr').trans (Nat.lt_succ_self _)
  · rw [place_articlesByDate, hmem] at ha
    rw [h.connected_place]
    obtain rfl | ha := ha
    · rw [h.isRead_place_self] at hread
      simp [hread]
    · rw [h.isRead_place l ha] at hread
      have hconn := h.connected a ha hread
      split
      · exact hconn
      · exact Finset.mem_insert_of_mem hconn

theorem Tracked.removeOldestArticle (hne : s.articlesByDate ≠ []) :
    s.removeOldestArticle.Tracked := by
  have hperm : s.articlesByDate.Perm
      (s.articlesByDate.getLast hne :: s.articlesByDate.dropLast) := by
    conv_lhs => rw [← dropLast_append_getLast hne]
    exact perm_append_singleton _ _
  have hsub : s.articlesByDate.dropLast.Sublist s.articlesByDate := dropLast_sublist _
  have hlength := (hperm.filter fun article => !s.isRead article).length_eq
  rw [filter_cons] at hlength
  unfold Feed.removeOldestArticle
  rw [List.getLast?_eq_some_getLast hne]
  refine ⟨h.same.erase_of_perm h.once hperm, h.once.sublist (hsub.map _), ?_, h.defined,
    h.refs.sublist (hsub.map _), fun a ha => h.made a (hsub.subset ha), h.readMade,
    fun a ha => h.connected a (hsub.subset ha)⟩
  change (if s.isRead (s.articlesByDate.getLast hne) then s.unreadCount else s.unreadCount - 1) =
    ((s.articlesByDate.dropLast.filter fun article => !s.isRead article).length : ℤ)
  rw [h.unread, hlength]
  cases s.isRead (s.articlesByDate.getLast hne) <;> simp

end

theorem removeOldestArticle_eq (hne : s.articlesByDate ≠ []) : s.removeOldestArticle =
    { s with
      articles := s.removeOldestArticle.articles
      articlesByDate := s.articlesByDate.dropLast
      unreadCount := s.removeOldestArticle.unreadCount } := by
  unfold Feed.removeOldestArticle
  rw [List.getLast?_eq_some_getLast hne]

/-! ### Marking -/

theorem Tracked.mark (h : s.Tracked) (ha : article ∈ s.articlesByDate)
    (hread : s.isRead article = false) :
    Tracked { s with
      read := insert article.ref s.read
      connected := s.connected.erase article.ref
      unreadCount := s.unreadCount - 1 } := by
  have hinj := inj_on_of_nodup_map h.refs
  have hfilter : (s.articlesByDate.filter fun a => !decide (a.ref ∈ insert article.ref s.read)) =
      (s.articlesByDate.filter fun a => !s.isRead a).erase article := by
    have hnodup : (s.articlesByDate.filter fun a => !s.isRead a).Nodup :=
      (Nodup.of_map _ h.refs).filter _
    rw [hnodup.erase_eq_filter, filter_filter]
    refine filter_congr fun a ha' => ?_
    have heq : a.ref = article.ref ↔ a = article := ⟨fun href => hinj ha' ha href, fun e => by rw [e]⟩
    simp only [isRead, Finset.mem_insert, heq]
    by_cases e : a = article <;> simp [e]
  refine ⟨h.same, h.once, ?_, h.defined, h.refs, h.made, fun r hr => ?_, fun a ha' hread' => ?_⟩
  · have hmem : article ∈ s.articlesByDate.filter fun a => !s.isRead a :=
      mem_filter.2 ⟨ha, by simp [hread]⟩
    have hpos := length_pos_of_mem hmem
    change s.unreadCount - 1 = ((s.articlesByDate.filter
      fun a => !decide (a.ref ∈ insert article.ref s.read)).length : ℤ)
    rw [hfilter, length_erase_of_mem hmem, h.unread]
    omega
  · obtain rfl | hr := Finset.mem_insert.1 hr
    · exact h.made article ha
    · exact h.readMade r hr
  · simp only [isRead, Finset.mem_insert, decide_eq_false_iff_not, not_or] at hread'
    exact Finset.mem_erase.2 ⟨hread'.1, h.connected a ha' (by simpa [isRead] using hread'.2)⟩

theorem Tracked.markArticleAsRead_eq (h : s.Tracked) (ha : article ∈ s.articlesByDate) :
    s.markArticleAsRead article = if s.isRead article then s else { s with
      read := insert article.ref s.read
      connected := s.connected.erase article.ref
      unreadCount := s.unreadCount - 1 } := by
  unfold markArticleAsRead
  by_cases hread : s.isRead article
  · rw [if_pos hread, if_pos hread]
  · rw [if_neg hread, if_neg hread]
    exact if_pos (h.connected article ha (by simpa using hread))

theorem Tracked.markArticleAsRead (h : s.Tracked) (ha : article ∈ s.articlesByDate) :
    (s.markArticleAsRead article).Tracked := by
  rw [h.markArticleAsRead_eq ha]
  split_ifs with hread
  · exact h
  · exact h.mark ha (by simpa using hread)

/-- The other fields of the feed are those of before. -/
structure SameList (s s' : Feed) : Prop where
  maxArticles : s'.maxArticles = s.maxArticles
  articlesByDate : s'.articlesByDate = s.articlesByDate
  isInitialized : s'.isInitialized = s.isInitialized

theorem markArticleAsRead_sameList (article : Article) (s : Feed) :
    SameList s (s.markArticleAsRead article) := by
  unfold Feed.markArticleAsRead
  split_ifs
  · exact ⟨rfl, rfl, rfl⟩
  · dsimp only
    split_ifs <;> exact ⟨rfl, rfl, rfl⟩

theorem Tracked.markAsRead (h : s.Tracked) {order : List Article}
    (horder : ∀ a ∈ order, a ∈ s.articlesByDate) :
    (s.markAsRead order).Tracked ∧ SameList s (s.markAsRead order) := by
  unfold Feed.markAsRead
  induction order generalizing s with
  | nil => exact ⟨h, ⟨rfl, rfl, rfl⟩⟩
  | cons a order ih =>
    have ha := horder a mem_cons_self
    have hsame := markArticleAsRead_sameList a s
    have heq : (if s.isRead a then s else { s with
        connected := s.connected.erase a.ref
        read := insert a.ref s.read
        unreadCount := s.unreadCount - 1 }) = s.markArticleAsRead a := (h.markArticleAsRead_eq ha).symm
    rw [foldl_cons, heq]
    obtain ⟨htracked, hsame'⟩ := ih (h.markArticleAsRead ha) fun b hb => by
      rw [hsame.articlesByDate]
      exact horder b (mem_cons_of_mem a hb)
    exact ⟨htracked, hsame'.maxArticles.trans hsame.maxArticles,
      hsame'.articlesByDate.trans hsame.articlesByDate,
      hsame'.isInitialized.trans hsame.isInitialized⟩

/-! ### The store is sound -/

/-- The feed is consistent, and new until its file is loaded. -/
structure Sound (s : Feed) : Prop where
  tracked : s.Tracked
  sorted : NewestFirst Article.date s.articlesByDate
  limited : (s.articlesByDate.length : ℤ) ≤ s.maxArticles
  initial : s.isInitialized = false → s.articlesByDate = []

theorem Sound.consistent (h : s.Sound) : s.Consistent :=
  ⟨h.tracked.same, h.tracked.once, h.sorted, h.limited, h.tracked.unread, h.tracked.defined⟩

theorem Sound.nonneg (h : s.Sound) : 0 ≤ s.maxArticles :=
  (Int.natCast_nonneg _).trans h.limited

theorem Sound.of_sameList (h : s.Sound) {s' : Feed} (ht : s'.Tracked) (hs : SameList s s') :
    s'.Sound where
  tracked := ht
  sorted := by rw [hs.articlesByDate]; exact h.sorted
  limited := by rw [hs.articlesByDate, hs.maxArticles]; exact h.limited
  initial hi := by rw [hs.articlesByDate]; exact h.initial (by rw [← hs.isInitialized]; exact hi)

theorem Sound.announce (h : s.Sound) (l : List Article) : Sound { s with announced := l } :=
  h.of_sameList ⟨h.tracked.same, h.tracked.once, h.tracked.unread, h.tracked.defined,
    h.tracked.refs, h.tracked.made, h.tracked.readMade, h.tracked.connected⟩ ⟨rfl, rfl, rfl⟩

theorem removeOldestArticles_sound {n : ℤ} (hn : 0 ≤ n) {fuel : ℕ} (h : s.Tracked)
    (hsorted : NewestFirst Article.date s.articlesByDate) (hmax : s.maxArticles = n)
    (hinit : s.isInitialized = false → s.articlesByDate = [])
    (hfuel : s.articlesByDate.length < fuel) : (removeOldestArticles n fuel s).Sound := by
  induction fuel generalizing s with
  | zero => exact absurd hfuel (Nat.not_lt_zero _)
  | succ fuel ih =>
    rw [removeOldestArticles]
    split_ifs with hlong
    · have hne : s.articlesByDate ≠ [] := by
        rintro heq
        rw [heq] at hlong
        simp only [length_nil] at hlong
        omega
      have heq := removeOldestArticle_eq hne
      refine ih (h.removeOldestArticle hne) ?_ ?_ (fun hi => ?_) ?_
      · rw [heq]
        exact hsorted.sublist (dropLast_sublist _)
      · rw [heq]
        exact hmax
      · rw [heq] at hi ⊢
        exact absurd (hinit hi) hne
      · rw [heq]
        simp only [length_dropLast]
        omega
    · exact ⟨h, hsorted, by rw [hmax]; exact not_lt.1 hlong, hinit⟩

theorem Sound.setMaxArticlesPerFeed (h : s.Sound) {n : Int32} (hn : 0 ≤ n.toInt) :
    (s.setMaxArticlesPerFeed n).Sound := by
  unfold Feed.setMaxArticlesPerFeed
  split_ifs
  · refine removeOldestArticles_sound hn ⟨h.tracked.same, h.tracked.once, h.tracked.unread,
      h.tracked.defined, h.tracked.refs, h.tracked.made, h.tracked.readMade, h.tracked.connected⟩
      h.sorted rfl h.initial (Nat.lt_succ_self _)
  · exact h

/-! ### Loading -/

theorem loadArticle_eq (h : data.id ∉ s.articles) : s.loadArticle data =
    { s.place data (s.articlesByDate ++ [⟨s.created, data.id, data.date⟩]) with
      announced := s.announced ++ [⟨s.created, data.id, data.date⟩] } := by
  unfold loadArticle
  have hann : (s.place data (s.articlesByDate ++ [⟨s.created, data.id, data.date⟩])).announced =
      s.announced := place_announced _
  rw [if_neg h, ← hann]
  rfl

theorem loadArticles_sound {articles : List ArticleData} (h : s.Tracked)
    (hsorted : NewestFirst Article.date s.articlesByDate)
    (harticles : articles.Pairwise fun a b => b.date ≤ a.date)
    (hle : ∀ a ∈ s.articlesByDate, ∀ data ∈ articles, data.date ≤ a.date)
    (hroom : (s.articlesByDate.length + articles.length : ℤ) ≤ s.maxArticles) :
    Sound { articles.foldl loadArticle s with isInitialized := true } := by
  induction articles generalizing s with
  | nil =>
    have hlimited : (s.articlesByDate.length : ℤ) ≤ s.maxArticles := by simpa using hroom
    exact ⟨{ h with },
      hsorted, hlimited, fun hi => by cases hi⟩
  | cons data articles ih =>
    obtain ⟨hfirst, harticles⟩ := pairwise_cons.1 harticles
    rw [foldl_cons]
    rw [length_cons] at hroom
    by_cases hid : data.id ∈ s.articles
    · rw [loadArticle, if_pos hid]
      exact ih h hsorted harticles
        (fun a ha b hb => hle a ha b (mem_cons_of_mem data hb)) (by omega)
    · rw [loadArticle_eq hid]
      have hplace := h.place hid (perm_append_singleton _ _)
      refine ih { hplace with } ?_ harticles (fun a ha b hb => ?_) ?_
      · rw [place_articlesByDate, NewestFirst, pairwise_append]
        refine ⟨hsorted, pairwise_singleton _ _, fun a ha b hb => ?_⟩
        rw [mem_singleton.1 hb]
        exact hle a ha data mem_cons_self
      · rw [place_articlesByDate, mem_append, mem_singleton] at ha
        obtain ha | rfl := ha
        · exact hle a ha b (mem_cons_of_mem data hb)
        · exact hfirst b hb
      · change ((s.place data _).articlesByDate.length + articles.length : ℤ) ≤
          (s.place data _).maxArticles
        rw [place_articlesByDate, place_maxArticles, length_append, length_singleton]
        omega

theorem Sound.handleArticleLoadFinished (L : DataSort) (h : s.Sound)
    (hinit : s.isInitialized = false) (loaded : List ArticleData) :
    (s.handleArticleLoadFinished L loaded).Sound := by
  have hempty := h.initial hinit
  have hmax := h.nonneg
  have htake : (if s.maxArticles < (L.sort loaded).length then
      (L.sort loaded).take s.maxArticles.toNat else L.sort loaded) =
      (L.sort loaded).take s.maxArticles.toNat := by
    split_ifs with hlong
    · rfl
    · exact (take_of_length_le (by omega)).symm
  unfold Feed.handleArticleLoadFinished
  dsimp only
  rw [htake]
  refine loadArticles_sound h.tracked h.sorted ?_ (fun a ha => ?_) ?_
  · refine ((L.sorted loaded).sublist (take_sublist _ _)).imp fun hab => ?_
    simpa using hab
  · rw [hempty] at ha
    cases ha
  · rw [hempty, length_nil, length_take]
    omega

/-! ### Updates -/

/-- The article that is made next, of the given data. -/
def made (s : Feed) (data : ArticleData) : Article := ⟨s.created, data.id, data.date⟩

/-- What `addArticle` does where the list has room for the article. -/
structure Added (s : Feed) (data : ArticleData) (s' : Feed) : Prop where
  tracked : s'.Tracked
  maxArticles : s'.maxArticles = s.maxArticles
  isInitialized : s'.isInitialized = s.isInitialized
  created : s'.created = s.created + 1
  announced : s'.announced = s.announced ++ [s.made data]
  articlesByDate : s'.articlesByDate =
    insertNewest Article.date s.maxArticles.toNat (s.made data) s.articlesByDate

/-- The feed after the article was inserted at its place, and before an old one goes for it. -/
def offer (s : Feed) (data : ArticleData) : Feed :=
  { s.place data (s.articlesByDate.insertIdx
      (lowerBound Article.date data.date s.articlesByDate) (s.made data)) with
    announced := s.announced ++ [s.made data] }

theorem addArticle_eq (hpos : lowerBound Article.date data.date s.articlesByDate < s.maxArticles) :
    s.addArticle data = if s.maxArticles < (s.offer data).articlesByDate.length then
      (s.offer data).removeOldestArticle else s.offer data := by
  have hoffer : s.offer data = { s.place data (s.articlesByDate.insertIdx
      (lowerBound Article.date data.date s.articlesByDate) (s.made data)) with
      announced := (s.place data (s.articlesByDate.insertIdx
        (lowerBound Article.date data.date s.articlesByDate) (s.made data))).announced ++
          [s.made data] } := by
    rw [place_announced]
    rfl
  have hmax : (s.offer data).maxArticles = s.maxArticles := place_maxArticles _
  conv_rhs => rw [← hmax, hoffer]
  unfold Feed.addArticle
  rw [if_neg (not_le.2 hpos)]
  rfl

theorem mem_addArticle (ha : article ∈ (s.addArticle data).articlesByDate) :
    article = s.made data ∨ article ∈ s.articlesByDate := by
  by_cases hpos : lowerBound Article.date data.date s.articlesByDate < s.maxArticles
  · have hsub : (s.addArticle data).articlesByDate ⊆ (s.offer data).articlesByDate := by
      rw [addArticle_eq hpos]
      split_ifs
      · unfold Feed.removeOldestArticle
        cases (s.offer data).articlesByDate.getLast? with
        | none => exact Subset.refl _
        | some _ => exact (dropLast_sublist _).subset
      · exact Subset.refl _
    have hmem := hsub ha
    unfold offer at hmem
    rw [place_articlesByDate] at hmem
    exact eq_or_mem_of_mem_insertIdx hmem
  · rw [Feed.addArticle, if_pos (not_lt.1 hpos)] at ha
    exact Or.inr ha

theorem Tracked.addArticle (h : s.Tracked) (hid : data.id ∉ s.articles)
    (hpos : lowerBound Article.date data.date s.articlesByDate < s.maxArticles) :
    Added s data (s.addArticle data) := by
  have hperm : (s.articlesByDate.insertIdx
      (lowerBound Article.date data.date s.articlesByDate) (s.made data)).Perm
      (s.made data :: s.articlesByDate) := insertIdx_lowerBound_perm Article.date _ _
  have hplace := h.place hid hperm
  have hoffer : (s.offer data).Tracked := { hplace with }
  have hlist : (s.offer data).articlesByDate = s.articlesByDate.insertIdx
      (lowerBound Article.date data.date s.articlesByDate) (s.made data) := place_articlesByDate _
  have hinsert : insertNewest Article.date s.maxArticles.toNat (s.made data) s.articlesByDate =
      if s.maxArticles < (s.offer data).articlesByDate.length then
        (s.offer data).articlesByDate.dropLast else (s.offer data).articlesByDate := by
    rw [hlist]
    exact if_congr (Int.toNat_lt ((Int.natCast_nonneg _).trans hpos.le)) rfl rfl
  have hmax : (s.offer data).maxArticles = s.maxArticles := place_maxArticles _
  have hinit : (s.offer data).isInitialized = s.isInitialized := place_isInitialized _
  have hcreated : (s.offer data).created = s.created + 1 := place_created _
  rw [addArticle_eq hpos]
  split_ifs with hfull
  · have hne : (s.offer data).articlesByDate ≠ [] := by
      rw [hlist]
      intro hnil
      rw [hnil] at hperm
      cases hperm.nil_eq
    have heq := removeOldestArticle_eq hne
    refine ⟨hoffer.removeOldestArticle hne, ?_, ?_, ?_, ?_, ?_⟩
    · rw [heq]
      exact hmax
    · rw [heq]
      exact hinit
    · rw [heq]
      exact hcreated
    · rw [heq]
      rfl
    · rw [heq, hinsert, if_pos hfull]
  · exact ⟨hoffer, hmax, hinit, hcreated, rfl, by rw [hinsert, if_neg hfull]⟩

/-- An article that was made after the update has begun. -/
def isNew (c₀ : ℕ) (article : Article) : Bool := decide (c₀ ≤ article.ref)

/-- The feed after the articles `done` were added to it during an update. -/
structure Filled (s₀ : Feed) (done : List ArticleData) (s : Feed) : Prop where
  tracked : s.Tracked
  maxArticles : s.maxArticles = s₀.maxArticles
  isInitialized : s.isInitialized = s₀.isInitialized
  created : s₀.created ≤ s.created
  holding : Holding Article.date (isNew s₀.created) s₀.maxArticles.toNat s₀.articlesByDate
    done.length s.articlesByDate
  announced : (s.articlesByDate.filter (isNew s₀.created)).Perm s.announced
  keys : s.announced.map Article.key = done.map ArticleData.key

theorem Filled.exists_done (h : Filled s₀ done s) (ha : article ∈ s.articlesByDate)
    (hnew : isNew s₀.created article = true) : ∃ data ∈ done, data.key = article.key := by
  have hmem := mem_map_of_mem (f := Article.key)
    (h.announced.subset (mem_filter.2 ⟨ha, hnew⟩))
  rw [h.keys] at hmem
  exact mem_map.1 hmem

theorem Filled.addArticle (h : Filled s₀ done s) (hid : ∀ a ∈ s.articlesByDate, a.guid ≠ data.id)
    (hle : ∀ d ∈ done, d.date ≤ data.date)
    (hroom : ∀ d ∈ done ++ [data], s₀.articlesByDate.countP (fun a => decide (d.date < a.date)) +
      (done.length + 1) ≤ s₀.maxArticles.toNat) :
    Filled s₀ (done ++ [data]) (s.addArticle data) := by
  have hnew : isNew s₀.created (s.made data) = true := decide_eq_true h.created
  have hlenew : ∀ a ∈ s.articlesByDate, isNew s₀.created a = true → a.date ≤ data.date :=
    fun a ha ha' => by
      obtain ⟨d, hd, hkey⟩ := h.exists_done ha ha'
      have hdate : d.date = a.date := congrArg snd hkey
      rw [← hdate]
      exact hle d hd
  have hroomnew : ∀ a, a = s.made data ∨ (a ∈ s.articlesByDate ∧ isNew s₀.created a = true) →
      s₀.articlesByDate.countP (fun b => decide (a.date < b.date)) + (done.length + 1) ≤
        s₀.maxArticles.toNat := by
    rintro a (rfl | ⟨ha, ha'⟩)
    · exact hroom data (mem_append_right _ mem_cons_self)
    · obtain ⟨d, hd, hkey⟩ := h.exists_done ha ha'
      have hdate : d.date = a.date := congrArg snd hkey
      rw [← hdate]
      exact hroom d (mem_append_left _ hd)
  have hpos : lowerBound Article.date data.date s.articlesByDate < s₀.maxArticles.toNat :=
    h.holding.lowerBound_lt (x := s.made data) hlenew (hroomnew _ (Or.inl rfl))
  have hadded : Added s data (s.addArticle data) := h.tracked.addArticle
    (fun hmem => by
      obtain ⟨a, ha, heq⟩ := (mem_articles_iff h.tracked).1 hmem
      exact hid a ha heq)
    (by rw [h.maxArticles]; omega)
  have hlist := hadded.articlesByDate
  rw [h.maxArticles] at hlist
  have hholding := h.holding.insert hnew hlenew hroomnew
  have hfilter := h.holding.filter_insert hnew hholding
  rw [← hlist] at hholding hfilter
  refine ⟨hadded.tracked, hadded.maxArticles.trans h.maxArticles,
    hadded.isInitialized.trans h.isInitialized, ?_, ?_, ?_, ?_⟩
  · rw [hadded.created]
    exact h.created.trans (Nat.le_succ _)
  · rw [length_append, length_singleton]
    exact hholding
  · rw [hadded.announced]
    exact hfilter.trans ((h.announced.cons _).trans (perm_append_singleton _ _).symm)
  · rw [hadded.announced, map_append, map_append, h.keys]
    rfl

theorem Filled.foldl {rest : List ArticleData} (h : Filled s₀ done s)
    (hids : ∀ data ∈ rest, ∀ a ∈ s.articlesByDate, a.guid ≠ data.id)
    (hnodup : (rest.map ArticleData.id).Nodup)
    (hsorted : (done ++ rest).Pairwise fun a b => a.date ≤ b.date)
    (hroom : ∀ d ∈ done ++ rest, s₀.articlesByDate.countP (fun a => decide (d.date < a.date)) +
      (done ++ rest).length ≤ s₀.maxArticles.toNat) :
    Filled s₀ (done ++ rest) (rest.foldl Feed.addArticle s) := by
  induction rest generalizing done s with
  | nil =>
    rw [append_nil]
    exact h
  | cons data rest ih =>
    rw [append_cons] at hsorted hroom ⊢
    obtain ⟨hnot, hnodup⟩ := nodup_cons.1 hnodup
    have hle : ∀ d ∈ done, d.date ≤ data.date := fun d hd => by
      rw [append_assoc, pairwise_append] at hsorted
      exact hsorted.2.2 d hd data mem_cons_self
    have hadd := h.addArticle (hids data mem_cons_self) hle fun d hd => by
      have := hroom d (mem_append_left _ hd)
      rw [length_append, length_append, length_singleton] at this
      omega
    refine ih hadd (fun d hd a ha => ?_) hnodup hsorted hroom
    obtain rfl | ha := mem_addArticle ha
    · exact fun heq => hnot (mem_map.2 ⟨d, hd, heq.symm⟩)
    · exact hids d (mem_cons_of_mem data hd) a ha

/-! ### The choice of an update -/

/-- What an update sorts. -/
def dated (s : Feed) (newArticles : List ArticleData) : List (Date × Option ArticleData) :=
  s.articlesByDate.map (fun article => (article.date, none)) ++
    newArticles.map fun article => (article.date, some article)

/-- What an update adds, the oldest first. -/
def chosen (S : DateSort) (s : Feed) (newArticles : List ArticleData) : List ArticleData :=
  ((s.sortData S newArticles).filterMap Prod.snd).reverse

variable {S : DateSort} {new loaded : List ArticleData} {e : Date × Option ArticleData}

theorem mem_dated : e ∈ s.dated new ↔
    (∃ article ∈ s.articlesByDate, (article.date, none) = e) ∨
      ∃ data ∈ new, (data.date, some data) = e := by
  rw [dated, mem_append, mem_map, mem_map]

theorem sortData_eq (h : 0 ≤ s.maxArticles) :
    s.sortData S new = (S.sort (s.dated new)).take s.maxArticles.toNat := by
  have hlimit : s.maxArticlesPerFeed.toUInt32.toNat = s.maxArticles.toNat :=
    Int32.toNat_toUInt32_of_le (Int32.le_iff_toInt_le.2 h)
  unfold sortData
  dsimp only
  rw [hlimit]
  split_ifs with hlong
  · rfl
  · exact (take_of_length_le (not_lt.1 hlong)).symm

theorem sort_newestFirst (S : DateSort) (l : List (Date × Option ArticleData)) :
    NewestFirst Prod.fst (S.sort l) :=
  (S.sorted l).imp fun hab => not_lt.1 (by simpa using hab)

theorem mem_dated_of_mem_sortData (h : 0 ≤ s.maxArticles) (he : e ∈ s.sortData S new) :
    e ∈ s.dated new := by
  rw [sortData_eq h] at he
  exact (S.perm _).subset ((take_sublist _ _).subset he)

theorem mem_chosen (h : 0 ≤ s.maxArticles) :
    data ∈ s.chosen S new ↔ (data.date, some data) ∈ s.sortData S new := by
  rw [chosen, mem_reverse, mem_filterMap]
  refine ⟨fun ⟨e, he, hdata⟩ => ?_, fun he => ⟨_, he, rfl⟩⟩
  obtain ⟨_, -, rfl⟩ | ⟨data', -, rfl⟩ := mem_dated.1 (mem_dated_of_mem_sortData h he)
  · cases hdata
  · cases hdata
    exact he

theorem chosen_subset (h : 0 ≤ s.maxArticles) : s.chosen S new ⊆ new := fun data hdata => by
  obtain ⟨_, -, heq⟩ | ⟨data', hdata', heq⟩ :=
    mem_dated.1 (mem_dated_of_mem_sortData h ((mem_chosen h).1 hdata))
  · cases congrArg snd heq
  · rwa [← Option.some.inj (congrArg snd heq)]

theorem filterMap_dated : (s.dated new).filterMap Prod.snd = new := by
  simp [dated, filterMap_append, filterMap_map]

theorem chosen_nodup (h : 0 ≤ s.maxArticles) (hnew : (new.map ArticleData.id).Nodup) :
    ((s.chosen S new).map ArticleData.id).Nodup := by
  have hperm : ((S.sort (s.dated new)).filterMap snd).Perm new := by
    have hmap : (s.dated new).filterMap snd = new := filterMap_dated
    conv_rhs => rw [← hmap]
    exact (S.perm _).filterMap _
  rw [chosen, map_reverse, nodup_reverse, sortData_eq h]
  refine Nodup.sublist (((take_sublist _ _).filterMap _).map _) ?_
  exact (hperm.map _).nodup_iff.2 hnew

theorem chosen_sorted (h : 0 ≤ s.maxArticles) :
    (s.chosen S new).Pairwise fun a b => a.date ≤ b.date := by
  rw [chosen, pairwise_reverse, pairwise_filterMap]
  have hsorted := sort_newestFirst S (s.dated new)
  refine Pairwise.imp_of_mem (fun {a b} ha hb hab x hx y hy => ?_)
    (by rw [sortData_eq h]; exact hsorted.sublist (take_sublist _ _))
  obtain ⟨_, -, rfl⟩ | ⟨_, -, rfl⟩ := mem_dated.1 (mem_dated_of_mem_sortData h ha)
  · cases hx
  · obtain ⟨_, -, rfl⟩ | ⟨_, -, rfl⟩ := mem_dated.1 (mem_dated_of_mem_sortData h hb)
    · cases hy
    · cases hx
      cases hy
      exact hab

theorem length_chosen : (s.chosen S new).length =
    (s.sortData S new).countP fun e => e.2.isSome := by
  rw [chosen, length_reverse, length_filterMap_eq_countP]

theorem length_eq_countP (l : List (Date × Option ArticleData)) : l.length =
    l.countP (fun e => e.2.isSome) + l.countP fun e => !e.2.isSome := by
  rw [length_eq_countP_add_countP fun e => e.2.isSome]
  congr 1
  exact countP_congr fun e _ => by simp

theorem countP_new_dated : (s.dated new).countP (fun e => e.2.isSome) = new.length := by
  rw [dated, countP_append, countP_map, countP_map]
  simp [Function.comp_def]

theorem countP_old_dated :
    (s.dated new).countP (fun e => !e.2.isSome) = s.articlesByDate.length := by
  rw [dated, countP_append, countP_map, countP_map]
  simp [Function.comp_def]

theorem countP_dated (new : List ArticleData) (p : Date → Bool) :
    (s.dated new).countP (fun e => !e.2.isSome && p e.1) =
      s.articlesByDate.countP fun article => p article.date := by
  rw [dated, countP_append, countP_map, countP_map]
  simp [Function.comp_def]

theorem chosen_room (h : 0 ≤ s.maxArticles) (hdata : data ∈ s.chosen S new) :
    s.articlesByDate.countP (fun a => decide (data.date < a.date)) + (s.chosen S new).length ≤
      s.maxArticles.toNat := by
  have hmem := (mem_chosen h).1 hdata
  rw [length_chosen, ← countP_dated new fun d => decide (data.date < d),
    ← (S.perm _).countP_eq]
  rw [sortData_eq h] at hmem ⊢
  rw [(sort_newestFirst S (s.dated new)).countP_take hmem fun e => !e.2.isSome]
  have hsplit := length_eq_countP ((S.sort (s.dated new)).take s.maxArticles.toNat)
  have hmono : ((S.sort (s.dated new)).take s.maxArticles.toNat).countP
      (fun e => !e.2.isSome && decide (data.date < e.1)) ≤
      ((S.sort (s.dated new)).take s.maxArticles.toNat).countP fun e => !e.2.isSome :=
    countP_mono_left fun e _ he => by
      rw [Bool.and_eq_true] at he
      exact he.1
  have hlength := length_take_le s.maxArticles.toNat (S.sort (s.dated new))
  dsimp only
  omega

theorem length_chosen_min (h : 0 ≤ s.maxArticles) :
    min s.maxArticles.toNat (s.articlesByDate.length + (s.chosen S new).length) =
      min s.maxArticles.toNat (s.articlesByDate.length + new.length) := by
  have hsplit := length_eq_countP ((S.sort (s.dated new)).take s.maxArticles.toNat)
  have hall := length_eq_countP (S.sort (s.dated new))
  have hsub := take_sublist s.maxArticles.toNat (S.sort (s.dated new))
  have hnew := hsub.countP_le (p := fun e => e.2.isSome)
  have hold := hsub.countP_le (p := fun e => !e.2.isSome)
  rw [(S.perm _).countP_eq, countP_new_dated] at hall hnew
  rw [(S.perm _).countP_eq, countP_old_dated] at hall hold
  rw [length_chosen, sortData_eq h]
  rw [length_take] at hsplit
  omega

/-! ### What an update keeps -/

theorem newArticles_ids (s : Feed) (dummyPubDate : Date) (loaded : List ArticleData) :
    ((s.newArticles dummyPubDate loaded).map ArticleData.id).Sublist (loaded.map ArticleData.id) := by
  induction loaded generalizing dummyPubDate with
  | nil => exact Sublist.refl _
  | cons data loaded ih =>
    rw [newArticles]
    split
    · exact (ih _).cons _
    · exact (ih _).cons_cons _

theorem newArticles_notMem {dummyPubDate : Date} (h : data ∈ s.newArticles dummyPubDate loaded) :
    data.id ∉ s.articles := by
  induction loaded generalizing dummyPubDate with
  | nil => cases h
  | cons data' loaded ih =>
    rw [newArticles] at h
    split at h
    · exact ih h
    case h_2 hnone =>
      obtain rfl | h := mem_cons.1 h
      · rw [Dict.mem_iff_isSome, hnone]
        exact Bool.false_ne_true
      · exact ih h

theorem parser_addArticle_cases (p : Parser) (article : ArticleData) :
    p.addArticle article = p ∨ ∃ a : ArticleData, a.id ∉ p.articleIDs ∧
      p.addArticle article = ⟨insert a.id p.articleIDs, a :: p.articles⟩ := by
  unfold Parser.addArticle
  extract_lets article' localId
  split_ifs with hempty hknown
  · exact Or.inl rfl
  · exact Or.inl rfl
  · exact Or.inr ⟨{ article' with id := localId }, hknown, rfl⟩

theorem parse_nodup (entries : List ArticleData) :
    ((Parser.parse entries).map ArticleData.id).Nodup := by
  have hrun : ∀ p : Parser, (∀ a ∈ p.articles, a.id ∈ p.articleIDs) →
      (p.articles.map ArticleData.id).Nodup →
      ((entries.foldl Parser.addArticle p).articles.map ArticleData.id).Nodup := by
    induction entries with
    | nil => exact fun p _ hnodup => hnodup
    | cons entry entries ih =>
      intro p hids hnodup
      rw [foldl_cons]
      obtain heq | ⟨a, hnot, heq⟩ := parser_addArticle_cases p entry
      · rw [heq]
        exact ih p hids hnodup
      · rw [heq]
        refine ih _ (fun b hb => ?_) (nodup_cons.2 ⟨fun hmem => ?_, hnodup⟩)
        · obtain rfl | hb := mem_cons.1 hb
          · exact Finset.mem_insert_self _ _
          · exact Finset.mem_insert_of_mem (hids b hb)
        · obtain ⟨b, hb, hid⟩ := mem_map.1 hmem
          exact hnot (hid ▸ hids b hb)
  exact hrun {} (fun a ha => by cases ha) nodup_nil

theorem updateArticles_eq (h : 0 ≤ s.maxArticles) (now : ℤ) (loaded : List ArticleData) :
    s.updateArticles S now loaded =
      (s.chosen S (s.newArticles now loaded)).foldl addArticle s := by
  have hfold : (s.chosen S (s.newArticles now loaded)).foldl addArticle s =
      (s.sortData S (s.newArticles now loaded)).reverse.foldl (fun s a =>
        match a.2 with
        | some data => s.addArticle data
        | none => s) s := by
    rw [chosen, ← filterMap_reverse, foldl_filterMap]
    congr 1
    funext s a
    cases a.2 <;> rfl
  unfold updateArticles
  dsimp only
  split_ifs with hnil
  · have hnone : s.chosen S (s.newArticles now loaded) ⊆ s.newArticles now loaded :=
      chosen_subset h
    rw [hnil] at hnone ⊢
    rw [subset_nil.1 hnone]
    rfl
  · exact hfold.symm

theorem Sound.filled (h : s.Sound) (hannounced : s.announced = [])
    (hnew : (new.map ArticleData.id).Nodup) (hids : ∀ data ∈ new, data.id ∉ s.articles) :
    Filled s (s.chosen S new) ((s.chosen S new).foldl addArticle s) := by
  have hold : ∀ a ∈ s.articlesByDate, isNew s.created a = false := fun a ha =>
    decide_eq_false (not_le.2 (h.tracked.made a ha))
  have hinit : Filled s [] s := by
    refine ⟨h.tracked, rfl, rfl, le_rfl, Holding.init hold h.sorted ?_, ?_, ?_⟩
    · have := h.limited
      omega
    · rw [filter_eq_nil_iff.2 fun a ha => by simp [hold a ha], hannounced]
    · rw [hannounced]
      rfl
  exact hinit.foldl
    (fun data hdata a ha heq => hids data (chosen_subset h.nonneg hdata)
      ((mem_articles_iff h.tracked).2 ⟨a, ha, heq⟩))
    (chosen_nodup h.nonneg hnew) (chosen_sorted h.nonneg)
    fun data hdata => chosen_room h.nonneg hdata

theorem Filled.mem_of_isNew_eq_false (h : Filled s₀ done s) (ha : article ∈ s.articlesByDate)
    (hold : isNew s₀.created article = false) : article ∈ s₀.articlesByDate :=
  h.holding.rest.subset (mem_filter.2 ⟨ha, by simp [hold]⟩)

theorem Filled.mem_keys (h : Filled s₀ done s) (hdata : data ∈ done) :
    data.key ∈ s.articlesByDate.map Article.key := by
  have hmem := mem_map_of_mem (f := ArticleData.key) hdata
  rw [← h.keys] at hmem
  obtain ⟨a, ha, hkey⟩ := mem_map.1 hmem
  exact mem_map.2 ⟨a, (mem_filter.1 (h.announced.symm.subset ha)).1, hkey⟩

theorem Sound.le_of_notMem_chosen {s' : Feed} (h : s.Sound)
    (hfill : Filled s (s.chosen S new) s') (hdata : data ∈ new) (hno : data ∉ s.chosen S new)
    (ha : article ∈ s'.articlesByDate) : data.date ≤ article.date := by
  have hold : ∀ a ∈ s.articlesByDate, isNew s.created a = false := fun a ha =>
    decide_eq_false (not_le.2 (h.tracked.made a ha))
  have hall : (data.date, some data) ∈ S.sort (s.dated new) :=
    (S.perm _).mem_iff.2 (mem_dated.2 (Or.inr ⟨data, hdata, rfl⟩))
  have hnot : (data.date, some data) ∉ (S.sort (s.dated new)).take s.maxArticles.toNat := by
    rw [mem_chosen h.nonneg, sortData_eq h.nonneg] at hno
    exact hno
  have htop : ∀ e ∈ (S.sort (s.dated new)).take s.maxArticles.toNat, data.date ≤ e.1 :=
    fun e he => (sort_newestFirst S (s.dated new)).le_of_notMem_take he hall hnot
  cases hnew : isNew s.created article with
  | true =>
    obtain ⟨d, hd, hkey⟩ := hfill.exists_done ha hnew
    have hdate : d.date = article.date := congrArg snd hkey
    rw [← hdate]
    rw [mem_chosen h.nonneg, sortData_eq h.nonneg] at hd
    exact htop _ hd
  | false =>
    -- the old articles that were chosen are newer, and with the new ones they fill the list
    by_contra hlt
    have hlt := not_le.1 hlt
    have hcount := hfill.holding.countP_lt (Nodup.of_map _ h.tracked.refs) hold ha hnew
    have hlength := hfill.holding.length
    have hfull : s.maxArticles.toNat < (S.sort (s.dated new)).length := by
      by_contra hfits
      exact hnot (by rwa [take_of_length_le (not_lt.1 hfits)])
    have hsplit := length_eq_countP ((S.sort (s.dated new)).take s.maxArticles.toNat)
    have hnewer : ((S.sort (s.dated new)).take s.maxArticles.toNat).countP (fun e => !e.2.isSome) ≤
        s.articlesByDate.countP fun a => decide (article.date < a.date) := by
      rw [← countP_dated new fun d => decide (article.date < d),
        ← (S.perm (s.dated new)).countP_eq]
      refine le_trans (countP_mono_left fun e he hsome => ?_)
        (take_sublist s.maxArticles.toNat _).countP_le
      rw [hsome, Bool.true_and]
      exact decide_eq_true (hlt.trans_le (htop e he))
    rw [length_chosen, sortData_eq h.nonneg] at hcount hlength
    rw [length_take] at hsplit
    omega

theorem Sound.updateArticles (h : s.Sound) (hannounced : s.announced = [])
    (hinit : s.isInitialized = true) (now : ℤ) (hloaded : (loaded.map ArticleData.id).Nodup) :
    (s.updateArticles S now loaded).Sound ∧
      Update.Kept ⟨s.articlesByDate, s.newArticles now loaded⟩ (s.updateArticles S now loaded) := by
  have hfill : Filled s (s.chosen S (s.newArticles now loaded))
      ((s.chosen S (s.newArticles now loaded)).foldl addArticle s) := h.filled hannounced
    (hloaded.sublist (newArticles_ids s now loaded)) fun _ => newArticles_notMem
  rw [← updateArticles_eq h.nonneg] at hfill
  have hlength := hfill.holding.length
  have hold : ∀ a ∈ s.articlesByDate, isNew s.created a = false := fun a ha =>
    decide_eq_false (not_le.2 (h.tracked.made a ha))
  have hnewold : ∀ a ∈ (s.updateArticles S now loaded).articlesByDate,
      isNew s.created a = decide (a ∉ s.articlesByDate) := fun a ha => by
    cases hnew : isNew s.created a with
    | true => simpa using fun hmem => by simp [hold a hmem] at hnew
    | false => simpa using hfill.mem_of_isNew_eq_false ha hnew
  refine ⟨⟨hfill.tracked, hfill.holding.sorted, ?_, fun hi => ?_⟩, ?_, ?_, ?_, ?_, fun a ha => ?_⟩
  · rw [hfill.maxArticles]
    have := h.nonneg
    omega
  · rw [hfill.isInitialized, hinit] at hi
    cases hi
  · intro key hkey
    obtain ⟨a, ha, rfl⟩ := mem_map.1 hkey
    rw [mem_append]
    cases hnew : isNew s.created a with
    | true =>
      obtain ⟨d, hd, hkey⟩ := hfill.exists_done ha hnew
      exact Or.inr (mem_map.2 ⟨d, chosen_subset h.nonneg hd, hkey⟩)
    | false => exact Or.inl (mem_map_of_mem (hfill.mem_of_isNew_eq_false ha hnew))
  · rw [hlength, length_chosen_min h.nonneg, hfill.maxArticles]
  · intro key hkey hno a ha
    rw [mem_append] at hkey
    obtain hkey | hkey := hkey
    · obtain ⟨e, he, rfl⟩ := mem_map.1 hkey
      exact hfill.holding.gone e he (fun hmem => hno (mem_map_of_mem hmem)) a ha
    · obtain ⟨d, hd, rfl⟩ := mem_map.1 hkey
      exact h.le_of_notMem_chosen hfill hd (fun hmem => hno (hfill.mem_keys hmem)) ha
  · refine hfill.holding.inFront.imp_of_mem fun {a b} ha hb hab hbefore hafter => ?_
    exact hab (hold a hbefore) (by rw [hnewold b hb]; exact decide_eq_true hafter)
  · exact (mem_filter.1 (hfill.announced.symm.subset ha)).1

/-! ### The main theorem -/

theorem sound_init {limit : Int32} (h : 0 ≤ limit.toInt) :
    Sound { maxArticlesPerFeed := limit } where
  tracked := ⟨Entries.empty, nodup_nil, rfl, rfl, nodup_nil, fun a ha => (by cases ha),
    fun r hr => absurd hr (Finset.notMem_empty r), fun a ha => (by cases ha)⟩
  sorted := Pairwise.nil
  limited := h
  initial _ := rfl

theorem not_limited (h : s.maxArticles < 0) : ¬ s.Consistent := fun hc => by
  have := hc.limited
  omega

theorem next_sound {L : DataSort} {t : FeedState} {e : Event} (h : t.feed.Sound)
    (hp : Possible t e) (hn : NonNegative t e) :
    (next S L t e).feed.Sound ∧ ∀ u ∈ (next S L t e).update, u.Kept (next S L t e).feed := by
  have hclear := h.announce []
  cases e with
  | loadFinished loaded =>
    exact ⟨hclear.handleArticleLoadFinished L hp loaded, fun u hu => by cases hu⟩
  | parsingFinished now entries =>
    obtain ⟨hsound, hkept⟩ := hclear.updateArticles (S := S) rfl hp now (parse_nodup entries)
    exact ⟨hsound, fun u hu => Option.some.inj hu ▸ hkept⟩
  | articleRead article =>
    exact ⟨hclear.of_sameList (hclear.tracked.markArticleAsRead hp)
      (markArticleAsRead_sameList article _), fun u hu => by cases hu⟩
  | markAsRead order =>
    have horder : ∀ a ∈ order, a ∈ t.feed.articlesByDate := fun a ha =>
      ((hclear.tracked.same _ _).1 (hp.2.2 a ha)).1
    obtain ⟨htracked, hsame⟩ := hclear.tracked.markAsRead horder
    exact ⟨hclear.of_sameList htracked hsame, fun u hu => by cases hu⟩
  | setMaxArticlesPerFeed n =>
    exact ⟨hclear.setMaxArticlesPerFeed hn, fun u hu => by cases hu⟩

theorem setMaxArticlesPerFeed_maxArticles (n : Int32) :
    (s.setMaxArticlesPerFeed n).maxArticles = n.toInt := by
  have hloop : ∀ (fuel : ℕ) (s : Feed),
      (removeOldestArticles n.toInt fuel s).maxArticles = s.maxArticles := by
    intro fuel
    induction fuel with
    | zero => exact fun s => rfl
    | succ fuel ih =>
      intro s
      rw [removeOldestArticles]
      split_ifs
      · rw [ih]
        unfold Feed.removeOldestArticle
        cases s.articlesByDate.getLast? <;> rfl
      · rfl
  unfold Feed.setMaxArticlesPerFeed
  split_ifs with hne
  · rw [hloop]
    rfl
  · rw [← not_not.1 hne]
    rfl

/-- **Where the store of articles is sound.**  Throughout every run of loading, updates, marks and
changes of the limit table, list and counter agree and updates keep the newest articles, exactly if
the limit is not negative at first and none that is set later is. -/
theorem store_iff (S : DateSort) (L : DataSort) (limit : Int32) (events : List Event)
    (hr : ((machine S L).run { feed := { maxArticlesPerFeed := limit } } events).isSome = true) :
    (machine S L).Always Right { feed := { maxArticlesPerFeed := limit } } events ↔
      0 ≤ limit.toInt ∧
        (machine S L).Meets NonNegative { feed := { maxArticlesPerFeed := limit } } events := by
  by_cases hlimit : 0 ≤ limit.toInt
  · rw [and_iff_right hlimit]
    refine Machine.guarded_always_iff_meets
      (I := fun t => t.feed.Sound ∧ ∀ u ∈ t.update, u.Kept t.feed)
      ⟨sound_init hlimit, fun u hu => by cases hu⟩ (fun t ht => ⟨ht.1.consistent, ht.2⟩)
      (fun t e ht hp hn => next_sound ht.1 hp hn) (fun t e _ _ hn hright => ?_) hr
    cases e with
    | setMaxArticlesPerFeed n =>
      refine not_limited ?_ hright.consistent
      change (Feed.setMaxArticlesPerFeed n _).maxArticles < 0
      rw [setMaxArticlesPerFeed_maxArticles]
      exact not_le.1 hn
    | loadFinished _ => exact hn trivial
    | parsingFinished _ _ => exact hn trivial
    | articleRead _ => exact hn trivial
    | markAsRead _ => exact hn trivial
  · refine iff_of_false (fun hall => ?_) fun h => hlimit h.1
    have hnegative : Feed.maxArticles { maxArticlesPerFeed := limit } < 0 := not_le.1 hlimit
    exact not_limited hnegative hall.at_start.consistent

/-- Two articles are loaded, an update brings two, one is marked, and the limit becomes one. -/
def quietRun : List Event :=
  [.loadFinished [⟨"a", "u", "l", "t", (20 : ℤ), false⟩, ⟨"b", "u", "l", "t", (10 : ℤ), true⟩],
    .articleRead ⟨0, "a", (20 : ℤ)⟩,
    .parsingFinished 40 [⟨"c", "u", "l", "t", ⊥, false⟩, ⟨"a", "u", "l", "t", (20 : ℤ), false⟩,
      ⟨"d", "u", "l", "t", (15 : ℤ), false⟩],
    .setMaxArticlesPerFeed 1]

def dateSort : DateSort := (StdSort.insertion Prod.fst).flip

def dataSort : DataSort := (StdSort.insertion ArticleData.date).flip

theorem store_quietRun :
    (machine dateSort dataSort).Always Right { feed := { maxArticlesPerFeed := 3 } } quietRun :=
  (store_iff dateSort dataSort 3 quietRun (by decide +kernel)).2
    ⟨by decide, by decide +kernel⟩

/-- The limit that the Web API sets to `-1`. -/
theorem negativeLimit_not_sound :
    ((machine dateSort dataSort).run { feed := { maxArticlesPerFeed := 50 } }
      [.setMaxArticlesPerFeed (-1)]).isSome = true ∧
    ¬ (machine dateSort dataSort).Always Right { feed := { maxArticlesPerFeed := 50 } }
      [.setMaxArticlesPerFeed (-1)] := by
  refine ⟨by decide, fun h => ?_⟩
  have hright := h.2 _ rfl
  exact absurd hright.consistent.defined (by decide)

end Feed

end QBittorrent.Rss.ArticleStore
