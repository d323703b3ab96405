import QBittorrent.Lib.Dict
import QBittorrent.Rss.AddTorrentParams

/-!
# RSS download rules

`AutoDownloadRule` with its setters and the decision whether a rule matches an article: the days to
ignore after the last match, the expressions that must and must not be contained, the episode
filter and the smart episode filter.  Compiled expressions are cached in the rule under their text,
so the expressions of a rule are functions of the cache as well.

* `AutoDownloadRule.accepts_cases` : **what accepting an article does to the matched episodes.**
-/

namespace QBittorrent.Rss

/-! ### Dates -/

/-- Seconds by which a clock is ahead of UTC, at most sixteen hours. -/
structure UtcOffset where
  seconds : ℤ
  range : seconds.natAbs ≤ 57600
  deriving DecidableEq

def UtcOffset.utc : UtcOffset := ⟨0, by decide⟩

/-- The clock that a date and time is read on. -/
inductive TimeSpec where
  | offsetFromUtc (offset : UtcOffset)
  | localTime
  deriving DecidableEq

/-- A date and time: milliseconds since 1970 as its clock shows them. -/
inductive QDateTime where
  | invalid
  | valid (wall : ℤ) (spec : TimeSpec)
  deriving DecidableEq

/-- Qt and the time zone of the host as rules use them.  Expressions are given by their pattern and
matched without regard to case; a match is the list of captured texts, that of the whole match
first. -/
structure Qt where
  /-- The offset of local time, at a time that the clock shows. -/
  localOffset : ℤ → UtcOffset
  /-- The RFC 2822 text of a time in seconds, with the minutes by which its clock is ahead. -/
  rfc2822Text : ℤ → ℤ → String
  parseRfc2822 : String → Option (ℤ × ℤ)
  regexMatch : String → String → Option (List String)
  /-- A match with the options of smart episode filters. -/
  smartRegexMatch : String → String → Option (List String)
  wildcardToRegexPattern : String → String
  toInt : String → Option ℤ
  /-- `QString::contains` without regard to case. -/
  containsIgnoringCase : String → String → Bool

namespace QDateTime

variable (Q : Qt)

def isValid : QDateTime → Bool
  | invalid => false
  | valid _ _ => true

def addDays : QDateTime → ℤ → QDateTime
  | invalid, _ => invalid
  | valid wall spec, days => valid (wall + days * 86400000) spec

/-- `QDateTime::offsetFromUtc` of a date with the clock `spec`. -/
def offsetFromUtc (wall : ℤ) : TimeSpec → UtcOffset
  | .offsetFromUtc offset => offset
  | .localTime => Q.localOffset wall

/-- `QDateTime::toMSecsSinceEpoch`, of a valid date. -/
def instant : QDateTime → Option ℤ
  | invalid => none
  | valid wall spec => some (wall - (offsetFromUtc Q wall spec).seconds * 1000)

/-- `operator<`: an invalid date is before the valid ones. -/
def lt (d d' : QDateTime) : Bool :=
  match d.instant Q, d'.instant Q with
  | some t, some t' => t < t'
  | none, some _ => true
  | _, none => false

/-- `operator==`: the same moment. -/
def Same (d d' : QDateTime) : Prop := d.instant Q = d'.instant Q

/-- `toString(Qt::RFC2822Date)`: whole seconds, and whole minutes ahead of UTC. -/
def toRfc2822 : QDateTime → String
  | invalid => ""
  | valid wall spec =>
    Q.rfc2822Text (wall / 1000) ((offsetFromUtc Q wall spec).seconds.tdiv 60)

/-- `fromString(…, Qt::RFC2822Date)`. -/
def fromRfc2822 (text : String) : QDateTime :=
  match Q.parseRfc2822 text with
  | some (seconds, minutes) =>
    if h : (minutes * 60).natAbs ≤ 57600 then
      valid (seconds * 1000) (.offsetFromUtc ⟨minutes * 60, h⟩)
    else invalid
  | none => invalid

end QDateTime

/-! ### Rules -/

/-- What an article tells a rule. -/
structure ArticleData where
  title : String
  date : QDateTime
  deriving DecidableEq

/-- The settings of the downloader that all rules share. -/
structure Settings where
  smartEpisodeRegex : String
  downloadRepacks : Bool
  deriving DecidableEq

/-- Compiled expressions: their patterns under the texts they were asked for. -/
abbrev RegexCache := Dict String String

structure AutoDownloadRule (E : Platform) where
  name : String
  enabled : Bool
  priority : Int32
  mustContain : List String
  mustNotContain : List String
  episodeFilter : String
  feedURLs : List String
  useRegex : Bool
  ignoreDays : Int32
  lastMatch : QDateTime
  addTorrentParams : BitTorrent.AddTorrentParams E
  smartFilter : Bool
  previouslyMatchedEpisodes : List String
  lastComputedEpisodes : List String
  cachedRegexes : RegexCache

/-- `QString::split` at a character. -/
def splitAt (sep : Char) (s : String) : List String := (s.toList.splitOn sep).map String.ofList

/-- `QStringList::join` with a character. -/
def joinWith (sep : Char) (l : List String) : String :=
  String.ofList ([sep].intercalate (l.map (·.toList)))

/-- White space of expressions without Unicode properties. -/
def isRegexSpace (c : Char) : Bool := c = ' ' || (9 ≤ c.toNat && c.toNat ≤ 13)

/-- `split(whitespace, Qt::SkipEmptyParts)`. -/
def splitWhitespace (s : String) : List String :=
  ((s.toList.splitOnP isRegexSpace).filter (· ≠ [])).map String.ofList

/-- `QRegularExpressionMatch::captured`. -/
def captured (m : List String) (i : ℕ) : String := m.getD i ""

section Matching

variable (Q : Qt)

/-- `computeEpisodeName`: the captured numbers without leading zeros, and the other captured texts,
with `x` between them; empty if there are none. -/
def computeEpisodeName (settings : Settings) (article : String) : String :=
  match Q.smartRegexMatch settings.smartEpisodeRegex article with
  | none => ""
  | some m =>
    joinWith 'x' <| (m.tail.filter (· ≠ "")).map fun cap =>
      match Q.toInt cap with
      | some x => toString x
      | none => cap

/-- `AutoDownloadRule::cachedRegex`. -/
def cachedRegex (expression : String) (isRegex : Bool) : StateM RegexCache String := fun cache =>
  let cached := (cache.lookup expression).getD ""
  let regex := if cached = "" then
      if isRegex then expression else Q.wildcardToRegexPattern expression
    else cached
  (regex, cache.insert expression regex)

/-- The loop of `matchesExpression`: every wildcard is in the title. -/
def matchesWildcards (articleTitle : String) : List String → StateM RegexCache Bool
  | [] => pure true
  | wildcard :: wildcards => do
    let reg ← cachedRegex Q wildcard false
    if (Q.regexMatch reg articleTitle).isNone then pure false
    else matchesWildcards articleTitle wildcards

/-- `AutoDownloadRule::matchesExpression`. -/
def matchesExpression (useRegex : Bool) (articleTitle expression : String) :
    StateM RegexCache Bool :=
  if expression = "" then pure true
  else if useRegex then do
    let reg ← cachedRegex Q expression true
    pure (Q.regexMatch reg articleTitle).isSome
  else matchesWildcards Q articleTitle (splitWhitespace expression)

/-- `std::any_of` over expressions. -/
def matchesAny (useRegex : Bool) (articleTitle : String) : List String → StateM RegexCache Bool
  | [] => pure false
  | expression :: expressions => do
    if ← matchesExpression Q useRegex articleTitle expression then pure true
    else matchesAny useRegex articleTitle expressions

/-- Leading zeros go, but not the last digit. -/
def trimZeros : List Char → List Char
  | '0' :: c :: cs => trimZeros (c :: cs)
  | cs => cs

/-- The comparison of an episode with a range of the episode filter. -/
def inEpisodeRange (seasonOurs : ℤ) (episode : String) (m : List String) : Bool :=
  let seasonTheirs := (Q.toInt (captured m 1)).getD 0
  let episodeTheirs := (Q.toInt (captured m 2)).getD 0
  if episode.toList.getLast? = some '-' then
    let episodeOurs := (Q.toInt (String.ofList episode.toList.dropLast)).getD 0
    (seasonTheirs = seasonOurs && episodeOurs ≤ episodeTheirs) || seasonOurs < seasonTheirs
  else
    let range := splitAt '-' episode
    let first := (Q.toInt (range.head?.getD "")).getD 0
    let last := (Q.toInt (range.getLast?.getD "")).getD 0
    -- a range that ends before it starts is ignored
    if last < first then false
    else seasonTheirs = seasonOurs && first ≤ episodeTheirs && episodeTheirs ≤ last

def partialPattern1 : String := "\\bs0?(\\d\x7b1,4\x7d)[ -_\\.]?e(0?\\d\x7b1,4\x7d)(?:\\D|\\b)"

def partialPattern2 : String := "\\b(\\d\x7b1,4\x7d)x(0?\\d\x7b1,4\x7d)(?:\\D|\\b)"

/-- One episode of the episode filter. -/
def matchesEpisode (season : String) (articleTitle episode : String) : StateM RegexCache Bool :=
  if episode = "" then pure false
  else do
    let episode := String.ofList (trimZeros episode.toList)
    if '-' ∈ episode.toList then
      let seasonOurs := (Q.toInt season).getD 0
      let reg ← cachedRegex Q partialPattern1 true
      match Q.regexMatch reg articleTitle with
      | some m => pure (inEpisodeRange Q seasonOurs episode m)
      | none =>
        let reg ← cachedRegex Q partialPattern2 true
        match Q.regexMatch reg articleTitle with
        | some m => pure (inEpisodeRange Q seasonOurs episode m)
        | none => pure false
    else
      let reg ← cachedRegex Q ("\\b(?:s0?" ++ season ++ "[ -_\\.]?e0?" ++ episode ++ "|" ++ season ++
        "x0?" ++ episode ++ ")(?:\\D|\\b)") true
      pure (Q.regexMatch reg articleTitle).isSome

/-- The loop of `matchesEpisodeFilterExpression`. -/
def matchesAnyEpisode (season articleTitle : String) : List String → StateM RegexCache Bool
  | [] => pure false
  | episode :: episodes => do
    if ← matchesEpisode Q season articleTitle episode then pure true
    else matchesAnyEpisode season articleTitle episodes

namespace AutoDownloadRule

variable {E : Platform}

def matchesMustContainExpression (rule : AutoDownloadRule E) (articleTitle : String) :
    StateM RegexCache Bool :=
  if rule.mustContain.isEmpty then pure true
  else matchesAny Q rule.useRegex articleTitle rule.mustContain

def matchesMustNotContainExpression (rule : AutoDownloadRule E) (articleTitle : String) :
    StateM RegexCache Bool :=
  if rule.mustNotContain.isEmpty then pure true
  else do
    let found ← matchesAny Q rule.useRegex articleTitle rule.mustNotContain
    pure !found

/-- `matchesEpisodeFilterExpression`, after it has cleared the episodes computed last. -/
def matchesEpisodeFilterExpression (rule : AutoDownloadRule E) (articleTitle : String) :
    StateM RegexCache Bool :=
  if rule.episodeFilter = "" then pure true
  else do
    let filterRegex ← cachedRegex Q "(^\\d\x7b1,4\x7d)x(.*;$)" true
    match Q.regexMatch filterRegex rule.episodeFilter with
    | none => pure false
    | some m =>
      matchesAnyEpisode Q (captured m 1) articleTitle (splitAt ';' (captured m 2))

/-- The filters of a rule that look at the title by itself, in their order. -/
def matchesExpressions (rule : AutoDownloadRule E) (articleTitle : String) (cache : RegexCache) :
    Bool :=
  let (found, cache) := rule.matchesMustContainExpression Q articleTitle cache
  if !found then false
  else
    let (allowed, cache) := rule.matchesMustNotContainExpression Q articleTitle cache
    if !allowed then false
    else (rule.matchesEpisodeFilterExpression Q articleTitle cache).1

/-- The days to ignore after the last match are over. -/
def isDue (rule : AutoDownloadRule E) (articleDate : QDateTime) : Bool :=
  !(0 < rule.ignoreDays && rule.lastMatch.isValid &&
    articleDate.lt Q (rule.lastMatch.addDays rule.ignoreDays.toInt))

def isRepack (articleTitle : String) : Bool := Q.containsIgnoringCase articleTitle "REPACK"

def isProper (articleTitle : String) : Bool := Q.containsIgnoringCase articleTitle "PROPER"

/-- The name of an episode with its markers. -/
def fullEpisodeStr (episodeStr : String) (isRepack isProper : Bool) : String :=
  episodeStr ++ (if isRepack then "-REPACK" else "") ++ (if isProper then "-PROPER" else "")

/-- `matchesSmartEpisodeFilter`: nothing, or the episodes to remember. -/
def matchesSmartEpisodeFilter (rule : AutoDownloadRule E) (settings : Settings)
    (articleTitle : String) : Option (List String) :=
  if !rule.smartFilter then some []
  else
    let episodeStr := computeEpisodeName Q settings articleTitle
    if episodeStr = "" then some []
    else if episodeStr ∈ rule.previouslyMatchedEpisodes then
      if !settings.downloadRepacks then none
      else
        let isRepack := isRepack Q articleTitle
        let isProper := isProper Q articleTitle
        if !isRepack && !isProper then none
        else
          let full := fullEpisodeStr episodeStr isRepack isProper
          if full ∈ rule.previouslyMatchedEpisodes then none
          else if isRepack && isProper then
            -- the single markers are not downloaded after both
            some [full, episodeStr ++ "-REPACK", episodeStr ++ "-PROPER"]
          else some [full]
    else some [episodeStr]

/-- `AutoDownloadRule::matches`.  The episodes computed last are cleared before the episode filter
is looked at. -/
def matchesArticle (rule : AutoDownloadRule E) (settings : Settings) (articleData : ArticleData) :
    Bool × AutoDownloadRule E :=
  if !rule.isDue Q articleData.date then (false, rule)
  else
    let (found, cache) := rule.matchesMustContainExpression Q articleData.title rule.cachedRegexes
    if !found then (false, { rule with cachedRegexes := cache })
    else
      let (allowed, cache) := rule.matchesMustNotContainExpression Q articleData.title cache
      if !allowed then (false, { rule with cachedRegexes := cache })
      else
        let (episode, cache) := rule.matchesEpisodeFilterExpression Q articleData.title cache
        let rule := { rule with cachedRegexes := cache, lastComputedEpisodes := [] }
        if !episode then (false, rule)
        else match rule.matchesSmartEpisodeFilter Q settings articleData.title with
          | none => (false, rule)
          | some episodes => (true, { rule with lastComputedEpisodes := episodes })

def accepts (rule : AutoDownloadRule E) (settings : Settings) (articleData : ArticleData) :
    Bool × AutoDownloadRule E :=
  match rule.matchesArticle Q settings articleData with
  | (false, rule) => (false, rule)
  | (true, rule) =>
    let rule := { rule with lastMatch := articleData.date }
    (true, { rule with
      previouslyMatchedEpisodes := rule.previouslyMatchedEpisodes ++ rule.lastComputedEpisodes
      lastComputedEpisodes := [] })

/-! ### What matching and accepting do -/

variable {Q} {rule : AutoDownloadRule E} {settings : Settings} {articleData : ArticleData}

theorem matchesArticle_cases :
    ∃ cache, (rule.matchesArticle Q settings articleData =
        (true, { rule with
          cachedRegexes := cache
          lastComputedEpisodes :=
            (rule.matchesSmartEpisodeFilter Q settings articleData.title).getD [] }) ∧
      rule.isDue Q articleData.date = true ∧
      rule.matchesExpressions Q articleData.title rule.cachedRegexes = true ∧
      (rule.matchesSmartEpisodeFilter Q settings articleData.title).isSome = true) ∨
    ((∃ episodes, rule.matchesArticle Q settings articleData =
        (false, { rule with cachedRegexes := cache, lastComputedEpisodes := episodes })) ∧
      (rule.isDue Q articleData.date &&
        rule.matchesExpressions Q articleData.title rule.cachedRegexes &&
        (rule.matchesSmartEpisodeFilter Q settings articleData.title).isSome) = false) := by
  unfold matchesArticle matchesExpressions
  cases hdue : rule.isDue Q articleData.date with
  | false => exact ⟨rule.cachedRegexes, Or.inr ⟨⟨rule.lastComputedEpisodes, rfl⟩, rfl⟩⟩
  | true =>
    rcases hc : rule.matchesMustContainExpression Q articleData.title rule.cachedRegexes
      with ⟨_ | _, c₁⟩
    · exact ⟨c₁, Or.inr ⟨⟨rule.lastComputedEpisodes, by simp⟩, by simp⟩⟩
    rcases hn : rule.matchesMustNotContainExpression Q articleData.title c₁ with ⟨_ | _, c₂⟩
    · exact ⟨c₂, Or.inr ⟨⟨rule.lastComputedEpisodes, by simp [hn]⟩, by simp [hn]⟩⟩
    rcases he : rule.matchesEpisodeFilterExpression Q articleData.title c₂ with ⟨_ | _, c₃⟩
    · exact ⟨c₃, Or.inr ⟨⟨[], by simp [hn, he]⟩, by simp [hn, he]⟩⟩
    have hsmart : ({ rule with cachedRegexes := c₃, lastComputedEpisodes := [] } :
        AutoDownloadRule E).matchesSmartEpisodeFilter Q settings articleData.title =
        rule.matchesSmartEpisodeFilter Q settings articleData.title := rfl
    cases hs : rule.matchesSmartEpisodeFilter Q settings articleData.title with
    | none => exact ⟨c₃, Or.inr ⟨⟨[], by simp [hn, he, hsmart, hs]⟩, by simp⟩⟩
    | some episodes =>
      exact ⟨c₃, Or.inl ⟨by simp [hn, he, hsmart, hs], rfl, by simp [hn, he], rfl⟩⟩

theorem matchesArticle_fst : (rule.matchesArticle Q settings articleData).1 =
    (rule.isDue Q articleData.date &&
      rule.matchesExpressions Q articleData.title rule.cachedRegexes &&
      (rule.matchesSmartEpisodeFilter Q settings articleData.title).isSome) := by
  obtain ⟨cache, ⟨h, hdue, hexpr, hsmart⟩ | ⟨⟨episodes, h⟩, hno⟩⟩ :=
    @matchesArticle_cases Q _ rule settings articleData
  · rw [h, hdue, hexpr, hsmart]
    rfl
  · rw [h, hno]

theorem accepts_cases :
    ((rule.accepts Q settings articleData).1 = true ∧ rule.isDue Q articleData.date = true ∧
      rule.matchesExpressions Q articleData.title rule.cachedRegexes = true ∧
      ∃ episodes cache,
        rule.matchesSmartEpisodeFilter Q settings articleData.title = some episodes ∧
        (rule.accepts Q settings articleData).2 = { rule with
          lastMatch := articleData.date
          previouslyMatchedEpisodes := rule.previouslyMatchedEpisodes ++ episodes
          lastComputedEpisodes := []
          cachedRegexes := cache }) ∨
    ((rule.accepts Q settings articleData).1 = false ∧ ∃ episodes cache,
      (rule.accepts Q settings articleData).2 =
        { rule with lastComputedEpisodes := episodes, cachedRegexes := cache }) := by
  obtain ⟨cache, ⟨h, hdue, hexpr, hsmart⟩ | ⟨⟨episodes, h⟩, -⟩⟩ :=
    @matchesArticle_cases Q _ rule settings articleData
  · obtain ⟨episodes, he⟩ := Option.isSome_iff_exists.1 hsmart
    refine Or.inl ⟨by rw [accepts, h], hdue, hexpr, episodes, cache, he, ?_⟩
    rw [accepts, h, he]
    rfl
  · exact Or.inr ⟨by rw [accepts, h], episodes, cache, by rw [accepts, h]⟩

end AutoDownloadRule

end Matching

end QBittorrent.Rss
