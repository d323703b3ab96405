import Mathlib.Logic.Equiv.Nat
import QBittorrent.Rss.SmartFilter

/-!
# Rules and their JSON form

The setters of `AutoDownloadRule`, its JSON form with the deprecated members, and what a rule that
is written and read back differs in.

* `Reached.foldl` : what all setters keep;
* `persists_iff` : which rules come back equal and match the same articles.
-/

namespace QBittorrent.Rss

open JsonValue BitTorrent QDateTime List Option

/-- The members of the deprecated form. -/
def toOptionalBool : Option JsonValue → Option Bool
  | some (.bool b) => some b
  | _ => none

def toJsonValue (boolValue : Option Bool) : JsonValue :=
  match boolValue with
  | some b => .bool b
  | none => .null

def jsonValueToContentLayout (jsonVal : Option JsonValue) : Option TorrentContentLayout :=
  let str := toText jsonVal
  if str = "" then none else some (toEnum str .original)

def contentLayoutToJsonValue (contentLayout : Option TorrentContentLayout) : JsonValue :=
  match contentLayout with
  | some l => .string (fromEnum l)
  | none => .null

/-- The parameters of a default-constructed `AddTorrentParams`. -/
def defaultAddTorrentParams {E : Platform} : BitTorrent.AddTorrentParams E where
  name := ""
  category := ""
  tags := .empty
  savePath := E.pathOf ""
  useDownloadPath := none
  downloadPath := E.pathOf ""
  sequential := false
  firstLastPiecePriority := false
  addForced := false
  addToQueueTop := none
  addStopped := none
  stopCondition := none
  filePaths := []
  filePriorities := []
  skipChecking := false
  contentLayout := none
  useAutoTMM := none
  uploadLimit := -1
  downloadLimit := -1
  seedingTimeLimit := useGlobalSeedingTime
  inactiveSeedingTimeLimit := useGlobalInactiveSeedingTime
  ratioLimit := useGlobalRatio
  shareLimitAction := .default
  sslParameters :=
    { certificate := E.certificateOfPem [], privateKey := E.loadPrivateKey [], dhParams := [] }

/-- The list that `setMustContain` and `setMustNotContain` keep. -/
def tokenList (useRegex : Bool) (tokens : String) : List String :=
  let l := if useRegex then [tokens] else splitAt '|' tokens
  -- a single empty text is no condition
  if l = [""] then [] else l

namespace AutoDownloadRule

variable {E : Platform}

/-! ### Setters -/

/-- The constructor. -/
def new (name : String) : AutoDownloadRule E where
  name := name
  enabled := true
  priority := 0
  mustContain := []
  mustNotContain := []
  episodeFilter := ""
  feedURLs := []
  useRegex := false
  ignoreDays := 0
  lastMatch := .invalid
  addTorrentParams := defaultAddTorrentParams
  smartFilter := false
  previouslyMatchedEpisodes := []
  lastComputedEpisodes := []
  cachedRegexes := ∅

variable (rule : AutoDownloadRule E)

def setName (name : String) : AutoDownloadRule E := { rule with name := name }

def setEnabled (enable : Bool) : AutoDownloadRule E := { rule with enabled := enable }

def setPriority (value : Int32) : AutoDownloadRule E := { rule with priority := value }

def setMustContain (tokens : String) : AutoDownloadRule E :=
  { rule with cachedRegexes := ∅, mustContain := tokenList rule.useRegex tokens }

def setMustNotContain (tokens : String) : AutoDownloadRule E :=
  { rule with cachedRegexes := ∅, mustNotContain := tokenList rule.useRegex tokens }

def setFeedURLs (urls : List String) : AutoDownloadRule E := { rule with feedURLs := urls }

def setIgnoreDays (d : Int32) : AutoDownloadRule E := { rule with ignoreDays := d }

def setLastMatch (lastMatch : QDateTime) : AutoDownloadRule E := { rule with lastMatch := lastMatch }

def setUseRegex (enabled : Bool) : AutoDownloadRule E :=
  { rule with useRegex := enabled, cachedRegexes := ∅ }

def setUseSmartFilter (enabled : Bool) : AutoDownloadRule E := { rule with smartFilter := enabled }

def setEpisodeFilter (e : String) : AutoDownloadRule E :=
  { rule with episodeFilter := e, cachedRegexes := ∅ }

def setPreviouslyMatchedEpisodes (episodes : List String) : AutoDownloadRule E :=
  { rule with previouslyMatchedEpisodes := episodes }

def setAddTorrentParams (params : BitTorrent.AddTorrentParams E) : AutoDownloadRule E :=
  { rule with addTorrentParams := params }

/-- A call of a setter. -/
inductive Setter (E : Platform) where
  | name (name : String)
  | enabled (enable : Bool)
  | priority (value : Int32)
  | mustContain (tokens : String)
  | mustNotContain (tokens : String)
  | feedURLs (urls : List String)
  | ignoreDays (d : Int32)
  | lastMatch (lastMatch : QDateTime)
  | useRegex (enabled : Bool)
  | useSmartFilter (enabled : Bool)
  | episodeFilter (e : String)
  | previouslyMatchedEpisodes (episodes : List String)
  | addTorrentParams (params : BitTorrent.AddTorrentParams E)

def Setter.apply (rule : AutoDownloadRule E) : Setter E → AutoDownloadRule E
  | .name n => rule.setName n
  | .enabled e => rule.setEnabled e
  | .priority v => rule.setPriority v
  | .mustContain t => rule.setMustContain t
  | .mustNotContain t => rule.setMustNotContain t
  | .feedURLs u => rule.setFeedURLs u
  | .ignoreDays d => rule.setIgnoreDays d
  | .lastMatch d => rule.setLastMatch d
  | .useRegex e => rule.setUseRegex e
  | .useSmartFilter e => rule.setUseSmartFilter e
  | .episodeFilter e => rule.setEpisodeFilter e
  | .previouslyMatchedEpisodes l => rule.setPreviouslyMatchedEpisodes l
  | .addTorrentParams p => rule.setAddTorrentParams p

/-- The rule after the constructor and a sequence of setters. -/
def built (name : String) (setters : List (Setter E)) : AutoDownloadRule E :=
  setters.foldl Setter.apply (new name)

/-! ### The JSON form -/

variable (Q : Qt)

/-- `AutoDownloadRule::toJsonObject`. -/
def toJsonObject : JsonObject :=
  [("enabled", .bool rule.enabled),
    ("priority", .ofInt32 rule.priority),
    ("useRegex", .bool rule.useRegex),
    ("mustContain", .string (joinWith '|' rule.mustContain)),
    ("mustNotContain", .string (joinWith '|' rule.mustNotContain)),
    ("episodeFilter", .string rule.episodeFilter),
    ("affectedFeeds", .ofStringList rule.feedURLs),
    ("lastMatch", .string (rule.lastMatch.toRfc2822 Q)),
    ("ignoreDays", .ofInt32 rule.ignoreDays),
    ("smartFilter", .bool rule.smartFilter),
    ("previouslyMatchedEpisodes", .ofStringList rule.previouslyMatchedEpisodes),
    ("addPaused", toJsonValue rule.addTorrentParams.addStopped),
    ("torrentContentLayout", contentLayoutToJsonValue rule.addTorrentParams.contentLayout),
    ("savePath", .string (E.toString rule.addTorrentParams.savePath)),
    ("assignedCategory", .string rule.addTorrentParams.category),
    ("torrentParams", .object rule.addTorrentParams.serialize)]

def stringOrList (v : Option JsonValue) : List String :=
  match v with
  | some (.string s) => [s]
  | v => texts (toArray v)

/-- The parameters of a rule, from the members of the deprecated form where the new one is not
there. -/
def paramsOfJsonObject (jsonObj : JsonObject) : BitTorrent.AddTorrentParams E :=
  match jsonObj.value "torrentParams" with
  | some v => .parse (toObject (some v))
  | none =>
    let savePath := E.pathOf (toText (jsonObj.value "savePath"))
    { defaultAddTorrentParams with
      savePath := savePath
      category := toText (jsonObj.value "assignedCategory")
      addStopped := toOptionalBool (jsonObj.value "addPaused")
      useAutoTMM := if E.isEmpty savePath then none else some false
      contentLayout :=
        match jsonObj.value "torrentContentLayout" with
        | some v => jsonValueToContentLayout (some v)
        | none => (toOptionalBool (jsonObj.value "createSubfolder")).map fun createSubfolder =>
          if createSubfolder then TorrentContentLayout.original else .noSubfolder }

def fromJsonObject (jsonObj : JsonObject) (name : String) : AutoDownloadRule E :=
  (new (if name = "" then toText (jsonObj.value "name") else name)
    |>.setEnabled (JsonValue.toBool true (jsonObj.value "enabled"))
    |>.setPriority (toInt 0 (jsonObj.value "priority"))
    |>.setUseRegex (JsonValue.toBool false (jsonObj.value "useRegex"))
    |>.setMustContain (toText (jsonObj.value "mustContain"))
    |>.setMustNotContain (toText (jsonObj.value "mustNotContain"))
    |>.setEpisodeFilter (toText (jsonObj.value "episodeFilter"))
    |>.setLastMatch (.fromRfc2822 Q (toText (jsonObj.value "lastMatch")))
    |>.setIgnoreDays (toInt 0 (jsonObj.value "ignoreDays"))
    |>.setUseSmartFilter (JsonValue.toBool false (jsonObj.value "smartFilter"))
    |>.setFeedURLs (stringOrList (jsonObj.value "affectedFeeds"))
    |>.setPreviouslyMatchedEpisodes (stringOrList (jsonObj.value "previouslyMatchedEpisodes"))
    |>.setAddTorrentParams (paramsOfJsonObject jsonObj))

/-- The rule that is read back from the JSON form of a rule. -/
def reloaded : AutoDownloadRule E := fromJsonObject Q (rule.toJsonObject Q) rule.name

/-- `operator==`: all fields but the matched episodes; dates are equal that are the same moment. -/
structure Equal (left right : AutoDownloadRule E) : Prop where
  name : left.name = right.name
  enabled : left.enabled = right.enabled
  priority : left.priority = right.priority
  mustContain : left.mustContain = right.mustContain
  mustNotContain : left.mustNotContain = right.mustNotContain
  episodeFilter : left.episodeFilter = right.episodeFilter
  feedURLs : left.feedURLs = right.feedURLs
  useRegex : left.useRegex = right.useRegex
  ignoreDays : left.ignoreDays = right.ignoreDays
  lastMatch : left.lastMatch.Same Q right.lastMatch
  smartFilter : left.smartFilter = right.smartFilter
  addTorrentParams : left.addTorrentParams = right.addTorrentParams

/-- The rule read back is equal and matches the same articles under the same settings. -/
structure Persists : Prop where
  equal : (rule.reloaded Q).Equal Q rule
  matchesArticle : ∀ settings articleData,
    ((rule.reloaded Q).matchesArticle Q settings articleData).1 =
      (rule.matchesArticle Q settings articleData).1

/-! ### What survives -/

variable {Q} {rule}

theorem tokenList_ne (useRegex : Bool) (tokens : String) : tokenList useRegex tokens ≠ [""] := by
  unfold tokenList
  generalize (if useRegex = true then [tokens] else splitAt '|' tokens) = l
  intro h
  by_cases hl : l = [""]
  · simp [hl] at h
  · exact hl (by rwa [if_neg hl] at h)

/-- What every sequence of setters keeps. -/
structure Reached (rule : AutoDownloadRule E) : Prop where
  mustContain : rule.mustContain ≠ [""]
  mustNotContain : rule.mustNotContain ≠ [""]
  lastComputedEpisodes : rule.lastComputedEpisodes = []
  cachedRegexes : rule.cachedRegexes = ∅

theorem Setter.apply_reached (h : rule.Reached) (setter : Setter E) :
    (setter.apply rule).Reached := by
  obtain ⟨h₁, h₂, h₃, h₄⟩ := h
  cases setter with
  | mustContain t => exact ⟨tokenList_ne _ _, h₂, h₃, rfl⟩
  | mustNotContain t => exact ⟨h₁, tokenList_ne _ _, h₃, rfl⟩
  | useRegex e => exact ⟨h₁, h₂, h₃, rfl⟩
  | episodeFilter e => exact ⟨h₁, h₂, h₃, rfl⟩
  | _ => exact ⟨h₁, h₂, h₃, h₄⟩

theorem Reached.foldl (h : rule.Reached) (setters : List (Setter E)) :
    (setters.foldl Setter.apply rule).Reached := by
  induction setters generalizing rule with
  | nil => exact h
  | cons setter setters ih => exact ih (setter.apply_reached h)

theorem built_reached (name : String) (setters : List (Setter E)) : (built name setters).Reached :=
  Reached.foldl ⟨by simp [new], by simp [new], rfl, rfl⟩ setters

@[simp] theorem stringOrList_ofStringList (l : List String) :
    stringOrList (some (.ofStringList l)) = l := texts_toArray_ofStringList l

theorem reloaded_eq (hE : KeepsTexts E) : rule.reloaded Q = { rule with
    mustContain := tokenList rule.useRegex (joinWith '|' rule.mustContain)
    mustNotContain := tokenList rule.useRegex (joinWith '|' rule.mustNotContain)
    lastMatch := .fromRfc2822 Q (rule.lastMatch.toRfc2822 Q)
    addTorrentParams := rule.addTorrentParams.written
    lastComputedEpisodes := []
    cachedRegexes := ∅ } := by
  have hname : (if rule.name = "" then toText ((rule.toJsonObject Q).value "name") else rule.name) =
      rule.name := by
    split_ifs with h
    · rw [h]
      simp [toJsonObject, JsonObject.value_cons_ne, toText]
    · rfl
  have hparams : (paramsOfJsonObject (rule.toJsonObject Q) : BitTorrent.AddTorrentParams E) =
      rule.addTorrentParams.written := by
    have hv : (rule.toJsonObject Q).value "torrentParams" =
        some (.object rule.addTorrentParams.serialize) := by
      simp [toJsonObject, JsonObject.value_cons_ne, JsonObject.value_cons_self]
    exact BitTorrent.AddTorrentParams.parse_serialize hE _
  rw [reloaded, fromJsonObject, hname, hparams]
  simp [toJsonObject, JsonObject.value_cons_ne, JsonObject.value_cons_self, new, setEnabled,
    setPriority, setUseRegex, setMustContain, setMustNotContain, setEpisodeFilter, setLastMatch,
    setIgnoreDays, setUseSmartFilter, setFeedURLs, setPreviouslyMatchedEpisodes,
    setAddTorrentParams, toText, JsonValue.toBool]

end AutoDownloadRule

/-- Expressions that a rule keeps as they are when its text is set again. -/
def KeptTokens (useRegex : Bool) (l : List String) : Prop :=
  if useRegex then l.length ≤ 1 else ∀ t ∈ l, '|' ∉ t.toList

variable {l : List String}

theorem splitAt_joinWith {sep : Char} (hne : l ≠ []) (h : ∀ t ∈ l, sep ∉ t.toList) :
    splitAt sep (joinWith sep l) = l := by
  rw [splitAt, joinWith, String.toList_ofList, splitOn_intercalate]
  · simp [Function.comp_def]
  · intro t' ht'
    obtain ⟨t, ht, rfl⟩ := mem_map.1 ht'
    exact h t ht
  · simpa using hne

@[simp] theorem joinWith_nil (sep : Char) : joinWith sep [] = "" := by simp [joinWith]

@[simp] theorem joinWith_singleton (sep : Char) (t : String) : joinWith sep [t] = t := by
  simp [joinWith]

theorem tokenList_joinWith_iff {useRegex : Bool} (hl : l ≠ [""]) :
    tokenList useRegex (joinWith '|' l) = l ↔ KeptTokens useRegex l := by
  cases l with
  | nil => cases useRegex <;> simp [tokenList, KeptTokens, splitAt]
  | cons t ts =>
    cases useRegex with
    | true =>
      have hlist : tokenList true (joinWith '|' (t :: ts)) = t :: ts ↔ ts = [] := by
        constructor
        · intro h
          have hlen := congrArg length h
          by_cases he : joinWith '|' (t :: ts) = ""
          · simp [tokenList, he] at hlen
          · simpa [tokenList, he, eq_comm] using hlen
        · rintro rfl
          have ht : t ≠ "" := fun h => hl (by rw [h])
          simp [tokenList, ht]
      simp [hlist, KeptTokens]
    | false =>
      constructor
      · intro h t' ht'
        have hsplit : t' ∈ splitAt '|' (joinWith '|' (t :: ts)) := by
          rw [← h] at ht'
          simp only [tokenList, Bool.false_eq_true, if_false] at ht'
          split_ifs at ht' with he
          · exact (not_mem_nil ht').elim
          · exact ht'
        obtain ⟨cs, hcs, rfl⟩ := mem_map.1 hsplit
        simpa using notMem_of_mem_splitOn hcs
      · intro h
        have hk : ∀ t' ∈ t :: ts, '|' ∉ t'.toList := by simpa [KeptTokens] using h
        simp only [tokenList, Bool.false_eq_true, if_false, splitAt_joinWith (by simp) hk, if_neg hl]

/-! ### Dates -/

/-- Seconds since 1970 of the years 1 to 9999. -/
def FourDigitYear (seconds : ℤ) : Prop := -62135596800 ≤ seconds ∧ seconds < 253402300800
  deriving Decidable

/-- What is assumed of RFC 2822 texts: those with a year of four digits are read back, others and the
empty text are no dates. -/
structure Qt.Faithful (Q : Qt) : Prop where
  parse_text : ∀ seconds minutes : ℤ, FourDigitYear seconds → minutes.natAbs ≤ 960 →
    Q.parseRfc2822 (Q.rfc2822Text seconds minutes) = some (seconds, minutes)
  parse_long : ∀ seconds minutes : ℤ, ¬ FourDigitYear seconds →
    Q.parseRfc2822 (Q.rfc2822Text seconds minutes) = none
  parse_empty : Q.parseRfc2822 "" = none

namespace QDateTime

variable {Q : Qt}

/-- A date that its RFC 2822 text can hold: whole seconds, a year of four digits, and a clock that
is whole minutes ahead of UTC. -/
def Writable (Q : Qt) : QDateTime → Prop
  | invalid => True
  | valid wall spec =>
    1000 ∣ wall ∧ FourDigitYear (wall / 1000) ∧ 60 ∣ (offsetFromUtc Q wall spec).seconds

theorem fromRfc2822_toRfc2822 (hQ : Q.Faithful) {wall : ℤ} (spec : TimeSpec)
    (hyear : FourDigitYear (wall / 1000)) :
    ∃ offset : UtcOffset,
      offset.seconds = (offsetFromUtc Q wall spec).seconds.tdiv 60 * 60 ∧
      fromRfc2822 Q ((valid wall spec).toRfc2822 Q) =
        valid (wall / 1000 * 1000) (.offsetFromUtc offset) := by
  have hrange := (offsetFromUtc Q wall spec).range
  have hm : ((offsetFromUtc Q wall spec).seconds.tdiv 60).natAbs ≤ 960 := by
    rw [Int.natAbs_tdiv]
    exact Nat.div_le_of_le_mul hrange
  have hs : ((offsetFromUtc Q wall spec).seconds.tdiv 60 * 60).natAbs ≤ 57600 := by omega
  refine ⟨⟨_, hs⟩, rfl, ?_⟩
  simp only [toRfc2822, fromRfc2822, hQ.parse_text _ _ hyear hm, dif_pos hs]

theorem same_fromRfc2822_iff (hQ : Q.Faithful) (d : QDateTime) :
    (fromRfc2822 Q (d.toRfc2822 Q)).Same Q d ↔ d.Writable Q := by
  cases d with
  | invalid => simp [toRfc2822, fromRfc2822, hQ.parse_empty, Same, Writable]
  | valid wall spec =>
    by_cases hyear : FourDigitYear (wall / 1000)
    · obtain ⟨offset, ho, hd⟩ := fromRfc2822_toRfc2822 hQ spec hyear
      rw [hd]
      simp only [Same, instant, Writable, some.injEq, hyear, true_and]
      change wall / 1000 * 1000 - offset.seconds * 1000 = _ ↔ _
      rw [ho]
      generalize (offsetFromUtc Q wall spec).seconds = o
      have hmod := Int.tmod_add_mul_tdiv o 60
      have hdvd : 60 ∣ o ↔ o.tmod 60 = 0 := Int.dvd_iff_tmod_eq_zero
      omega
    · have hnone : fromRfc2822 Q ((valid wall spec).toRfc2822 Q) = invalid := by
        simp only [toRfc2822, fromRfc2822, hQ.parse_long _ _ hyear]
      simp [hnone, Same, instant, Writable, hyear]

/-- The same moment on a clock with a fixed offset. -/
def onFixedClock (Q : Qt) : QDateTime → QDateTime
  | invalid => invalid
  | valid wall spec => valid wall (.offsetFromUtc (offsetFromUtc Q wall spec))

theorem fromRfc2822_of_writable (hQ : Q.Faithful) {d : QDateTime} (h : d.Writable Q) :
    fromRfc2822 Q (d.toRfc2822 Q) = d.onFixedClock Q := by
  cases d with
  | invalid => simp [toRfc2822, fromRfc2822, hQ.parse_empty, onFixedClock]
  | valid wall spec =>
    obtain ⟨hs, hyear, ho⟩ := h
    obtain ⟨offset, ho', hd⟩ := fromRfc2822_toRfc2822 hQ spec hyear
    have hoff : offset = offsetFromUtc Q wall spec := by
      have : offset.seconds = (offsetFromUtc Q wall spec).seconds := by
        rw [ho', Int.tdiv_mul_cancel ho]
      cases offset
      cases h : offsetFromUtc Q wall spec
      simp_all
    rw [hd, hoff, Int.ediv_mul_cancel hs]
    rfl

end QDateTime

namespace AutoDownloadRule

variable {E : Platform} {Q : Qt} {rule : AutoDownloadRule E}

/-- Some title gets through the filters of a rule. -/
def MatchesSomeTitle (Q : Qt) (rule : AutoDownloadRule E) : Prop :=
  ∃ settings title, rule.matchesExpressions Q title rule.cachedRegexes = true ∧
    (rule.matchesSmartEpisodeFilter Q settings title).isSome = true

/-- The rules that the JSON form can hold: expressions that suit the kind of expression now chosen,
a last match that its text can hold and, if it is on local time, no change of the clock at the end
of the days to ignore, and parameters of which all is written. -/
structure Storable (Q : Qt) (rule : AutoDownloadRule E) : Prop where
  mustContain : KeptTokens rule.useRegex rule.mustContain
  mustNotContain : KeptTokens rule.useRegex rule.mustNotContain
  lastMatch : rule.lastMatch.Writable Q
  addTorrentParams : rule.addTorrentParams.Writable
  sameClock : 0 < rule.ignoreDays → rule.MatchesSomeTitle Q → ∀ wall,
    rule.lastMatch = .valid wall .localTime →
    Q.localOffset (wall + rule.ignoreDays.toInt * 86400000) = Q.localOffset wall

theorem reloaded_eq_of_kept (hE : KeepsTexts E) (hr : rule.Reached)
    (hc : KeptTokens rule.useRegex rule.mustContain)
    (hn : KeptTokens rule.useRegex rule.mustNotContain) (hp : rule.addTorrentParams.Writable) :
    rule.reloaded Q =
      { rule with lastMatch := .fromRfc2822 Q (rule.lastMatch.toRfc2822 Q) } := by
  rw [reloaded_eq hE, (tokenList_joinWith_iff hr.mustContain).2 hc,
    (tokenList_joinWith_iff hr.mustNotContain).2 hn,
    BitTorrent.AddTorrentParams.written_eq_iff.2 hp, ← hr.lastComputedEpisodes,
    ← hr.cachedRegexes]

theorem reloaded_equal_iff (hE : KeepsTexts E) (hQ : Q.Faithful) (hr : rule.Reached) :
    (rule.reloaded Q).Equal Q rule ↔ KeptTokens rule.useRegex rule.mustContain ∧
      KeptTokens rule.useRegex rule.mustNotContain ∧ rule.lastMatch.Writable Q ∧
      rule.addTorrentParams.Writable := by
  rw [← tokenList_joinWith_iff hr.mustContain, ← tokenList_joinWith_iff hr.mustNotContain,
    ← same_fromRfc2822_iff hQ, ← BitTorrent.AddTorrentParams.written_eq_iff,
    reloaded_eq hE]
  constructor
  · rintro ⟨-, -, -, hc, hn, -, -, -, -, hd, -, hp⟩
    exact ⟨hc, hn, hd, hp⟩
  · rintro ⟨hc, hn, hd, hp⟩
    exact ⟨rfl, rfl, rfl, hc, hn, rfl, rfl, rfl, rfl, hd, rfl, hp⟩

/-- The moment from which a rule is due again. -/
def dueFrom (Q : Qt) (rule : AutoDownloadRule E) : Option ℤ :=
  if 0 < rule.ignoreDays then (rule.lastMatch.addDays rule.ignoreDays.toInt).instant Q else none

theorem isDue_eq (d : QDateTime) : rule.isDue Q d = true ↔
    ∀ t, rule.dueFrom Q = some t → ∃ t', d.instant Q = some t' ∧ t ≤ t' := by
  unfold isDue dueFrom
  by_cases hdays : 0 < rule.ignoreDays
  · cases hlast : rule.lastMatch with
    | invalid => simp [hdays, QDateTime.isValid, addDays, instant]
    | valid wall spec =>
      cases d with
      | invalid => simp [hdays, QDateTime.isValid, addDays, instant,
          QDateTime.lt]
      | valid wall' spec' => simp [hdays, QDateTime.isValid, addDays, instant,
          QDateTime.lt]
  · simp [hdays]

theorem dueFrom_eq_of_matches {d : QDateTime} (ht : rule.MatchesSomeTitle Q)
    (h : ∀ settings articleData,
      ({ rule with lastMatch := d }.matchesArticle Q settings articleData).1 =
        (rule.matchesArticle Q settings articleData).1)
    (hvalid : ({ rule with lastMatch := d }.dueFrom Q).isSome = (rule.dueFrom Q).isSome) :
    { rule with lastMatch := d }.dueFrom Q = rule.dueFrom Q := by
  obtain ⟨settings, title, hexpr, hsmart⟩ := ht
  have hdue (date : QDateTime) : { rule with lastMatch := d }.isDue Q date = true ↔
      rule.isDue Q date = true := by
    have heq := h settings ⟨title, date⟩
    rw [matchesArticle_fst, matchesArticle_fst] at heq
    change (_ && rule.matchesExpressions Q title rule.cachedRegexes &&
      (rule.matchesSmartEpisodeFilter Q settings title).isSome) = _ at heq
    simp only [hexpr, hsmart, Bool.and_true] at heq
    rw [heq]
  -- an article of exactly one of the two moments is due for both rules
  have hat (t : ℤ) : (QDateTime.valid t (.offsetFromUtc .utc)).instant Q = some t := by
    simp [instant, QDateTime.offsetFromUtc, UtcOffset.utc]
  cases h₁ : { rule with lastMatch := d }.dueFrom Q with
  | none =>
    rw [h₁] at hvalid
    exact (isSome_eq_false_iff.1 hvalid.symm |> isNone_iff_eq_none.1).symm
  | some t₁ =>
    rw [h₁] at hvalid
    obtain ⟨t₂, h₂⟩ := isSome_iff_exists.1 hvalid.symm
    have hiff (t : ℤ) : t₁ ≤ t ↔ t₂ ≤ t := by
      have := hdue (.valid t (.offsetFromUtc .utc))
      rw [isDue_eq, isDue_eq, h₁, h₂] at this
      simpa [hat] using this
    rw [h₂, le_antisymm ((hiff t₂).2 le_rfl) ((hiff t₁).1 le_rfl)]

theorem dueFrom_reloaded_iff (hQ : Q.Faithful) (hd : rule.lastMatch.Writable Q) :
    { rule with lastMatch := .fromRfc2822 Q (rule.lastMatch.toRfc2822 Q) }.dueFrom Q =
        rule.dueFrom Q ↔
      (0 < rule.ignoreDays → ∀ wall, rule.lastMatch = .valid wall .localTime →
        Q.localOffset (wall + rule.ignoreDays.toInt * 86400000) = Q.localOffset wall) := by
  unfold dueFrom
  rw [fromRfc2822_of_writable hQ hd]
  by_cases hdays : 0 < rule.ignoreDays
  · simp only [if_pos hdays]
    cases rule.lastMatch with
    | invalid => simp [onFixedClock]
    | valid wall spec =>
      cases spec with
      | offsetFromUtc offset =>
        simp [onFixedClock, addDays, instant, QDateTime.offsetFromUtc]
      | localTime =>
        have hinj (a b : UtcOffset) : a.seconds = b.seconds ↔ a = b := by
          cases a
          cases b
          simp
        simp only [onFixedClock, addDays, instant,
          QDateTime.offsetFromUtc, some.injEq, ← hinj]
        constructor
        · rintro h _ _ ⟨⟩
          omega
        · intro h
          have := h hdays wall rfl
          omega
  · simp [hdays]

theorem Reached.storable_iff (hE : KeepsTexts E) (hQ : Q.Faithful) (hr : rule.Reached) :
    rule.Persists Q ↔ rule.Storable Q := by
  constructor
  · rintro ⟨hequal, hmatch⟩
    obtain ⟨hc, hn, hd, hp⟩ := (reloaded_equal_iff hE hQ hr).1 hequal
    refine ⟨hc, hn, hd, hp, fun hdays ht => ?_⟩
    rw [reloaded_eq_of_kept hE hr hc hn hp] at hmatch
    refine (dueFrom_reloaded_iff hQ hd).1 (dueFrom_eq_of_matches ht hmatch ?_) hdays
    unfold dueFrom
    simp only [if_pos hdays, QDateTime.fromRfc2822_of_writable hQ hd]
    cases rule.lastMatch <;> rfl
  · rintro ⟨hc, hn, hd, hp, hclock⟩
    refine ⟨(reloaded_equal_iff hE hQ hr).2 ⟨hc, hn, hd, hp⟩, fun settings articleData => ?_⟩
    rw [reloaded_eq_of_kept hE hr hc hn hp, matchesArticle_fst, matchesArticle_fst]
    change (_ && rule.matchesExpressions Q articleData.title rule.cachedRegexes &&
      (rule.matchesSmartEpisodeFilter Q settings articleData.title).isSome) = _
    by_cases ht : rule.MatchesSomeTitle Q
    · have hdue : { rule with lastMatch :=
          QDateTime.fromRfc2822 Q (rule.lastMatch.toRfc2822 Q) }.isDue Q articleData.date =
          rule.isDue Q articleData.date := by
        rw [Bool.eq_iff_iff, isDue_eq, isDue_eq,
          (dueFrom_reloaded_iff hQ hd).2 fun hdays => hclock hdays ht]
      rw [hdue]
    · have hno : (rule.matchesExpressions Q articleData.title rule.cachedRegexes &&
          (rule.matchesSmartEpisodeFilter Q settings articleData.title).isSome) = false := by
        rw [Bool.eq_false_iff]
        intro hyes
        exact ht ⟨settings, articleData.title, Bool.and_eq_true_iff.1 hyes⟩
      rw [Bool.and_assoc, hno, Bool.and_assoc, hno, Bool.and_false, Bool.and_false]

/-- The getters give the same of all that matching depends on; those of the expressions give one
text. -/
structure SameFields (left right : AutoDownloadRule E) : Prop where
  useRegex : left.useRegex = right.useRegex
  mustContain : joinWith '|' left.mustContain = joinWith '|' right.mustContain
  mustNotContain : joinWith '|' left.mustNotContain = joinWith '|' right.mustNotContain
  episodeFilter : left.episodeFilter = right.episodeFilter
  ignoreDays : left.ignoreDays = right.ignoreDays
  lastMatch : left.lastMatch = right.lastMatch
  smartFilter : left.smartFilter = right.smartFilter
  previouslyMatchedEpisodes : left.previouslyMatchedEpisodes = right.previouslyMatchedEpisodes

theorem KeptTokens.eq_of_joinWith {useRegex : Bool} {l m : List String} (hl : l ≠ [""])
    (hm : m ≠ [""]) (hkl : KeptTokens useRegex l) (hkm : KeptTokens useRegex m)
    (h : joinWith '|' l = joinWith '|' m) : l = m := by
  rw [← (tokenList_joinWith_iff hl).2 hkl, h, (tokenList_joinWith_iff hm).2 hkm]

/-- Rules whose expressions suit `useRegex` match by their visible fields. -/
theorem SameFields.matchesArticle {left right : AutoDownloadRule E} (h : SameFields left right)
    (hl : left.Reached) (hr : right.Reached) (hsl : left.Storable Q) (hsr : right.Storable Q)
    (settings : Settings) (articleData : ArticleData) :
    (left.matchesArticle Q settings articleData).1 =
      (right.matchesArticle Q settings articleData).1 := by
  have hc : left.mustContain = right.mustContain :=
    KeptTokens.eq_of_joinWith hl.mustContain hr.mustContain hsl.mustContain
      (h.useRegex ▸ hsr.mustContain) h.mustContain
  have hn : left.mustNotContain = right.mustNotContain :=
    KeptTokens.eq_of_joinWith hl.mustNotContain hr.mustNotContain hsl.mustNotContain
      (h.useRegex ▸ hsr.mustNotContain) h.mustNotContain
  have hcache : left.cachedRegexes = right.cachedRegexes := hl.cachedRegexes.trans hr.cachedRegexes.symm
  have hlast := hl.lastComputedEpisodes.trans hr.lastComputedEpisodes.symm
  have heq : left = { right with
      name := left.name, enabled := left.enabled, priority := left.priority
      feedURLs := left.feedURLs, addTorrentParams := left.addTorrentParams } := by
    obtain ⟨hregex, -, -, hfilter, hdays, hmatch, hsmart, hepisodes⟩ := h
    cases left
    cases right
    subst hregex hfilter hdays hmatch hsmart hepisodes hc hn hcache hlast
    rfl
  rw [matchesArticle_fst, matchesArticle_fst, heq]
  rfl

/-- **Exactly which rules persist.**  For every rule that setters can build: the rule read back from
its JSON form is equal and matches the same articles under the same settings, if and only if its
expressions suit `useRegex`, its last match is one that its text can hold, and its parameters have
nothing that is not written.  And two such rules with the same visible fields match the same
articles, in whatever order the fields were set. -/
theorem persists_iff (hE : KeepsTexts E) (hQ : Q.Faithful) (name : String)
    (setters : List (Setter E)) :
    ((built name setters).Persists Q ↔ (built name setters).Storable Q) ∧
    ∀ name' (setters' : List (Setter E)), (built name setters).Storable Q →
      (built name' setters').Storable Q → SameFields (built name setters) (built name' setters') →
      ∀ settings articleData, ((built name setters).matchesArticle Q settings articleData).1 =
        ((built name' setters').matchesArticle Q settings articleData).1 :=
  ⟨(built_reached name setters).storable_iff hE hQ, fun name' setters' hs hs' h =>
    h.matchesArticle (built_reached name setters) (built_reached name' setters') hs hs'⟩

end AutoDownloadRule

/-! ### Rules with two expressions -/

/-- The text of the first second of 1970, UTC. -/
def epochText : String := "01 Jan 1970 00:00:00 +0000"

/-- `Qt.plain` with the text of one date; the texts of others are numbers in unary. -/
def Qt.dated : Qt :=
  { Qt.plain with
    rfc2822Text := fun seconds minutes =>
      if seconds = 0 ∧ minutes = 0 then epochText
      else String.ofList (List.replicate
        (Nat.pair (Equiv.intEquivNat seconds) (Equiv.intEquivNat minutes) + 1) 'x')
    parseRfc2822 := fun text =>
      if text = epochText then some (0, 0)
      else match text.toList.length with
        | 0 => none
        | n + 1 =>
          let seconds := Equiv.intEquivNat.symm n.unpair.1
          if FourDigitYear seconds then some (seconds, Equiv.intEquivNat.symm n.unpair.2)
          else none }

theorem Qt.dated_parse {seconds minutes : ℤ} (h : ¬ (seconds = 0 ∧ minutes = 0)) :
    Qt.dated.parseRfc2822 (Qt.dated.rfc2822Text seconds minutes) =
      if FourDigitYear seconds then some (seconds, minutes) else none := by
  have hne (n : ℕ) : String.ofList (replicate (n + 1) 'x') ≠ epochText := by
    intro he
    have := congrArg String.toList he
    rw [String.toList_ofList, replicate_succ] at this
    have hx : ('x' : Char) = '0' := congrArg (fun l => l.headD 'x') this
    exact absurd hx (by decide)
  simp [Qt.dated, h, hne]

theorem Qt.dated_faithful : Qt.dated.Faithful where
  parse_text seconds minutes hyear _ := by
    by_cases h : seconds = 0 ∧ minutes = 0
    · rw [h.1, h.2]
      rfl
    · rw [Qt.dated_parse h, if_pos hyear]
  parse_long seconds minutes hyear := by
    have h : ¬ (seconds = 0 ∧ minutes = 0) := by
      rintro ⟨rfl, -⟩
      exact hyear (by decide)
    rw [Qt.dated_parse h, if_neg hyear]
  parse_empty := by decide

theorem keepsTexts_plain : KeepsTexts Platform.plain := ⟨fun _ => rfl, fun _ => rfl, fun _ => rfl⟩

namespace AutoDownloadRule

def twoWords : List (Setter Platform.plain) :=
  [.mustContain "a|b", .lastMatch (.valid 0 (.offsetFromUtc .utc)), .ignoreDays 1]

theorem storable_twoWords {rule : AutoDownloadRule Platform.plain}
    (h : rule = built "rule" twoWords) : rule.Storable Qt.dated := by
  subst h
  refine ⟨?_, ?_, ?_, ⟨rfl, rfl, rfl, rfl, rfl⟩, fun _ _ wall h => nomatch h⟩
  · change ∀ t ∈ ["a", "b"], '|' ∉ t.toList
    decide
  · change ∀ t ∈ ([] : List String), '|' ∉ t.toList
    decide
  · exact ⟨by decide, by decide, by decide⟩

theorem persists_iff_twoWords : (built "rule" twoWords).Persists Qt.dated ∧
    ∀ settings articleData, ((built "rule" twoWords).matchesArticle Qt.dated settings articleData).1 =
      ((built "rule" twoWords.reverse).matchesArticle Qt.dated settings articleData).1 := by
  have h := persists_iff keepsTexts_plain Qt.dated_faithful "rule" twoWords
  exact ⟨h.1.2 (storable_twoWords rfl), h.2 "rule" twoWords.reverse (storable_twoWords rfl)
    (storable_twoWords rfl) ⟨rfl, rfl, rfl, rfl, rfl, rfl, rfl, rfl⟩⟩

/-- An expression that was set while it was a regular expression. -/
def staleWords : List (Setter Platform.plain) :=
  [.useRegex true, .mustContain "a|b", .useRegex false]

/-- The rule looks for the text `a|b`, the rule read back for one of the texts `a` and `b`. -/
theorem staleWords_change : ¬ (built "rule" staleWords).Persists Qt.dated ∧
    ((built "rule" staleWords).matchesArticle Qt.dated ⟨"", true⟩ ⟨"a", .invalid⟩).1 = false ∧
    (((built "rule" staleWords).reloaded Qt.dated).matchesArticle Qt.dated ⟨"", true⟩
      ⟨"a", .invalid⟩).1 = true := by
  have hold : ((built "rule" staleWords).matchesArticle Qt.dated ⟨"", true⟩
      ⟨"a", .invalid⟩).1 = false := by
    decide
  have hnew : (((built "rule" staleWords).reloaded Qt.dated).matchesArticle Qt.dated ⟨"", true⟩
      ⟨"a", .invalid⟩).1 = true := by
    decide
  refine ⟨fun h => ?_, hold, hnew⟩
  have := h.matchesArticle ⟨"", true⟩ ⟨"a", .invalid⟩
  exact Bool.noConfusion this

end AutoDownloadRule

end QBittorrent.Rss
