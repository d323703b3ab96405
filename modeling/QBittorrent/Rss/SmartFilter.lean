import QBittorrent.Lib.Machine
import QBittorrent.Rss.AutoDownloadRule
import QBittorrent.Resume.RoundTrip

/-!
# The smart episode filter over a history of articles

One rule with the smart filter on is offered articles, while the settings of the downloader and
everything in the rule but its list of matched episodes may be edited in between.

* `RuleHistory.distinct_accepted`: no two accepted articles have the same episode and markers
* `RuleHistory.distinct_of_repacks_disabled`: nor the same episode, while repacks are disabled
-/

namespace QBittorrent.Rss

open AutoDownloadRule List

variable {E : Platform} (Q : Qt)

structure Offer where
  settings : Settings
  article : ArticleData
  deriving DecidableEq

namespace Offer

def episode (o : Offer) : String := computeEpisodeName Q o.settings o.article.title

/-- Whether the title has `REPACK`, and whether it has `PROPER`. -/
def markers (o : Offer) : Bool × Bool :=
  (AutoDownloadRule.isRepack Q o.article.title, AutoDownloadRule.isProper Q o.article.title)

/-- The name of the episode with the markers of the article. -/
def fullEpisode (o : Offer) : String :=
  AutoDownloadRule.fullEpisodeStr (o.episode Q) (o.markers Q).1 (o.markers Q).2

end Offer

/-- A rule, and the articles that it has accepted so far. -/
structure RuleHistory (E : Platform) where
  rule : AutoDownloadRule E
  accepted : List Offer

inductive RuleEvent (E : Platform) where
  /-- The downloader asks the rule to accept an article. -/
  | offer (o : Offer)
  /-- The rule is replaced by an edited one. -/
  | edit (rule : AutoDownloadRule E)

namespace RuleHistory

/-- One event.  Edits keep the smart filter on and the list of matched episodes. -/
def next (h : RuleHistory E) : RuleEvent E → Option (RuleHistory E)
  | .offer o =>
    let r := h.rule.accepts Q o.settings o.article
    some ⟨r.2, if r.1 then h.accepted ++ [o] else h.accepted⟩
  | .edit rule =>
    if rule.smartFilter = true ∧
        rule.previouslyMatchedEpisodes = h.rule.previouslyMatchedEpisodes then
      some { h with rule := rule }
    else none

/-- The histories of a rule. -/
def machine (E : Platform) : Machine (RuleHistory E) (RuleEvent E) where
  step h e := h.next Q e

/-- The first article of an episode that gets through the other filters has no markers. -/
def FirstIsPlain (h : RuleHistory E) : RuleEvent E → Prop
  | .offer o =>
    h.rule.isDue Q o.article.date = true →
    h.rule.matchesExpressions Q o.article.title h.rule.cachedRegexes = true →
    o.episode Q ≠ "" → o.episode Q ∉ h.rule.previouslyMatchedEpisodes →
    o.markers Q = (false, false)
  | .edit _ => True

instance (h : RuleHistory E) : ∀ e, Decidable (h.FirstIsPlain Q e) := fun e => by
  cases e <;> unfold FirstIsPlain <;> infer_instance

/-- No two accepted articles have the same episode and markers; an article of an episode accepted
before was accepted with repacks enabled. -/
def Distinct (h : RuleHistory E) : Prop :=
  h.accepted.Pairwise fun o o' => o.episode Q ≠ "" → o.episode Q = o'.episode Q →
    o.markers Q ≠ o'.markers Q ∧ o'.settings.downloadRepacks = true

end RuleHistory

/-! ### What is remembered -/

/-- The list of matched episodes has the episode of an accepted article, and its markers. -/
def Remembers (episodes : List String) (o : Offer) : Prop :=
  o.episode Q ≠ "" →
    o.episode Q ∈ episodes ∧ (o.markers Q ≠ (false, false) → o.fullEpisode Q ∈ episodes)

variable {Q} {rule : AutoDownloadRule E} {o o' : Offer} {episodes : List String}

theorem Remembers.append (h : Remembers Q episodes o) (l : List String) :
    Remembers Q (episodes ++ l) o := fun he =>
  ⟨mem_append_left _ (h he).1, fun hm => mem_append_left _ ((h he).2 hm)⟩

theorem smart_cases (hsmart : rule.smartFilter = true)
    (h : rule.matchesSmartEpisodeFilter Q o.settings o.article.title = some episodes) :
    o.episode Q = "" ∨
    (o.episode Q ∉ rule.previouslyMatchedEpisodes ∧ episodes = [o.episode Q]) ∨
    (o.episode Q ∈ rule.previouslyMatchedEpisodes ∧ o.settings.downloadRepacks = true ∧
      o.markers Q ≠ (false, false) ∧ o.fullEpisode Q ∉ rule.previouslyMatchedEpisodes ∧
      o.fullEpisode Q ∈ episodes) := by
  unfold matchesSmartEpisodeFilter at h
  simp only [hsmart, Bool.not_true, Bool.false_eq_true, if_false] at h
  simp only [Offer.fullEpisode, Offer.markers, Offer.episode]
  generalize computeEpisodeName Q o.settings o.article.title = episodeStr at *
  generalize isRepack Q o.article.title = isRepack at *
  generalize isProper Q o.article.title = isProper at *
  by_cases he : episodeStr = ""
  · exact Or.inl he
  rw [if_neg he] at h
  by_cases hmem : episodeStr ∈ rule.previouslyMatchedEpisodes
  · refine Or.inr (Or.inr ⟨hmem, ?_⟩)
    rw [if_pos hmem] at h
    cases hrepacks : o.settings.downloadRepacks with
    | false => simp [hrepacks] at h
    | true =>
      have hmarkers : (isRepack, isProper) ≠ (false, false) := by
        rintro ⟨⟩
        simp at h
      by_cases hfull : fullEpisodeStr episodeStr isRepack isProper ∈
          rule.previouslyMatchedEpisodes
      · simp [hfull] at h
      · refine ⟨rfl, hmarkers, hfull, ?_⟩
        split_ifs at h <;> cases h <;> exact mem_cons_self
  · refine Or.inr (Or.inl ⟨hmem, ?_⟩)
    rw [if_neg hmem] at h
    exact (Option.some.inj h).symm

namespace RuleHistory

variable {h h' : RuleHistory E} {e : RuleEvent E}

/-- What holds of every history: the smart filter is on, and accepted articles have their episode
in the list. -/
structure Listed (Q : Qt) (h : RuleHistory E) : Prop where
  smart : h.rule.smartFilter = true
  listed : ∀ o ∈ h.accepted, o.episode Q ≠ "" →
    o.episode Q ∈ h.rule.previouslyMatchedEpisodes

theorem next_offer (hsmart : h.rule.smartFilter = true) (hn : h.next Q (.offer o) = some h') :
    h'.rule.smartFilter = true ∧
    ((h'.accepted = h.accepted ∧
        h'.rule.previouslyMatchedEpisodes = h.rule.previouslyMatchedEpisodes) ∨
      (h'.accepted = h.accepted ++ [o] ∧ h.rule.isDue Q o.article.date = true ∧
        h.rule.matchesExpressions Q o.article.title h.rule.cachedRegexes = true ∧
        ∃ episodes,
          h.rule.matchesSmartEpisodeFilter Q o.settings o.article.title = some episodes ∧
          h'.rule.previouslyMatchedEpisodes = h.rule.previouslyMatchedEpisodes ++ episodes)) := by
  have hrule : h'.rule = (h.rule.accepts Q o.settings o.article).2 := by
    rw [← Option.some.inj hn]
  have haccepted : h'.accepted = if (h.rule.accepts Q o.settings o.article).1 = true then
      h.accepted ++ [o] else h.accepted := by
    rw [← Option.some.inj hn]
  obtain ⟨hacc, hdue, hexpr, episodes, cache, he, hr⟩ | ⟨hacc, episodes, cache, hr⟩ :=
    @accepts_cases Q _ h.rule o.settings o.article
  · rw [hrule, haccepted, hr]
    exact ⟨hsmart, Or.inr ⟨if_pos hacc, hdue, hexpr, episodes, he, rfl⟩⟩
  · rw [hrule, haccepted, hr]
    exact ⟨hsmart, Or.inl ⟨by simp [hacc], rfl⟩⟩

theorem next_edit (hn : h.next Q (.edit rule) = some h') :
    h'.rule.smartFilter = true ∧ h'.accepted = h.accepted ∧
      h'.rule.previouslyMatchedEpisodes = h.rule.previouslyMatchedEpisodes := by
  simp only [next] at hn
  split_ifs at hn with hc
  cases hn
  exact ⟨hc.1, rfl, hc.2⟩

theorem next_listed (hi : Listed Q h) (hn : h.next Q e = some h') : Listed Q h' := by
  cases e with
  | edit rule =>
    obtain ⟨hs, hacc, hprev⟩ := next_edit hn
    exact ⟨hs, by rw [hacc, hprev]; exact hi.listed⟩
  | offer o =>
    obtain ⟨hs, ⟨hacc, hprev⟩ | ⟨hacc, -, -, episodes, he, hprev⟩⟩ := next_offer hi.smart hn
    · exact ⟨hs, by rw [hacc, hprev]; exact hi.listed⟩
    · refine ⟨hs, fun o' ho' hne => ?_⟩
      rw [hprev]
      rw [hacc, mem_append, mem_singleton] at ho'
      obtain ho' | rfl := ho'
      · exact mem_append_left _ (hi.listed o' ho' hne)
      · obtain hemp | ⟨-, rfl⟩ | ⟨hmem, -⟩ := smart_cases hi.smart he
        · exact (hne hemp).elim
        · exact mem_append_right _ mem_cons_self
        · exact mem_append_left _ hmem

theorem next_remembers (hi : Listed Q h)
    (hr : ∀ o ∈ h.accepted, Remembers Q h.rule.previouslyMatchedEpisodes o)
    (hfirst : h.FirstIsPlain Q e) (hn : h.next Q e = some h') :
    ∀ o ∈ h'.accepted, Remembers Q h'.rule.previouslyMatchedEpisodes o := by
  cases e with
  | edit rule =>
    obtain ⟨-, hacc, hprev⟩ := next_edit hn
    rwa [hacc, hprev]
  | offer o =>
    obtain ⟨-, ⟨hacc, hprev⟩ | ⟨hacc, hdue, hexpr, episodes, he, hprev⟩⟩ := next_offer hi.smart hn
    · rwa [hacc, hprev]
    · intro o' ho'
      rw [hprev]
      rw [hacc, mem_append, mem_singleton] at ho'
      obtain ho' | rfl := ho'
      · exact (hr o' ho').append _
      · intro hne
        obtain hemp | ⟨hnew, rfl⟩ | ⟨hmem, -, -, -, hfull⟩ := smart_cases hi.smart he
        · exact (hne hemp).elim
        · refine ⟨mem_append_right _ mem_cons_self, fun hm => ?_⟩
          exact (hm (hfirst hdue hexpr hne hnew)).elim
        · exact ⟨mem_append_left _ hmem, fun _ => mem_append_right _ hfull⟩

theorem accepted_of_mem (hi : Listed Q h) (hn : h.next Q (.offer o) = some h')
    (hacc : h'.accepted = h.accepted ++ [o]) (hne : o.episode Q ≠ "")
    (hmem : o.episode Q ∈ h.rule.previouslyMatchedEpisodes) :
    o.settings.downloadRepacks = true ∧ o.markers Q ≠ (false, false) ∧
      o.fullEpisode Q ∉ h.rule.previouslyMatchedEpisodes := by
  obtain ⟨-, ⟨hacc', -⟩ | ⟨-, -, -, episodes, he, -⟩⟩ := next_offer hi.smart hn
  · simp [hacc] at hacc'
  · obtain hemp | ⟨hnew, -⟩ | ⟨-, hrepacks, hm, hfull, -⟩ := smart_cases hi.smart he
    · exact (hne hemp).elim
    · exact (hnew hmem).elim
    · exact ⟨hrepacks, hm, hfull⟩

theorem next_accepted (hi : Listed Q h) (hn : h.next Q e = some h') :
    h'.accepted = h.accepted ∨ ∃ o, e = .offer o ∧ h'.accepted = h.accepted ++ [o] := by
  cases e with
  | edit rule => exact Or.inl (next_edit hn).2.1
  | offer o =>
    obtain ⟨-, ⟨hacc, -⟩ | ⟨hacc, -⟩⟩ := next_offer hi.smart hn
    · exact Or.inl hacc
    · exact Or.inr ⟨o, rfl, hacc⟩

/-- **No episode is accepted twice with the same markers, unless the first article of an episode was a
repack or a proper.** -/
theorem distinct_accepted {events : List (RuleEvent E)} (h₀ : rule.smartFilter = true)
    (hm : (machine Q E).Meets (FirstIsPlain Q) ⟨rule, []⟩ events)
    (hr : (machine Q E).run ⟨rule, []⟩ events = some h) : h.Distinct Q := by
  let I : RuleHistory E → Prop := fun h => Listed Q h ∧
    (∀ o ∈ h.accepted, Remembers Q h.rule.previouslyMatchedEpisodes o) ∧ h.Distinct Q
  refine (Machine.run_invariant (I := I) ⟨⟨h₀, by simp⟩, by simp, by simp [Distinct]⟩ ?_ hm hr).2.2
  intro h e h' hi hfirst hn
  refine ⟨next_listed hi.1 hn, next_remembers hi.1 hi.2.1 hfirst hn, ?_⟩
  obtain hacc | ⟨o, rfl, hacc⟩ := next_accepted hi.1 hn
  · rw [Distinct, hacc]
    exact hi.2.2
  · rw [Distinct, hacc, pairwise_append]
    refine ⟨hi.2.2, pairwise_singleton _ _, fun o' ho' o'' ho'' hne heq => ?_⟩
    obtain rfl := mem_singleton.1 ho''
    obtain ⟨hrepacks, hmark, hfull⟩ := accepted_of_mem hi.1 hn hacc (heq ▸ hne)
      (heq ▸ hi.1.listed o' ho' hne)
    refine ⟨fun hsame => hfull ?_, hrepacks⟩
    -- the earlier article left the same text in the list
    have hrem := (hi.2.1 o' ho' hne).2 (hsame ▸ hmark)
    rwa [Offer.fullEpisode, heq, hsame] at hrem

/-- While repacks are disabled, no episode is accepted twice, whatever article was its first. -/
theorem distinct_of_repacks_disabled {events : List (RuleEvent E)} (h₀ : rule.smartFilter = true)
    (hm : (machine Q E).Meets (fun _ e => ∀ o, e = .offer o → o.settings.downloadRepacks = false)
      ⟨rule, []⟩ events)
    (hr : (machine Q E).run ⟨rule, []⟩ events = some h) :
    h.accepted.Pairwise fun o o' => o.episode Q ≠ "" → o.episode Q ≠ o'.episode Q := by
  refine (Machine.run_invariant (I := fun h : RuleHistory E => Listed Q h ∧ h.accepted.Pairwise
    fun o o' => o.episode Q ≠ "" → o.episode Q ≠ o'.episode Q) ⟨⟨h₀, by simp⟩, by simp⟩ ?_ hm hr).2
  intro h e h' hi hoff hn
  refine ⟨next_listed hi.1 hn, ?_⟩
  obtain hacc | ⟨o, rfl, hacc⟩ := next_accepted hi.1 hn
  · rw [hacc]
    exact hi.2
  · rw [hacc, pairwise_append]
    refine ⟨hi.2, pairwise_singleton _ _, fun o' ho' o'' ho'' hne heq => ?_⟩
    obtain rfl := mem_singleton.1 ho''
    have hrepacks := (accepted_of_mem hi.1 hn hacc (heq ▸ hne) (heq ▸ hi.1.listed o' ho' hne)).1
    rw [hoff o'' rfl] at hrepacks
    cases hrepacks

end RuleHistory

/-! ### Articles of one episode -/

/-- Qt as it behaves on titles that start with `Show 1x02` and on plain expressions, with a host on
UTC.  The text of a date is not looked into. -/
def Qt.plain : Qt where
  localOffset _ := .utc
  rfc2822Text seconds minutes := toString seconds ++ " " ++ toString minutes
  parseRfc2822 _ := none
  regexMatch pattern subject :=
    if pattern.toList <:+: subject.toList then some [pattern] else none
  smartRegexMatch _ subject :=
    if "Show 1x02".toList <+: subject.toList then some ["1x02", "", "", "1", "02"] else none
  wildcardToRegexPattern pattern := pattern
  toInt s :=
    if s.toList ≠ [] ∧ s.toList.all Char.isDigit then
      some (s.toList.foldl (fun n c => 10 * n + (c.toNat - '0'.toNat : ℕ)) 0)
    else none
  containsIgnoringCase s text := text.toList <:+: s.toList.map Char.toUpper

/-- A rule with the smart filter on, as new otherwise. -/
def smartRule : AutoDownloadRule Platform.plain where
  name := "rule"
  enabled := true
  priority := 0
  mustContain := []
  mustNotContain := []
  episodeFilter := ""
  feedURLs := []
  useRegex := false
  ignoreDays := 0
  lastMatch := .invalid
  addTorrentParams := .parse []
  smartFilter := true
  previouslyMatchedEpisodes := []
  lastComputedEpisodes := []
  cachedRegexes := ∅

/-- An article with default settings. -/
def offerOf (title : String) : Offer :=
  ⟨⟨"", true⟩, ⟨title, .valid 0 (.offsetFromUtc .utc)⟩⟩

namespace RuleHistory

theorem distinct_accepted_repack :
    ∃ h, (machine Qt.plain Platform.plain).run ⟨smartRule, []⟩
        [.offer (offerOf "Show 1x02"), .offer (offerOf "Show 1x02 Repack")] = some h ∧
      h.Distinct Qt.plain :=
  Machine.exists_run (by decide) fun _ hr => distinct_accepted rfl (by decide) hr

/-- The first article of an episode is a repack: it is accepted a second time. -/
theorem repack_accepted_twice :
    ∃ h, (machine Qt.plain Platform.plain).run ⟨smartRule, []⟩
        [.offer (offerOf "Show 1x02 Repack"), .offer (offerOf "Show 1x02 Repack")] = some h ∧
      h.accepted = [offerOf "Show 1x02 Repack", offerOf "Show 1x02 Repack"] ∧
      ¬ h.Distinct Qt.plain := by
  have hrun : ((machine Qt.plain Platform.plain).run ⟨smartRule, []⟩
      [.offer (offerOf "Show 1x02 Repack"), .offer (offerOf "Show 1x02 Repack")]).map
        (·.accepted) = some [offerOf "Show 1x02 Repack", offerOf "Show 1x02 Repack"] := by
    decide
  obtain ⟨h, hr, hacc⟩ := Option.map_eq_some_iff.1 hrun
  refine ⟨h, hr, hacc, fun hd => ?_⟩
  rw [Distinct, hacc, pairwise_pair] at hd
  exact (hd (by decide) rfl).1 rfl

end RuleHistory

end QBittorrent.Rss
