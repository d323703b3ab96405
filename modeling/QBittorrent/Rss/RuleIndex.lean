import QBittorrent.Lib.Positions
import QBittorrent.Lib.Sorting
import QBittorrent.Rss.Persistence

/-!
# The rules of the automatic downloader and their index

`AutoDownloader` keeps its rules in a list that is sorted by priority, and a table that maps names
to positions in the list.  Rules are set, renamed, removed, imported and loaded, and their feeds
change address; each of these edits the list and then the table.

* `AutoDownloader.next_keeps` : one event;
* `AutoDownloader.rules_follow` : table and list are right in every run.
-/

namespace QBittorrent.Rss

open AutoDownloadRule List Finmap Dict

variable {E : Platform}

/-- The rules, their positions, and the file that they are stored in. -/
structure AutoDownloader (E : Platform) where
  rules : List (AutoDownloadRule E) := []
  rulesByName : Dict String ℕ := ∅
  /-- Something has changed since the rules were stored. -/
  dirty : Bool := false
  /-- What was stored last. -/
  file : Option JsonObject := none

/-- `std::sort` by priority. -/
abbrev RuleSort (E : Platform) := StdSort (AutoDownloadRule E) fun lhs rhs =>
  decide (lhs.priority.toInt < rhs.priority.toInt)

namespace AutoDownloader

section Functions

variable (Q : Qt) (S : RuleSort E) [∀ lhs rhs : AutoDownloadRule E, Decidable (lhs.Equal Q rhs)]

def hasRule (ruleName : String) (s : AutoDownloader E) : Bool := decide (ruleName ∈ s.rulesByName)

def ruleByName (ruleName : String) (s : AutoDownloader E) : AutoDownloadRule E :=
  match s.rulesByName.lookup ruleName with
  | some index => s.rules.getD index (new "Unknown Rule")
  | none => new "Unknown Rule"

def store (s : AutoDownloader E) : AutoDownloader E :=
  if !s.dirty then s
  else { s with
    dirty := false
    file := some (s.rules.map fun rule => (rule.name, .object (rule.toJsonObject Q))) }

def setRuleImpl (rule : AutoDownloadRule E) (s : AutoDownloader E) : AutoDownloader E :=
  match s.rulesByName.lookup rule.name with
  | none => { s with
      rules := s.rules ++ [rule]
      rulesByName := s.rulesByName.insert rule.name s.rules.length }
  | some index => { s with rules := s.rules.set index rule }

def sortRules (s : AutoDownloader E) : AutoDownloader E :=
  let rules := S.sort s.rules
  { s with rules := rules, rulesByName := renumber (·.name) 0 rules s.rulesByName }

/-- `AutoDownloader::setRule`.  A rule that is new is stored at once, a changed one later. -/
def setRule (rule : AutoDownloadRule E) (s : AutoDownloader E) : AutoDownloader E :=
  if !s.hasRule rule.name then
    store Q { sortRules S (setRuleImpl rule s) with dirty := true }
  else if ¬ (s.ruleByName rule.name).Equal Q rule then
    { sortRules S (setRuleImpl rule s) with dirty := true }
  else s

/-- `AutoDownloader::renameRule`, with what it returns. -/
def renameRule (ruleName newRuleName : String) (s : AutoDownloader E) : Bool × AutoDownloader E :=
  if !s.hasRule ruleName || s.hasRule newRuleName then (false, s)
  else match s.rulesByName.lookup ruleName with
    | none => (false, s)
    | some index => (true, store Q { s with
        rules := s.rules.modify index (setName · newRuleName)
        rulesByName := (s.rulesByName.erase ruleName).insert newRuleName index
        dirty := true })

def removeRule (ruleName : String) (s : AutoDownloader E) : AutoDownloader E :=
  match s.rulesByName.lookup ruleName with
  | none => s
  | some index =>
    let rules := s.rules.eraseIdx index
    store Q { s with
      rules := rules
      rulesByName := renumber (·.name) index rules (s.rulesByName.erase ruleName)
      dirty := true }

/-- `rulesFromJSON`, of a document that was parsed. -/
def rulesFromJSON (jsonDoc : Except String JsonValue) : Except String (List (AutoDownloadRule E)) := do
  let .object jsonObj ← jsonDoc | throw "Invalid data format."
  jsonObj.mapM fun
    | (key, .object members) => pure (fromJsonObject Q members key)
    | _ => throw "Invalid data format."

/-- `importRulesFromJSONFormat` and `importRulesFromLegacyFormat`, with the rules that were read.
Nothing happens when reading them fails. -/
def importRules (rules : Except String (List (AutoDownloadRule E))) (s : AutoDownloader E) :
    AutoDownloader E :=
  match rules with
  | .error _ => s
  | .ok rules => rules.foldl (fun s rule => setRule Q S rule s) s

def loadRules (jsonDoc : Except String JsonValue) (s : AutoDownloader E) : AutoDownloader E :=
  match rulesFromJSON Q jsonDoc with
  | .error _ => s
  | .ok rules => sortRules S (rules.foldl (fun s rule => setRuleImpl rule s) s)

/-- `AutoDownloader::loadRulesLegacy`, with the rules of the old settings. -/
def loadRulesLegacy (rules : List (AutoDownloadRule E)) (s : AutoDownloader E) : AutoDownloader E :=
  (rules.filter (·.name ≠ "")).foldl (fun s rule => setRule Q S rule s) s

/-- What a new address of a feed does to a rule: its first occurrence is replaced. -/
def changeFeedURL (url oldURL : String) (rule : AutoDownloadRule E) : AutoDownloadRule E :=
  if oldURL ∈ rule.feedURLs then
    rule.setFeedURLs (rule.feedURLs.set (rule.feedURLs.idxOf oldURL) url)
  else rule

def handleFeedURLChanged (url oldURL : String) (s : AutoDownloader E) : AutoDownloader E :=
  store Q { s with
    rules := s.rules.map (changeFeedURL url oldURL)
    dirty := s.dirty || s.rules.any fun rule => decide (oldURL ∈ rule.feedURLs) }

end Functions

/-! ### Events -/

/-- What happens to the rules.  Rules of the legacy formats are given as they were read. -/
inductive Event (E : Platform) where
  | setRule (rule : AutoDownloadRule E)
  | renameRule (ruleName newRuleName : String)
  | removeRule (ruleName : String)
  | importRulesFromJSONFormat (jsonDoc : Except String JsonValue)
  | importRulesFromLegacyFormat (rules : Except String (List (AutoDownloadRule E)))
  | loadRules (jsonDoc : Except String JsonValue)
  | loadRulesLegacy (rules : List (AutoDownloadRule E))
  | handleFeedURLChanged (url oldURL : String)
  | savingTimer

section Runs

variable (Q : Qt) (S : RuleSort E) [∀ lhs rhs : AutoDownloadRule E, Decidable (lhs.Equal Q rhs)]

def next (s : AutoDownloader E) : Event E → AutoDownloader E
  | .setRule rule => setRule Q S rule s
  | .renameRule ruleName newRuleName => (renameRule Q ruleName newRuleName s).2
  | .removeRule ruleName => removeRule Q ruleName s
  | .importRulesFromJSONFormat jsonDoc => importRules Q S (rulesFromJSON Q jsonDoc) s
  | .importRulesFromLegacyFormat rules => importRules Q S rules s
  | .loadRules jsonDoc => loadRules Q S jsonDoc s
  | .loadRulesLegacy rules => loadRulesLegacy Q S rules s
  | .handleFeedURLChanged url oldURL => handleFeedURLChanged Q url oldURL s
  | .savingTimer => store Q s

end Runs

/-- The table is that of the positions, and the list is sorted by priority. -/
structure Right (s : AutoDownloader E) : Prop where
  index : Positions (·.name) s.rules s.rulesByName
  sorted : s.rules.Pairwise fun lhs rhs => lhs.priority.toInt ≤ rhs.priority.toInt

end AutoDownloader

/-! ### Rules as a map -/

/-- The rules under their names. -/
abbrev RuleBook (E : Platform) := Dict String (AutoDownloadRule E)

namespace RuleBook

/-- A rule takes the place of the one of its name. -/
def put (rule : AutoDownloadRule E) (b : RuleBook E) : RuleBook E := b.insert rule.name rule

/-- A rule takes another name, if nobody has it. -/
def renameRule (ruleName newRuleName : String) (b : RuleBook E) : RuleBook E :=
  match b.lookup ruleName with
  | none => b
  | some rule =>
    if newRuleName ∈ b then b
    else (b.erase ruleName).insert newRuleName (rule.setName newRuleName)

/-- A feed has another address. -/
def handleFeedURLChanged (url oldURL : String) (b : RuleBook E) : RuleBook E :=
  b.filterMap fun _ rule => some (AutoDownloader.changeFeedURL url oldURL rule)

variable (Q : Qt)

def loadRules (jsonDoc : Except String JsonValue) (b : RuleBook E) : RuleBook E :=
  match AutoDownloader.rulesFromJSON Q jsonDoc with
  | .error _ => b
  | .ok rules => rules.foldl (fun b rule => put rule b) b

variable [∀ lhs rhs : AutoDownloadRule E, Decidable (lhs.Equal Q rhs)]

/-- A rule takes the place of the one of its name, unless they are equal. -/
def setRule (rule : AutoDownloadRule E) (b : RuleBook E) : RuleBook E :=
  match b.lookup rule.name with
  | none => b.put rule
  | some old => if old.Equal Q rule then b else b.put rule

def importRules (rules : Except String (List (AutoDownloadRule E))) (b : RuleBook E) : RuleBook E :=
  match rules with
  | .error _ => b
  | .ok rules => rules.foldl (fun b rule => setRule Q rule b) b

def next (b : RuleBook E) : AutoDownloader.Event E → RuleBook E
  | .setRule rule => b.setRule Q rule
  | .renameRule ruleName newRuleName => b.renameRule ruleName newRuleName
  | .removeRule ruleName => b.erase ruleName
  | .importRulesFromJSONFormat jsonDoc => b.importRules Q (AutoDownloader.rulesFromJSON Q jsonDoc)
  | .importRulesFromLegacyFormat rules => b.importRules Q rules
  | .loadRules jsonDoc => b.loadRules Q jsonDoc
  | .loadRulesLegacy rules =>
    (rules.filter (·.name ≠ "")).foldl (fun b rule => setRule Q rule b) b
  | .handleFeedURLChanged url oldURL => b.handleFeedURLChanged url oldURL
  | .savingTimer => b

end RuleBook

namespace AutoDownloader

section Lemmas

variable {Q : Qt} {S : RuleSort E} {s : AutoDownloader E} {b : RuleBook E}
  {rule : AutoDownloadRule E} {ruleName newRuleName : String}

@[simp] theorem store_rules : (store Q s).rules = s.rules := by
  unfold store
  split <;> rfl

@[simp] theorem store_rulesByName : (store Q s).rulesByName = s.rulesByName := by
  unfold store
  split <;> rfl

theorem Right.congr {s' : AutoDownloader E} (h : s.Right) (hrules : s'.rules = s.rules)
    (hbyName : s'.rulesByName = s.rulesByName) : s'.Right :=
  ⟨by rw [hrules, hbyName]; exact h.index, by rw [hrules]; exact h.sorted⟩

theorem Right.store (h : s.Right) : (store Q s).Right := h.congr store_rules store_rulesByName

theorem changeFeedURL_name (url oldURL : String) (rule : AutoDownloadRule E) :
    (changeFeedURL url oldURL rule).name = rule.name := by
  unfold changeFeedURL
  split <;> rfl

theorem changeFeedURL_priority (url oldURL : String) (rule : AutoDownloadRule E) :
    (changeFeedURL url oldURL rule).priority = rule.priority := by
  unfold changeFeedURL
  split <;> rfl

theorem modify_eq_set {α : Type*} {l : List α} {i : ℕ} {a : α} (h : l[i]? = some a) (f : α → α) :
    l.modify i f = l.set i (f a) := by
  refine List.ext_getElem? fun j => ?_
  have hlen := (List.getElem?_eq_some_iff.1 h).1
  by_cases hij : i = j
  · subst hij
    simp [hlen, (List.getElem?_eq_some_iff.1 h).2]
  · cases l[j]? <;> simp [hij]

theorem lookup_isSome (ruleName : String) (h : Positions (·.name) s.rules s.rulesByName)
    (hb : Entries (·.name) s.rules b) : ruleName ∈ s.rulesByName ↔ (b.lookup ruleName).isSome := by
  rw [h.mem_iff, Option.isSome_iff_exists]
  exact exists_congr fun rule => (hb ruleName rule).symm

section

variable (h : Positions (·.name) s.rules s.rulesByName)

include h

section

variable (hb : Entries (·.name) s.rules b)

include hb

theorem lookup_eq_none : s.rulesByName.lookup ruleName = none ↔ b.lookup ruleName = none := by
  have := lookup_isSome ruleName h hb
  rw [mem_iff_isSome, Option.isSome_iff_ne_none, Option.isSome_iff_ne_none] at this
  exact not_iff_not.1 this

theorem lookup_of_book (hrule : b.lookup ruleName = some rule) :
    ∃ index, s.rulesByName.lookup ruleName = some index ∧ s.rules[index]? = some rule ∧
      rule.name = ruleName := by
  obtain ⟨hmem, rfl⟩ := (hb _ _).1 hrule
  obtain ⟨index, hi⟩ := mem_iff_getElem?.1 hmem
  exact ⟨index, h.lookup_of_getElem? hi, hi, rfl⟩

theorem ruleByName_eq (hrule : b.lookup ruleName = some rule) : s.ruleByName ruleName = rule := by
  obtain ⟨index, hlookup, hi, -⟩ := lookup_of_book h hb hrule
  simp [ruleByName, hlookup, hi]

end

end

/-! ### Setting rules -/

theorem setRuleImpl_keeps (rule : AutoDownloadRule E) (h : Positions (·.name) s.rules s.rulesByName)
    (hb : Entries (·.name) s.rules b) :
    Positions (·.name) (setRuleImpl rule s).rules (setRuleImpl rule s).rulesByName ∧
      Entries (·.name) (setRuleImpl rule s).rules (b.put rule) := by
  unfold setRuleImpl
  cases hlookup : s.rulesByName.lookup rule.name with
  | none =>
    have hnew : rule.name ∉ s.rulesByName := Finmap.lookup_eq_none.1 hlookup
    refine ⟨h.append hnew, hb.append fun rule' hmem hname => hnew ?_⟩
    exact h.mem_iff.2 ⟨rule', hmem, hname⟩
  | some index =>
    have hset := hb.set (a := rule) h hlookup (Or.inl rfl)
    have hput : (b.erase rule.name).insert rule.name rule = b.put rule := by
      refine ext_lookup fun k => ?_
      rw [RuleBook.put, lookup_insert_eq, lookup_insert_eq, lookup_erase_eq]
      split_ifs <;> rfl
    rw [hput] at hset
    exact ⟨h.set hlookup, hset⟩

theorem setRulesImpl_keep (h : Positions (·.name) s.rules s.rulesByName)
    (hb : Entries (·.name) s.rules b) (rules : List (AutoDownloadRule E)) :
    Positions (·.name) (rules.foldl (fun s rule => setRuleImpl rule s) s).rules
        (rules.foldl (fun s rule => setRuleImpl rule s) s).rulesByName ∧
      Entries (·.name) (rules.foldl (fun s rule => setRuleImpl rule s) s).rules
        (rules.foldl (fun (b : RuleBook E) rule => b.put rule) b) := by
  induction rules generalizing s b with
  | nil => exact ⟨h, hb⟩
  | cons rule rules ih =>
    obtain ⟨h', hb'⟩ := setRuleImpl_keeps rule h hb
    exact ih h' hb'

theorem sortRules_right (h : Positions (·.name) s.rules s.rulesByName) : (sortRules S s).Right :=
  ⟨h.renumber_perm (S.perm s.rules), S.sorted_le s.rules⟩

theorem sortRules_entries (hb : Entries (·.name) s.rules b) :
    Entries (·.name) (sortRules S s).rules b := hb.perm (S.perm s.rules)

theorem loadRules_keeps (h : s.Right) (hb : Entries (·.name) s.rules b)
    (jsonDoc : Except String JsonValue) :
    (loadRules Q S jsonDoc s).Right ∧
      Entries (·.name) (loadRules Q S jsonDoc s).rules (b.loadRules Q jsonDoc) := by
  unfold loadRules RuleBook.loadRules
  cases rulesFromJSON Q jsonDoc with
  | error message => exact ⟨h, hb⟩
  | ok rules =>
    obtain ⟨hi, hb'⟩ := setRulesImpl_keep h.index hb rules
    exact ⟨sortRules_right hi, sortRules_entries hb'⟩

/-! ### Renaming and removing rules -/

theorem renameRule_fst :
    (renameRule Q ruleName newRuleName s).1 = true ↔
      ruleName ∈ s.rulesByName ∧ newRuleName ∉ s.rulesByName := by
  unfold renameRule hasRule
  by_cases hold : ruleName ∈ s.rulesByName
  · by_cases hnew : newRuleName ∈ s.rulesByName
    · simp [hold, hnew]
    · obtain ⟨index, hi⟩ := mem_iff.1 hold
      simp [hold, hnew, hi]
  · simp [hold]

theorem renameRule_of_fails (h : (renameRule Q ruleName newRuleName s).1 = false) :
    (renameRule Q ruleName newRuleName s).2 = s := by
  unfold renameRule at h ⊢
  split
  · rfl
  · rename_i hcan
    rw [if_neg hcan] at h
    cases hlookup : s.rulesByName.lookup ruleName with
    | none => rfl
    | some index => simp [hlookup] at h

theorem renameRule_keeps (h : s.Right) (hb : Entries (·.name) s.rules b) :
    (renameRule Q ruleName newRuleName s).2.Right ∧
      Entries (·.name) (renameRule Q ruleName newRuleName s).2.rules
        (b.renameRule ruleName newRuleName) := by
  unfold renameRule RuleBook.renameRule hasRule
  cases hbook : b.lookup ruleName with
  | none =>
    have hno : ruleName ∉ s.rulesByName := by simp [lookup_isSome _ h.index hb, hbook]
    simp only [hno, decide_false, Bool.not_false, Bool.true_or, if_true]
    exact ⟨h, hb⟩
  | some rule =>
    obtain ⟨index, hlookup, hi, hname⟩ := lookup_of_book h.index hb hbook
    have hold : ruleName ∈ s.rulesByName := mem_iff.2 ⟨index, hlookup⟩
    have hnames : newRuleName ∈ s.rulesByName ↔ newRuleName ∈ b := by
      rw [lookup_isSome _ h.index hb, mem_iff_isSome]
    by_cases hnew : newRuleName ∈ b
    · simp only [hnames, hnew, decide_true, Bool.or_true, if_true]
      exact ⟨h, hb⟩
    · simp only [hold, hnames, hnew, hlookup, decide_true, decide_false, Bool.not_true,
        Bool.or_false, Bool.false_eq_true, if_false, modify_eq_set hi]
      have hfree : (rule.setName newRuleName).name ∉ s.rulesByName := mt hnames.1 hnew
      refine ⟨Right.store ⟨h.index.rename hlookup hfree, ?_⟩, ?_⟩
      · -- the renamed rule has the priority of the old one
        have hprio : (s.rules.set index (rule.setName newRuleName)).map (·.priority.toInt) =
            s.rules.map (·.priority.toInt) := by
          refine ext_getElem? fun j => ?_
          rw [getElem?_map, getElem?_map, getElem?_set]
          split_ifs with hj hlen
          · rw [← hj, hi]
            rfl
          · exact absurd (List.getElem?_eq_some_iff.1 hi).1 hlen
          · rfl
        have hsorted := pairwise_map.2 h.sorted
        rw [← hprio] at hsorted
        exact pairwise_map.1 hsorted
      · exact hb.set (a := rule.setName newRuleName) h.index hlookup
          (Or.inr hfree)

theorem removeRule_of_notMem (h : ruleName ∉ s.rulesByName) : removeRule Q ruleName s = s := by
  simp only [removeRule, Finmap.lookup_eq_none.2 h]

theorem removeRule_keeps (h : s.Right) (hb : Entries (·.name) s.rules b) :
    (removeRule Q ruleName s).Right ∧
      Entries (·.name) (removeRule Q ruleName s).rules (b.erase ruleName) := by
  unfold removeRule
  cases hlookup : s.rulesByName.lookup ruleName with
  | none =>
    have hbook := (lookup_eq_none h.index hb).1 hlookup
    have hsame : b.erase ruleName = b := by
      refine ext_lookup fun k => ?_
      rw [lookup_erase_eq]
      split_ifs with hk
      · rw [hk, hbook]
      · rfl
    rw [hsame]
    exact ⟨h, hb⟩
  | some index =>
    refine ⟨Right.store ⟨h.index.renumber_eraseIdx hlookup, ?_⟩, ?_⟩
    · exact h.sorted.sublist (eraseIdx_sublist _ _)
    · exact hb.eraseIdx h.index hlookup

/-! ### Addresses of feeds -/

theorem handleFeedURLChanged_keeps (h : s.Right) (hb : Entries (·.name) s.rules b)
    (url oldURL : String) :
    (handleFeedURLChanged Q url oldURL s).Right ∧
      Entries (·.name) (handleFeedURLChanged Q url oldURL s).rules
        (b.handleFeedURLChanged url oldURL) := by
  refine ⟨Right.store ⟨h.index.map (changeFeedURL_name url oldURL), ?_⟩, ?_⟩
  · refine pairwise_map.2 (h.sorted.imp fun {lhs rhs} hle => ?_)
    rw [changeFeedURL_priority, changeFeedURL_priority]
    exact hle
  · unfold handleFeedURLChanged
    rw [store_rules]
    exact hb.map (changeFeedURL_name url oldURL)

/-! ### Setting rules that may be equal -/

variable [∀ lhs rhs : AutoDownloadRule E, Decidable (lhs.Equal Q rhs)]

theorem setRule_keeps (rule : AutoDownloadRule E) (h : s.Right) (hb : Entries (·.name) s.rules b) :
    (setRule Q S rule s).Right ∧ Entries (·.name) (setRule Q S rule s).rules (b.setRule Q rule) := by
  obtain ⟨hi, hb'⟩ := setRuleImpl_keeps rule h.index hb
  have hright : (sortRules S (setRuleImpl rule s)).Right := sortRules_right hi
  have hentries := sortRules_entries (S := S) hb'
  unfold setRule RuleBook.setRule
  cases hbook : b.lookup rule.name with
  | none =>
    have hnew : s.hasRule rule.name = false := by
      rw [hasRule, decide_eq_false_iff_not, lookup_isSome _ h.index hb, hbook]
      exact Bool.false_ne_true
    have hdirty : Right { sortRules S (setRuleImpl rule s) with dirty := true } :=
      hright.congr rfl rfl
    simp only [hnew, Bool.not_false, if_true]
    exact ⟨hdirty.store, by rw [store_rules]; exact hentries⟩
  | some old =>
    have hold : s.hasRule rule.name = true := by
      rw [hasRule, decide_eq_true_iff, lookup_isSome _ h.index hb, hbook]
      rfl
    rw [hold, ruleByName_eq h.index hb hbook]
    by_cases hequal : old.Equal Q rule
    · simp only [hequal, not_true, if_false, if_true]
      exact ⟨h, hb⟩
    · simp only [hequal, not_false_eq_true, if_true, if_false]
      exact ⟨hright.congr rfl rfl, hentries⟩

theorem setRules_keep (h : s.Right) (hb : Entries (·.name) s.rules b)
    (rules : List (AutoDownloadRule E)) :
    (rules.foldl (fun s rule => setRule Q S rule s) s).Right ∧
      Entries (·.name) (rules.foldl (fun s rule => setRule Q S rule s) s).rules
        (rules.foldl (fun (b : RuleBook E) rule => b.setRule Q rule) b) := by
  induction rules generalizing s b with
  | nil => exact ⟨h, hb⟩
  | cons rule rules ih =>
    obtain ⟨h', hb'⟩ := setRule_keeps (Q := Q) (S := S) rule h hb
    exact ih h' hb'

theorem importRules_keeps (h : s.Right) (hb : Entries (·.name) s.rules b)
    (rules : Except String (List (AutoDownloadRule E))) :
    (importRules Q S rules s).Right ∧
      Entries (·.name) (importRules Q S rules s).rules (b.importRules Q rules) := by
  cases rules with
  | error message => exact ⟨h, hb⟩
  | ok rules => exact setRules_keep (Q := Q) h hb rules

/-! ### Runs -/

theorem next_keeps (h : s.Right) (hb : Entries (·.name) s.rules b) (e : Event E) :
    (next Q S s e).Right ∧ Entries (·.name) (next Q S s e).rules (b.next Q e) := by
  cases e with
  | setRule rule => exact setRule_keeps rule h hb
  | renameRule ruleName newRuleName => exact renameRule_keeps h hb
  | removeRule ruleName => exact removeRule_keeps h hb
  | importRulesFromJSONFormat jsonDoc => exact importRules_keeps h hb _
  | importRulesFromLegacyFormat rules => exact importRules_keeps h hb rules
  | loadRules jsonDoc => exact loadRules_keeps h hb jsonDoc
  | loadRulesLegacy rules => exact setRules_keep (Q := Q) h hb _
  | handleFeedURLChanged url oldURL => exact handleFeedURLChanged_keeps h hb url oldURL
  | savingTimer => exact ⟨h.store, by rw [next, store_rules]; exact hb⟩

end Lemmas

variable (Q : Qt) (S : RuleSort E) [∀ lhs rhs : AutoDownloadRule E, Decidable (lhs.Equal Q rhs)]

theorem run_keeps (events : List (Event E)) :
    (events.foldl (next Q S) {}).Right ∧
      Entries (·.name) (events.foldl (next Q S) {}).rules (events.foldl (RuleBook.next Q) ∅) := by
  induction events using reverseRecOn with
  | nil => exact ⟨⟨Positions.empty, List.Pairwise.nil⟩, Entries.empty⟩
  | append_singleton events e ih =>
    rw [foldl_append, foldl_append]
    exact next_keeps ih.1 ih.2 e

/-- **The table follows the rules.**  After every sequence of events the table maps the name of
every rule to its position and nothing else, no two rules have one name, the list is sorted by
priority and holds exactly the rules that the same events leave in a map; and a rename or a removal
that fails changes nothing. -/
theorem rules_follow (events : List (Event E)) :
    let s := events.foldl (next Q S) {}
    (∀ ruleName index, s.rulesByName.lookup ruleName = some index ↔
      s.rules[index]?.map (·.name) = some ruleName) ∧
    (s.rules.map (·.name)).Nodup ∧
    (s.rules.Pairwise fun lhs rhs => lhs.priority.toInt ≤ rhs.priority.toInt) ∧
    (∀ rule, rule ∈ s.rules ↔
      (events.foldl (RuleBook.next Q) ∅).lookup rule.name = some rule) ∧
    (∀ ruleName newRuleName,
      ((renameRule Q ruleName newRuleName s).1 = true ↔
        ruleName ∈ s.rules.map (·.name) ∧ newRuleName ∉ s.rules.map (·.name)) ∧
      ((renameRule Q ruleName newRuleName s).1 = false →
        next Q S s (.renameRule ruleName newRuleName) = s)) ∧
    (∀ ruleName, ruleName ∉ s.rules.map (·.name) → next Q S s (.removeRule ruleName) = s) := by
  obtain ⟨h, hb⟩ := run_keeps Q S events
  have hmem (ruleName : String) : ruleName ∈ (events.foldl (next Q S) {}).rulesByName ↔
      ruleName ∈ (events.foldl (next Q S) {}).rules.map (·.name) := by
    rw [h.index.mem_iff, mem_map]
  refine ⟨h.index, h.index.nodup, h.sorted, fun rule => ?_, fun ruleName newRuleName => ?_,
    fun ruleName hno => ?_⟩
  · rw [hb rule.name rule]
    exact (and_iff_left rfl).symm
  · rw [← hmem, ← hmem]
    exact ⟨renameRule_fst, renameRule_of_fails⟩
  · exact removeRule_of_notMem (mt (hmem ruleName).1 hno)

end AutoDownloader

end QBittorrent.Rss
