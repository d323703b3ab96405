import QBittorrent.Base.Text
import QBittorrent.Lib.Sorting
import Mathlib.Data.List.Range

/-!
# Tracker lists as text

The dialog for the trackers of a torrent shows a URL a line.  A tier ends with an empty line, so that
the number of empty lines before a URL is its tier, and `parseTrackerEntries` counts them.

* `trackers_setTrackers_iff` : entries come back sorted by tier.
-/

namespace QBittorrent.BitTorrent

open QString List

/-- The largest `int`. -/
def maxInt : ℤ := 2147483647

structure TrackerEntry where
  url : List Char
  tier : ℤ
deriving DecidableEq

/-- One line: the tier that is counted and the entries so far. -/
def parseLine (s : ℤ × List TrackerEntry) (line : List Char) : ℤ × List TrackerEntry :=
  let tracker := trimmed line
  if tracker = [] then (if s.1 < maxInt then s.1 + 1 else s.1, s.2)
  else (s.1, s.2 ++ [⟨tracker, s.1⟩])

def parseTrackerEntries (str : List Char) : List TrackerEntry :=
  ((str.splitOn '\n').foldl parseLine (0, [])).2

namespace TrackerEntriesDialog

/-- The loop of `setTrackers` over the entries: the texts of the tiers and the largest tier. -/
def addEntry (s : (ℤ → List Char) × ℤ) (entry : TrackerEntry) : (ℤ → List Char) × ℤ :=
  (fun tier => if tier = entry.tier then s.1 tier ++ (entry.url ++ ['\n']) else s.1 tier,
    max s.2 entry.tier)

/-- The loop over the tiers from `i` on.  There is no result where the counter overflows. -/
def appendTiers (tiers : ℤ → List Char) (maxTier : ℤ) (text : List Char) (i : ℤ) :
    Option (List Char) :=
  if i ≤ maxTier then
    if i < maxInt then appendTiers tiers maxTier (text ++ '\n' :: tiers i) (i + 1) else none
  else some text
termination_by (maxTier + 1 - i).toNat
decreasing_by omega

/-- The text that is given to the editor. -/
def setTrackers (trackers : List TrackerEntry) : Option (List Char) :=
  let s := trackers.foldl addEntry (fun _ => [], -1)
  appendTiers s.1 s.2 (s.1 0) 1

/-- The entries of the text in the editor. -/
def trackers (text : List Char) : List TrackerEntry := parseTrackerEntries text

end TrackerEntriesDialog

open TrackerEntriesDialog

/-- An entry as the dialog is to show it: its URL is not empty and keeps to one line, without white
space around it, and its tier is a natural number. -/
structure TrackerEntry.Plain (e : TrackerEntry) : Prop where
  url_ne_nil : e.url ≠ []
  newline_not_mem : '\n' ∉ e.url
  trimmed_url : trimmed e.url = e.url
  tier_nonneg : 0 ≤ e.tier
  tier_le : e.tier ≤ maxInt

/-! ### The reader -/

def tierText (entries : List TrackerEntry) : List Char := entries.flatMap fun e => e.url ++ ['\n']

variable {entries : List TrackerEntry} {tier i : ℤ} {e : TrackerEntry} {n : ℕ}

theorem parse_tierText (hplain : ∀ e ∈ entries, e.Plain) (htier : ∀ e ∈ entries, e.tier = tier)
    (acc : List TrackerEntry) (rest : List Char) :
    ((tierText entries ++ rest).splitOn '\n').foldl parseLine (tier, acc) =
      (rest.splitOn '\n').foldl parseLine (tier, acc ++ entries) := by
  induction entries generalizing acc with
  | nil => simp [tierText]
  | cons e entries ih =>
    rw [forall_mem_cons] at hplain htier
    have hline : parseLine (tier, acc) e.url = (tier, acc ++ [e]) := by
      simp only [parseLine, hplain.1.trimmed_url]
      rw [if_neg hplain.1.url_ne_nil, ← htier.1]
    have htext : tierText (e :: entries) ++ rest = e.url ++ '\n' :: (tierText entries ++ rest) := by
      simp [tierText]
    rw [htext, splitOn_append_cons_self_of_not_mem hplain.1.newline_not_mem,
      foldl_cons, hline, ih hplain.2 htier.2, append_assoc, singleton_append]

theorem parse_newline (h : tier < maxInt) (acc : List TrackerEntry) (rest : List Char) :
    (('\n' :: rest).splitOn '\n').foldl parseLine (tier, acc) =
      (rest.splitOn '\n').foldl parseLine (tier + 1, acc) := by
  have hline : parseLine (tier, acc) [] = (tier + 1, acc) := by
    simp only [parseLine, trimmed_nil]
    rw [if_pos trivial, if_pos h]
  have hsplit : ([] ++ '\n' :: rest).splitOn '\n' = [] :: rest.splitOn '\n' :=
    splitOn_append_cons_self_of_not_mem not_mem_nil rest
  rw [nil_append] at hsplit
  rw [hsplit, foldl_cons, hline]

/-! ### The writer -/

def ofTier (entries : List TrackerEntry) (tier : ℤ) : List TrackerEntry :=
  entries.filter fun e => e.tier = tier

theorem mem_ofTier : e ∈ ofTier entries tier ↔ e ∈ entries ∧ e.tier = tier := by
  simp [ofTier]

theorem fst_foldl_addEntry (entries : List TrackerEntry) (s : (ℤ → List Char) × ℤ) (tier : ℤ) :
    (entries.foldl addEntry s).1 tier = s.1 tier ++ tierText (ofTier entries tier) := by
  induction entries generalizing s with
  | nil => simp [ofTier, tierText]
  | cons e entries ih =>
    rw [foldl_cons, ih]
    by_cases h : tier = e.tier
    · simp [addEntry, ofTier, tierText, h]
    · simp [addEntry, ofTier, h, Ne.symm h]

theorem snd_foldl_addEntry (entries : List TrackerEntry) (s : (ℤ → List Char) × ℤ) (n : ℤ) :
    (entries.foldl addEntry s).2 ≤ n ↔ s.2 ≤ n ∧ ∀ e ∈ entries, e.tier ≤ n := by
  induction entries generalizing s with
  | nil => simp
  | cons e entries ih =>
    rw [foldl_cons, ih, forall_mem_cons, ← and_assoc]
    refine and_congr_left fun _ => ?_
    simp only [addEntry]
    omega

/-- The texts of the tiers from `i` on, `n` of them. -/
def tailText (entries : List TrackerEntry) (i : ℤ) : ℕ → List Char
  | 0 => []
  | n + 1 => '\n' :: (tierText (ofTier entries i) ++ tailText entries (i + 1) n)

theorem appendTiers_eq {tiers : ℤ → List Char} (htiers : ∀ i, tiers i = tierText (ofTier entries i))
    {maxTier : ℤ} (hmax : maxTier < maxInt) (n : ℕ) (text : List Char) (hi : i + n = maxTier + 1) :
    appendTiers tiers maxTier text i = some (text ++ tailText entries i n) := by
  induction n generalizing text i with
  | zero =>
    rw [appendTiers, if_neg (by omega), tailText, append_nil]
  | succ n ih =>
    rw [appendTiers, if_pos (by omega), if_pos (by omega), ih _ (by omega), tailText, htiers]
    simp

theorem appendTiers_eq_none (tiers : ℤ → List Char) (n : ℕ) (text : List Char)
    (hi : i + n = maxInt) : appendTiers tiers maxInt text i = none := by
  induction n generalizing text i with
  | zero => rw [appendTiers, if_pos (by omega), if_neg (by omega)]
  | succ n ih => rw [appendTiers, if_pos (by omega), if_pos (by omega), ih _ (by omega)]

theorem setTrackers_eq (hmax : ∀ e ∈ entries, e.tier < maxInt) :
    ∃ n : ℕ, (∀ e ∈ entries, e.tier ≤ n) ∧ (n : ℤ) < maxInt ∧
      TrackerEntriesDialog.setTrackers entries =
        some (tierText (ofTier entries 0) ++ tailText entries 1 n) := by
  have hfold := snd_foldl_addEntry entries (fun _ => [], -1)
  have hlt : (entries.foldl addEntry (fun _ => [], -1)).2 < maxInt := by
    have := (hfold (maxInt - 1)).2 ⟨by decide, fun e he => Int.le_sub_one_of_lt (hmax e he)⟩
    omega
  have hge := (hfold _).1 le_rfl
  have htexts : ∀ i, (entries.foldl addEntry (fun _ => [], -1)).1 i =
      tierText (ofTier entries i) := fun i => by rw [fst_foldl_addEntry]; rfl
  simp only [TrackerEntriesDialog.setTrackers]
  generalize (entries.foldl addEntry (fun _ => [], -1)) = s at hlt hge htexts
  refine ⟨s.2.toNat, fun e he => ?_, ?_, ?_⟩
  · have := hge.2 e he
    omega
  · have : (0 : ℤ) < maxInt := by decide
    omega
  · rw [htexts]
    by_cases hneg : s.2 < 0
    · -- there is no entry at all
      rw [show s.2.toNat = 0 by omega, appendTiers, if_neg (by omega), tailText, append_nil]
    · rw [appendTiers_eq htexts hlt s.2.toNat _ (by omega)]

/-! ### The round trip -/

/-- The entries of the tiers from `i` on, `n` of them. -/
def tailEntries (entries : List TrackerEntry) (i : ℤ) : ℕ → List TrackerEntry
  | 0 => []
  | n + 1 => ofTier entries i ++ tailEntries entries (i + 1) n

theorem parse_tailText (hplain : ∀ e ∈ entries, e.Plain) (n : ℕ) (hi : i + n ≤ maxInt)
    (acc : List TrackerEntry) :
    (((tailText entries (i + 1) n).splitOn '\n').foldl parseLine (i, acc)).2 =
      acc ++ tailEntries entries (i + 1) n := by
  induction n generalizing i acc with
  | zero => simp [tailText, tailEntries, parseLine]
  | succ n ih =>
    rw [tailText, parse_newline (by omega), parse_tierText
      (fun e he => hplain e (mem_ofTier.1 he).1) (fun e he => (mem_ofTier.1 he).2),
      ih (by omega), tailEntries, append_assoc]

theorem mem_tailEntries (h : e ∈ tailEntries entries i n) : i ≤ e.tier := by
  induction n generalizing i with
  | zero => cases h
  | succ n ih =>
    rw [tailEntries, mem_append] at h
    rcases h with h | h
    · have := (mem_ofTier.1 h).2
      omega
    · have := ih h
      omega

theorem pairwise_tailEntries (entries : List TrackerEntry) (n : ℕ) (i : ℤ) :
    (tailEntries entries i n).Pairwise fun a b => a.tier ≤ b.tier := by
  induction n generalizing i with
  | zero => exact .nil
  | succ n ih =>
    have htier : ∀ e ∈ ofTier entries i, e.tier = i := fun e he => (mem_ofTier.1 he).2
    refine pairwise_append.2 ⟨?_, ih _, fun a ha b hb => ?_⟩
    · exact pairwise_of_forall_mem_list fun a ha b hb => by rw [htier a ha, htier b hb]
    · have := mem_tailEntries hb
      rw [htier a ha]
      omega

theorem filter_tailEntries (entries : List TrackerEntry) (n : ℕ) (i k : ℤ) :
    (tailEntries entries i n).filter (fun e => e.tier = k) =
      if i ≤ k ∧ k < i + n then ofTier entries k else [] := by
  induction n generalizing i with
  | zero =>
    rw [if_neg (by omega)]
    rfl
  | succ n ih =>
    rw [tailEntries, filter_append, ih, ofTier, filter_filter]
    by_cases hk : i = k
    · subst hk
      simp [ofTier]
    · have hnone : (entries.filter fun e => decide (e.tier = k) && decide (e.tier = i)) = [] := by
        refine filter_eq_nil_iff.2 fun e _ => ?_
        simp only [Bool.and_eq_true, decide_eq_true_eq, not_and]
        omega
      rw [hnone, nil_append]
      by_cases hin : i + 1 ≤ k ∧ k < i + 1 + n
      · rw [if_pos hin, if_pos (by omega)]
      · rw [if_neg hin, if_neg (by omega)]

theorem tailEntries_eq_insertionSort (hnonneg : ∀ e ∈ entries, 0 ≤ e.tier)
    (hle : ∀ e ∈ entries, e.tier ≤ n) :
    tailEntries entries 0 (n + 1) = entries.insertionSort fun a b => a.tier ≤ b.tier := by
  refine eq_of_sorted_of_filter_eq TrackerEntry.tier (pairwise_tailEntries _ _ _)
    (pairwise_insertionSort _ _) fun k => ?_
  rw [filter_insertionSort, filter_tailEntries]
  by_cases hk : 0 ≤ k ∧ k < 0 + ((n + 1 : ℕ) : ℤ)
  · rw [if_pos hk, ofTier]
  · rw [if_neg hk]
    refine (filter_eq_nil_iff.2 fun e he => ?_).symm
    have := hnonneg e he
    have := hle e he
    rw [decide_eq_true_eq]
    omega

/-- **Round trip.**  What the dialog shows for tracker entries is read as the same entries, stably
sorted by tier, exactly when no tier is the largest number of the counter. -/
theorem trackers_setTrackers_iff {entries : List TrackerEntry} (hplain : ∀ e ∈ entries, e.Plain) :
    (TrackerEntriesDialog.setTrackers entries).map trackers =
        some (entries.insertionSort fun a b => a.tier ≤ b.tier) ↔
      ∀ e ∈ entries, e.tier ≠ maxInt := by
  constructor
  · intro h e he heq
    have hmax : (entries.foldl addEntry (fun _ => [], -1)).2 = maxInt := by
      refine le_antisymm ((snd_foldl_addEntry _ _ _).2 ⟨by decide, fun e he => ?_⟩) ?_
      · exact (hplain e he).tier_le
      · rw [← heq]
        exact ((snd_foldl_addEntry _ _ _).1 le_rfl).2 e he
    simp only [TrackerEntriesDialog.setTrackers, hmax] at h
    rw [appendTiers_eq_none _ 2147483646 _ (by decide)] at h
    cases h
  · intro h
    obtain ⟨n, hle, hn, hset⟩ := setTrackers_eq fun e he =>
      lt_of_le_of_ne (hplain e he).tier_le (h e he)
    rw [hset, Option.map_some, trackers, parseTrackerEntries, parse_tierText
      (fun e he => hplain e (mem_ofTier.1 he).1) (fun e he => (mem_ofTier.1 he).2),
      nil_append, ← tailEntries_eq_insertionSort (fun e he => (hplain e he).tier_nonneg) hle]
    exact congrArg some (parse_tailText hplain n (by omega) _)

theorem plain_of_letter {c : Char} (h : isSpace c = false) (hne : '\n' ≠ c) (hnonneg : 0 ≤ tier)
    (hle : tier ≤ maxInt) : (TrackerEntry.mk [c] tier).Plain where
  url_ne_nil := cons_ne_nil _ _
  newline_not_mem := fun h => hne (mem_singleton.1 h)
  trimmed_url := trimmed_eq_self_iff.2 (by simp [h])
  tier_nonneg := hnonneg
  tier_le := hle

/-- Two trackers of the third tier before one of the first. -/
theorem trackers_setTrackers_gap :
    (TrackerEntriesDialog.setTrackers [⟨['a'], 2⟩, ⟨['b'], 2⟩, ⟨['c'], 0⟩]).map trackers =
      some ([⟨['a'], 2⟩, ⟨['b'], 2⟩, ⟨['c'], 0⟩].insertionSort
        fun a b : TrackerEntry => a.tier ≤ b.tier) := by
  refine (trackers_setTrackers_iff ?_).2 ?_
  · simp only [forall_mem_cons, not_mem_nil, false_imp_iff, implies_true, and_true]
    exact ⟨plain_of_letter (by decide) (by decide) (by decide) (by decide),
      plain_of_letter (by decide) (by decide) (by decide) (by decide),
      plain_of_letter (by decide) (by decide) (by decide) (by decide)⟩
  · simp [maxInt]

/-- An entry of the largest tier is not shown at all. -/
theorem setTrackers_overflow :
    (TrackerEntry.mk ['u'] 2147483647).Plain ∧
      TrackerEntriesDialog.setTrackers [⟨['u'], 2147483647⟩] = none :=
  ⟨plain_of_letter (by decide) (by decide) (by decide) (by decide),
    appendTiers_eq_none _ 2147483646 _ (by decide)⟩

end QBittorrent.BitTorrent
