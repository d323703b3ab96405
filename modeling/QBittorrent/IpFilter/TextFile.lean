import QBittorrent.IpFilter.Address
import QBittorrent.Lib.LineWindow
import Mathlib.Data.List.DropRight

/-!
# Text files of IP ranges

What `parseDATFilterFile` and `parseP2PFilterFile` share: the window they read through, comments,
the helpers that split and trim a line in place by writing terminators into it, and the parsing of
the two addresses of a range.

* `parseRange_spec` : the range between two positions;
* `loadLines_eq` : the filter after all lines.
-/

namespace QBittorrent.IpFilter

open LineWindow List Buffer

/-! ### C strings in the buffer -/

/-- A C string ends at the first NUL. -/
def text (s : List UInt8) : List UInt8 := s.takeWhile (· ≠ 0)

theorem text_append_nul (s r : List UInt8) : text (s ++ 0 :: r) = text s :=
  takeWhile_append_stop (by simp) s r

/-- The C string at a position of a buffer of `N` bytes. -/
def cString (N : ℕ) (data : Buffer UInt8) (i : ℕ) : List UInt8 := text (data.segment i N)

variable {N e : ℕ} {data : Buffer UInt8}

theorem cString_eq {i : ℕ} (hie : i ≤ e) (heN : e < N) (he : data e = 0) :
    cString N data i = text (data.segment i e) := by
  rw [cString, segment_split data hie heN, he, text_append_nul]

/-- Only terminators have been written, between two positions. -/
def NulledIn (data data' : Buffer UInt8) (i j : ℕ) : Prop :=
  ∀ m, data' m = data m ∨ (i ≤ m ∧ m < j ∧ data' m = 0)

namespace NulledIn

variable {data data' data'' : Buffer UInt8} {i j m : ℕ}

theorem refl (data : Buffer UInt8) (i j : ℕ) : NulledIn data data i j := fun _ => .inl rfl

theorem trans (h : NulledIn data data' i j) (h' : NulledIn data' data'' i j) :
    NulledIn data data'' i j := by
  intro m
  rcases h' m with hm | hm
  · rw [hm]
    exact h m
  · exact .inr hm

theorem mono {i' j' : ℕ} (h : NulledIn data data' i j) (hi : i' ≤ i) (hj : j ≤ j') :
    NulledIn data data' i' j' := by
  intro m
  rcases h m with hm | ⟨h₁, h₂, h₃⟩
  · exact .inl hm
  · exact .inr ⟨by omega, by omega, h₃⟩

theorem write (data : Buffer UInt8) (hi : i ≤ m) (hj : m < j) :
    NulledIn data (data.write m 0) i j := by
  intro k
  by_cases hk : k = m
  · subst hk
    exact .inr ⟨hi, hj, write_self _ _ _⟩
  · exact .inl (write_of_ne data _ hk)

theorem eq_of_le (h : NulledIn data data' i j) (hm : j ≤ m) : data' m = data m := by
  rcases h m with h | h
  · exact h
  · omega

theorem eq_of_lt (h : NulledIn data data' i j) (hm : m < i) : data' m = data m := by
  rcases h m with h | h
  · exact h
  · omega

theorem nul (h : NulledIn data data' i j) (hm : data m = 0) : data' m = 0 := by
  rcases h m with h | h
  · rw [h, hm]
  · exact h.2.2

end NulledIn

/-! ### Delimiters -/

/-- `findAndNullDelimiter`, with the position behind the last one that is searched; `none` is the
result -1. -/
def findAndNullDelimiter (data : Buffer UInt8) (delimiter : UInt8) (start stop : ℕ)
    (reverse : Bool) : Option ℕ × Buffer UInt8 :=
  match if reverse then data.findRev delimiter start stop else data.find delimiter start stop with
  | none => (none, data)
  | some i => (some i, data.write i 0)

theorem findAndNullDelimiter_spec (data : Buffer UInt8) (delimiter : UInt8) (start stop : ℕ) :
    let r := findAndNullDelimiter data delimiter start stop false
    (r.1 = none ∧ r.2 = data ∧ delimiter ∉ data.segment start stop) ∨
      ∃ i, r.1 = some i ∧ r.2 = data.write i 0 ∧ start ≤ i ∧ i < stop ∧ data i = delimiter ∧
        delimiter ∉ data.segment start i := by
  cases h : data.find delimiter start stop with
  | none => exact .inl ⟨by simp [findAndNullDelimiter, h], by simp [findAndNullDelimiter, h],
      find_eq_none h⟩
  | some i =>
    obtain ⟨h₁, h₂, h₃, h₄⟩ := find_spec h
    exact .inr ⟨i, by simp [findAndNullDelimiter, h], by simp [findAndNullDelimiter, h],
      h₁, h₂, h₃, h₄⟩

theorem findAndNullDelimiter_reverse_spec (data : Buffer UInt8) (delimiter : UInt8)
    (start stop : ℕ) :
    let r := findAndNullDelimiter data delimiter start stop true
    (r.1 = none ∧ r.2 = data ∧ delimiter ∉ data.segment start stop) ∨
      ∃ i, r.1 = some i ∧ r.2 = data.write i 0 ∧ start ≤ i ∧ i < stop ∧ data i = delimiter ∧
        delimiter ∉ data.segment (i + 1) stop := by
  cases h : data.findRev delimiter start stop with
  | none => exact .inl ⟨by simp [findAndNullDelimiter, h], by simp [findAndNullDelimiter, h],
      findRev_eq_none h⟩
  | some i =>
    obtain ⟨h₁, h₂, h₃, h₄⟩ := findRev_spec h
    exact .inr ⟨i, by simp [findAndNullDelimiter, h], by simp [findAndNullDelimiter, h],
      h₁, h₂, h₃, h₄⟩

/-! ### White space -/

/-- The first loop of `trim`, over `n` bytes from `i` on. -/
def trimFront (data : Buffer UInt8) (newStart i : ℕ) : ℕ → ℕ × Buffer UInt8
  | 0 => (newStart, data)
  | n + 1 =>
    if isspace (data i) then trimFront (data.write i 0) newStart (i + 1) n else (i, data)

/-- The second loop of `trim`, back over `n` bytes to `start`. -/
def trimBack (data : Buffer UInt8) (start : ℕ) : ℕ → Buffer UInt8
  | 0 => data
  | n + 1 =>
    if isspace (data (start + n)) then trimBack (data.write (start + n) 0) start n else data

/-- `trim`, with the position behind the last byte. -/
def trim (data : Buffer UInt8) (start stop : ℕ) : ℕ × Buffer UInt8 :=
  if stop ≤ start + 1 then (start, data)
  else
    let front := trimFront data start start (stop - start)
    (front.1, trimBack front.2 start (stop - start))

/-- A text without the white space around it; a single character is not looked at. -/
def trimmed (s : List UInt8) : List UInt8 :=
  if s.length ≤ 1 then s else (s.dropWhile isspace).rdropWhile isspace

theorem nulledIn_trimFront (data : Buffer UInt8) (newStart i n : ℕ) :
    NulledIn data (trimFront data newStart i n).2 i (i + n) := by
  induction n generalizing data i with
  | zero => exact .refl _ _ _
  | succ n ih =>
    rw [trimFront]
    split_ifs
    · exact (NulledIn.write data (by omega) (by omega)).trans
        ((ih _ (i + 1)).mono (by omega) (by omega))
    · exact .refl _ _ _

theorem nulledIn_trimBack (data : Buffer UInt8) (start n : ℕ) :
    NulledIn data (trimBack data start n) start (start + n) := by
  induction n generalizing data with
  | zero => exact .refl _ _ _
  | succ n ih =>
    rw [trimBack]
    split_ifs
    · exact (NulledIn.write data (by omega) (by omega)).trans ((ih _).mono (by omega) (by omega))
    · exact .refl _ _ _

theorem trimFront_spec (data : Buffer UInt8) (newStart i n : ℕ) :
    let seg := data.segment i (i + n)
    let r := trimFront data newStart i n
    r.2.segment i (i + n) =
        replicate (seg.takeWhile isspace).length 0 ++ seg.dropWhile isspace ∧
      r.1 = if seg.dropWhile isspace = [] then newStart
        else i + (seg.takeWhile isspace).length := by
  induction n generalizing data i with
  | zero => simp [trimFront]
  | succ n ih =>
    have hcons : data.segment i (i + (n + 1)) = data i :: data.segment (i + 1) (i + (n + 1)) :=
      segment_cons data (by omega)
    rw [trimFront]
    by_cases hspace : isspace (data i) = true
    · have hlater : (data.write i 0).segment (i + 1) (i + 1 + n) =
          data.segment (i + 1) (i + (n + 1)) := by
        rw [segment_write_of_lt data _ (by omega)]
        congr 1
        omega
      obtain ⟨h₁, h₂⟩ := ih (data.write i 0) (i + 1)
      rw [hlater] at h₁ h₂
      have hfirst : (trimFront (data.write i 0) newStart (i + 1) n).2 i = 0 := by
        rw [(nulledIn_trimFront _ newStart (i + 1) n).eq_of_lt (by omega), write_self]
      have hend : i + 1 + n = i + (n + 1) := by omega
      rw [hend] at h₁
      simp only [hspace, if_true, hcons, takeWhile_cons_of_pos, dropWhile_cons_of_pos,
        length_cons]
      refine ⟨?_, ?_⟩
      · rw [segment_cons _ (by omega : i < i + (n + 1)), hfirst, h₁]
        rfl
      · rw [h₂]
        split_ifs
        · rfl
        · omega
    · simp [hspace, hcons]

theorem trimBack_spec (data : Buffer UInt8) (start n : ℕ) :
    let seg := data.segment start (start + n)
    ∃ k, (trimBack data start n).segment start (start + n) =
      seg.rdropWhile isspace ++ replicate k 0 := by
  induction n generalizing data with
  | zero => exact ⟨0, by simp [trimBack]⟩
  | succ n ih =>
    have hconcat : data.segment start (start + (n + 1)) =
        data.segment start (start + n) ++ [data (start + n)] := by
      rw [segment_split data (by omega : start ≤ start + n) (by omega),
        segment_eq_nil data (i := start + n + 1) (by omega)]
    rw [trimBack]
    by_cases hspace : isspace (data (start + n)) = true
    · obtain ⟨k, hk⟩ := ih (data.write (start + n) 0)
      rw [segment_write_of_le data _ (le_refl _)] at hk
      have hlast : trimBack (data.write (start + n) 0) start n (start + n) = 0 := by
        rw [(nulledIn_trimBack _ start n).eq_of_le (le_refl _), write_self]
      refine ⟨k + 1, ?_⟩
      rw [if_pos hspace, hconcat, rdropWhile_concat_pos _ _ _ hspace,
        segment_split _ (by omega : start ≤ start + n) (by omega), hk, hlast,
        segment_eq_nil _ (i := start + n + 1) (by omega), replicate_succ',
        append_assoc]
    · refine ⟨0, ?_⟩
      rw [if_neg hspace, hconcat, rdropWhile_concat_neg _ _ _ hspace]
      simp

theorem nulledIn_trim (data : Buffer UInt8) (start stop : ℕ) :
    NulledIn data (trim data start stop).2 start stop := by
  rw [trim]
  split_ifs with h
  · exact .refl _ _ _
  · have hstop : start + (stop - start) = stop := by omega
    have hfront := nulledIn_trimFront data start start (stop - start)
    have hback := nulledIn_trimBack (trimFront data start start (stop - start)).2 start
      (stop - start)
    rw [hstop] at hfront hback
    exact hfront.trans hback

theorem rdropWhile_append_of_ne_nil {p : UInt8 → Bool} (s : List UInt8) {r : List UInt8}
    (h : r.rdropWhile p ≠ []) : (s ++ r).rdropWhile p = s ++ r.rdropWhile p := by
  induction r using reverseRecOn with
  | nil => simp at h
  | append_singleton r c ih =>
    rw [← append_assoc]
    by_cases hc : p c = true
    · rw [rdropWhile_concat_pos _ _ _ hc] at h ⊢
      rw [rdropWhile_concat_pos _ _ _ hc, ih h]
    · rw [rdropWhile_concat_neg _ _ _ hc, rdropWhile_concat_neg _ _ _ hc,
        append_assoc]

theorem trim_spec (data : Buffer UInt8) {start stop : ℕ} (h : start ≤ stop) :
    let r := trim data start stop
    start ≤ r.1 ∧ r.1 ≤ stop ∧ (start < stop → r.1 < stop) ∧
      text (r.2.segment r.1 stop) = text (trimmed (data.segment start stop)) := by
  rw [trim]
  by_cases hshort : stop ≤ start + 1
  · have hlength : (data.segment start stop).length ≤ 1 := by
      rw [length_segment]
      omega
    simp only [if_pos hshort, trimmed, if_pos hlength]
    exact ⟨le_refl _, h, id, trivial⟩
  · have hlength : ¬(data.segment start stop).length ≤ 1 := by
      rw [length_segment]
      omega
    have hstop : start + (stop - start) = stop := by omega
    simp only [if_neg hshort, trimmed, if_neg hlength]
    obtain ⟨hfront, hnew⟩ := trimFront_spec data start start (stop - start)
    set front := trimFront data start start (stop - start)
    obtain ⟨k, hback⟩ := trimBack_spec front.2 start (stop - start)
    rw [hstop] at hfront hback hnew
    set seg := data.segment start stop with hseg
    have hsplit := congrArg length (takeWhile_append_dropWhile (p := isspace) (l := seg))
    rw [length_append, length_segment] at hsplit
    by_cases hnil : seg.dropWhile isspace = []
    · -- nothing but white space: the new start is the old one, and holds a terminator
      rw [hnil, length_nil] at hsplit
      rw [if_pos hnil] at hnew
      obtain ⟨n, hn⟩ : ∃ n, (seg.takeWhile isspace).length = n + 1 :=
        ⟨(seg.takeWhile isspace).length - 1, by omega⟩
      have hzero : ∃ r, (trimBack front.2 start (stop - start)).segment start stop = 0 :: r := by
        rw [hback, hfront, hnil, append_nil]
        cases hd : (replicate (seg.takeWhile isspace).length (0 : UInt8)).rdropWhile
            isspace with
        | nil =>
          have := rdropWhile_eq_nil_iff.1 hd 0 (by simp [hn])
          exact absurd this (by decide)
        | cons c r =>
          have hc := (List.rdropWhile_prefix isspace _).subset (hd ▸ mem_cons_self)
          exact ⟨r ++ replicate k 0, by rw [eq_of_mem_replicate hc]; rfl⟩
      obtain ⟨r, hr⟩ := hzero
      rw [hnew, hnil]
      refine ⟨le_refl _, h, fun _ => by omega, ?_⟩
      rw [hr]
      rfl
    · rw [if_neg hnil] at hnew
      have hlt : (seg.takeWhile isspace).length < stop - start := by
        have := length_pos_iff.2 hnil
        omega
      have hkeep : (seg.dropWhile isspace).rdropWhile isspace ≠ [] := by
        intro hnone
        obtain ⟨c, s, hs⟩ := exists_cons_of_ne_nil hnil
        have hc := rdropWhile_eq_nil_iff.1 hnone c (hs ▸ mem_cons_self)
        have := head_dropWhile_not isspace hnil
        simp only [hs, head_cons] at this
        rw [hc] at this
        cases this
      refine ⟨by omega, by omega, fun _ => by omega, ?_⟩
      rw [hfront, rdropWhile_append_of_ne_nil _ hkeep, append_assoc] at hback
      have hdrop : (trimBack front.2 start (stop - start)).segment front.1 stop =
          (seg.dropWhile isspace).rdropWhile isspace ++ replicate k 0 := by
        have happ := segment_append (trimBack front.2 start (stop - start))
          (by omega : start ≤ front.1) (by omega : front.1 ≤ stop)
        rw [hback] at happ
        refine (append_inj happ ?_).2
        rw [length_segment, length_replicate]
        omega
      rw [hdrop]
      cases k with
      | zero => simp
      | succ k => exact text_append_nul _ _

/-! ### Comments -/

/-- The test for a comment in the buffer: `#`, or `//` if there are two bytes. -/
def isComment (data : Buffer UInt8) (start dataSize : ℕ) : Prop :=
  data start = 35 ∨ (data start = 47 ∧ start + 1 < dataSize ∧ data (start + 1) = 47)
  deriving Decidable

def CommentLine (line : List UInt8) : Prop := [35] <+: line ∨ [47, 47] <+: line
  deriving Decidable

theorem isComment_iff {start dataSize : ℕ} (hse : start ≤ e) (hed : e ≤ dataSize)
    (he : data e = 0) : isComment data start dataSize ↔ CommentLine (data.segment start e) := by
  rcases Nat.eq_or_lt_of_le hse with rfl | hlt
  · simp [isComment, CommentLine, he]
  · rw [isComment, CommentLine, segment_cons data hlt]
    rcases Nat.eq_or_lt_of_le hlt with rfl | hlt'
    · simp [he, eq_comm]
    · have : start + 1 < dataSize := by omega
      rw [segment_cons data hlt']
      simp [this, eq_comm]

/-! ### Ranges -/

/-- The filter, and the number that is returned. -/
@[ext]
structure Loaded where
  rules : List (Address × Address) := []
  ruleCount : ℕ := 0
  deriving DecidableEq

/-- `m_filter.add_rule`, which takes every pair of addresses of one family. -/
def Loaded.addRule (l : Loaded) (range : Address × Address) : Loaded where
  rules := l.rules ++ [range]
  ruleCount := l.ruleCount + 1

def Loaded.add (l : Loaded) : Option (Address × Address) → Loaded
  | none => l
  | some range => l.addRule range

theorem loadLines_eq (rule : List UInt8 → Option (Address × Address)) (lines : List (List UInt8))
    (l : Loaded) :
    lines.foldl (fun l line => l.add (rule line)) l =
      { rules := l.rules ++ lines.filterMap rule
        ruleCount := l.ruleCount + (lines.filterMap rule).length } := by
  induction lines generalizing l with
  | nil => simp
  | cons line lines ih =>
    rw [foldl_cons, ih]
    cases h : rule line with
    | none => simp [h, Loaded.add]
    | some range =>
      simp only [filterMap_cons, h, Loaded.add, Loaded.addRule, append_assoc,
        singleton_append, length_cons]
      rw [Nat.add_assoc, Nat.add_comm 1]

variable (makeAddress : List UInt8 → Option Address)

/-- The range of two texts: two addresses of one family. -/
def rangeOf (first last : List UInt8) : Option (Address × Address) :=
  match parseIPAddress makeAddress first with
  | none => none
  | some startAddr =>
    match parseIPAddress makeAddress last with
    | none => none
    | some endAddr => if startAddr.isV4 = endAddr.isV4 then some (startAddr, endAddr) else none

/-- The start and the end address of a line, which are trimmed and parsed in the buffer. -/
def parseRange (N : ℕ) (data : Buffer UInt8) (start delimIP stop : ℕ) (l : Loaded) :
    Buffer UInt8 × Loaded :=
  let first := trim data start delimIP
  match parseIPAddress makeAddress (cString N first.2 first.1) with
  | none => (first.2, l)
  | some startAddr =>
    let last := trim first.2 (delimIP + 1) stop
    match parseIPAddress makeAddress (cString N last.2 last.1) with
    | none => (last.2, l)
    | some endAddr =>
      if startAddr.isV4 = endAddr.isV4 then (last.2, l.addRule (startAddr, endAddr))
      else (last.2, l)

theorem cString_trim (data : Buffer UInt8) {start stop : ℕ} (h : start ≤ e)
    (hstop : stop = e ∨ stop = e + 1) (heN : e < N) (he : data e = 0) :
    cString N (trim data start stop).2 (trim data start stop).1 =
      text (trimmed (data.segment start stop)) := by
  obtain ⟨-, hle, hlt, htext⟩ := trim_spec data (by omega : start ≤ stop)
  have hnul : (trim data start stop).2 e = 0 := (nulledIn_trim data start stop).nul he
  rcases hstop with rfl | rfl
  · rw [cString_eq hle heN hnul, htext]
  · have hnew : (trim data start (e + 1)).1 ≤ e := Nat.le_of_lt_succ (hlt (by omega))
    rw [cString_eq hnew heN hnul, ← htext,
      segment_split _ hnew (Nat.lt_succ_self e), hnul, text_append_nul]

theorem parseRange_spec (data : Buffer UInt8) {start delimIP stop : ℕ} (hstart : start ≤ delimIP)
    (hdelim : delimIP < e) (hstop : stop = e ∨ stop = e + 1) (heN : e < N) (hnul : data delimIP = 0)
    (he : data e = 0) (l : Loaded) :
    (parseRange makeAddress N data start delimIP stop l).2 =
        l.add (rangeOf makeAddress (text (trimmed (data.segment start delimIP)))
          (text (trimmed (data.segment (delimIP + 1) stop)))) ∧
      NulledIn data (parseRange makeAddress N data start delimIP stop l).1 start stop := by
  have hfirst := cString_trim data hstart (.inl rfl) (by omega : delimIP < N) hnul
  have hframe := nulledIn_trim data start delimIP
  have hlast := cString_trim (trim data start delimIP).2 (by omega : delimIP + 1 ≤ e) hstop heN
    (hframe.nul he)
  have hsegment : (trim data start delimIP).2.segment (delimIP + 1) stop =
      data.segment (delimIP + 1) stop :=
    segment_congr fun m hm _ => hframe.eq_of_le (by omega)
  rw [hsegment] at hlast
  have hframe₁ : NulledIn data (trim data start delimIP).2 start stop :=
    hframe.mono (le_refl _) (by omega)
  have hframe₂ : NulledIn data (trim (trim data start delimIP).2 (delimIP + 1) stop).2 start
      stop :=
    hframe₁.trans ((nulledIn_trim _ (delimIP + 1) stop).mono (by omega) (le_refl _))
  simp only [parseRange, rangeOf, hfirst, hlast]
  cases parseIPAddress makeAddress (text (trimmed (data.segment start delimIP))) with
  | none => exact ⟨rfl, hframe₁⟩
  | some startAddr =>
    cases parseIPAddress makeAddress (text (trimmed (data.segment (delimIP + 1) stop))) with
    | none => exact ⟨rfl, hframe₂⟩
    | some endAddr =>
      dsimp only
      split_ifs
      · exact ⟨rfl, hframe₂⟩
      · exact ⟨rfl, hframe₂⟩

/-! ### Lines -/

/-- The bytes of a text. -/
def bytes (s : String) : List UInt8 := s.toList.map fun c => UInt8.ofNat c.toNat

/-- What is read from a file in text mode, in which carriage returns are dropped. -/
def content (file : List UInt8) : List UInt8 := file.filter (· ≠ 13)

def lines (file : List UInt8) : List (List UInt8) := (content file).splitOn 10

/-- The loops of a parser with a buffer of `N` bytes (`BUFFER_SIZE` is 2 MiB), and what it does
with a line. -/
def parseFile (N : ℕ) (handle : ℕ → Buffer UInt8 → ℕ → ℕ → Loaded → Buffer UInt8 × Loaded)
    (file : List UInt8) : Loaded :=
  readWindows ⟨10, 0, handle⟩ N (content file) 0 (fun _ => 0) {}

theorem parseFile_eq (hN : 2 ≤ N)
    {handle : ℕ → Buffer UInt8 → ℕ → ℕ → Loaded → Buffer UInt8 × Loaded}
    {rule : List UInt8 → Option (Address × Address)} (hempty : rule [] = none)
    (hhandle : ∀ (dataSize start e : ℕ) (data : Buffer UInt8) (l : Loaded), start ≤ e →
      e ≤ dataSize → dataSize < N → data e = 0 →
        (handle dataSize data start e l).2 = l.add (rule (data.segment start e)) ∧
          NulledIn data (handle dataSize data start e l).1 start (e + 1)) {file : List UInt8}
    (hshort : ∀ line ∈ lines file, line.length < N) :
    parseFile N handle file =
      { rules := (lines file).filterMap rule
        ruleCount := ((lines file).filterMap rule).length } := by
  have hR : Reader.Handles ⟨10, 0, handle⟩ N (fun l line => l.add (rule line)) := by
    intro dataSize start e data l hse hed _ hdN he
    obtain ⟨h₁, h₂⟩ := hhandle dataSize start e data l hse hed hdN he
    exact ⟨h₁, fun m hm => h₂.eq_of_le (by omega)⟩
  have hread := readWindows_eq hR hN (fun l => by simp [hempty, Loaded.add]) (content file) 0
    (fun _ => 0) {} (by omega) (by simp) (by rw [segment_self]; exact hshort)
  rw [parseFile, hread, segment_self, nil_append]
  have hload := loadLines_eq rule (lines file) {}
  simp only [nil_append, Nat.zero_add] at hload
  exact hload

end QBittorrent.IpFilter
