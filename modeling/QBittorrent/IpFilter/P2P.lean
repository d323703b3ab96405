import QBittorrent.IpFilter.Dat
import Mathlib.Data.List.Forall2

/-!
# P2P filter files

Each line of a PeerGuardian text filter is a description and, behind a colon, a range of two
addresses with a dash between them.  `parseP2PFilterFile` looks for the last colon of the line, and
trims the end address together with the terminator behind it.

* `p2p_filter_meets_iff` : when the filter has exactly the ranges of the lines.
-/

namespace QBittorrent.IpFilter

open LineWindow List IPv4Parser Buffer

variable (makeAddress : List UInt8 → Option Address) {c : UInt8} {N : ℕ}

/-- The work of `parseP2PFilterFile` on the line between two positions. -/
def handleP2PLine (N dataSize : ℕ) (data : Buffer UInt8) (start endOfLine : ℕ) (l : Loaded) :
    Buffer UInt8 × Loaded :=
  if isComment data start dataSize then (data, l)
  else
    match findAndNullDelimiter data 58 start (endOfLine + 1) true with
    | (none, data) => (data, l)
    | (some partsDelimiter, data) =>
      match findAndNullDelimiter data 45 (partsDelimiter + 1) (endOfLine + 1) false with
      | (none, data) => (data, l)
      | (some delimIP, data) =>
        parseRange makeAddress N data (partsDelimiter + 1) delimIP (endOfLine + 1) l

/-- `parseP2PFilterFile`, with a buffer of `N` bytes. -/
def parseP2PFilterFile (N : ℕ) (file : List UInt8) : Loaded :=
  parseFile N (handleP2PLine makeAddress N) file

/-! ### What the code takes from a line -/

/-- The range behind the last colon.  The end address is trimmed with the terminator behind it, so
only on the left. -/
def p2pLine (line : List UInt8) : Option (Address × Address) :=
  if CommentLine line ∨ 58 ∉ line then none
  else
    let range := line.rtakeWhile (· ≠ 58)
    if 45 ∈ range then
      rangeOf makeAddress (text (trimmed (cutAt 45 range).1))
        (text ((cutAt 45 range).2.dropWhile isspace))
    else none

theorem rtakeWhile_append (s : List UInt8) {r : List UInt8} (h : c ∉ r) :
    (s ++ c :: r).rtakeWhile (· ≠ c) = r := by
  have hrev : c ∉ r.reverse := by simpa using h
  have hall : r.reverse.takeWhile (fun a => decide (a ≠ c)) = r.reverse :=
    takeWhile_eq_self_iff.2 fun a ha => by
      simp only [decide_eq_true_eq]
      exact fun hac => hrev (hac ▸ ha)
  rw [rtakeWhile, reverse_append, reverse_cons, append_assoc,
    singleton_append, takeWhile_append_stop (by simp), hall, reverse_reverse]

theorem text_trimmed_nul (s : List UInt8) :
    text (trimmed (s ++ [0])) = text (s.dropWhile isspace) := by
  have hdrop : (s ++ [0]).dropWhile isspace = s.dropWhile isspace ++ [0] :=
    dropWhile_append_stop rfl s []
  rw [trimmed]
  split_ifs with h
  · have : s = [] := by
      simp only [length_append, length_singleton] at h
      exact length_eq_zero_iff.1 (by omega)
    subst this
    rfl
  · rw [hdrop, rdropWhile_concat_neg _ _ _ (by decide)]
    exact text_append_nul _ []

theorem handleP2PLine_spec (dataSize start e : ℕ) (data : Buffer UInt8) (l : Loaded)
    (hse : start ≤ e) (hed : e ≤ dataSize) (hdN : dataSize < N) (he : data e = 0) :
    (handleP2PLine makeAddress N dataSize data start e l).2 =
        l.add (p2pLine makeAddress (data.segment start e)) ∧
      NulledIn data (handleP2PLine makeAddress N dataSize data start e l).1 start (e + 1) := by
  have hwhole : data.segment start (e + 1) = data.segment start e ++ [0] := by
    rw [segment_split data hse (Nat.lt_succ_self e), he, segment_self]
  rw [handleP2PLine, p2pLine]
  by_cases hcomment : isComment data start dataSize
  · rw [if_pos hcomment, if_pos (.inl ((isComment_iff hse hed he).1 hcomment))]
    exact ⟨rfl, .refl _ _ _⟩
  have hnocomment : ¬CommentLine (data.segment start e) :=
    fun h => hcomment ((isComment_iff hse hed he).2 h)
  rw [if_neg hcomment]
  have hcolon := findAndNullDelimiter_reverse_spec data 58 start (e + 1)
  rcases hfound : findAndNullDelimiter data 58 start (e + 1) true with ⟨_ | i, data'⟩
  · rw [hfound] at hcolon
    obtain ⟨-, hdata, hmem⟩ | ⟨i, hi, -⟩ := hcolon
    · subst hdata
      rw [hwhole, mem_append, not_or] at hmem
      rw [if_pos (.inr hmem.1)]
      exact ⟨rfl, .refl _ _ _⟩
    · cases hi
  rw [hfound] at hcolon
  obtain ⟨hi, -⟩ | ⟨i, hi, hdata, h₁, h₂, hdelim, hbehind⟩ := hcolon
  · cases hi
  cases hi
  subst hdata
  have hie : i < e := by
    rcases Nat.lt_or_ge i e with h | h
    · exact h
    · rw [show i = e by omega, he] at hdelim
      cases hdelim
  have hrange : data.segment (i + 1) (e + 1) = data.segment (i + 1) e ++ [0] := by
    rw [segment_split data hie (Nat.lt_succ_self e), he, segment_self]
  rw [hrange, mem_append, not_or] at hbehind
  have hline := segment_split data h₁ hie
  rw [hdelim] at hline
  rw [if_neg (not_or.2 ⟨hnocomment, not_not.2 (by rw [hline]; simp)⟩), hline,
    rtakeWhile_append _ hbehind.1]
  have hframe : NulledIn data (data.write i 0) start (e + 1) := .write data h₁ h₂
  have hsegment : ∀ j, (data.write i 0).segment (i + 1) j = data.segment (i + 1) j :=
    fun j => segment_write_of_lt data _ (Nat.lt_succ_self i)
  have hdash := findAndNullDelimiter_spec (data.write i 0) 45 (i + 1) (e + 1)
  dsimp only
  rcases hfound : findAndNullDelimiter (data.write i 0) 45 (i + 1) (e + 1) false with
    ⟨_ | j, data'⟩
  · rw [hfound, hsegment, hrange, mem_append, not_or] at hdash
    obtain ⟨-, hdata, hmem, -⟩ | ⟨j, hj, -⟩ := hdash
    · subst hdata
      rw [if_neg hmem]
      exact ⟨rfl, hframe⟩
    · cases hj
  · rw [hfound] at hdash
    obtain ⟨hj, -⟩ | ⟨j, hj, hdata, h₃, h₄, hdelim', hbefore⟩ := hdash
    · cases hj
    cases hj
    subst hdata
    have hje : j < e := by
      rcases Nat.lt_or_ge j e with h | h
      · exact h
      · rw [show j = e by omega, write_of_ne data _ (by omega), he] at hdelim'
        cases hdelim'
    rw [write_of_ne data _ (by omega)] at hdelim'
    rw [hsegment] at hbefore
    obtain ⟨hloaded, hframe'⟩ := parseRange_spec makeAddress ((data.write i 0).write j 0) h₃ hje
      (.inr rfl) (by omega : e < N) (write_self _ _ _)
      (by rw [write_of_ne _ _ (by omega), write_of_ne data _ (by omega), he]) l
    rw [segment_write_of_le _ _ (le_refl _), hsegment,
      segment_write_of_lt _ _ (Nat.lt_succ_self j),
      segment_write_of_lt data _ (by omega : i < j + 1),
      segment_split data hje (Nat.lt_succ_self e), he, segment_self,
      text_trimmed_nul] at hloaded
    rw [segment_split data h₃ hje, hdelim', if_pos (by simp), cutAt_append hbefore]
    exact ⟨hloaded, hframe.trans ((NulledIn.write (data.write i 0) (by omega) h₄).trans
      (hframe'.mono (by omega) (le_refl _)))⟩

theorem parseP2PFilterFile_eq (hN : 2 ≤ N) {file : List UInt8}
    (hshort : ∀ line ∈ lines file, line.length < N) :
    parseP2PFilterFile makeAddress N file =
      { rules := (lines file).filterMap (p2pLine makeAddress)
        ruleCount := ((lines file).filterMap (p2pLine makeAddress)).length } :=
  parseFile_eq hN rfl
    (fun dataSize start e data l => handleP2PLine_spec makeAddress dataSize start e data l) hshort

/-! ### The grammar -/

/-- A valid address.  What is taken for IPv4 has no colon. -/
def IsAddress (t : List UInt8) (a : Address) : Prop :=
  parseIPAddress makeAddress (text t) = some a ∧ (a.isV4 = true → 58 ∉ t)

/-- A line `description:start-end` with two valid addresses of one family, each with white space
around it that is trimmed as in a DAT file. -/
def P2PRange (line : List UInt8) (range : Address × Address) : Prop :=
  ∃ desc s e, line = desc ++ 58 :: (s ++ 45 :: e) ∧ 45 ∉ s ∧
    IsAddress makeAddress (trimmed s) range.1 ∧ IsAddress makeAddress (trimmed e) range.2 ∧
      range.1.isV4 = range.2.isV4

/-- What a line adds: nothing if it is a comment, its range if it has one, and nothing else. -/
def P2PLineMeets (line : List UInt8) (added : List (Address × Address)) : Prop :=
  if CommentLine line then added = []
  else
    (∃ range, P2PRange makeAddress line range ∧ added = [range]) ∨
      ((¬∃ range, P2PRange makeAddress line range) ∧ added = [])

/-- The filter of a file is what its lines add, in order. -/
def P2PFileMeets (file : List UInt8) (l : Loaded) : Prop :=
  ∃ added, List.Forall₂ (P2PLineMeets makeAddress) (lines file) added ∧
    l.rules = added.flatten ∧ l.ruleCount = added.flatten.length

/-- No white space is behind the address, or there is a fourth dot in front of it. -/
def EndsPlain (t : List UInt8) : Prop :=
  (∀ c, t.getLast? = some c → isspace c = false) ∨ 4 ≤ t.count 46

/-- A line with two IPv4 addresses, the second of which ends plain. -/
def Accepted (line : List UInt8) : Prop :=
  ∃ desc s e first last, line = desc ++ 58 :: (s ++ 45 :: e) ∧ 45 ∉ s ∧
    IsAddress makeAddress (trimmed s) first ∧ IsAddress makeAddress (trimmed e) last ∧
      first.isV4 = true ∧ last.isV4 = true ∧ EndsPlain (text (e.dropWhile isspace))

/-- What is documented of `make_address`: an IPv4 address is a dotted quad, which `IPv4Parser` reads
as well, and an IPv6 address has a colon. -/
structure Documented : Prop where
  v4 : ∀ t a, makeAddress t = some a → a.isV4 = true →
    ∃ buf, IPv4Parser.tryParse t = some buf
  v6 : ∀ t a, makeAddress t = some a → a.isV4 = false → 58 ∈ t

variable {makeAddress} {t s line : List UInt8} {range : Address × Address}

theorem tryParse_of_parseIPAddress (hdoc : Documented makeAddress) {a : Address} (ht : 58 ∉ t)
    (h : parseIPAddress makeAddress t = some a) :
    a.isV4 = true ∧ ∃ buf, IPv4Parser.tryParse t = some buf ∧ a = addressV4 buf := by
  rw [parseIPAddress] at h
  cases hparse : tryParse t with
  | some buf =>
    rw [hparse] at h
    cases h
    exact ⟨rfl, buf, rfl, rfl⟩
  | none =>
    rw [hparse] at h
    cases ha : a.isV4 with
    | true =>
      obtain ⟨buf, hbuf⟩ := hdoc.v4 t a h ha
      rw [hparse] at hbuf
      cases hbuf
    | false => exact absurd (hdoc.v6 t a h ha) ht

theorem parseIPAddress_of_tryParse {buf : List UInt8} (h : IPv4Parser.tryParse t = some buf) :
    parseIPAddress makeAddress t = some (addressV4 buf) := by
  rw [parseIPAddress, h]

theorem tryParse_of_length_le_one (h : t.length ≤ 1) : IPv4Parser.tryParse t = none := by
  rcases t with _ | ⟨c, _ | ⟨d, t⟩⟩
  · rfl
  · by_cases hc : c = 46
    · subst hc
      rfl
    · rw [tryParse, tryParseFrom_cons _ _ _ hc]
      cases hfrom : tryParseFrom [] [c] (0 + 1) [] with
      | none => rfl
      | some x => exact absurd (of_tryParseFrom_nil hfrom).1 (by decide)
  · simp only [length_cons] at h
    omega

theorem mem_trimmed (hc : isspace c = false) (h : c ∈ s) : c ∈ trimmed s := by
  rw [trimmed]
  split_ifs
  · exact h
  · have hdrop : c ∈ s.dropWhile isspace := by
      rw [← takeWhile_append_dropWhile (p := isspace) (l := s), mem_append] at h
      rcases h with h | h
      · have := mem_takeWhile_imp h
        rw [hc] at this
        cases this
      · exact h
    rw [← rdropWhile_append_rtakeWhile (p := isspace) (l := s.dropWhile isspace),
      mem_append] at hdrop
    rcases hdrop with h | h
    · exact h
    · have := mem_rtakeWhile_imp h
      rw [hc] at this
      cases this

theorem mem_of_mem_trimmed (h : c ∈ trimmed s) : c ∈ s := by
  rw [trimmed] at h
  split_ifs at h
  · exact h
  · exact (dropWhile_suffix _).subset ((List.rdropWhile_prefix _ _).subset h)

theorem mem_of_mem_text (h : c ∈ text s) : c ∈ s :=
  (List.takeWhile_prefix _).subset h

theorem text_dropWhile {e : List UInt8} (h : ¬e.length ≤ 1) :
    ∃ w, (∀ c ∈ w, isspace c = true) ∧ text (e.dropWhile isspace) = text (trimmed e) ++ w := by
  rw [trimmed, if_neg h]
  set d := e.dropWhile isspace
  have hsplit := rdropWhile_append_rtakeWhile (p := isspace) (l := d)
  have hblank : ∀ c ∈ d.rtakeWhile isspace, isspace c = true :=
    fun c hc => mem_rtakeWhile_imp hc
  by_cases hnul : 0 ∈ d.rdropWhile isspace
  · obtain ⟨u, v, huv⟩ := append_of_mem hnul
    refine ⟨[], by simp, ?_⟩
    rw [huv, append_assoc, cons_append] at hsplit
    rw [huv, text_append_nul, ← hsplit, text_append_nul, append_nil]
  · refine ⟨d.rtakeWhile isspace, hblank, ?_⟩
    have htext : ∀ s : List UInt8, 0 ∉ s → text s = s := fun s hs =>
      takeWhile_eq_self_iff.2 fun c hc => by
        simp only [decide_eq_true_eq]
        exact fun h0 => hs (h0 ▸ hc)
    rw [htext _ hnul, htext d ?_, hsplit]
    rw [← hsplit, mem_append, not_or]
    exact ⟨hnul, fun h0 => absurd (hblank 0 h0) (by decide)⟩

/-! ### The lines that are read as they should be -/

theorem rangeOf_eq_some {first last : List UInt8} :
    rangeOf makeAddress first last = some range ↔
      parseIPAddress makeAddress first = some range.1 ∧
        parseIPAddress makeAddress last = some range.2 ∧ range.1.isV4 = range.2.isV4 := by
  rw [rangeOf]
  cases h₁ : parseIPAddress makeAddress first with
  | none => simp
  | some a =>
    cases h₂ : parseIPAddress makeAddress last with
    | none => simp
    | some b =>
      obtain ⟨r₁, r₂⟩ := range
      dsimp only
      split_ifs with hfamily
      · simp only [Option.some.injEq, Prod.mk.injEq]
        constructor
        · rintro ⟨rfl, rfl⟩
          exact ⟨rfl, rfl, hfamily⟩
        · rintro ⟨rfl, rfl, -⟩
          exact ⟨rfl, rfl⟩
      · simp only [Option.some.injEq, false_iff]
        rintro ⟨rfl, rfl, h⟩
        exact hfamily h

theorem p2pLine_eq_some :
    p2pLine makeAddress line = some range ↔
      ¬CommentLine line ∧ ∃ desc s e, line = desc ++ 58 :: (s ++ 45 :: e) ∧ 58 ∉ s ∧ 58 ∉ e ∧
        45 ∉ s ∧ rangeOf makeAddress (text (trimmed s)) (text (e.dropWhile isspace)) =
          some range := by
  constructor
  · intro h
    rw [p2pLine] at h
    by_cases hno : CommentLine line ∨ 58 ∉ line
    · rw [if_pos hno] at h
      cases h
    rw [if_neg hno] at h
    rw [not_or, not_not] at hno
    obtain ⟨v, u, huv, hu⟩ : ∃ v u, line = v ++ 58 :: u ∧ 58 ∉ u := by
      obtain ⟨a, b, hab, ha⟩ := eq_append_cons_of_mem (mem_reverse.2 hno.2)
      refine ⟨b.reverse, a.reverse, ?_, by simpa using ha⟩
      rw [← reverse_reverse line, hab]
      simp
    rw [huv, rtakeWhile_append _ hu] at h
    by_cases hdash : 45 ∈ u
    · obtain ⟨s, e, hse, hs⟩ := eq_append_cons_of_mem hdash
      rw [if_pos hdash, hse, cutAt_append hs] at h
      rw [hse, mem_append, mem_cons, not_or, not_or] at hu
      exact ⟨hno.1, v, s, e, by rw [huv, hse], hu.1, hu.2.2, hs, h⟩
    · rw [if_neg hdash] at h
      cases h
  · rintro ⟨hcomment, desc, s, e, rfl, hs, he, hdash, hrange⟩
    have hu : 58 ∉ s ++ 45 :: e := by
      rw [mem_append, mem_cons, not_or, not_or]
      exact ⟨hs, by decide, he⟩
    rw [p2pLine, if_neg (not_or.2 ⟨hcomment, not_not.2 (by simp)⟩)]
    rw [rtakeWhile_append _ hu, if_pos (by simp), cutAt_append hdash]
    exact hrange

theorem range_of_p2pLine (hdoc : Documented makeAddress)
    (h : p2pLine makeAddress line = some range) :
    ¬CommentLine line ∧ P2PRange makeAddress line range ∧ Accepted makeAddress line := by
  obtain ⟨hcomment, desc, s, e, hline, hs, he, hdash, hrange⟩ := p2pLine_eq_some.1 h
  obtain ⟨hfirst, hlast, hfamily⟩ := rangeOf_eq_some.1 hrange
  obtain ⟨hfirst4, -⟩ := tryParse_of_parseIPAddress hdoc
    (fun hc => hs (mem_of_mem_trimmed (mem_of_mem_text hc))) hfirst
  obtain ⟨hlast4, buf, hbuf, hval⟩ := tryParse_of_parseIPAddress hdoc
    (fun hc => he ((dropWhile_suffix _).subset (mem_of_mem_text hc))) hlast
  have hlong : ¬e.length ≤ 1 := by
    intro hle
    have hshort : (text (e.dropWhile isspace)).length ≤ 1 :=
      ((List.takeWhile_prefix _).length_le.trans (dropWhile_suffix _).length_le).trans hle
    rw [tryParse_of_length_le_one hshort] at hbuf
    cases hbuf
  obtain ⟨w, hw, htext⟩ := text_dropWhile hlong
  have htrim : parseIPAddress makeAddress (text (trimmed e)) = some range.2 := by
    rw [htext] at hbuf
    rw [parseIPAddress_of_tryParse (tryParse_of_append_blanks hw hbuf), hval]
  have hadrs : IsAddress makeAddress (trimmed s) range.1 ∧
      IsAddress makeAddress (trimmed e) range.2 :=
    ⟨⟨hfirst, fun _ hc => hs (mem_of_mem_trimmed hc)⟩,
      ⟨htrim, fun _ hc => he (mem_of_mem_trimmed hc)⟩⟩
  refine ⟨hcomment, ⟨desc, s, e, hline, hdash, hadrs.1, hadrs.2, hfamily⟩,
    ⟨desc, s, e, range.1, range.2, hline, hdash, hadrs.1, hadrs.2, hfirst4, hlast4, ?_⟩⟩
  -- white space that did no harm is behind a fourth dot
  by_cases hplain : ∀ c, (text (e.dropWhile isspace)).getLast? = some c → isspace c = false
  · exact .inl hplain
  · push Not at hplain
    obtain ⟨c, hc, hspace⟩ := hplain
    exact .inr (dots_of_tryParse (by simpa using hspace) hc hbuf)

theorem p2pLine_of_accepted (hdoc : Documented makeAddress) (hcomment : ¬CommentLine line)
    (h : Accepted makeAddress line) : ∃ range, p2pLine makeAddress line = some range := by
  obtain ⟨desc, s, e, first, last, hline, hdash, hfirst, hlast, hfirst4, hlast4, hends⟩ := h
  have hs : 58 ∉ s := fun hc => hfirst.2 hfirst4 (mem_trimmed (by decide) hc)
  have he : 58 ∉ e := fun hc => hlast.2 hlast4 (mem_trimmed (by decide) hc)
  obtain ⟨-, buf, hbuf, hval⟩ := tryParse_of_parseIPAddress hdoc
    (fun hc => he (mem_of_mem_trimmed (mem_of_mem_text hc))) hlast.1
  have hlong : ¬e.length ≤ 1 := by
    intro hle
    have hshort : (text (trimmed e)).length ≤ 1 := by
      rw [trimmed, if_pos hle]
      exact (List.takeWhile_prefix _).length_le.trans hle
    rw [tryParse_of_length_le_one hshort] at hbuf
    cases hbuf
  obtain ⟨w, hw, htext⟩ := text_dropWhile hlong
  have hparse : tryParse (text (e.dropWhile isspace)) = some buf := by
    rcases hends with hplain | hdots
    · have hnil : w = [] := by
        by_contra hne
        have hw' := hw _ (getLast_mem hne)
        have := hplain (w.getLast hne) (by
          rw [htext, getLast?_append, getLast?_eq_some_getLast hne, Option.some_or])
        rw [hw'] at this
        cases this
      rw [htext, hnil, append_nil]
      exact hbuf
    · rw [htext, count_append,
        count_eq_zero.2 (not_dot_of_blanks hw)] at hdots
      rw [htext]
      exact tryParse_append_of_dots w hdots hbuf
  refine ⟨(first, last), p2pLine_eq_some.2 ⟨hcomment, desc, s, e, hline, hs, he, hdash, ?_⟩⟩
  exact rangeOf_eq_some.2
    ⟨hfirst.1, by rw [parseIPAddress_of_tryParse hparse, hval], hfirst4.trans hlast4.symm⟩

theorem forall₂_length_eq {α β : Type*} {f : α → Option β} {as : List α} {bss : List (List β)}
    (h : List.Forall₂ (fun a bs => (f a).toList.length ≤ bs.length) as bss)
    (hlength : bss.flatten.length = (as.filterMap f).length) :
    List.Forall₂ (fun a bs => (f a).toList.length = bs.length) as bss := by
  have hle : ∀ {as bss}, Forall₂ (fun a (bs : List β) => (f a).toList.length ≤ bs.length)
      as bss → (as.filterMap f).length ≤ bss.flatten.length := by
    intro as bss h
    induction h with
    | nil => simp
    | cons hab _ ih =>
      rw [filterMap_cons, flatten_cons, length_append]
      split <;> simp_all <;> omega
  induction h with
  | nil => exact .nil
  | @cons a bs as bss hab hrest ih =>
    have := hle hrest
    have hcons : (filterMap f (a :: as)).length =
        (f a).toList.length + (as.filterMap f).length := by
      rw [filterMap_cons]
      cases f a with
      | none => simp
      | some b => simp [Nat.add_comm]
    rw [flatten_cons, length_append, hcons] at hlength
    exact .cons (by omega) (ih (by omega))

theorem forall_mem_of_forall₂ {α β : Type*} {P : α → Prop} {as : List α} {bs : List β}
    (h : List.Forall₂ (fun a _ => P a) as bs) : ∀ a ∈ as, P a := by
  induction h with
  | nil => simp
  | cons hab _ ih => exact forall_mem_cons.2 ⟨hab, ih⟩

/-- **P2P filter files.**  The filter of a file is what its lines add, exactly if every line of the
form `description:start-end` with two valid addresses of one family has two IPv4 addresses, and no
white space behind the second. -/
theorem p2p_filter_meets_iff (hdoc : Documented makeAddress) {N : ℕ} (hN : 2 ≤ N)
    (file : List UInt8) (hshort : ∀ line ∈ lines file, line.length < N) :
    P2PFileMeets makeAddress file (parseP2PFilterFile makeAddress N file) ↔
      ∀ line ∈ lines file, ¬CommentLine line → (∃ range, P2PRange makeAddress line range) →
        Accepted makeAddress line := by
  rw [parseP2PFilterFile_eq makeAddress hN hshort]
  constructor
  · rintro ⟨added, hmeets, -, hcount⟩
    have hle : Forall₂ (fun line bs => (p2pLine makeAddress line).toList.length ≤ bs.length)
        (lines file) added := by
      refine Forall₂.imp (fun line bs hline => ?_) hmeets
      cases h : p2pLine makeAddress line with
      | none => exact Nat.zero_le _
      | some range =>
        obtain ⟨hcomment, hrange, -⟩ := range_of_p2pLine hdoc h
        rw [P2PLineMeets, if_neg hcomment] at hline
        obtain ⟨r, -, rfl⟩ | ⟨hnone, -⟩ := hline
        · exact le_refl _
        · exact absurd ⟨range, hrange⟩ hnone
    have heq := forall₂_length_eq hle hcount.symm
    refine forall_mem_of_forall₂ (Forall₂.mp (fun line bs hline hlength => ?_) hmeets heq)
    intro hcomment hrange
    rw [P2PLineMeets, if_neg hcomment] at hline
    obtain ⟨r, -, rfl⟩ | ⟨hnone, -⟩ := hline
    · cases h : p2pLine makeAddress line with
      | none =>
        rw [h] at hlength
        cases hlength
      | some range => exact (range_of_p2pLine hdoc h).2.2
    · exact absurd hrange hnone
  · intro haccepted
    have hflatten : (lines file).filterMap (p2pLine makeAddress) =
        ((lines file).map fun line => (p2pLine makeAddress line).toList).flatten := by
      rw [filterMap_eq_flatMap_toList, flatMap_def]
    refine ⟨(lines file).map fun line => (p2pLine makeAddress line).toList, ?_, hflatten,
      congrArg length hflatten⟩
    refine forall₂_map_right_iff.2 (forall₂_same.2 fun line hline => ?_)
    rw [P2PLineMeets]
    by_cases hcomment : CommentLine line
    · rw [if_pos hcomment, p2pLine, if_pos (.inl hcomment)]
      rfl
    rw [if_neg hcomment]
    by_cases hrange : ∃ range, P2PRange makeAddress line range
    · obtain ⟨range, h⟩ := p2pLine_of_accepted hdoc hcomment (haccepted line hline hcomment hrange)
      exact .inl ⟨range, (range_of_p2pLine hdoc h).2.1, by rw [h]; rfl⟩
    · refine .inr ⟨hrange, ?_⟩
      cases h : p2pLine makeAddress line with
      | none => rfl
      | some range => exact absurd ⟨range, (range_of_p2pLine hdoc h).2.1⟩ hrange

/-- A line with a comment above it, of which a buffer of 40 bytes holds a part. -/
def plainFile : List UInt8 := bytes "# a:1.2.3.4-1.2.3.5\r\nSome: org-x: 1.0.0.0 -1.255.255.255\r\n"

theorem documented_none : Documented fun _ => none := by
  constructor
  · intro t a h
    cases h
  · intro t a h
    cases h

theorem p2p_filter_meets_iff_plainFile :
    P2PFileMeets (fun _ => none) plainFile (parseP2PFilterFile (fun _ => none) 40 plainFile) := by
  refine (p2p_filter_meets_iff documented_none (by decide) plainFile (by decide)).2 ?_
  have hlines : lines plainFile =
      [bytes "# a:1.2.3.4-1.2.3.5", bytes "Some: org-x: 1.0.0.0 -1.255.255.255", []] := by decide
  rw [hlines]
  intro line hline hcomment hrange
  simp only [mem_cons, not_mem_nil, or_false] at hline
  rcases hline with rfl | rfl | rfl
  · exact absurd (by decide) hcomment
  · refine ⟨bytes "Some: org-x", bytes " 1.0.0.0 ", bytes "1.255.255.255", .v4 0x01000000,
      .v4 0x01ffffff, by decide, by decide, ⟨by decide, by decide⟩, ⟨by decide, by decide⟩, rfl,
      rfl, .inl ?_⟩
    intro c hc
    cases hc
    rfl
  · obtain ⟨_, desc, s, e, hline, -⟩ := hrange
    simp at hline

/-- White space at the end of a line. -/
def blankFile : List UInt8 := bytes "a:1.2.3.4-1.2.3.5 \n"

/-- The range of a line with white space at its end is lost. -/
theorem blankFile_range_lost :
    ¬P2PFileMeets (fun _ => none) blankFile
      (parseP2PFilterFile (fun _ => none) 32 blankFile) := by
  rw [parseP2PFilterFile_eq _ (by decide) (by decide)]
  rintro ⟨added, hmeets, hrules, -⟩
  have hlines : lines blankFile = [bytes "a:1.2.3.4-1.2.3.5 ", []] := by decide
  have hnone : (lines blankFile).filterMap (p2pLine fun _ => none) = [] := by decide
  rw [hnone] at hrules
  obtain ⟨first, added, hfirst, -, rfl⟩ := forall₂_cons_left_iff.1 hmeets
  obtain ⟨range, -, rfl⟩ | ⟨hno, -⟩ := hfirst
  · simp at hrules
  · exact hno ⟨(.v4 0x01020304, .v4 0x01020305), bytes "a", bytes "1.2.3.4", bytes "1.2.3.5 ",
      by decide, by decide, ⟨by decide, by decide⟩, ⟨by decide, by decide⟩, rfl⟩

end QBittorrent.IpFilter
