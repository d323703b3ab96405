import QBittorrent.IpFilter.TextFile

/-!
# DAT filter files

Each line of an eMule filter is a range of two addresses with a dash between them, then optionally
an access level and a description behind commas.  `parseDATFilterFile` splits the line in place,
in a buffer that holds a part of the file.

* `dat_filter_eq_lines` : the filter is that of the lines, whatever the buffer cuts.
-/

namespace QBittorrent.IpFilter

open LineWindow Buffer List

variable (makeAddress : List UInt8 → Option Address) {N : ℕ} {c : UInt8} {s : List UInt8}

/-- The work of `parseDATFilterFile` on the line between two positions. -/
def handleDATLine (N dataSize : ℕ) (data : Buffer UInt8) (start endOfLine : ℕ) (l : Loaded) :
    Buffer UInt8 × Loaded :=
  if isComment data start dataSize then (data, l)
  else
    match findAndNullDelimiter data 44 start (endOfLine + 1) false with
    | (none, data) =>
      match findAndNullDelimiter data 45 start endOfLine false with
      | (none, data) => (data, l)
      | (some delimIP, data) => parseRange makeAddress N data start delimIP endOfLine l
    | (some firstComma, data) =>
      let data := (findAndNullDelimiter data 44 (firstComma + 1) (endOfLine + 1) false).2
      -- ignoring this rule because the access value is too high
      if 127 < (strtol (cString N data (firstComma + 1))).1 then (data, l)
      else
        match findAndNullDelimiter data 45 start firstComma false with
        | (none, data) => (data, l)
        | (some delimIP, data) => parseRange makeAddress N data start delimIP firstComma l

/-- `parseDATFilterFile`, with a buffer of `N` bytes. -/
def parseDATFilterFile (N : ℕ) (file : List UInt8) : Loaded :=
  parseFile N (handleDATLine makeAddress N) file

/-! ### The grammar -/

/-- What is in front of the first `c`, and what is behind it. -/
def cutAt (c : UInt8) (s : List UInt8) : List UInt8 × List UInt8 :=
  (s.takeWhile (· ≠ c), (s.dropWhile (· ≠ c)).tail)

/-- A range of two addresses with a dash between them. -/
def dashedRange (s : List UInt8) : Option (Address × Address) :=
  if 45 ∈ s then
    rangeOf makeAddress (text (trimmed (cutAt 45 s).1)) (text (trimmed (cutAt 45 s).2))
  else none

/-- The range of a line on its own: `start - end , access , description`. -/
def datLine (line : List UInt8) : Option (Address × Address) :=
  if CommentLine line then none
  else
    let fields := cutAt 44 line
    let access := strtol (text (cutAt 44 fields.2).1)
    if 127 < access.1 then none else dashedRange makeAddress fields.1

theorem cutAt_append (h : c ∉ s) (r : List UInt8) : cutAt c (s ++ c :: r) = (s, r) := by
  have hs : s.takeWhile (· ≠ c) = s :=
    takeWhile_eq_self_iff.2 fun a ha => by
      simp only [decide_eq_true_eq]
      exact fun hac => h (hac ▸ ha)
  rw [cutAt, takeWhile_append_stop (by simp), dropWhile_append_stop (by simp), hs,
    dropWhile_eq_nil_iff.2 fun a ha => by
      simp only [decide_eq_true_eq]
      exact fun hac => h (hac ▸ ha)]
  rfl

theorem cutAt_of_not_mem (h : c ∉ s) : cutAt c s = (s, []) := by
  have hall : ∀ a ∈ s, decide (a ≠ c) = true := fun a ha => by
    simp only [decide_eq_true_eq]
    exact fun hac => h (hac ▸ ha)
  rw [cutAt, takeWhile_eq_self_iff.2 hall, dropWhile_eq_nil_iff.2 hall]
  rfl

/-! ### The line in the buffer -/

theorem dash_spec (data : Buffer UInt8) {start stop : ℕ} (hN : stop < N) (hstop : data stop = 0)
    (l : Loaded) {r : Buffer UInt8 × Loaded}
    (hr : r = match findAndNullDelimiter data 45 start stop false with
      | (none, data) => (data, l)
      | (some delimIP, data) => parseRange makeAddress N data start delimIP stop l) :
    r.2 = l.add (dashedRange makeAddress (data.segment start stop)) ∧
      NulledIn data r.1 start stop := by
  have hfind := findAndNullDelimiter_spec data 45 start stop
  rcases hfound : findAndNullDelimiter data 45 start stop false with ⟨_ | delimIP, data'⟩
  · rw [hfound] at hr hfind
    obtain ⟨-, hdata, hmem⟩ | ⟨i, hi, -⟩ := hfind
    · subst hr hdata
      rw [dashedRange, if_neg hmem]
      exact ⟨rfl, .refl _ _ _⟩
    · cases hi
  · rw [hfound] at hr hfind
    obtain ⟨hi, -⟩ | ⟨i, hi, hdata, h₁, h₂, hdash, hbefore⟩ := hfind
    · cases hi
    · cases hi
      subst hr hdata
      obtain ⟨hrange, hframe⟩ := parseRange_spec makeAddress (data.write delimIP 0) h₁ h₂
        (.inl rfl) hN (write_self _ _ _)
        (by rw [write_of_ne data _ (by omega), hstop]) l
      refine ⟨?_, (NulledIn.write data h₁ h₂).trans hframe⟩
      rw [hrange, segment_write_of_le data _ (le_refl _),
        segment_write_of_lt data _ (Nat.lt_succ_self _), dashedRange,
        segment_split data h₁ h₂, hdash, if_pos (by simp), cutAt_append hbefore]

theorem access_spec (data : Buffer UInt8) {start e : ℕ} (h : start ≤ e) (hN : e < N)
    (he : data e = 0) :
    let data' := (findAndNullDelimiter data 44 start (e + 1) false).2
    cString N data' start = text (cutAt 44 (data.segment start e)).1 ∧
      NulledIn data data' start e := by
  obtain ⟨-, hdata, hmem⟩ | ⟨i, -, hdata, h₁, h₂, hcomma, hbefore⟩ :=
    findAndNullDelimiter_spec data 44 start (e + 1)
  · simp only [hdata]
    refine ⟨?_, .refl _ _ _⟩
    rw [segment_split data h (Nat.lt_succ_self e), mem_append, not_or] at hmem
    rw [cString_eq h hN he, cutAt_of_not_mem hmem.1]
  · have hie : i < e := by
      rcases Nat.lt_or_ge i e with h | h
      · exact h
      · rw [show i = e by omega, he] at hcomma
        cases hcomma
    simp only [hdata]
    refine ⟨?_, .write data h₁ hie⟩
    rw [cString_eq h₁ (by omega) (write_self _ _ _),
      segment_write_of_le data _ (le_refl _), segment_split data h₁ hie, hcomma,
      cutAt_append hbefore]

theorem handleDATLine_spec (dataSize start e : ℕ) (data : Buffer UInt8) (l : Loaded)
    (hse : start ≤ e) (hed : e ≤ dataSize) (hdN : dataSize < N) (he : data e = 0) :
    (handleDATLine makeAddress N dataSize data start e l).2 =
        l.add (datLine makeAddress (data.segment start e)) ∧
      NulledIn data (handleDATLine makeAddress N dataSize data start e l).1 start (e + 1) := by
  rw [handleDATLine, datLine]
  by_cases hcomment : isComment data start dataSize
  · rw [if_pos hcomment, if_pos ((isComment_iff hse hed he).1 hcomment)]
    exact ⟨rfl, .refl _ _ _⟩
  · rw [if_neg hcomment, if_neg fun h => hcomment ((isComment_iff hse hed he).2 h)]
    have hfind := findAndNullDelimiter_spec data 44 start (e + 1)
    rcases hfound : findAndNullDelimiter data 44 start (e + 1) false with ⟨_ | i, data'⟩
    · rw [hfound] at hfind
      obtain ⟨-, hdata, hmem⟩ | ⟨i, hi, -⟩ := hfind
      · -- no comma: the range goes to the end of the line
        subst hdata
        rw [segment_split data' hse (Nat.lt_succ_self e), mem_append, not_or] at hmem
        rw [cutAt_of_not_mem hmem.1]
        obtain ⟨hrange, hframe⟩ := dash_spec makeAddress data' (by omega : e < N) he l rfl
        exact ⟨hrange, hframe.mono (le_refl _) (by omega)⟩
      · cases hi
    · rw [hfound] at hfind
      obtain ⟨hi, -⟩ | ⟨i, hi, hdata, h₁, h₂, hcomma, hbefore⟩ := hfind
      · cases hi
      · cases hi
        subst hdata
        have hie : i < e := by
          rcases Nat.lt_or_ge i e with h | h
          · exact h
          · rw [show i = e by omega, he] at hcomma
            cases hcomma
        obtain ⟨haccess, hframe⟩ := access_spec (data.write i 0) (by omega : i + 1 ≤ e)
          (by omega : e < N) (by rw [write_of_ne data _ (by omega), he])
        rw [segment_write_of_lt data _ (Nat.lt_succ_self i)] at haccess
        have hcut : cutAt 44 (data.segment start e) =
            (data.segment start i, data.segment (i + 1) e) := by
          rw [segment_split data h₁ hie, hcomma, cutAt_append hbefore]
        rw [hcut]
        dsimp only
        set data₂ := (findAndNullDelimiter (data.write i 0) 44 (i + 1) (e + 1) false).2
        have hframe₁ : NulledIn data data₂ start (e + 1) :=
          (NulledIn.write data h₁ h₂).trans (hframe.mono (by omega) (by omega))
        rw [haccess]
        split_ifs
        · exact ⟨rfl, hframe₁⟩
        · have hnul : data₂ i = 0 := hframe.nul (write_self _ _ _)
          obtain ⟨hrange, hframe₂⟩ :=
            @dash_spec makeAddress N data₂ start i (by omega) hnul l _ rfl
          have hsegment : data₂.segment start i = data.segment start i := by
            refine segment_congr fun m _ hm => ?_
            rw [hframe.eq_of_lt (by omega), write_of_ne data _ (by omega)]
          rw [hsegment] at hrange
          exact ⟨hrange, hframe₁.trans (hframe₂.mono (le_refl _) (by omega))⟩

/-- **DAT filter files.**  The filter, and the number that is returned, are those of the lines,
each parsed alone, wherever the ends of the buffer fall in the file: a line that is cut is neither
lost nor read twice. -/
theorem dat_filter_eq_lines {N : ℕ} (hN : 2 ≤ N) (file : List UInt8)
    (hshort : ∀ line ∈ lines file, line.length < N) :
    parseDATFilterFile makeAddress N file =
      { rules := (lines file).filterMap (datLine makeAddress)
        ruleCount := ((lines file).filterMap (datLine makeAddress)).length } :=
  parseFile_eq hN rfl
    (fun dataSize start e data l => handleDATLine_spec makeAddress dataSize start e data l) hshort

/-- Two ranges, of which a buffer of 24 bytes cuts the second one. -/
def twoRanges : List UInt8 :=
  bytes "1.2.3.4 - 1.2.3.5\r\n1.2.4.0-1.2.4.9 , 99 ,a\n"

theorem dat_filter_eq_lines_twoRanges :
    parseDATFilterFile (fun _ => none) 24 twoRanges =
      { rules := [(.v4 0x01020304, .v4 0x01020305), (.v4 0x01020400, .v4 0x01020409)]
        ruleCount := 2 } := by
  rw [dat_filter_eq_lines (fun _ => none) (by decide) twoRanges (by decide)]
  decide

end QBittorrent.IpFilter
