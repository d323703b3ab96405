import Mathlib.Tactic.Common

/-!
# Binary IP filter files

`parseP2BFilterFile` reads PeerGuardian lists: a header with a version, then records of a name and
two addresses (versions 1 and 2), or a table of names and records of an index and two addresses
(version 3).  A read returns what is left of the file when that is less than was asked for, and is
taken for a failure only if it returns nothing, so the rest of the variable keeps what was there.

* `loadNamedRanges_eq` : what the loop adds;
* `rules_eq_complete_iff` : when it is the complete records.
-/

namespace QBittorrent.P2B

open List Option

/-! ### Reading -/

/-- `QDataStream::readRawData` from a file: what was read, and the rest. -/
def readRawData (n : ℕ) (stream : List UInt8) : List UInt8 × List UInt8 :=
  (stream.take n, stream.drop n)

/-- The memory of a variable. -/
abbrev Variable (n : ℕ) := { bytes : List UInt8 // bytes.length = n }

/-- A variable after a read into it, which is never longer than the variable. -/
def overwrite {n : ℕ} (memory : Variable n) (read : List UInt8) : Variable n :=
  ⟨(read ++ memory.1.drop read.length).take n, by
    rw [List.length_take, List.length_append, List.length_drop, memory.2]
    omega⟩

theorem overwrite_of_length {n : ℕ} (memory : Variable n) {read : List UInt8}
    (h : read.length = n) : (overwrite memory read).1 = read := by
  simp [overwrite, h]

/-- `ntohl` of the bytes of a variable. -/
def ntohl (bytes : List UInt8) : BitVec 32 :=
  BitVec.ofNat 32 (bytes.foldl (fun n b => 256 * n + b.toNat) 0)

/-- `getlineInStream`: how much was read, the name, and the rest. -/
def getlineInStream (delim : UInt8) (name : List UInt8) :
    List UInt8 → ℕ × List UInt8 × List UInt8
  | [] => (0, name, [])
  | c :: stream =>
    if c = delim then (1, name, stream)
    else
      let line := getlineInStream delim (name ++ [c]) stream
      (line.1 + 1, line.2)

theorem length_getlineInStream (delim : UInt8) (name stream : List UInt8) :
    (getlineInStream delim name stream).2.2.length + (getlineInStream delim name stream).1 =
      stream.length := by
  induction stream generalizing name with
  | nil => rfl
  | cons c stream ih =>
    have := ih (name ++ [c])
    rw [getlineInStream]
    split_ifs
    · rfl
    · simp only [length_cons]
      omega

/-- The filter, and the number that is returned. -/
@[ext]
structure Loaded where
  rules : List (BitVec 32 × BitVec 32) := []
  ruleCount : ℕ := 0

/-- `m_filter.add_rule`, which takes every pair of addresses of one family. -/
def Loaded.addRule (l : Loaded) (first last : BitVec 32) : Loaded where
  rules := l.rules ++ [(first, last)]
  ruleCount := l.ruleCount + 1

/-- What uninitialized variables have in memory. -/
structure Memory where
  buf : Variable 7
  version : Variable 1
  namecount : Variable 4
  rangecount : Variable 4
  name : Variable 4
  startAddr : Variable 4
  endAddr : Variable 4

/-- The loop of versions 1 and 2. -/
def loadNamedRanges (startAddr endAddr : Variable 4) (name stream : List UInt8) (l : Loaded) :
    Loaded :=
  let line := getlineInStream 0 name stream
  if line.1 = 0 then l
  else
    let first := readRawData 4 line.2.2
    if first.1.length = 0 then l
    else
      let startAddr := overwrite startAddr first.1
      let last := readRawData 4 first.2
      if last.1.length = 0 then l
      else
        let endAddr := overwrite endAddr last.1
        loadNamedRanges startAddr endAddr line.2.1 last.2
          (l.addRule (ntohl startAddr.1) (ntohl endAddr.1))
termination_by stream.length
decreasing_by
  have hline : line.2.2.length + line.1 = stream.length := length_getlineInStream 0 name stream
  have hlast : last.2.length ≤ line.2.2.length := by
    simp only [last, first, readRawData, List.length_drop]
    omega
  show last.2.length < stream.length
  omega

/-- The names of version 3: the rest, if no name is missing. -/
def skipNames : ℕ → List UInt8 → Option (List UInt8)
  | 0, stream => some stream
  | n + 1, stream =>
    let line := getlineInStream 0 [] stream
    if line.1 = 0 then none else skipNames n line.2.2

/-- The loop over the ranges of version 3. -/
def loadIndexedRanges :
    ℕ → (name startAddr endAddr : Variable 4) → List UInt8 → Loaded → Loaded
  | 0, _, _, _, _, l => l
  | n + 1, name, startAddr, endAddr, stream, l =>
    let index := readRawData 4 stream
    if index.1.length = 0 then l
    else
      let name := overwrite name index.1
      let first := readRawData 4 index.2
      if first.1.length = 0 then l
      else
        let startAddr := overwrite startAddr first.1
        let last := readRawData 4 first.2
        if last.1.length = 0 then l
        else
          let endAddr := overwrite endAddr last.1
          loadIndexedRanges n name startAddr endAddr last.2
            (l.addRule (ntohl startAddr.1) (ntohl endAddr.1))

/-- Version 3, after the names. -/
def loadRanges (m : Memory) (stream : List UInt8) : Loaded :=
  let count := readRawData 4 stream
  if count.1.length = 0 then {}
  else
    loadIndexedRanges (ntohl (overwrite m.rangecount count.1).1).toNat m.name m.startAddr
      m.endAddr count.2 {}

def loadVersion3 (m : Memory) (stream : List UInt8) : Loaded :=
  let count := readRawData 4 stream
  if count.1.length = 0 then {}
  else
    match skipNames (ntohl (overwrite m.namecount count.1).1).toNat count.2 with
    | none => {}
    | some stream => loadRanges m stream

/-- The first seven bytes of a file. -/
def magic : List UInt8 := [0xFF, 0xFF, 0xFF, 0xFF, 0x50, 0x32, 0x42]

/-- `parseP2BFilterFile`, of a file that can be opened and is not aborted. -/
def parseP2BFilterFile (m : Memory) (file : List UInt8) : Loaded :=
  let header := readRawData 7 file
  if header.1.length = 0 ∨ (overwrite m.buf header.1).1 ≠ magic then {}
  else
    let version := readRawData 1 header.2
    if version.1.length = 0 then {}
    else
      match (overwrite m.version version.1).1 with
      | [v] =>
        if v = 1 ∨ v = 2 then loadNamedRanges m.startAddr m.endAddr [] version.2 {}
        else if v = 3 then loadVersion3 m version.2
        else {}
      | _ => {}

/-! ### Complete records -/

/-- The number in four bytes, the first one highest. -/
def address (b : List UInt8) : BitVec 32 := ntohl (b.take 4)

/-- What comes after a name. -/
def afterName (b : List UInt8) : Option (List UInt8) := (b.dropWhile (· ≠ 0)).tail?

variable {rest : List UInt8}

theorem length_afterName {b : List UInt8} (h : afterName b = some rest) :
    rest.length < b.length := by
  have hle := (dropWhile_suffix (· ≠ (0 : UInt8)) (l := b)).length_le
  unfold afterName at h
  cases hd : b.dropWhile (· ≠ 0) with
  | nil =>
    rw [hd] at h
    cases h
  | cons c cs =>
    rw [hd] at h hle
    obtain rfl := some.inj h
    exact Nat.lt_of_succ_le hle

/-- The ranges of the complete records of versions 1 and 2, and what comes after them. -/
def namedRanges (b : List UInt8) : List (BitVec 32 × BitVec 32) × List UInt8 :=
  match _h : afterName b with
  | none => ([], b)
  | some rest =>
    if 8 ≤ rest.length then
      let more := namedRanges (rest.drop 8)
      ((address rest, address (rest.drop 4)) :: more.1, more.2)
    else ([], b)
termination_by b.length
decreasing_by
  have := length_afterName _h
  simp only [List.length_drop]
  omega

/-- The names of version 3 are skipped. -/
def afterNames : ℕ → List UInt8 → Option (List UInt8)
  | 0, b => some b
  | n + 1, b => (afterName b).bind (afterNames n)

/-- The number of ranges of version 3 and their records. -/
def indexedRecords (b : List UInt8) : Option (ℕ × List UInt8) :=
  if b.length < 4 then none
  else
    (afterNames (address b).toNat (b.drop 4)).bind fun rest =>
      if rest.length < 4 then none else some ((address rest).toNat, rest.drop 4)

/-- The ranges of the complete records of version 3, at most `n`, and how many are missing with what
comes after them. -/
def indexedRanges : ℕ → List UInt8 → List (BitVec 32 × BitVec 32) × ℕ × List UInt8
  | 0, b => ([], 0, b)
  | n + 1, b =>
    if 12 ≤ b.length then
      let more := indexedRanges n (b.drop 12)
      ((address (b.drop 4), address (b.drop 8)) :: more.1, more.2)
    else ([], n + 1, b)

/-- The complete records of a file of version `v`, after its header. -/
def completeRanges (v : UInt8) (b : List UInt8) : List (BitVec 32 × BitVec 32) :=
  if v = 3 then (indexedRecords b).elim [] fun r => (indexedRanges r.1 r.2).1
  else (namedRanges b).1

/-- The file ends inside the second address of a record, after its first byte. -/
def CutInEnd (v : UInt8) (b : List UInt8) : Prop :=
  if v = 3 then ∃ r ∈ indexedRecords b, (indexedRanges r.1 r.2).2.1 ≠ 0 ∧
    8 < (indexedRanges r.1 r.2).2.2.length
  else ∃ rest ∈ afterName (namedRanges b).2, 4 < rest.length

/-! ### What the loops add -/

/-- Rules added one after another. -/
def Loaded.addAll (l : Loaded) (rules : List (BitVec 32 × BitVec 32)) : Loaded where
  rules := l.rules ++ rules
  ruleCount := l.ruleCount + rules.length

@[simp] theorem Loaded.addAll_nil (l : Loaded) : l.addAll [] = l := by
  cases l
  simp [addAll]

@[simp] theorem Loaded.addAll_addRule (l : Loaded) (first last : BitVec 32)
    (rules : List (BitVec 32 × BitVec 32)) :
    (l.addRule first last).addAll rules = l.addAll ((first, last) :: rules) := by
  ext1
  · simp [addAll, addRule]
  · simp only [addAll, addRule, length_cons]
    omega

theorem getlineInStream_eq (name stream : List UInt8) :
    match afterName stream with
    | some rest => (getlineInStream 0 name stream).1 ≠ 0 ∧ (getlineInStream 0 name stream).2.2 = rest
    | none => (getlineInStream 0 name stream).2.2 = [] := by
  induction stream generalizing name with
  | nil => rfl
  | cons c stream ih =>
    by_cases hc : c = 0
    · simp [afterName, getlineInStream, hc]
    · have ih := ih (name ++ [c])
      have hafter : afterName (c :: stream) = afterName stream := by simp [afterName, hc]
      rw [hafter]
      cases h : afterName stream with
      | none =>
        rw [h] at ih
        simpa [getlineInStream, hc] using ih
      | some rest =>
        rw [h] at ih
        simpa [getlineInStream, hc] using ih.2

theorem namedRanges_of_none {b : List UInt8} (h : afterName b = none) :
    namedRanges b = ([], b) := by
  rw [namedRanges]
  split <;> simp_all

theorem namedRanges_of_lt {b : List UInt8} (h : afterName b = some rest) (hlt : rest.length < 8) :
    namedRanges b = ([], b) := by
  rw [namedRanges]
  split
  · simp_all
  · rename_i rest' h'
    obtain rfl := some.inj (h.symm.trans h')
    rw [if_neg (by omega)]

theorem namedRanges_of_le {b : List UInt8} (h : afterName b = some rest) (hle : 8 ≤ rest.length) :
    namedRanges b =
      ((address rest, address (rest.drop 4)) :: (namedRanges (rest.drop 8)).1,
        (namedRanges (rest.drop 8)).2) := by
  rw [namedRanges]
  split
  · simp_all
  · rename_i rest' h'
    obtain rfl := some.inj (h.symm.trans h')
    rw [if_pos hle]

theorem ntohl_overwrite {memory : Variable 4} {b : List UInt8} (h : 4 ≤ b.length) :
    ntohl (overwrite memory (b.take 4)).1 = address b := by
  rw [overwrite_of_length _ (by rw [length_take]; omega), address]

theorem loadNamedRanges_nil (startAddr endAddr : Variable 4) (name : List UInt8) (l : Loaded) :
    loadNamedRanges startAddr endAddr name [] l = l := by
  rw [loadNamedRanges, getlineInStream, if_pos rfl]

theorem loadNamedRanges_eq (startAddr endAddr : Variable 4) (name stream : List UInt8) (l : Loaded) :
    ∃ stale, loadNamedRanges startAddr endAddr name stream l =
        l.addAll ((namedRanges stream).1 ++ stale) ∧
      (stale = [] ↔ ∀ rest ∈ afterName (namedRanges stream).2, rest.length ≤ 4) := by
  have hline := getlineInStream_eq name stream
  rw [loadNamedRanges]
  cases hafter : afterName stream with
  | none =>
    rw [hafter] at hline
    refine ⟨[], ?_, by simp [namedRanges_of_none hafter, hafter]⟩
    rw [namedRanges_of_none hafter]
    simp only [hline, readRawData, take_nil, length_nil, if_true, append_nil,
      Loaded.addAll_nil]
    split_ifs <;> rfl
  | some rest =>
    rw [hafter] at hline
    obtain ⟨hread, hrest⟩ := hline
    rw [if_neg hread]
    simp only [hrest, readRawData]
    have hfirst : (rest.take 4).length = min 4 rest.length := length_take
    have hlast : ((rest.drop 4).take 4).length = min 4 (rest.length - 4) := by
      rw [length_take, length_drop]
    have hdrop : (rest.drop 4).drop 4 = rest.drop 8 := by rw [drop_drop]
    rw [hfirst, hlast, hdrop]
    by_cases h8 : 8 ≤ rest.length
    · rw [if_neg (by omega), if_neg (by omega), ntohl_overwrite (by omega),
        ntohl_overwrite (by rw [length_drop]; omega), namedRanges_of_le hafter h8]
      obtain ⟨stale, hload, hstale⟩ := loadNamedRanges_eq (overwrite startAddr (rest.take 4))
        (overwrite endAddr ((rest.drop 4).take 4)) (getlineInStream 0 name stream).2.1
        (rest.drop 8) (l.addRule (address rest) (address (rest.drop 4)))
      exact ⟨stale, by rw [hload, Loaded.addAll_addRule, cons_append], hstale⟩
    · rw [namedRanges_of_lt hafter (by omega), hafter]
      simp only [mem_def, some.injEq, forall_eq', nil_append]
      by_cases h4 : rest.length ≤ 4
      · refine ⟨[], ?_, by simp [h4]⟩
        have hzero : min 4 (rest.length - 4) = 0 := by omega
        rw [hzero, if_pos rfl, ite_self, Loaded.addAll_nil]
      · -- the second address is cut
        have hnil : rest.drop 8 = [] := drop_eq_nil_of_le (by omega)
        rw [if_neg (by omega), if_neg (by omega), hnil, loadNamedRanges_nil]
        exact ⟨[(_, _)], rfl, by simp [h4]⟩
termination_by stream.length
decreasing_by
  have := length_afterName hafter
  simp only [List.length_drop]
  omega

theorem loadIndexedRanges_nil (n : ℕ) (name startAddr endAddr : Variable 4) (l : Loaded) :
    loadIndexedRanges n name startAddr endAddr [] l = l := by
  cases n <;> rfl

theorem loadIndexedRanges_eq (n : ℕ) (name startAddr endAddr : Variable 4) (stream : List UInt8)
    (l : Loaded) :
    ∃ stale, loadIndexedRanges n name startAddr endAddr stream l =
        l.addAll ((indexedRanges n stream).1 ++ stale) ∧
      (stale = [] ↔ (indexedRanges n stream).2.1 = 0 ∨ (indexedRanges n stream).2.2.length ≤ 8) := by
  induction n generalizing name startAddr endAddr stream l with
  | zero => exact ⟨[], by simp [loadIndexedRanges, indexedRanges], by simp [indexedRanges]⟩
  | succ n ih =>
    have hindex : (stream.take 4).length = min 4 stream.length := length_take
    have hfirst : ((stream.drop 4).take 4).length = min 4 (stream.length - 4) := by
      rw [length_take, length_drop]
    have hdrop : (stream.drop 4).drop 4 = stream.drop 8 := by rw [drop_drop]
    have hdrop' : (stream.drop 8).drop 4 = stream.drop 12 := by rw [drop_drop]
    have hlast : ((stream.drop 8).take 4).length = min 4 (stream.length - 8) := by
      rw [length_take, length_drop]
    simp only [loadIndexedRanges, readRawData, hindex, hfirst, hdrop, hlast, hdrop']
    unfold indexedRanges
    by_cases h12 : 12 ≤ stream.length
    · rw [if_neg (by omega), if_neg (by omega), if_neg (by omega), if_pos h12,
        ntohl_overwrite (by rw [length_drop]; omega),
        ntohl_overwrite (by rw [length_drop]; omega)]
      obtain ⟨stale, hload, hstale⟩ := ih (overwrite name (stream.take 4))
        (overwrite startAddr ((stream.drop 4).take 4)) (overwrite endAddr ((stream.drop 8).take 4))
        (stream.drop 12) (l.addRule (address (stream.drop 4)) (address (stream.drop 8)))
      exact ⟨stale, by rw [hload, Loaded.addAll_addRule, cons_append], hstale⟩
    · rw [if_neg h12]
      by_cases h8 : stream.length ≤ 8
      · refine ⟨[], ?_, by simp [h8]⟩
        have hzero : min 4 (stream.length - 8) = 0 := by omega
        rw [hzero, if_pos rfl, ite_self, ite_self]
        simp
      · -- the second address is cut
        have hnil : stream.drop 12 = [] := drop_eq_nil_of_le (by omega)
        rw [if_neg (by omega), if_neg (by omega), if_neg (by omega), hnil, loadIndexedRanges_nil]
        exact ⟨[(_, _)], rfl, by simp [h8]⟩

theorem skipNames_eq (n : ℕ) (stream : List UInt8) :
    match afterNames n stream with
    | some rest => skipNames n stream = some rest
    | none => skipNames n stream = none ∨ skipNames n stream = some [] := by
  induction n generalizing stream with
  | zero => rfl
  | succ n ih =>
    have hline := getlineInStream_eq [] stream
    rw [afterNames, skipNames]
    cases hafter : afterName stream with
    | some rest =>
      rw [hafter] at hline
      simp only [bind_some, if_neg hline.1, hline.2]
      exact ih rest
    | none =>
      rw [hafter] at hline
      simp only [bind_none, hline]
      split_ifs
      · exact .inl rfl
      · -- the last name has no end
        cases n with
        | zero => exact .inr rfl
        | succ n => exact .inl rfl

theorem loadVersion3_eq_elim (m : Memory) (b : List UInt8) : loadVersion3 m b =
    if (b.take 4).length = 0 then {}
    else (skipNames (ntohl (overwrite m.namecount (b.take 4)).1).toNat (b.drop 4)).elim {}
      (loadRanges m) := by
  simp only [loadVersion3, readRawData]
  cases skipNames (ntohl (overwrite m.namecount (b.take 4)).1).toNat (b.drop 4) <;> rfl

theorem loadRanges_of_lt (m : Memory) (h : rest.length < 4) : loadRanges m rest = {} := by
  have hnil : rest.drop 4 = [] := drop_eq_nil_of_le (Nat.le_of_lt h)
  simp only [loadRanges, readRawData, hnil, loadIndexedRanges_nil]
  exact ite_self _

theorem loadRanges_of_le (m : Memory) (h : 4 ≤ rest.length) :
    loadRanges m rest = loadIndexedRanges (address rest).toNat m.name m.startAddr m.endAddr
      (rest.drop 4) {} := by
  have hne : ¬ (rest.take 4).length = 0 := by
    rw [length_take]
    omega
  rw [← @ntohl_overwrite m.rangecount _ h]
  exact if_neg hne

theorem loadVersion3_eq (m : Memory) (b : List UInt8) :
    ∃ stale, loadVersion3 m b = ({} : Loaded).addAll (completeRanges 3 b ++ stale) ∧
      (stale = [] ↔ ¬ CutInEnd 3 b) := by
  have hnone (h : indexedRecords b = none) (hload : loadVersion3 m b = {}) :
      ∃ stale, loadVersion3 m b = ({} : Loaded).addAll (completeRanges 3 b ++ stale) ∧
        (stale = [] ↔ ¬ CutInEnd 3 b) :=
    ⟨[], by simp [hload, completeRanges, h], by simp [CutInEnd, h]⟩
  have htake : (b.take 4).length = min 4 b.length := length_take
  rw [loadVersion3_eq_elim] at hnone ⊢
  by_cases h4 : b.length < 4
  · refine hnone (by rw [indexedRecords, if_pos h4]) ?_
    rw [drop_eq_nil_of_le (Nat.le_of_lt h4)]
    split_ifs
    · rfl
    · cases (ntohl (overwrite m.namecount (b.take 4)).1).toNat <;> rfl
  · rw [if_neg (by omega), ntohl_overwrite (by omega)] at hnone ⊢
    have hnames := skipNames_eq (address b).toNat (b.drop 4)
    cases hafter : afterNames (address b).toNat (b.drop 4) with
    | none =>
      rw [hafter] at hnames
      refine hnone (by rw [indexedRecords, if_neg h4, hafter, bind_none]) ?_
      obtain hskip | hskip := hnames <;> rw [hskip] <;> rfl
    | some rest =>
      rw [hafter] at hnames
      rw [hnames, elim_some] at hnone ⊢
      by_cases hr : rest.length < 4
      · exact hnone (by rw [indexedRecords, if_neg h4, hafter, bind_some, if_pos hr])
          (loadRanges_of_lt m hr)
      · have hrecords : indexedRecords b = some ((address rest).toNat, rest.drop 4) := by
          rw [indexedRecords, if_neg h4, hafter, bind_some, if_neg hr]
        rw [loadRanges_of_le m (by omega)]
        obtain ⟨stale, hload, hstale⟩ := loadIndexedRanges_eq (address rest).toNat m.name
          m.startAddr m.endAddr (rest.drop 4) {}
        refine ⟨stale, by simpa [completeRanges, hrecords] using hload, ?_⟩
        rw [hstale]
        simp only [CutInEnd, hrecords, if_true, mem_def, some.injEq, exists_eq_left']
        omega

/-- **Exactly the complete records.**  For every file with a valid header, whatever was in memory:
the rules added are those of the complete records if and only if the file does not end inside the
second address of a record.  The number returned is that of the rules added in any case. -/
theorem rules_eq_complete_iff (m : Memory) {v : UInt8} (hv : v = 1 ∨ v = 2 ∨ v = 3)
    (b : List UInt8) :
    ((parseP2BFilterFile m (magic ++ v :: b)).rules = completeRanges v b ↔ ¬ CutInEnd v b) ∧
      (parseP2BFilterFile m (magic ++ v :: b)).ruleCount =
        (parseP2BFilterFile m (magic ++ v :: b)).rules.length := by
  have hparse : parseP2BFilterFile m (magic ++ v :: b) =
      if v = 1 ∨ v = 2 then loadNamedRanges m.startAddr m.endAddr [] b {}
      else if v = 3 then loadVersion3 m b else {} := rfl
  have hload : ∃ stale, parseP2BFilterFile m (magic ++ v :: b) =
      ({} : Loaded).addAll (completeRanges v b ++ stale) ∧ (stale = [] ↔ ¬ CutInEnd v b) := by
    rw [hparse]
    by_cases h3 : v = 3
    · rw [h3]
      exact loadVersion3_eq m b
    · obtain ⟨stale, hload, hstale⟩ := loadNamedRanges_eq m.startAddr m.endAddr [] b {}
      rw [if_pos (by tauto)]
      refine ⟨stale, by rw [hload, completeRanges, if_neg h3], ?_⟩
      rw [hstale]
      simp only [CutInEnd, if_neg h3, not_exists, not_and, Nat.not_lt]
  obtain ⟨stale, hload, hstale⟩ := hload
  rw [hload, ← hstale]
  simp [Loaded.addAll]

/-! ### A file with one range -/

def zeroMemory : Memory where
  buf := ⟨[0, 0, 0, 0, 0, 0, 0], rfl⟩
  version := ⟨[0], rfl⟩
  namecount := ⟨[0, 0, 0, 0], rfl⟩
  rangecount := ⟨[0, 0, 0, 0], rfl⟩
  name := ⟨[0, 0, 0, 0], rfl⟩
  startAddr := ⟨[0, 0, 0, 0], rfl⟩
  endAddr := ⟨[0, 0, 0, 0], rfl⟩

/-- One name, and the range from 1.2.3.4 to 1.2.3.9. -/
def oneRange : List UInt8 :=
  [0, 0, 0, 1, 97, 0, 0, 0, 0, 1, 0, 0, 0, 0, 1, 2, 3, 4, 1, 2, 3, 9]

theorem rules_eq_complete_oneRange :
    (parseP2BFilterFile zeroMemory (magic ++ 3 :: oneRange)).rules = completeRanges 3 oneRange ∧
      completeRanges 3 oneRange = [(0x01020304, 0x01020309)] := by
  refine ⟨(rules_eq_complete_iff zeroMemory (.inr (.inr rfl)) oneRange).1.2 ?_, by decide⟩
  have hrecords : indexedRecords oneRange = some (1, [0, 0, 0, 0, 1, 2, 3, 4, 1, 2, 3, 9]) := by
    decide
  simp [CutInEnd, hrecords, indexedRanges]

/-- The file ends after two bytes of the second address: the rule has two bytes that were in memory. -/
theorem cut_range_added :
    completeRanges 3 (oneRange.take 20) = [] ∧
      (parseP2BFilterFile zeroMemory (magic ++ 3 :: oneRange.take 20)).rules =
        [(0x01020304, 0x01020000)] := by
  decide

end QBittorrent.P2B
