import QBittorrent.Torrent.Layout

/-!
# The priorities of pieces

`applyFirstLastPiecePriority` builds the priorities of all pieces from those of the files.  It goes
through the files in their order and writes into a vector: the priority for the first and the last
pieces of the file, then that of the file for the pieces between.

* `TorrentLayout.getD_assignAll` : the last one written counts;
* `TorrentLayout.piecePriorities_iff` : when this is the highest.
-/

namespace QBittorrent

open List

/-- `DownloadPriority`, a number as in libtorrent. -/
abbrev DownloadPriority := ℤ

namespace DownloadPriority

def Ignored : DownloadPriority := 0
def Normal : DownloadPriority := 1
def High : DownloadPriority := 6
def Maximum : DownloadPriority := 7

end DownloadPriority

/-- `v[index] = value`; there is no result if the index is out of bounds. -/
def assign (v : List ℤ) (index value : ℤ) : Option (List ℤ) :=
  if 0 ≤ index ∧ index < v.length then some (v.set index.toNat value) else none

namespace TorrentLayout

variable (layout : TorrentLayout) (enabled : Bool) (filePriorities : List DownloadPriority)

/-- `ceil(fileSize * 0.01 / pieceLength)`. -/
def numPieces (file : ℕ) : ℕ :=
  (layout.fileSize file + 100 * layout.pieceLength - 1) / (100 * layout.pieceLength)

/-- One round of the loop over the files. -/
def applyFile (piecePriorities : List ℤ) (fileIndex : ℕ) : Option (List ℤ) :=
  let filePrio := filePriorities.getD fileIndex DownloadPriority.Ignored
  if filePrio ≤ DownloadPriority.Ignored then some piecePriorities else do
    let piecePrio := if enabled then DownloadPriority.Maximum else filePrio
    let pieceRange := layout.filePieces fileIndex
    let numPieces := layout.numPieces fileIndex
    let piecePriorities ← (List.range numPieces).foldlM (fun piecePriorities (i : ℕ) => do
      let piecePriorities ← assign piecePriorities (pieceRange.first + i) piecePrio
      assign piecePriorities (pieceRange.last - i) piecePrio) piecePriorities
    let firstPiece := pieceRange.first + numPieces
    let lastPiece := pieceRange.last - numPieces
    (List.range (lastPiece + 1 - firstPiece).toNat).foldlM (fun piecePriorities (i : ℕ) =>
      assign piecePriorities (firstPiece + i) filePrio) piecePriorities

/-- The priorities that libtorrent is told. -/
def applyFirstLastPiecePriority : Option (List ℤ) :=
  (List.range filePriorities.length).foldlM (layout.applyFile enabled filePriorities)
    (List.replicate layout.piecesCount DownloadPriority.Ignored)

/-! ### What it should do -/

/-- A file that is not ignored has bytes in the piece. -/
def Wants (index file : ℕ) : Prop :=
  DownloadPriority.Ignored < filePriorities.getD file DownloadPriority.Ignored ∧
    layout.Overlaps (layout.nativeIndex file) index
  deriving Decidable

/-- The piece is one of the first or of the last `numPieces` of the file. -/
def AtEnd (index file : ℕ) : Prop :=
  (index : ℤ) < (layout.filePieces file).first + layout.numPieces file ∨
    (layout.filePieces file).last - layout.numPieces file < (index : ℤ)
  deriving Decidable

/-- The priority that a file asks for. -/
def wanted (index file : ℕ) : DownloadPriority :=
  if enabled = true ∧ layout.AtEnd index file then DownloadPriority.Maximum
  else filePriorities.getD file DownloadPriority.Ignored

/-- The highest priority that a file with bytes in the piece asks for. -/
def highest (index : ℕ) : DownloadPriority :=
  (((List.range filePriorities.length).filter fun file =>
    layout.Wants filePriorities index file).map
      (layout.wanted enabled filePriorities index)).foldr max DownloadPriority.Ignored

/-- In every piece, no file has a higher priority than the last one. -/
def LastIsHighest : Prop :=
  ∀ index < layout.piecesCount, ∀ file < filePriorities.length, ∀ last < filePriorities.length,
    layout.Wants filePriorities index file → layout.Wants filePriorities index last →
    (∀ later < filePriorities.length, last < later → ¬ layout.Wants filePriorities index later) →
      filePriorities.getD file DownloadPriority.Ignored ≤
        filePriorities.getD last DownloadPriority.Ignored

variable {layout enabled filePriorities} {file index : ℕ} {v : List ℤ}

/-! ### Assignments to a vector -/

/-- One assignment after the other. -/
def assignAll (assignments : List (ℤ × ℤ)) (v : List ℤ) : Option (List ℤ) :=
  assignments.foldlM (fun v a => assign v a.1 a.2) v

theorem assignAll_append (l l' : List (ℤ × ℤ)) (v : List ℤ) :
    assignAll (l ++ l') v = (assignAll l v).bind (assignAll l') := foldlM_append ..

theorem foldlM_assignAll {α : Type} (f : α → List (ℤ × ℤ)) (l : List α) (v : List ℤ) :
    l.foldlM (fun v a => assignAll (f a) v) v = assignAll (l.flatMap f) v := by
  induction l generalizing v with
  | nil => rfl
  | cons a l ih =>
    rw [foldlM_cons, flatMap_cons, assignAll_append]
    exact congrArg _ (funext ih)

theorem getD_set (v : List ℤ) (i : ℕ) (hi : i < v.length) (value : ℤ) :
    (v.set i value).getD index 0 = if i = index then value else v.getD index 0 := by
  rw [getD_eq_getElem?_getD, List.getElem?_set, getD_eq_getElem?_getD]
  by_cases h : i = index
  · rw [if_pos h, if_pos hi, if_pos h]
    rfl
  · rw [if_neg h, if_neg h]

theorem getD_assignAll {l : List (ℤ × ℤ)} (hbounds : ∀ a ∈ l, 0 ≤ a.1 ∧ a.1 < v.length)
    (value : ℕ → ℤ) (hvalue : ∀ a ∈ l, ∀ index : ℕ, a.1 = index → a.2 = value index) :
    ∃ v', assignAll l v = some v' ∧ v'.length = v.length ∧ ∀ index : ℕ,
      v'.getD index 0 = if ∃ a ∈ l, a.1 = index then value index else v.getD index 0 := by
  induction l generalizing v with
  | nil => exact ⟨v, rfl, rfl, fun index => by simp⟩
  | cons a l ih =>
    obtain ⟨hnonneg, hlt⟩ := hbounds a mem_cons_self
    have hset : (v.set a.1.toNat a.2).length = v.length := length_set
    obtain ⟨v', hv', hlength, hgetD⟩ := ih (v := v.set a.1.toNat a.2)
      (fun b hb => hset ▸ hbounds b (mem_cons_of_mem a hb))
      fun b hb => hvalue b (mem_cons_of_mem a hb)
    refine ⟨v', ?_, hlength.trans hset, fun index => ?_⟩
    · rw [assignAll, foldlM_cons, assign, if_pos ⟨hnonneg, hlt⟩]
      exact hv'
    · rw [hgetD index, getD_set v _ (by omega)]
      by_cases hlater : ∃ b ∈ l, b.1 = (index : ℤ)
      · rw [if_pos hlater, if_pos]
        obtain ⟨b, hb, heq⟩ := hlater
        exact ⟨b, mem_cons_of_mem a hb, heq⟩
      · rw [if_neg hlater]
        by_cases hfirst : a.1 = (index : ℤ)
        · rw [if_pos (by omega), if_pos ⟨a, mem_cons_self, hfirst⟩]
          exact hvalue a mem_cons_self index hfirst
        · rw [if_neg (by omega), if_neg]
          rintro ⟨b, hb, heq⟩
          obtain rfl | hb := mem_cons.1 hb
          · exact hfirst heq
          · exact hlater ⟨b, hb, heq⟩

/-! ### The assignments for a file -/

/-- The assignments that `applyFile` makes, in their order. -/
def assignments (layout : TorrentLayout) (enabled : Bool) (filePriorities : List DownloadPriority)
    (file : ℕ) : List (ℤ × ℤ) :=
  let filePrio := filePriorities.getD file DownloadPriority.Ignored
  let piecePrio := if enabled then DownloadPriority.Maximum else filePrio
  let pieceRange := layout.filePieces file
  let numPieces := layout.numPieces file
  ((List.range numPieces).flatMap fun i : ℕ =>
    [(pieceRange.first + i, piecePrio), (pieceRange.last - i, piecePrio)]) ++
  ((List.range (pieceRange.last - numPieces + 1 - (pieceRange.first + numPieces)).toNat).map
    fun i : ℕ => (pieceRange.first + numPieces + i, filePrio))

theorem applyFile_eq (v : List ℤ) (h : DownloadPriority.Ignored <
    filePriorities.getD file DownloadPriority.Ignored) :
    layout.applyFile enabled filePriorities v file =
      assignAll (layout.assignments enabled filePriorities file) v := by
  have hends : ∀ (first last value : ℤ) (v : List ℤ) (n : ℕ),
      ((List.range n).foldlM (fun v (i : ℕ) => do
        let v ← assign v (first + i) value
        assign v (last - i) value) v) =
      assignAll ((List.range n).flatMap fun i : ℕ => [(first + i, value), (last - i, value)]) v := by
    intro first last value v n
    rw [← foldlM_assignAll]
    congr 1
    funext v i
    simp [assignAll]
  have hbetween : ∀ (first value : ℤ) (v : List ℤ) (n : ℕ),
      ((List.range n).foldlM (fun v (i : ℕ) => assign v (first + i) value) v) =
      assignAll ((List.range n).map fun i : ℕ => (first + i, value)) v := by
    intro first value v n
    rw [assignAll, foldlM_map]
  rw [applyFile, if_neg (not_le.2 h), assignments, assignAll_append, ← hends]
  simp only [hbetween]
  rfl

/-! ### The pieces of a file -/

theorem filePieces_of_pos (h : 0 < layout.fileSize file) :
    (layout.filePieces file).first = (layout.fileOffset file / layout.pieceLength : ℕ) ∧
    (layout.filePieces file).last =
      ((layout.fileOffset file + layout.fileSize file - 1) / layout.pieceLength : ℕ) := by
  have hinterval : ∀ first last : ℤ, (PieceRange.ofInterval first last).last = last := by
    intro first last
    show first + (last - first + 1) - 1 = last
    omega
  have hpieces : layout.filePieces file =
      .ofInterval (layout.fileOffset file / layout.pieceLength : ℕ)
        ((layout.fileOffset file + layout.fileSize file - 1) / layout.pieceLength : ℕ) := by
    rw [filePieces]
    simp only [if_neg h.ne']
  rw [hpieces]
  exact ⟨rfl, hinterval _ _⟩

theorem filePieces_of_eq_zero (h : layout.fileSize file = 0) :
    (layout.filePieces file).last = (layout.filePieces file).first - 1 ∧
      layout.numPieces file = 0 := by
  have hpos := layout.pieceLength_pos
  rw [filePieces, numPieces, h]
  refine ⟨by simp [PieceRange.last], Nat.div_eq_of_lt (by omega)⟩

theorem numPieces_bounds (h : 0 < layout.fileSize file) :
    0 < layout.numPieces file ∧
      (layout.numPieces file : ℤ) ≤
        (layout.filePieces file).last - (layout.filePieces file).first + 1 := by
  have hpos := layout.pieceLength_pos
  obtain ⟨hfirst, hlast⟩ := filePieces_of_pos h
  have hnum : 0 < layout.numPieces file := by
    exact Nat.div_pos (by omega) (by omega)
  -- as many pieces as the size of the file has multiples of a hundred pieces
  have hsize : (layout.numPieces file - 1) * (100 * layout.pieceLength) < layout.fileSize file := by
    have hle : layout.numPieces file * (100 * layout.pieceLength) ≤
        layout.fileSize file + 100 * layout.pieceLength - 1 := Nat.div_mul_le_self _ _
    rw [Nat.sub_mul]
    omega
  set first := layout.fileOffset file / layout.pieceLength with hfirstDef
  set last := (layout.fileOffset file + layout.fileSize file - 1) / layout.pieceLength with hlastDef
  have hfirstMul : first * layout.pieceLength ≤ layout.fileOffset file := Nat.div_mul_le_self _ _
  have hlastMul : layout.fileOffset file + layout.fileSize file - 1 <
      (last + 1) * layout.pieceLength := Nat.lt_mul_of_div_lt (Nat.lt_succ_self _) hpos
  have hspan : (layout.numPieces file - 1) * layout.pieceLength <
      (last + 1 - first) * layout.pieceLength := by
    have hle : (layout.numPieces file - 1) * layout.pieceLength ≤
        (layout.numPieces file - 1) * (100 * layout.pieceLength) :=
      Nat.mul_le_mul_left _ (by omega)
    rw [Nat.sub_mul (last + 1)]
    omega
  have hlt := Nat.lt_of_mul_lt_mul_right hspan
  omega

section

variable (hf : file < layout.filesCount)

include hf

theorem overlaps_iff_between (hsize : 0 < layout.fileSize file) :
    layout.Overlaps (layout.nativeIndex file) index ↔
      (layout.filePieces file).first ≤ index ∧ (index : ℤ) ≤ (layout.filePieces file).last := by
  obtain ⟨hfirst, hlast⟩ := filePieces_of_pos hsize
  rw [overlaps_iff_div hf hsize, hfirst, hlast, Int.ofNat_le, Int.ofNat_le]

theorem mem_assignments
    (_ : DownloadPriority.Ignored < filePriorities.getD file DownloadPriority.Ignored)
    {a : ℤ × ℤ} (ha : a ∈ layout.assignments enabled filePriorities file) :
    ∃ index : ℕ, a = (↑index, layout.wanted enabled filePriorities index file) ∧
      layout.Overlaps (layout.nativeIndex file) index := by
  have hsize : 0 < layout.fileSize file := by
    by_contra hzero
    obtain ⟨hlast, hnum⟩ := filePieces_of_eq_zero (Nat.eq_zero_of_not_pos hzero)
    rw [assignments, hnum, hlast] at ha
    simp at ha
  have hnonneg : 0 ≤ (layout.filePieces file).first := by
    rw [(filePieces_of_pos hsize).1]
    exact Int.natCast_nonneg _
  obtain ⟨-, hnum⟩ := numPieces_bounds hsize
  rw [assignments, mem_append, mem_flatMap, mem_map] at ha
  obtain ⟨i, hi, ha⟩ | ⟨i, hi, ha⟩ := ha
  · -- at one of the ends
    rw [mem_range] at hi
    have hends : ∀ index : ℕ, layout.AtEnd index file →
        (if enabled = true then DownloadPriority.Maximum
          else filePriorities.getD file DownloadPriority.Ignored) =
        layout.wanted enabled filePriorities index file := by
      intro index hend
      rw [wanted]
      simp only [hend, and_true]
    simp only [mem_cons, not_mem_nil, or_false] at ha
    obtain rfl | rfl := ha
    · refine ⟨((layout.filePieces file).first + i).toNat, ?_, ?_⟩
      · rw [← hends _ (.inl (by omega)), Int.toNat_of_nonneg (by omega)]
      · rw [overlaps_iff_between hf hsize]
        omega
    · refine ⟨((layout.filePieces file).last - i).toNat, ?_, ?_⟩
      · rw [← hends _ (.inr (by omega)), Int.toNat_of_nonneg (by omega)]
      · rw [overlaps_iff_between hf hsize]
        omega
  · -- between them
    rw [mem_range] at hi
    refine ⟨((layout.filePieces file).first + layout.numPieces file + i).toNat, ?_, ?_⟩
    · have hnot : ¬ layout.AtEnd
          ((layout.filePieces file).first + layout.numPieces file + i).toNat file := by
        rw [AtEnd]
        omega
      rw [← ha, wanted, if_neg fun h => hnot h.2, Int.toNat_of_nonneg (by omega)]
    · rw [overlaps_iff_between hf hsize]
      omega

theorem exists_mem_assignments (hoverlaps : layout.Overlaps (layout.nativeIndex file) index) :
    ∃ a ∈ layout.assignments enabled filePriorities file, a.1 = index := by
  have hsize : 0 < layout.fileSize file := by
    by_contra hzero
    exact not_overlaps_of_fileSize_eq_zero hf (Nat.eq_zero_of_not_pos hzero) hoverlaps
  obtain ⟨hfirst, hlast⟩ := (overlaps_iff_between hf hsize).1 hoverlaps
  simp only [assignments, mem_append, mem_flatMap, mem_map, mem_range]
  by_cases hbegin : (index : ℤ) < (layout.filePieces file).first + layout.numPieces file
  · refine ⟨_, .inl ⟨(index - (layout.filePieces file).first).toNat, by omega,
      mem_cons_self⟩, ?_⟩
    omega
  · by_cases hend : (layout.filePieces file).last - layout.numPieces file < (index : ℤ)
    · refine ⟨_, .inl ⟨((layout.filePieces file).last - index).toNat, by omega,
        mem_cons_of_mem _ mem_cons_self⟩, ?_⟩
      omega
    · refine ⟨_, .inr ⟨(index - ((layout.filePieces file).first + layout.numPieces file)).toNat,
        by omega, rfl⟩, ?_⟩
      omega

end

/-! ### One file after the other -/

variable (enabled filePriorities) in
theorem applyFile_spec (hf : file < layout.filesCount) (hv : v.length = layout.piecesCount) :
    ∃ v', layout.applyFile enabled filePriorities v file = some v' ∧
      v'.length = layout.piecesCount ∧ ∀ index : ℕ, v'.getD index 0 =
        if layout.Wants filePriorities index file then
          layout.wanted enabled filePriorities index file else v.getD index 0 := by
  by_cases hwanted : DownloadPriority.Ignored <
      filePriorities.getD file DownloadPriority.Ignored
  · have hmem := fun (a : ℤ × ℤ) (ha : a ∈ layout.assignments enabled filePriorities file) =>
      mem_assignments hf hwanted ha
    obtain ⟨v', hv', hlength, hgetD⟩ := getD_assignAll (v := v)
      (l := layout.assignments enabled filePriorities file)
      (fun a ha => by
        obtain ⟨index, rfl, hoverlaps⟩ := hmem a ha
        have hlt := hoverlaps.lt_piecesCount
        rw [hv]
        exact ⟨Int.natCast_nonneg _, Int.ofNat_lt.2 hlt⟩)
      (fun index => layout.wanted enabled filePriorities index file)
      (fun a ha index heq => by
        obtain ⟨index', rfl, -⟩ := hmem a ha
        rw [Int.ofNat_inj.1 heq])
    refine ⟨v', (applyFile_eq v hwanted).trans hv', hlength.trans hv, fun index => ?_⟩
    rw [hgetD index]
    refine if_congr ⟨?_, fun h => exists_mem_assignments hf h.2⟩ rfl rfl
    rintro ⟨a, ha, heq⟩
    obtain ⟨index', rfl, hoverlaps⟩ := hmem a ha
    exact ⟨hwanted, Int.ofNat_inj.1 heq ▸ hoverlaps⟩
  · refine ⟨v, ?_, hv, fun index => (if_neg fun h => hwanted h.1).symm⟩
    rw [applyFile, if_pos (not_lt.1 hwanted)]

/-- A piece has what the last file that wants it asks for. -/
def LastWanted (layout : TorrentLayout) (enabled : Bool) (filePriorities : List DownloadPriority)
    (n index : ℕ) (priority : ℤ) : Prop :=
  ((∀ file < n, ¬ layout.Wants filePriorities index file) ∧ priority = DownloadPriority.Ignored) ∨
  ∃ last < n, layout.Wants filePriorities index last ∧
    (∀ later < n, last < later → ¬ layout.Wants filePriorities index later) ∧
    priority = layout.wanted enabled filePriorities index last

variable (layout enabled filePriorities) in
theorem foldlM_applyFile {n : ℕ} (hn : n ≤ layout.filesCount) :
    ∃ v, (List.range n).foldlM (layout.applyFile enabled filePriorities)
        (List.replicate layout.piecesCount DownloadPriority.Ignored) = some v ∧
      v.length = layout.piecesCount ∧ ∀ index : ℕ,
        layout.LastWanted enabled filePriorities n index (v.getD index 0) := by
  induction n with
  | zero =>
    refine ⟨_, rfl, length_replicate, fun index => .inl ⟨fun _ h => absurd h (Nat.not_lt_zero _), ?_⟩⟩
    rw [getD_eq_getElem?_getD, List.getElem?_replicate]
    split_ifs <;> rfl
  | succ n ih =>
    obtain ⟨v, hv, hlength, hlast⟩ := ih (Nat.le_of_succ_le hn)
    obtain ⟨v', hv', hlength', hgetD⟩ := applyFile_spec enabled filePriorities hn hlength
    refine ⟨v', ?_, hlength', fun index => ?_⟩
    · rw [range_succ, foldlM_append, hv]
      simpa using hv'
    · rw [hgetD index]
      by_cases hwants : layout.Wants filePriorities index n
      · rw [if_pos hwants]
        refine .inr ⟨n, Nat.lt_succ_self n, hwants, fun later hlater hlt => ?_, rfl⟩
        exact absurd hlt (not_lt.2 (Nat.le_of_lt_succ hlater))
      · rw [if_neg hwants]
        have hstep : ∀ file < n + 1, (file < n → ¬ layout.Wants filePriorities index file) →
            ¬ layout.Wants filePriorities index file := by
          intro file hfile hbefore
          obtain hlt | rfl := Nat.lt_succ_iff_lt_or_eq.1 hfile
          · exact hbefore hlt
          · exact hwants
        obtain ⟨hnone, hignored⟩ | ⟨last, hltLast, hwantsLast, hlater, hpriority⟩ := hlast index
        · exact .inl ⟨fun file hfile => hstep file hfile (hnone file), hignored⟩
        · exact .inr ⟨last, Nat.lt_succ_of_lt hltLast, hwantsLast, fun later hlt hafter =>
            hstep later hlt fun h => hlater later h hafter, hpriority⟩

/-! ### The highest priority -/

theorem foldr_max_le_iff {l : List ℤ} {a b : ℤ} :
    l.foldr max a ≤ b ↔ a ≤ b ∧ ∀ x ∈ l, x ≤ b := by
  induction l with
  | nil => simp
  | cons x l ih =>
    rw [foldr_cons, max_le_iff, ih, forall_mem_cons]
    tauto

theorem highest_le_iff {priority : ℤ} : layout.highest enabled filePriorities index ≤ priority ↔
    DownloadPriority.Ignored ≤ priority ∧ ∀ file < filePriorities.length,
      layout.Wants filePriorities index file →
        layout.wanted enabled filePriorities index file ≤ priority := by
  rw [highest, foldr_max_le_iff, forall_mem_map]
  simp only [mem_filter, mem_range, decide_eq_true_iff, and_imp]

theorem Wants.ignored_le (h : layout.Wants filePriorities index file) :
    DownloadPriority.Ignored ≤ layout.wanted enabled filePriorities index file := by
  rw [wanted]
  split_ifs
  · decide
  · exact h.1.le

theorem LastWanted.eq_highest_iff {priority : ℤ}
    (h : layout.LastWanted enabled filePriorities filePriorities.length index priority) :
    priority = layout.highest enabled filePriorities index ↔
      ∀ file < filePriorities.length, ∀ last < filePriorities.length,
        layout.Wants filePriorities index file → layout.Wants filePriorities index last →
        (∀ later < filePriorities.length, last < later →
          ¬ layout.Wants filePriorities index later) →
        layout.wanted enabled filePriorities index file ≤
          layout.wanted enabled filePriorities index last := by
  have hbound := highest_le_iff.1 (le_refl (layout.highest enabled filePriorities index))
  obtain ⟨hnone, rfl⟩ | ⟨last, hlast, hwants, hlater, rfl⟩ := h
  · refine iff_of_true (le_antisymm hbound.1 ?_) fun file hfile _ _ hwants _ _ =>
      absurd hwants (hnone file hfile)
    exact highest_le_iff.2 ⟨le_rfl, fun file hfile hwants => absurd hwants (hnone file hfile)⟩
  · constructor
    · intro heq file hfile last' hlast' hfileWants hlastWants hlater'
      have hsame : last' = last := by
        by_contra hne
        obtain hlt | hlt := lt_or_gt_of_ne hne
        · exact hlater' last hlast hlt hwants
        · exact hlater last' hlast' hlt hlastWants
      rw [hsame, heq]
      exact hbound.2 file hfile hfileWants
    · intro hall
      refine le_antisymm (hbound.2 last hlast hwants) (highest_le_iff.2 ⟨hwants.ignored_le, ?_⟩)
      exact fun file hfile hfileWants => hall file hfile last hlast hfileWants hwants hlater

theorem atEnd_of_shared {last : ℕ} (hlast : last < layout.filesCount) (hlt : file < last)
    (hfile : layout.Overlaps (layout.nativeIndex file) index)
    (hoverlaps : layout.Overlaps (layout.nativeIndex last) index) :
    layout.AtEnd index file ∧ layout.AtEnd index last := by
  have hf := hlt.trans hlast
  have hsize : ∀ file < layout.filesCount, layout.Overlaps (layout.nativeIndex file) index →
      0 < layout.fileSize file := by
    intro file hf hoverlaps
    by_contra hzero
    exact not_overlaps_of_fileSize_eq_zero hf (Nat.eq_zero_of_not_pos hzero) hoverlaps
  have hle := fileEnd_le_fileOffset hlt hlast
  obtain ⟨hbeginFile, hendFile⟩ := (overlaps_iff_div hf (hsize file hf hfile)).1 hfile
  obtain ⟨hbeginLast, hendLast⟩ := (overlaps_iff_div hlast (hsize last hlast hoverlaps)).1 hoverlaps
  have hmono : (layout.fileOffset file + layout.fileSize file - 1) / layout.pieceLength ≤
      layout.fileOffset last / layout.pieceLength := Nat.div_le_div_right (by omega)
  constructor
  · right
    rw [(filePieces_of_pos (hsize file hf hfile)).2]
    have hnum := (numPieces_bounds (hsize file hf hfile)).1
    omega
  · left
    rw [(filePieces_of_pos (hsize last hlast hoverlaps)).1]
    have hnum := (numPieces_bounds (hsize last hlast hoverlaps)).1
    omega

/-- **Priorities of pieces.**  For any files and priorities, all assignments are in bounds, and each
piece gets the highest of the priorities that the files in it ask for (the maximal one for their
first and last pieces if the option is on, else that of the file), exactly when the option is on or
in every piece no file has a higher priority than the last one. -/
theorem piecePriorities_iff (layout : TorrentLayout) (enabled : Bool)
    (filePriorities : List DownloadPriority) (hlength : filePriorities.length = layout.filesCount) :
    ∃ piecePriorities, layout.applyFirstLastPiecePriority enabled filePriorities =
        some piecePriorities ∧
      piecePriorities.length = layout.piecesCount ∧
      ((∀ index < layout.piecesCount, piecePriorities.getD index DownloadPriority.Ignored =
          layout.highest enabled filePriorities index) ↔
        enabled = true ∨ layout.LastIsHighest filePriorities) := by
  obtain ⟨v, hv, hvlength, hlast⟩ := layout.foldlM_applyFile enabled filePriorities
    hlength.le
  refine ⟨v, hv, hvlength, ?_⟩
  have hhighest := fun index => (hlast index).eq_highest_iff
  constructor
  · intro h
    by_contra hnot
    rw [not_or, Bool.not_eq_true] at hnot
    refine hnot.2 fun index hindex file hfile last hlast hwants hwantsLast hlater => ?_
    have hle := (hhighest index).1 (h index hindex) file hfile last hlast hwants hwantsLast hlater
    rw [wanted, wanted, hnot.1] at hle
    simpa using hle
  · intro h index hindex
    refine (hhighest index).2 fun file hfile last hlast hwants hwantsLast hlater => ?_
    obtain hlt | rfl | hgt := lt_trichotomy file last
    · by_cases hon : enabled = true
      · obtain ⟨hend, hendLast⟩ := atEnd_of_shared (hlength ▸ hlast) hlt hwants.2 hwantsLast.2
        rw [wanted, wanted, if_pos ⟨hon, hend⟩, if_pos ⟨hon, hendLast⟩]
      · have hle := h.resolve_left hon index hindex file hfile last hlast hwants hwantsLast hlater
        rw [wanted, wanted, if_neg fun h => hon h.1, if_neg fun h => hon h.1]
        exact hle
    · exact le_rfl
    · exact absurd hwants (hlater file hfile hgt)

/-- A file of high priority and one of normal priority in two pieces, with the option on. -/
theorem piecePriorities_iff_enabled :
    let layout : TorrentLayout := ⟨[⟨3, false⟩, ⟨5, false⟩], 4, by decide⟩
    ∃ piecePriorities, layout.applyFirstLastPiecePriority true
        [DownloadPriority.High, DownloadPriority.Normal] = some piecePriorities ∧
      piecePriorities.length = layout.piecesCount ∧
      ((∀ index < layout.piecesCount, piecePriorities.getD index DownloadPriority.Ignored =
          layout.highest true [DownloadPriority.High, DownloadPriority.Normal] index) ↔
        true = true ∨ layout.LastIsHighest [DownloadPriority.High, DownloadPriority.Normal]) :=
  piecePriorities_iff _ _ _ (by decide)

/-- With the option off, the piece that both files share has the priority of the second one. -/
theorem later_file_wins :
    let layout : TorrentLayout := ⟨[⟨3, false⟩, ⟨5, false⟩], 4, by decide⟩
    layout.applyFirstLastPiecePriority false [DownloadPriority.High, DownloadPriority.Normal] =
        some [DownloadPriority.Normal, DownloadPriority.Normal] ∧
      layout.highest false [DownloadPriority.High, DownloadPriority.Normal] 0 =
        DownloadPriority.High := by
  decide

end TorrentLayout

end QBittorrent
