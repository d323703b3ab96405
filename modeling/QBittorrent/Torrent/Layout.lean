import QBittorrent.Torrent.Progress

/-!
# Files and pieces with pad files

In libtorrent a torrent may have pad files among its files, at any place.  They fill pieces, but
`TorrentInfo` numbers the other files only.

* `TorrentLayout.count_piece` : how many bytes of a file are in a piece.
-/

namespace QBittorrent

open List

structure NativeFile where
  size : ℕ
  /-- `pad_file_at`. -/
  pad : Bool

/-- The files that libtorrent has of a torrent, one behind the other. -/
structure TorrentLayout where
  nativeFiles : List NativeFile
  pieceLength : ℕ
  pieceLength_pos : 0 < pieceLength

namespace TorrentLayout

variable (layout : TorrentLayout)

/-! ### What libtorrent says -/

def nativeFile (native : ℕ) : NativeFile := layout.nativeFiles.getD native ⟨0, true⟩

/-- `file_offset` of `file_storage`. -/
def nativeOffset (native : ℕ) : ℕ := ((layout.nativeFiles.take native).map NativeFile.size).sum

def totalSize : ℕ := (layout.nativeFiles.map NativeFile.size).sum

/-- `num_pieces`. -/
def piecesCount : ℕ := (layout.totalSize + layout.pieceLength - 1) / layout.pieceLength

/-- `piece_size`; the last piece may be shorter. -/
def pieceSize (index : ℕ) : ℕ :=
  min layout.pieceLength (layout.totalSize - index * layout.pieceLength)

def pieceEnd (index : ℕ) : ℕ := index * layout.pieceLength + layout.pieceSize index

/-- A file has bytes in the piece. -/
def Overlaps (native index : ℕ) : Prop :=
  max (layout.nativeOffset native) (index * layout.pieceLength) <
    min (layout.nativeOffset (native + 1)) (layout.pieceEnd index)
  deriving Decidable

/-- The files of the slices of `map_block` for a whole piece. -/
def mapBlock (index : ℕ) : List ℕ :=
  (List.range layout.nativeFiles.length).filter fun native => layout.Overlaps native index

/-! ### `TorrentInfo` -/

/-- `m_nativeIndexes`: the files that are no pad files. -/
def nativeIndexes : List ℕ :=
  (List.range layout.nativeFiles.length).filter fun native => !(layout.nativeFile native).pad

def filesCount : ℕ := layout.nativeIndexes.length

def nativeIndex (file : ℕ) : ℕ := layout.nativeIndexes.getD file 0

def fileSize (file : ℕ) : ℕ := (layout.nativeFile (layout.nativeIndex file)).size

def fileOffset (file : ℕ) : ℕ := layout.nativeOffset (layout.nativeIndex file)

def fileIndicesForPiece (index : ℕ) : List ℕ :=
  if layout.piecesCount ≤ index then [] else
    (layout.mapBlock index).filterMap fun native =>
      if native ∈ layout.nativeIndexes then some (layout.nativeIndexes.idxOf native) else none

/-- `IndexRange`. -/
structure PieceRange where
  first : ℤ
  size : ℤ

def PieceRange.last (range : PieceRange) : ℤ := range.first + range.size - 1

/-- `makeInterval`. -/
def PieceRange.ofInterval (first last : ℤ) : PieceRange := ⟨first, last - first + 1⟩

def filePieces (file : ℕ) : PieceRange :=
  let fileSize := layout.fileSize file
  let fileOffset := layout.fileOffset file
  let beginIdx := fileOffset / layout.pieceLength
  let endIdx := (fileOffset + fileSize - 1) / layout.pieceLength
  if fileSize = 0 then ⟨beginIdx, 0⟩ else .ofInterval beginIdx endIdx

variable {layout} {native native' file file' index : ℕ}

/-! ### Offsets -/

theorem nativeOffset_succ (h : native < layout.nativeFiles.length) :
    layout.nativeOffset (native + 1) =
      layout.nativeOffset native + (layout.nativeFile native).size := by
  rw [nativeOffset, nativeOffset, take_add_one, map_append, sum_append, nativeFile,
    getD_eq_getElem?_getD]
  simp [h]

variable (layout) in
theorem nativeOffset_mono (h : native ≤ native') :
    layout.nativeOffset native ≤ layout.nativeOffset native' := by
  induction h with
  | refl => exact le_rfl
  | step _ ih =>
    refine ih.trans ?_
    rw [Nat.succ_eq_add_one, nativeOffset, nativeOffset, take_add_one, map_append,
      sum_append]
    exact Nat.le_add_right _ _

theorem nativeOffset_length : layout.nativeOffset layout.nativeFiles.length = layout.totalSize := by
  rw [nativeOffset, take_length, totalSize]

theorem nativeOffset_le (native : ℕ) : layout.nativeOffset native ≤ layout.totalSize := by
  obtain h | h := le_total native layout.nativeFiles.length
  · exact (layout.nativeOffset_mono h).trans nativeOffset_length.le
  · rw [nativeOffset, take_of_length_le h, totalSize]

theorem lt_piecesCount_iff :
    index < layout.piecesCount ↔ index * layout.pieceLength < layout.totalSize := by
  have hpos := layout.pieceLength_pos
  rw [piecesCount, Nat.lt_iff_add_one_le, Nat.le_div_iff_mul_le hpos, Nat.succ_mul]
  omega

theorem pieceEnd_eq (h : index < layout.piecesCount) :
    layout.pieceEnd index = min ((index + 1) * layout.pieceLength) layout.totalSize ∧
      index * layout.pieceLength < layout.pieceEnd index := by
  have hstart := lt_piecesCount_iff.1 h
  have hpos := layout.pieceLength_pos
  rw [pieceEnd, pieceSize, Nat.succ_mul]
  omega

theorem Overlaps.lt_piecesCount (h : layout.Overlaps native index) : index < layout.piecesCount := by
  have hle := layout.nativeOffset_le (native + 1)
  rw [Overlaps] at h
  rw [lt_piecesCount_iff]
  omega

theorem exists_nativeFile (position : ℕ) (h : position < layout.totalSize) :
    ∃ native < layout.nativeFiles.length, layout.nativeOffset native ≤ position ∧
      position < layout.nativeOffset (native + 1) := by
  have hexists : ∃ native, position < layout.nativeOffset native :=
    ⟨layout.nativeFiles.length, by rwa [nativeOffset_length]⟩
  have hlt := Nat.find_spec hexists
  have hpos : Nat.find hexists ≠ 0 := by
    intro h0
    rw [h0] at hlt
    exact absurd hlt (by simp [nativeOffset])
  obtain ⟨native, hnative⟩ := Nat.exists_eq_succ_of_ne_zero hpos
  rw [hnative] at hlt
  have hmin : ¬ position < layout.nativeOffset native :=
    Nat.find_min hexists (by omega)
  refine ⟨native, ?_, not_lt.1 hmin, hlt⟩
  by_contra hge
  rw [not_lt] at hge
  have hle := layout.nativeOffset_mono hge
  rw [nativeOffset_length] at hle
  omega

/-! ### The files without pad files -/

theorem mem_nativeIndexes : native ∈ layout.nativeIndexes ↔
    native < layout.nativeFiles.length ∧ (layout.nativeFile native).pad = false := by
  simp [nativeIndexes]

theorem nodup_nativeIndexes : layout.nativeIndexes.Nodup := nodup_range.filter _

theorem nativeIndex_eq (h : file < layout.nativeIndexes.length) :
    layout.nativeIndex file = layout.nativeIndexes[file] := by
  simp [nativeIndex, getD_eq_getElem?_getD, h]

theorem nativeIndex_mem (h : file < layout.filesCount) :
    layout.nativeIndex file ∈ layout.nativeIndexes := by
  rw [nativeIndex_eq h]
  exact getElem_mem h

theorem exists_file (h : native ∈ layout.nativeIndexes) :
    ∃ file < layout.filesCount, layout.nativeIndex file = native := by
  obtain ⟨file, hlt, hfile⟩ := getElem_of_mem h
  exact ⟨file, hlt, (nativeIndex_eq hlt).trans hfile⟩

theorem nativeIndex_lt (h : file < layout.filesCount) :
    layout.nativeIndex file < layout.nativeFiles.length :=
  (mem_nativeIndexes.1 (nativeIndex_mem h)).1

theorem nativeIndex_strictMono (h : file < file') (h' : file' < layout.filesCount) :
    layout.nativeIndex file < layout.nativeIndex file' := by
  have hsorted : layout.nativeIndexes.Pairwise (· < ·) := pairwise_lt_range.filter _
  rw [nativeIndex_eq (h.trans h'), nativeIndex_eq h']
  exact pairwise_iff_getElem.1 hsorted file file' (h.trans h') h' h

theorem file_lt_of_nativeIndex_lt (hlt : layout.nativeIndex file < layout.nativeIndex file')
    (h : file < layout.filesCount) : file < file' := by
  by_contra hge
  obtain heq | hlt' := (not_lt.1 hge).eq_or_lt
  · rw [heq] at hlt
    exact lt_irrefl _ hlt
  · exact lt_asymm hlt (nativeIndex_strictMono hlt' h)

theorem nativeOffset_nativeIndex_succ (h : file < layout.filesCount) :
    layout.nativeOffset (layout.nativeIndex file + 1) =
      layout.fileOffset file + layout.fileSize file := nativeOffset_succ (nativeIndex_lt h)

theorem fileEnd_le_fileOffset (h : file < file') (h' : file' < layout.filesCount) :
    layout.fileOffset file + layout.fileSize file ≤ layout.fileOffset file' := by
  rw [← nativeOffset_nativeIndex_succ (h.trans h')]
  exact layout.nativeOffset_mono (nativeIndex_strictMono h h')

theorem fileEnd_le_totalSize (h : file < layout.filesCount) :
    layout.fileOffset file + layout.fileSize file ≤ layout.totalSize := by
  rw [← nativeOffset_nativeIndex_succ h]
  exact nativeOffset_le _

theorem nativeIndexes_eq_map :
    layout.nativeIndexes = (List.range layout.filesCount).map layout.nativeIndex := by
  refine ext_getElem (by simp [filesCount]) fun file h h' => ?_
  rw [getElem_map, getElem_range, nativeIndex_eq h]

theorem idxOf_nativeIndex (h : file < layout.filesCount) :
    layout.nativeIndexes.idxOf (layout.nativeIndex file) = file := by
  rw [nativeIndex_eq h]
  exact nodup_nativeIndexes.idxOf_getElem file h

theorem fileIndicesForPiece_eq (index : ℕ) : layout.fileIndicesForPiece index =
    (List.range layout.filesCount).filter fun file =>
      layout.Overlaps (layout.nativeIndex file) index := by
  have hindexOf : ∀ natives : List ℕ, (natives.filterMap fun native =>
      if native ∈ layout.nativeIndexes then some (layout.nativeIndexes.idxOf native) else none) =
      (natives.filter fun native => decide (native ∈ layout.nativeIndexes)).map
        layout.nativeIndexes.idxOf := by
    intro natives
    induction natives with
    | nil => rfl
    | cons native natives ih => by_cases hmem : native ∈ layout.nativeIndexes <;> simp [hmem, ih]
  have hblock : ((layout.mapBlock index).filter fun native =>
      decide (native ∈ layout.nativeIndexes)) =
      layout.nativeIndexes.filter fun native => layout.Overlaps native index := by
    rw [mapBlock, nativeIndexes, filter_filter, filter_filter]
    refine filter_congr fun native hmem => ?_
    simp [hmem, Bool.and_comm]
  rw [fileIndicesForPiece]
  by_cases h : layout.piecesCount ≤ index
  · rw [if_pos h, eq_comm, filter_eq_nil_iff]
    intro file _ hoverlaps
    exact absurd (of_decide_eq_true hoverlaps).lt_piecesCount (not_lt.2 h)
  · rw [if_neg h, hindexOf, hblock, nativeIndexes_eq_map, filter_map, map_map]
    refine (map_congr_left fun file hfile => ?_).trans (map_id _)
    rw [Function.comp_apply, ← nativeIndexes_eq_map]
    exact idxOf_nativeIndex (mem_range.1 (mem_filter.1 hfile).1)

section

variable (hf : file < layout.filesCount)

include hf

theorem count_piece (h : index < layout.piecesCount) :
    Blocks.count layout.pieceLength (layout.fileOffset file) (layout.fileSize file)
        (fun i => decide (i = index)) =
      min (layout.fileOffset file + layout.fileSize file) (layout.pieceEnd index) -
        max (layout.fileOffset file) (index * layout.pieceLength) := by
  have hend := fileEnd_le_totalSize hf
  rw [Blocks.count_single layout.pieceLength_pos, (pieceEnd_eq h).1]
  omega

theorem overlaps_iff_div (hsize : 0 < layout.fileSize file) :
    layout.Overlaps (layout.nativeIndex file) index ↔
      layout.fileOffset file / layout.pieceLength ≤ index ∧
        index ≤ (layout.fileOffset file + layout.fileSize file - 1) / layout.pieceLength := by
  have hpos := layout.pieceLength_pos
  have hend := fileEnd_le_totalSize hf
  rw [← Nat.lt_add_one_iff, Nat.div_lt_iff_lt_mul hpos, Nat.le_div_iff_mul_le hpos, Overlaps,
    nativeOffset_nativeIndex_succ hf, ← fileOffset]
  constructor
  · intro h
    have hoverlaps : layout.Overlaps (layout.nativeIndex file) index := by
      rw [Overlaps, nativeOffset_nativeIndex_succ hf, ← fileOffset]
      exact h
    rw [(pieceEnd_eq hoverlaps.lt_piecesCount).1] at h
    omega
  · rintro ⟨hbegin, hlast⟩
    have hindex : index < layout.piecesCount := lt_piecesCount_iff.2 (by omega)
    rw [(pieceEnd_eq hindex).1]
    rw [Nat.succ_mul] at hbegin ⊢
    omega

theorem not_overlaps_of_fileSize_eq_zero (hsize : layout.fileSize file = 0) :
    ¬ layout.Overlaps (layout.nativeIndex file) index := by
  rw [Overlaps, nativeOffset_nativeIndex_succ hf, ← fileOffset, hsize]
  omega

end

end TorrentLayout

end QBittorrent
