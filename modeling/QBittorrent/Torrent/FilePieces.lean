import QBittorrent.Torrent.PiecePriority

/-!
# The pieces of a file and the files of a piece

`TorrentInfo::filePieces` divides the ends of a file by the length of a piece, `fileIndicesForPiece`
asks libtorrent for the files of a piece and numbers them anew, without the pad files.

* `mem_filePieces_iff` : the pieces of a file;
* `filePieces_dual` : files and pieces agree.
-/

namespace QBittorrent.BitTorrent

open List Option

open TorrentLayout (PieceRange)

/-- The metadata of a torrent, if there are any.  The numbers of files and pieces are `int`s of
libtorrent. -/
structure TorrentInfo where
  /-- `m_nativeInfo` -/
  nativeInfo : Option TorrentLayout
  nativeFiles_lt : ∀ layout ∈ nativeInfo, layout.nativeFiles.length < 2 ^ 31
  piecesCount_lt : ∀ layout ∈ nativeInfo, layout.piecesCount < 2 ^ 31

/-- The indexes from `begin()` to `end()`. -/
def indexes (range : PieceRange) : List ℤ :=
  (List.range range.size.toNat).map fun (i : ℕ) => range.first + i

namespace TorrentInfo

variable (info : TorrentInfo)

def filesCount : ℤ := info.nativeInfo.elim (-1) fun layout => layout.filesCount

def piecesCount : ℤ := info.nativeInfo.elim (-1) fun layout => layout.piecesCount

def fileSize (index : ℤ) : ℤ :=
  info.nativeInfo.elim (-1) fun layout =>
    if index < 0 ∨ layout.filesCount ≤ index then -1 else layout.fileSize index.toNat

def fileIndicesForPiece (pieceIndex : ℤ) : List ℤ :=
  info.nativeInfo.elim [] fun layout =>
    if pieceIndex < 0 ∨ layout.piecesCount ≤ pieceIndex then []
    else (layout.fileIndicesForPiece pieceIndex.toNat).map fun (index : ℕ) => (index : ℤ)

def filePieces (fileIndex : ℤ) : PieceRange :=
  info.nativeInfo.elim ⟨0, 0⟩ fun layout =>
    if fileIndex < 0 ∨ layout.filesCount ≤ fileIndex then ⟨0, 0⟩
    else
      let pieces := layout.filePieces fileIndex.toNat
      -- the offsets are of 64 bits, the quotients are kept in `int`s
      ⟨pieces.first.bmod (2 ^ 32), pieces.size.bmod (2 ^ 32)⟩

end TorrentInfo

variable {range : PieceRange} {index : ℤ}

theorem mem_indexes_iff : index ∈ indexes range ↔ range.first ≤ index ∧ index ≤ range.last := by
  rw [indexes, List.mem_map, PieceRange.last]
  constructor
  · rintro ⟨i, hi, rfl⟩
    rw [mem_range] at hi
    omega
  · rintro ⟨hfirst, hlast⟩
    exact ⟨(index - range.first).toNat, mem_range.2 (by omega), by omega⟩

theorem pairwise_indexes (range : PieceRange) : (indexes range).Pairwise (· < ·) := by
  rw [indexes, pairwise_map]
  exact pairwise_lt_range.imp fun hij => by omega

namespace TorrentInfo

variable {info : TorrentInfo} {layout : TorrentLayout} {file piece : ℕ}

theorem last_lt_piecesCount (hfile : file < layout.filesCount) (hsize : 0 < layout.fileSize file) :
    (layout.fileOffset file + layout.fileSize file - 1) / layout.pieceLength < layout.piecesCount := by
  have hend := TorrentLayout.fileEnd_le_totalSize hfile
  have hle := Nat.div_mul_le_self (layout.fileOffset file + layout.fileSize file - 1) layout.pieceLength
  exact TorrentLayout.lt_piecesCount_iff.2 (by omega)

theorem filePieces_bounds (hcount : layout.piecesCount < 2 ^ 31) (hfile : file < layout.filesCount) :
    (0 ≤ (layout.filePieces file).first ∧ (layout.filePieces file).first < 2 ^ 31) ∧
      0 ≤ (layout.filePieces file).size ∧ (layout.filePieces file).size < 2 ^ 31 := by
  obtain hsize | hsize := Nat.eq_zero_or_pos (layout.fileSize file)
  · -- the first piece of an empty file may be the one behind the last of the torrent
    have hbegin : layout.fileOffset file / layout.pieceLength ≤ layout.piecesCount := by
      have hend := TorrentLayout.fileEnd_le_totalSize hfile
      have hpos := layout.pieceLength_pos
      exact Nat.div_le_div_right (by omega)
    have hpieces : layout.filePieces file = ⟨(layout.fileOffset file / layout.pieceLength : ℕ), 0⟩ := by
      rw [TorrentLayout.filePieces]
      simp only [if_pos hsize, Int.natCast_ediv]
    rw [hpieces]
    generalize layout.fileOffset file / layout.pieceLength = beginIdx at hbegin
    dsimp only
    omega
  · have hlast := last_lt_piecesCount hfile hsize
    obtain ⟨hfirst, hend⟩ := TorrentLayout.filePieces_of_pos hsize
    have hle : layout.fileOffset file / layout.pieceLength ≤
        (layout.fileOffset file + layout.fileSize file - 1) / layout.pieceLength :=
      Nat.div_le_div_right (by omega)
    rw [PieceRange.last, hfirst] at hend
    rw [hfirst]
    generalize layout.fileOffset file / layout.pieceLength = beginIdx at hle hend
    omega

section

variable (hinfo : info.nativeInfo = some layout)

include hinfo

theorem filePieces_eq (hfile : file < layout.filesCount) :
    info.filePieces file = layout.filePieces file := by
  have hint : ∀ n : ℤ, 0 ≤ n → n < 2 ^ 31 → n.bmod (2 ^ 32) = n := by
    intro n hlo hhi
    rw [Int.bmod_def]
    split_ifs <;> omega
  obtain ⟨⟨hfirst, hfirst'⟩, hsize, hsize'⟩ :=
    filePieces_bounds (info.piecesCount_lt layout hinfo) hfile
  rw [filePieces, hinfo, elim_some, if_neg (by omega), Int.toNat_natCast]
  dsimp only
  rw [hint _ hfirst hfirst', hint _ hsize hsize']

theorem exists_file_of_fileSize_pos (h : 0 < info.fileSize index) :
    ∃ file : ℕ, index = file ∧ file < layout.filesCount := by
  rw [fileSize, hinfo, elim_some] at h
  split_ifs at h with hindex
  · omega
  · exact ⟨index.toNat, by omega, by omega⟩

theorem exists_file_of_mem {pieceIndex : ℤ} (h : pieceIndex ∈ indexes (info.filePieces index)) :
    ∃ file : ℕ, index = file ∧ file < layout.filesCount := by
  by_contra hnone
  rw [filePieces, hinfo, elim_some, if_pos] at h
  · exact absurd h not_mem_nil
  · by_contra hindex
    exact hnone ⟨index.toNat, by omega, by omega⟩

theorem exists_piece_of_mem {fileIndex : ℤ} (h : fileIndex ∈ info.fileIndicesForPiece index) :
    ∃ piece : ℕ, index = piece := by
  rw [fileIndicesForPiece, hinfo, elim_some] at h
  split_ifs at h with hindex
  · exact absurd h not_mem_nil
  · exact ⟨index.toNat, by omega⟩

theorem mem_filePieces_iff (hfile : file < layout.filesCount) :
    index ∈ indexes (info.filePieces file) ↔
      ∃ piece : ℕ, index = piece ∧ layout.Overlaps (layout.nativeIndex file) piece := by
  rw [filePieces_eq hinfo hfile, mem_indexes_iff]
  obtain hsize | hsize := Nat.eq_zero_or_pos (layout.fileSize file)
  · have hempty := (TorrentLayout.filePieces_of_eq_zero hsize).1
    constructor
    · omega
    · rintro ⟨piece, -, hpiece⟩
      exact absurd hpiece (TorrentLayout.not_overlaps_of_fileSize_eq_zero hfile hsize)
  · obtain ⟨hfirst, hlast⟩ := TorrentLayout.filePieces_of_pos hsize
    rw [hfirst, hlast]
    constructor
    · rintro ⟨hbegin, hend⟩
      obtain ⟨piece, rfl⟩ := Int.eq_ofNat_of_zero_le ((Int.natCast_nonneg _).trans hbegin)
      exact ⟨piece, rfl, (TorrentLayout.overlaps_iff_div hfile hsize).2 ⟨by omega, by omega⟩⟩
    · rintro ⟨piece, rfl, hpiece⟩
      obtain ⟨hbegin, hend⟩ := (TorrentLayout.overlaps_iff_div hfile hsize).1 hpiece
      exact ⟨by omega, by omega⟩

theorem mem_fileIndicesForPiece_iff :
    index ∈ info.fileIndicesForPiece piece ↔
      ∃ file < layout.filesCount, index = (file : ℤ) ∧
        layout.Overlaps (layout.nativeIndex file) piece := by
  rw [fileIndicesForPiece, hinfo, elim_some]
  split_ifs with hpiece
  · constructor
    · exact fun h => absurd h not_mem_nil
    · rintro ⟨file, -, -, hoverlaps⟩
      have hlt := hoverlaps.lt_piecesCount
      omega
  · rw [Int.toNat_natCast, TorrentLayout.fileIndicesForPiece_eq]
    simp only [List.mem_map, mem_filter, mem_range, decide_eq_true_eq]
    constructor
    · rintro ⟨file, ⟨hfile, hoverlaps⟩, rfl⟩
      exact ⟨file, hfile, rfl, hoverlaps⟩
    · rintro ⟨file, hfile, rfl, hoverlaps⟩
      exact ⟨file, ⟨hfile, hoverlaps⟩, rfl⟩

end

theorem pairwise_fileIndicesForPiece (pieceIndex : ℤ) :
    (info.fileIndicesForPiece pieceIndex).Pairwise (· < ·) := by
  rw [fileIndicesForPiece]
  cases hinfo : info.nativeInfo with
  | none => exact .nil
  | some layout =>
    rw [elim_some]
    split_ifs
    · exact .nil
    · rw [pairwise_map, TorrentLayout.fileIndicesForPiece_eq]
      exact (pairwise_lt_range.filter _).imp fun hij => Int.ofNat_lt.2 hij

/-- **Files and pieces are dual.**  A piece is one of a file that is not empty exactly if the file is
one of the piece.  Of both there are valid indexes only, each once and in their order. -/
theorem filePieces_dual (info : TorrentInfo) :
    (∀ fileIndex pieceIndex, 0 < info.fileSize fileIndex →
      (pieceIndex ∈ indexes (info.filePieces fileIndex) ↔
        fileIndex ∈ info.fileIndicesForPiece pieceIndex)) ∧
    (∀ fileIndex, (indexes (info.filePieces fileIndex)).Pairwise (· < ·) ∧
      ∀ pieceIndex ∈ indexes (info.filePieces fileIndex),
        0 ≤ pieceIndex ∧ pieceIndex < info.piecesCount) ∧
    ∀ pieceIndex, (info.fileIndicesForPiece pieceIndex).Pairwise (· < ·) ∧
      ∀ fileIndex ∈ info.fileIndicesForPiece pieceIndex,
        0 ≤ fileIndex ∧ fileIndex < info.filesCount := by
  cases hinfo : info.nativeInfo with
  | none =>
    have hpieces : ∀ fileIndex, indexes (info.filePieces fileIndex) = [] := by
      intro fileIndex
      rw [filePieces, hinfo]
      rfl
    have hfiles : ∀ pieceIndex, info.fileIndicesForPiece pieceIndex = [] := by
      intro pieceIndex
      rw [fileIndicesForPiece, hinfo]
      rfl
    simp [hpieces, hfiles]
  | some layout =>
    refine ⟨fun fileIndex pieceIndex hsize => ?_, fun fileIndex => ⟨pairwise_indexes _, ?_⟩,
      fun pieceIndex => ⟨pairwise_fileIndicesForPiece pieceIndex, ?_⟩⟩
    · obtain ⟨file, rfl, hfile⟩ := exists_file_of_fileSize_pos hinfo hsize
      rw [mem_filePieces_iff hinfo hfile]
      constructor
      · rintro ⟨piece, rfl, hoverlaps⟩
        exact (mem_fileIndicesForPiece_iff hinfo).2 ⟨file, hfile, rfl, hoverlaps⟩
      · intro hmem
        obtain ⟨piece, rfl⟩ := exists_piece_of_mem hinfo hmem
        obtain ⟨file', -, heq, hoverlaps⟩ := (mem_fileIndicesForPiece_iff hinfo).1 hmem
        rw [Int.natCast_inj.1 heq]
        exact ⟨piece, rfl, hoverlaps⟩
    · intro pieceIndex hmem
      obtain ⟨file, rfl, hfile⟩ := exists_file_of_mem hinfo hmem
      obtain ⟨piece, rfl, hoverlaps⟩ := (mem_filePieces_iff hinfo hfile).1 hmem
      rw [piecesCount, hinfo, elim_some]
      exact ⟨Int.natCast_nonneg piece, Int.ofNat_lt.2 hoverlaps.lt_piecesCount⟩
    · intro fileIndex hmem
      obtain ⟨piece, rfl⟩ := exists_piece_of_mem hinfo hmem
      obtain ⟨file, hfile, rfl, -⟩ := (mem_fileIndicesForPiece_iff hinfo).1 hmem
      rw [filesCount, hinfo, elim_some]
      exact ⟨Int.natCast_nonneg file, Int.ofNat_lt.2 hfile⟩

/-- A file that fills a piece with a pad file, and a file with one byte more than a piece. -/
def padded : TorrentInfo where
  nativeInfo := some ⟨[⟨10, false⟩, ⟨6, true⟩, ⟨17, false⟩], 16, by decide⟩
  nativeFiles_lt layout h := by
    obtain rfl := some.inj h
    decide
  piecesCount_lt layout h := by
    obtain rfl := some.inj h
    decide

example : indexes (padded.filePieces 1) = [1, 2] ∧ padded.fileIndicesForPiece 0 = [0] := by decide

end TorrentInfo

end QBittorrent.BitTorrent
