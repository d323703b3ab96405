import Mathlib
import QBittorrent.Torrent.Layout

/-!
# The progress of files in pieces with pad files

For each new piece `updateProgress` walks the files of the piece with the offset where the last one
ended; it does not see the pad files that lie between them.

* `TorrentLayout.getD_addToFiles` : the loop over one piece;
* `TorrentLayout.fileBytes_iff` : right exactly if pad files are last in each piece.
-/

namespace QBittorrent

open List

namespace TorrentLayout

variable (layout : TorrentLayout)

/-- The loop over the files of a piece; `size` bytes are left of the piece, from `pieceOffset` on. -/
def addToFiles : List ℕ → ℤ → ℤ → List ℤ → List ℤ
  | [], _, _, filesProgress => filesProgress
  | fileIndex :: fileIndices, size, pieceOffset, filesProgress =>
    let fileOffsetInPiece := pieceOffset - layout.fileOffset fileIndex
    let add := min (layout.fileSize fileIndex - fileOffsetInPiece) size
    let filesProgress := filesProgress.modify fileIndex (· + add)
    if size - add ≤ 0 then filesProgress
    else addToFiles fileIndices (size - add) (pieceOffset + add) filesProgress

/-- One round of the loop over pieces. -/
def addPiece (filesProgress : List ℤ) (index : ℕ) : List ℤ :=
  layout.addToFiles (layout.fileIndicesForPiece index) (layout.pieceSize index)
    (index * layout.pieceLength) filesProgress

/-- The fields of `TorrentImpl` that `updateProgress` changes. -/
structure Progress where
  pieces : List Bool
  filesProgress : List ℤ

/-- `updateProgress`, with the pieces of `m_nativeStatus`. -/
def updateProgress (progress : Progress) (nativePieces : List Bool) : Progress :=
  let filesProgress := if progress.filesProgress = [] then List.replicate layout.filesCount 0
    else progress.filesProgress
  let newPieces := xorBits nativePieces progress.pieces
  ⟨nativePieces, (List.range newPieces.length).foldl (fun filesProgress index =>
    if newPieces.getD index false then layout.addPiece filesProgress index else filesProgress)
    filesProgress⟩

/-- A torrent of which there is nothing; `m_pieces` has any size. -/
def empty (n : ℕ) : Progress :=
  ⟨List.replicate n false, List.replicate layout.filesCount 0⟩

def bytesIn (pieces : List Bool) (file : ℕ) : ℕ :=
  Blocks.count layout.pieceLength (layout.fileOffset file) (layout.fileSize file) fun index =>
    pieces.getD index false

/-- Of the files with bytes in the piece, only pad files come behind a pad file. -/
def PadsLast (index : ℕ) : Prop :=
  (layout.mapBlock index).Pairwise fun native native' =>
    (layout.nativeFile native).pad = true → (layout.nativeFile native').pad = true

instance : DecidablePred layout.PadsLast := fun _ => inferInstanceAs (Decidable (List.Pairwise _ _))

variable {layout} {file index start : ℕ} {filesProgress : List ℤ} {files : List ℕ}

/-! ### One piece -/

def fileEnd (layout : TorrentLayout) (file : ℕ) : ℕ := layout.fileOffset file + layout.fileSize file

/-- Where the loop is when it comes to a file: at the end of those before it. -/
def reach (layout : TorrentLayout) (files : List ℕ) (start file : ℕ) : ℕ :=
  (files.filter fun file' => decide (file' < file)).foldr
    (fun file' position => max (layout.fileEnd file') position) start

theorem reach_le_iff {position : ℕ} :
    layout.reach files start file ≤ position ↔
      start ≤ position ∧ ∀ file' ∈ files, file' < file → layout.fileEnd file' ≤ position := by
  rw [reach]
  induction files with
  | nil => simp
  | cons file' files ih =>
    by_cases hlt : file' < file
    · rw [filter_cons_of_pos (by simpa using hlt), foldr_cons, max_le_iff, ih]
      simp only [forall_mem_cons, hlt, true_imp_iff]
      tauto
    · rw [filter_cons_of_neg (by simpa using hlt), ih]
      simp only [forall_mem_cons, hlt, false_imp_iff, true_and]

theorem length_addToFiles {fileIndices : List ℕ} {size pieceOffset : ℤ} :
    (layout.addToFiles fileIndices size pieceOffset filesProgress).length =
      filesProgress.length := by
  induction fileIndices generalizing size pieceOffset filesProgress with
  | nil => rfl
  | cons fileIndex fileIndices ih =>
    rw [addToFiles]
    split_ifs
    · exact length_modify ..
    · rw [ih]
      exact length_modify ..

/-- What the loop relies on: the files come in their order, each has bytes in the piece, and ends
behind the place where the loop is. -/
structure Ahead (layout : TorrentLayout) (index : ℕ) (files : List ℕ) (start : ℕ) : Prop where
  sorted : files.Pairwise fun file file' => file < file' ∧
    layout.fileEnd file ≤ layout.fileOffset file'
  begins : ∀ file ∈ files, layout.fileOffset file < min (layout.fileEnd file) (layout.pieceEnd index)
  ends : ∀ file ∈ files, start < layout.fileEnd file

theorem getD_addToFiles (ahead : layout.Ahead index files start)
    (hstart : start < layout.pieceEnd index) (hlength : filesProgress.length = layout.filesCount)
    (hf : file < layout.filesCount) :
    (layout.addToFiles files (layout.pieceEnd index - start : ℕ) start filesProgress).getD file 0 =
      filesProgress.getD file 0 + if file ∈ files then
        ((min (layout.fileEnd file) (layout.pieceEnd index) : ℕ) : ℤ) -
          layout.reach files start file else 0 := by
  induction files generalizing start filesProgress with
  | nil => simp [addToFiles]
  | cons first files ih =>
    obtain ⟨hfirst, hsorted⟩ := pairwise_cons.1 ahead.sorted
    have hend := ahead.ends first mem_cons_self
    have hadd : min ((layout.fileSize first : ℤ) - ((start : ℤ) - layout.fileOffset first))
        ((layout.pieceEnd index - start : ℕ) : ℤ) =
        ((min (layout.fileEnd first) (layout.pieceEnd index) : ℕ) : ℤ) - start := by
      rw [fileEnd] at hend ⊢
      omega
    have hnotMem : first ∉ files := fun hmem => lt_irrefl _ (hfirst first hmem).1
    have hreach : layout.reach (first :: files) start first = start := by
      refine le_antisymm (reach_le_iff.2 ⟨le_rfl, fun file' hmem hlt => ?_⟩)
        (reach_le_iff.1 le_rfl).1
      obtain rfl | hmem := mem_cons.1 hmem
      · exact absurd hlt (lt_irrefl _)
      · exact absurd hlt (lt_asymm (hfirst file' hmem).1)
    rw [addToFiles]
    simp only [hadd]
    by_cases hlast : layout.pieceEnd index ≤ layout.fileEnd first
    · -- the piece ends in this file, so that it is the last one
      have hnil : files = [] := by
        refine eq_nil_iff_forall_not_mem.2 fun file' hmem => ?_
        have hbegins := ahead.begins file' (mem_cons_of_mem first hmem)
        have hle := (hfirst file' hmem).2
        omega
      subst hnil
      rw [if_pos (by omega), TorrentInfo.getD_modify_add (hlength ▸ hf)]
      congr 1
      by_cases hfile : file = first
      · rw [if_pos hfile, if_pos (mem_singleton.2 hfile), hfile, hreach]
      · rw [if_neg hfile, if_neg fun hmem => hfile (mem_singleton.1 hmem)]
    · have hsize : ((layout.pieceEnd index - start : ℕ) : ℤ) -
          (((min (layout.fileEnd first) (layout.pieceEnd index) : ℕ) : ℤ) - start) =
          (layout.pieceEnd index - layout.fileEnd first : ℕ) := by omega
      have hoffset : (start : ℤ) +
          (((min (layout.fileEnd first) (layout.pieceEnd index) : ℕ) : ℤ) - start) =
          layout.fileEnd first := by omega
      have hahead : layout.Ahead index files (layout.fileEnd first) := by
        refine ⟨hsorted, fun file' hmem => ahead.begins file' (mem_cons_of_mem first hmem),
          fun file' hmem => ?_⟩
        have hbegins := ahead.begins file' (mem_cons_of_mem first hmem)
        have hle := (hfirst file' hmem).2
        omega
      rw [if_neg (by omega), hsize, hoffset, ih hahead (by omega)
        (by rw [length_modify]; exact hlength), TorrentInfo.getD_modify_add (hlength ▸ hf),
        add_assoc]
      congr 1
      by_cases hfile : file = first
      · rw [hfile, if_pos rfl, if_neg hnotMem, if_pos mem_cons_self, hreach, add_zero]
      · rw [if_neg hfile, zero_add]
        by_cases hmem : file ∈ files
        · have hlt := (hfirst file hmem).1
          have hsame : layout.reach (first :: files) start file =
              layout.reach files (layout.fileEnd first) file := by
            refine eq_of_forall_ge_iff fun position => ?_
            rw [reach_le_iff, reach_le_iff, forall_mem_cons]
            constructor
            · exact fun h => ⟨h.2.1 hlt, h.2.2⟩
            · exact fun h => ⟨hend.le.trans h.1, fun _ => h.1, h.2⟩
          rw [if_pos hmem, if_pos (mem_cons_of_mem first hmem), hsame]
        · rw [if_neg hmem, if_neg fun h => (mem_cons.1 h).elim hfile hmem]

theorem ahead_fileIndicesForPiece (_ : index < layout.piecesCount) :
    layout.Ahead index (layout.fileIndicesForPiece index) (index * layout.pieceLength) := by
  rw [fileIndicesForPiece_eq]
  have hoverlaps : ∀ file ∈ (range layout.filesCount).filter (fun file =>
      decide (layout.Overlaps (layout.nativeIndex file) index)),
      file < layout.filesCount ∧ max (layout.fileOffset file) (index * layout.pieceLength) <
        min (layout.fileEnd file) (layout.pieceEnd index) := by
    intro file hmem
    obtain ⟨hfile, hoverlaps⟩ := mem_filter.1 hmem
    have hlt := mem_range.1 hfile
    have h := of_decide_eq_true hoverlaps
    rw [Overlaps, nativeOffset_nativeIndex_succ hlt] at h
    exact ⟨hlt, h⟩
  refine ⟨?_, fun file hmem => ?_, fun file hmem => ?_⟩
  · refine (Pairwise.and_mem.1 (pairwise_lt_range.filter _)).imp ?_
    rintro file file' ⟨-, hmem', hlt⟩
    exact ⟨hlt, fileEnd_le_fileOffset hlt (hoverlaps file' hmem').1⟩
  · have h := (hoverlaps file hmem).2
    omega
  · have h := (hoverlaps file hmem).2
    omega

/-- What a file gets of a piece. -/
def credit (layout : TorrentLayout) (index file : ℕ) : ℤ :=
  if file ∈ layout.fileIndicesForPiece index then
    ((min (layout.fileEnd file) (layout.pieceEnd index) : ℕ) : ℤ) -
      layout.reach (layout.fileIndicesForPiece index) (index * layout.pieceLength) file
  else 0

theorem length_addPiece :
    (layout.addPiece filesProgress index).length = filesProgress.length := length_addToFiles

theorem getD_addPiece (hlength : filesProgress.length = layout.filesCount)
    (hf : file < layout.filesCount) : (layout.addPiece filesProgress index).getD file 0 =
      filesProgress.getD file 0 + layout.credit index file := by
  rw [addPiece, credit]
  by_cases hindex : index < layout.piecesCount
  · have hloop := getD_addToFiles (ahead_fileIndicesForPiece hindex) (pieceEnd_eq hindex).2 hlength hf
    rw [← hloop, pieceEnd]
    congr 2
    rw [Nat.add_sub_cancel_left]
  · have hnil : layout.fileIndicesForPiece index = [] := by
      rw [fileIndicesForPiece, if_pos (not_lt.1 hindex)]
    rw [hnil, addToFiles, if_neg not_mem_nil, add_zero]

/-! ### The bytes of a file and what it gets -/

def bytesOf (layout : TorrentLayout) (index file : ℕ) : ℕ :=
  Blocks.count layout.pieceLength (layout.fileOffset file) (layout.fileSize file)
    fun i => decide (i = index)

theorem mem_fileIndicesForPiece_iff : file ∈ layout.fileIndicesForPiece index ↔
    file < layout.filesCount ∧ layout.Overlaps (layout.nativeIndex file) index := by
  rw [fileIndicesForPiece_eq, mem_filter, mem_range, decide_eq_true_iff]

theorem overlaps_iff (hf : file < layout.filesCount) :
    layout.Overlaps (layout.nativeIndex file) index ↔
      max (layout.fileOffset file) (index * layout.pieceLength) <
        min (layout.fileEnd file) (layout.pieceEnd index) := by
  rw [Overlaps, nativeOffset_nativeIndex_succ hf]
  rfl

theorem credit_eq (hf : file < layout.filesCount) (hindex : index < layout.piecesCount)
    (hoverlaps : layout.Overlaps (layout.nativeIndex file) index) :
    layout.credit index file = layout.bytesOf index file +
      ((max (layout.fileOffset file) (index * layout.pieceLength) : ℕ) -
        layout.reach (layout.fileIndicesForPiece index) (index * layout.pieceLength) file : ℤ) := by
  have hlt := (overlaps_iff hf).1 hoverlaps
  rw [credit, if_pos (mem_fileIndicesForPiece_iff.2 ⟨hf, hoverlaps⟩), bytesOf, count_piece hf hindex]
  rw [fileEnd] at hlt ⊢
  omega

theorem credit_of_not_overlaps (hf : file < layout.filesCount) (hindex : index < layout.piecesCount)
    (hoverlaps : ¬ layout.Overlaps (layout.nativeIndex file) index) :
    layout.credit index file = layout.bytesOf index file := by
  have hle := mt (overlaps_iff hf).2 hoverlaps
  rw [credit, if_neg fun hmem => hoverlaps (mem_fileIndicesForPiece_iff.1 hmem).2, bytesOf,
    count_piece hf hindex]
  rw [fileEnd] at hle
  omega

variable (index) in
theorem reach_le_begin (hf : file < layout.filesCount) :
    layout.reach (layout.fileIndicesForPiece index) (index * layout.pieceLength) file ≤
      max (layout.fileOffset file) (index * layout.pieceLength) := by
  refine reach_le_iff.2 ⟨le_max_right _ _, fun file' _ hlt => ?_⟩
  exact (fileEnd_le_fileOffset hlt hf).trans (le_max_left _ _)

theorem bytesOf_le_credit (hf : file < layout.filesCount) (hindex : index < layout.piecesCount) :
    (layout.bytesOf index file : ℤ) ≤ layout.credit index file := by
  by_cases hoverlaps : layout.Overlaps (layout.nativeIndex file) index
  · have hle := reach_le_begin index hf
    rw [credit_eq hf hindex hoverlaps]
    omega
  · exact (credit_of_not_overlaps hf hindex hoverlaps).ge

theorem padsLast_iff : layout.PadsLast index ↔ ∀ pad ∈ layout.mapBlock index,
    ∀ native ∈ layout.mapBlock index, pad < native → (layout.nativeFile pad).pad = true →
      (layout.nativeFile native).pad = true := by
  have hsorted : (layout.mapBlock index).Pairwise (· < ·) := pairwise_lt_range.filter _
  constructor
  · intro h pad hpad native hnative hlt
    obtain ⟨i, hi, rfl⟩ := getElem_of_mem hpad
    obtain ⟨j, hj, rfl⟩ := getElem_of_mem hnative
    refine pairwise_iff_getElem.1 h i j hi hj ?_
    by_contra hge
    obtain rfl | hji := (not_lt.1 hge).eq_or_lt
    · exact lt_irrefl _ hlt
    · exact lt_asymm hlt (pairwise_iff_getElem.1 hsorted j i hj hi hji)
  · intro h
    refine (Pairwise.and_mem.1 hsorted).imp ?_
    rintro pad native ⟨hpad, hnative, hlt⟩
    exact h pad hpad native hnative hlt

theorem mem_mapBlock_iff {native : ℕ} : native ∈ layout.mapBlock index ↔
    native < layout.nativeFiles.length ∧ layout.Overlaps native index := by
  rw [mapBlock, mem_filter, mem_range, decide_eq_true_iff]

theorem PadsLast.begin_le_reach (h : layout.PadsLast index) (hf : file < layout.filesCount)
    (hoverlaps : layout.Overlaps (layout.nativeIndex file) index) :
    max (layout.fileOffset file) (index * layout.pieceLength) ≤
      layout.reach (layout.fileIndicesForPiece index) (index * layout.pieceLength) file := by
  have hreach := reach_le_iff.1 (le_refl
    (layout.reach (layout.fileIndicesForPiece index) (index * layout.pieceLength) file))
  refine max_le ?_ hreach.1
  by_cases hbegins : layout.fileOffset file ≤ index * layout.pieceLength
  · exact hbegins.trans hreach.1
  · -- the byte in front of the file is in the piece, and in a file that is no pad file
    have hlt := (overlaps_iff hf).1 hoverlaps
    have hend := fileEnd_le_totalSize hf
    obtain ⟨native, hnative, hle, hltEnd⟩ :=
      layout.exists_nativeFile (layout.fileOffset file - 1) (by omega)
    have hnativeOverlaps : layout.Overlaps native index := by
      rw [Overlaps]
      omega
    have hbefore : native < layout.nativeIndex file := by
      by_contra hge
      have hmono := layout.nativeOffset_mono (not_lt.1 hge)
      rw [← fileOffset] at hmono
      omega
    have hnotPad : (layout.nativeFile native).pad = false := by
      by_contra hpad
      have hfilePad := padsLast_iff.1 h native (mem_mapBlock_iff.2 ⟨hnative, hnativeOverlaps⟩)
        (layout.nativeIndex file) (mem_mapBlock_iff.2 ⟨nativeIndex_lt hf, hoverlaps⟩) hbefore
        (Bool.not_eq_false _ ▸ hpad)
      rw [(mem_nativeIndexes.1 (nativeIndex_mem hf)).2] at hfilePad
      cases hfilePad
    obtain ⟨file', hf', rfl⟩ := exists_file (mem_nativeIndexes.2 ⟨hnative, hnotPad⟩)
    have hfileEnd := hreach.2 file' (mem_fileIndicesForPiece_iff.2 ⟨hf', hnativeOverlaps⟩)
      (file_lt_of_nativeIndex_lt hbefore hf')
    rw [nativeOffset_nativeIndex_succ hf'] at hltEnd
    rw [fileEnd] at hfileEnd
    omega

theorem exists_bytesOf_lt_credit (hindex : index < layout.piecesCount)
    (h : ¬ layout.PadsLast index) :
    ∃ file < layout.filesCount, (layout.bytesOf index file : ℤ) < layout.credit index file := by
  rw [padsLast_iff] at h
  push Not at h
  obtain ⟨pad, hpad, native, hnative, hlt, hisPad, hnotPad⟩ := h
  obtain ⟨hpadLt, hpadOverlaps⟩ := mem_mapBlock_iff.1 hpad
  obtain ⟨hnativeLt, hnativeOverlaps⟩ := mem_mapBlock_iff.1 hnative
  obtain ⟨file, hf, hfile⟩ := exists_file
    (mem_nativeIndexes.2 ⟨hnativeLt, Bool.eq_false_iff.2 hnotPad⟩)
  -- the first file behind the pad file
  have hexists : ∃ file, file < layout.filesCount ∧ pad < layout.nativeIndex file ∧
      layout.Overlaps (layout.nativeIndex file) index :=
    ⟨file, hf, by rwa [hfile], by rwa [hfile]⟩
  obtain ⟨hfirst, hbehind, hoverlaps⟩ := Nat.find_spec hexists
  refine ⟨Nat.find hexists, hfirst, ?_⟩
  have hreach : layout.reach (layout.fileIndicesForPiece index) (index * layout.pieceLength)
      (Nat.find hexists) ≤ max (layout.nativeOffset pad) (index * layout.pieceLength) := by
    refine reach_le_iff.2 ⟨le_max_right _ _, fun file' hmem hltFirst => ?_⟩
    obtain ⟨hf', hoverlaps'⟩ := mem_fileIndicesForPiece_iff.1 hmem
    have hnotBehind : ¬ pad < layout.nativeIndex file' := fun hbehind' =>
      Nat.find_min hexists hltFirst ⟨hf', hbehind', hoverlaps'⟩
    have hne : layout.nativeIndex file' ≠ pad := by
      intro heq
      have hfalse := (mem_nativeIndexes.1 (nativeIndex_mem hf')).2
      rw [heq, hisPad] at hfalse
      cases hfalse
    have hmono := layout.nativeOffset_mono
      (show layout.nativeIndex file' + 1 ≤ pad by omega)
    rw [nativeOffset_nativeIndex_succ hf'] at hmono
    exact hmono.trans (le_max_left _ _)
  have hpadEnd := layout.nativeOffset_mono
    (show pad + 1 ≤ layout.nativeIndex (Nat.find hexists) by omega)
  rw [← fileOffset] at hpadEnd
  rw [Overlaps] at hpadOverlaps
  rw [credit_eq hfirst hindex hoverlaps]
  omega

theorem credit_eq_bytesOf_iff (hindex : index < layout.piecesCount) :
    (∀ file < layout.filesCount, layout.credit index file = layout.bytesOf index file) ↔
      layout.PadsLast index := by
  constructor
  · intro h
    by_contra hpads
    obtain ⟨file, hf, hlt⟩ := exists_bytesOf_lt_credit hindex hpads
    exact hlt.ne' (h file hf)
  · intro h file hf
    by_cases hoverlaps : layout.Overlaps (layout.nativeIndex file) index
    · have hle := h.begin_le_reach hf hoverlaps
      have hge := reach_le_begin index hf
      rw [credit_eq hf hindex hoverlaps]
      omega
    · exact credit_of_not_overlaps hf hindex hoverlaps

/-! ### All new pieces -/

theorem credit_of_piecesCount_le (h : layout.piecesCount ≤ index) : layout.credit index file = 0 := by
  rw [credit, fileIndicesForPiece, if_pos h, if_neg not_mem_nil]

theorem bytesIn_eq_sum (_ : file < layout.filesCount) (pieces : List Bool) {m : ℕ}
    (hm : pieces.length ≤ m) : (layout.bytesIn pieces file : ℤ) =
      ∑ index ∈ Finset.range m,
        if pieces.getD index false = true then (layout.bytesOf index file : ℤ) else 0 := by
  have hsize : ∀ index, pieces.getD index false = true → index < m := by
    intro index hpiece
    by_contra hge
    rw [getD_eq_getElem?_getD, getElem?_eq_none (hm.trans (not_lt.1 hge))] at hpiece
    cases hpiece
  rw [bytesIn, Blocks.count_eq_sum hsize, Nat.cast_sum]
  refine Finset.sum_congr rfl fun index _ => ?_
  split_ifs <;> rfl

theorem bytesOf_of_piecesCount_le (hf : file < layout.filesCount) (h : layout.piecesCount ≤ index) :
    layout.bytesOf index file = 0 := by
  have hend := fileEnd_le_totalSize hf
  have hindex := mt lt_piecesCount_iff.2 (not_lt.2 h)
  rw [bytesOf, Blocks.count_single layout.pieceLength_pos]
  omega

/-- The progress agrees with the pieces that were added. -/
def FileBytes (layout : TorrentLayout) (nativePieces : List Bool) (progress : Progress) : Prop :=
  progress.filesProgress.length = layout.filesCount ∧
    ∀ file < layout.filesCount, progress.filesProgress.getD file 0 = layout.bytesIn nativePieces file

theorem getD_updateProgress_empty (n : ℕ) (nativePieces : List Bool) :
    ∃ m, nativePieces.length ≤ m ∧
      (layout.updateProgress (layout.empty n) nativePieces).filesProgress.length =
        layout.filesCount ∧
      ∀ file < layout.filesCount,
        (layout.updateProgress (layout.empty n) nativePieces).filesProgress.getD file 0 =
          ∑ index ∈ Finset.range m,
            if nativePieces.getD index false = true then layout.credit index file else 0 := by
  have hpieces : ∀ index, (xorBits nativePieces (replicate n false)).getD index false =
      nativePieces.getD index false := by
    intro index
    have hfalse : (replicate n false).getD index false = false := by
      rw [getD_eq_getElem?_getD, getElem?_replicate]
      split_ifs <;> rfl
    rw [getD_xorBits, hfalse, Bool.xor_false]
  have hstart : (if replicate layout.filesCount (0 : ℤ) = [] then
      replicate layout.filesCount 0 else replicate layout.filesCount 0) =
      replicate layout.filesCount (0 : ℤ) := ite_self _
  obtain ⟨hlength, hprogress⟩ := TorrentInfo.getD_foldl_pieces layout.addPiece (fun {_ _} hlength =>
      ⟨layout.length_addPiece.trans hlength, fun _ => layout.getD_addPiece hlength⟩)
    length_replicate (xorBits nativePieces (replicate n false))
    (xorBits nativePieces (replicate n false)).length
  rw [updateProgress, empty]
  simp only [hstart]
  refine ⟨(xorBits nativePieces (replicate n false)).length, ?_, hlength, fun file hf => ?_⟩
  · rw [xorBits, length_map, length_range]
    exact le_max_left _ _
  · have hzero : (replicate layout.filesCount (0 : ℤ)).getD file 0 = 0 := by
      rw [getD_eq_getElem?_getD, getElem?_replicate, if_pos hf]
      rfl
    rw [hprogress file hf, hzero, zero_add]
    simp only [hpieces]

/-- **Pieces with pad files.**  From a torrent of which there is nothing, `updateProgress` gives each
file that is no pad file the number of its bytes in the new pieces, exactly when in none of these
pieces a file has bytes behind those of a pad file. -/
theorem fileBytes_iff (layout : TorrentLayout) (n : ℕ) (nativePieces : List Bool) :
    layout.FileBytes nativePieces (layout.updateProgress (layout.empty n) nativePieces) ↔
      ∀ index < layout.piecesCount, nativePieces.getD index false = true →
        layout.PadsLast index := by
  obtain ⟨m, hm, hlength, hsum⟩ := layout.getD_updateProgress_empty n nativePieces
  have hle : ∀ file < layout.filesCount, ∀ index ∈ Finset.range m,
      (if nativePieces.getD index false = true then (layout.bytesOf index file : ℤ) else 0) ≤
        if nativePieces.getD index false = true then layout.credit index file else 0 := by
    intro file hf index _
    split_ifs
    · by_cases hindex : index < layout.piecesCount
      · exact bytesOf_le_credit hf hindex
      · rw [bytesOf_of_piecesCount_le hf (not_lt.1 hindex),
          credit_of_piecesCount_le (not_lt.1 hindex)]
        rfl
    · exact le_rfl
  have hpieces : layout.FileBytes nativePieces
      (layout.updateProgress (layout.empty n) nativePieces) ↔
      ∀ file < layout.filesCount, ∀ index ∈ Finset.range m,
        (if nativePieces.getD index false = true then (layout.bytesOf index file : ℤ) else 0) =
          if nativePieces.getD index false = true then layout.credit index file else 0 := by
    rw [FileBytes, and_iff_right hlength]
    refine forall_congr' fun file => forall_congr' fun hf => ?_
    rw [hsum file hf, bytesIn_eq_sum hf nativePieces hm,
      ← Finset.sum_eq_sum_iff_of_le (hle file hf), eq_comm]
  rw [hpieces]
  constructor
  · intro h index hindex hnew
    have hrange : index < m := by
      by_contra hge
      rw [getD_eq_getElem?_getD, getElem?_eq_none (hm.trans (not_lt.1 hge))] at hnew
      cases hnew
    refine (credit_eq_bytesOf_iff hindex).1 fun file hf => ?_
    have heq := h file hf index (Finset.mem_range.2 hrange)
    rw [if_pos hnew, if_pos hnew] at heq
    exact heq.symm
  · intro h file hf index _
    split_ifs with hnew
    · by_cases hindex : index < layout.piecesCount
      · exact ((credit_eq_bytesOf_iff hindex).2 (h index hindex hnew) file hf).symm
      · rw [bytesOf_of_piecesCount_le hf (not_lt.1 hindex),
          credit_of_piecesCount_le (not_lt.1 hindex)]
        rfl
    · rfl

/-- A file of ten bytes, a pad file of five and a file of seventeen, all in one piece: the second
file gets the five bytes of the pad file too. -/
theorem padding_is_counted :
    let layout : TorrentLayout := ⟨[⟨10, false⟩, ⟨5, true⟩, ⟨17, false⟩], 32, by decide⟩
    (layout.updateProgress (layout.empty 1) [true]).filesProgress = [10, 22] ∧
      ¬ layout.FileBytes [true] (layout.updateProgress (layout.empty 1) [true]) := by
  refine ⟨by decide, fun h => ?_⟩
  have hbytes := h.2 1 (by decide)
  exact absurd hbytes (by decide)

end TorrentLayout

end QBittorrent
