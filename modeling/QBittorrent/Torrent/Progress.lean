import QBittorrent.Lib.Blocks
import QBittorrent.Lib.Machine

/-!
# The progress of a torrent's files

`TorrentImpl` keeps the pieces that libtorrent reports (`m_pieces`) and how many bytes of each file
it has (`m_filesProgress`), and updates the latter by the pieces that changed.

* `TorrentProgress.Inv.next` : each event;
* `progressAgrees_iff` : right in a run exactly if no status loses a piece.
-/

namespace QBittorrent

open List

/-! ### Files and pieces -/

/-- A torrent without pad files, so that its files lie one after the other; with what libtorrent's
`torrent_info` says of them. -/
structure TorrentInfo where
  fileSizes : List ℕ
  pieceLength : ℕ
  piecesCount : ℕ
  fileOffset : ℕ → ℕ
  pieceSize : ℕ → ℕ
  /-- The files of the slices of `map_block` for a whole piece. -/
  mapBlock : ℕ → List ℕ
  pieceLength_pos : 0 < pieceLength
  fileOffset_eq : ∀ file ≤ fileSizes.length, fileOffset file = (fileSizes.take file).sum
  /-- Each piece begins within the files, and there is no other one. -/
  piecesCount_eq : ∀ index, index < piecesCount ↔ index * pieceLength < fileSizes.sum
  /-- The last piece may be shorter. -/
  pieceSize_eq : ∀ index < piecesCount,
    pieceSize index = min pieceLength (fileSizes.sum - index * pieceLength)
  /-- `map_block` gives the files that overlap the piece, in their order. -/
  mapBlock_eq : ∀ index < piecesCount, mapBlock index =
    (List.range fileSizes.length).filter fun file =>
      max (fileOffset file) (index * pieceLength) <
        min (fileOffset (file + 1)) (index * pieceLength + pieceSize index)

namespace TorrentInfo

variable (info : TorrentInfo)

def filesCount : ℕ := info.fileSizes.length

def fileSize (file : ℕ) : ℕ := info.fileSizes.getD file 0

def fileIndicesForPiece (index : ℕ) : List ℕ :=
  if info.piecesCount ≤ index then [] else info.mapBlock index

/-- The loop over the files of a piece in `updateProgress`; `size` bytes are left of the piece, from
`pieceOffset` on. -/
def addToFiles : List ℕ → ℤ → ℤ → List ℤ → List ℤ
  | [], _, _, filesProgress => filesProgress
  | fileIndex :: fileIndices, size, pieceOffset, filesProgress =>
    let fileOffsetInPiece := pieceOffset - info.fileOffset fileIndex
    let add := min (info.fileSize fileIndex - fileOffsetInPiece) size
    let filesProgress := filesProgress.modify fileIndex (· + add)
    if size - add ≤ 0 then filesProgress
    else addToFiles fileIndices (size - add) (pieceOffset + add) filesProgress

/-- One round of the loop over pieces. -/
def addPiece (filesProgress : List ℤ) (index : ℕ) : List ℤ :=
  info.addToFiles (info.fileIndicesForPiece index) (info.pieceSize index)
    (index * info.pieceLength) filesProgress

def bytesIn (pieces : List Bool) (file : ℕ) : ℕ :=
  Blocks.count info.pieceLength (info.fileOffset file) (info.fileSize file) fun index =>
    pieces.getD index false

variable {info} {file index file' : ℕ} {filesProgress : List ℤ}

theorem fileOffset_succ (h : file < info.filesCount) :
    info.fileOffset (file + 1) = info.fileOffset file + info.fileSize file := by
  rw [info.fileOffset_eq _ h, info.fileOffset_eq _ (le_of_lt h), take_add_one, sum_append,
    fileSize, getD_eq_getElem?_getD]
  have hlt : file < info.fileSizes.length := h
  simp [hlt]

theorem fileOffset_filesCount : info.fileOffset info.filesCount = info.fileSizes.sum := by
  rw [filesCount, info.fileOffset_eq _ le_rfl, take_length]

theorem fileOffset_mono (h : file ≤ file') (h' : file' ≤ info.filesCount) :
    info.fileOffset file ≤ info.fileOffset file' := by
  induction h with
  | refl => exact le_rfl
  | step _ ih =>
    rw [fileOffset_succ h']
    exact (ih (le_of_lt h')).trans (Nat.le_add_right _ _)

def pieceEnd (info : TorrentInfo) (index : ℕ) : ℕ :=
  index * info.pieceLength + info.pieceSize index

theorem pieceEnd_eq (h : index < info.piecesCount) :
    info.pieceEnd index = min ((index + 1) * info.pieceLength) info.fileSizes.sum ∧
      index * info.pieceLength < info.pieceEnd index := by
  have hstart := (info.piecesCount_eq index).1 h
  have hpos := info.pieceLength_pos
  rw [pieceEnd, info.pieceSize_eq index h, Nat.succ_mul]
  omega

theorem count_piece (hf : file < info.filesCount) (h : index < info.piecesCount) :
    Blocks.count info.pieceLength (info.fileOffset file) (info.fileSize file)
        (fun i => decide (i = index)) =
      min (info.fileOffset (file + 1)) (info.pieceEnd index) -
        max (info.fileOffset file) (index * info.pieceLength) := by
  have hend : info.fileOffset (file + 1) ≤ info.fileSizes.sum :=
    (fileOffset_mono (Nat.succ_le_of_lt hf) le_rfl).trans fileOffset_filesCount.le
  rw [Blocks.count_single info.pieceLength_pos, ← fileOffset_succ hf, (pieceEnd_eq h).1]
  omega

/-- Files of any sizes in pieces of any length. -/
def ofSizes (fileSizes : List ℕ) (pieceLength : ℕ) (h : 0 < pieceLength) : TorrentInfo where
  fileSizes := fileSizes
  pieceLength := pieceLength
  piecesCount := (fileSizes.sum + pieceLength - 1) / pieceLength
  fileOffset file := (fileSizes.take file).sum
  pieceSize index := min pieceLength (fileSizes.sum - index * pieceLength)
  mapBlock index := (List.range fileSizes.length).filter fun file =>
    max (fileSizes.take file).sum (index * pieceLength) <
      min (fileSizes.take (file + 1)).sum
        (index * pieceLength + min pieceLength (fileSizes.sum - index * pieceLength))
  pieceLength_pos := h
  fileOffset_eq _ _ := rfl
  piecesCount_eq index := by
    rw [Nat.lt_iff_add_one_le, Nat.le_div_iff_mul_le h, Nat.succ_mul]
    omega
  pieceSize_eq _ _ := rfl
  mapBlock_eq _ _ := rfl

/-! ### The loops -/

theorem length_addToFiles {fileIndices : List ℕ} {size pieceOffset : ℤ} :
    (info.addToFiles fileIndices size pieceOffset filesProgress).length = filesProgress.length := by
  induction fileIndices generalizing size pieceOffset filesProgress with
  | nil => rfl
  | cons fileIndex fileIndices ih =>
    rw [addToFiles]
    split_ifs
    · exact length_modify ..
    · rw [ih]
      exact length_modify ..

theorem getD_modify_add {add : ℤ} (hf : file < filesProgress.length) :
    (filesProgress.modify file' (· + add)).getD file 0 =
      filesProgress.getD file 0 + if file = file' then add else 0 := by
  by_cases h : file = file'
  · simp [h, h ▸ hf]
  · simp [h, Ne.symm h, hf]

theorem getD_addToFiles (d k : ℕ) (hk : k + d = info.filesCount)
    (hlength : filesProgress.length = info.filesCount)
    (hrest : max (info.fileOffset k) (index * info.pieceLength) < info.pieceEnd index)
    (hf : file < info.filesCount) :
    (info.addToFiles ((List.range' k d).filter fun file =>
          max (info.fileOffset file) (index * info.pieceLength) <
            min (info.fileOffset (file + 1)) (info.pieceEnd index))
        (info.pieceEnd index - max (info.fileOffset k) (index * info.pieceLength) : ℕ)
        (max (info.fileOffset k) (index * info.pieceLength) : ℕ) filesProgress).getD file 0 =
      filesProgress.getD file 0 +
        if k ≤ file then
          ((min (info.fileOffset (file + 1)) (info.pieceEnd index) -
            max (info.fileOffset file) (index * info.pieceLength) : ℕ) : ℤ)
        else 0 := by
  induction d generalizing k filesProgress with
  | zero =>
    rw [if_neg (by omega)]
    simp [addToFiles]
  | succ d ih =>
    have hkf : k < info.filesCount := by omega
    have hsucc := fileOffset_succ hkf
    rw [range'_succ, filter_cons]
    by_cases hover : max (info.fileOffset k) (index * info.pieceLength) <
        min (info.fileOffset (k + 1)) (info.pieceEnd index)
    · rw [if_pos (by simpa using hover), addToFiles]
      have hadd : min ((info.fileSize k : ℤ) -
            ((max (info.fileOffset k) (index * info.pieceLength) : ℕ) - info.fileOffset k))
          (info.pieceEnd index - max (info.fileOffset k) (index * info.pieceLength) : ℕ) =
          (min (info.fileOffset (k + 1)) (info.pieceEnd index) -
            max (info.fileOffset k) (index * info.pieceLength) : ℕ) := by omega
      simp only [hadd]
      by_cases hend : info.pieceEnd index ≤ info.fileOffset (k + 1)
      · -- the piece ends in this file
        rw [if_pos (by omega), getD_modify_add (hlength ▸ hf)]
        congr 1
        by_cases hkf' : k < file
        · have hle : info.fileOffset (Nat.succ k) ≤ info.fileOffset file :=
            fileOffset_mono (Nat.succ_le_of_lt hkf') (le_of_lt hf)
          rw [Nat.succ_eq_add_one] at hle
          omega
        · by_cases hkey : file = k
          · rw [if_pos hkey, if_pos hkey.ge, hkey]
          · rw [if_neg hkey, if_neg (by omega)]
      · have hsize : ((info.pieceEnd index - max (info.fileOffset k) (index * info.pieceLength) : ℕ) :
              ℤ) - (min (info.fileOffset (k + 1)) (info.pieceEnd index) -
                max (info.fileOffset k) (index * info.pieceLength) : ℕ) =
            (info.pieceEnd index -
              max (info.fileOffset (k + 1)) (index * info.pieceLength) : ℕ) := by omega
        have hoffset : ((max (info.fileOffset k) (index * info.pieceLength) : ℕ) : ℤ) +
              (min (info.fileOffset (k + 1)) (info.pieceEnd index) -
                max (info.fileOffset k) (index * info.pieceLength) : ℕ) =
            (max (info.fileOffset (k + 1)) (index * info.pieceLength) : ℕ) := by omega
        rw [if_neg (by omega), hsize, hoffset, ih (k + 1) (by omega) (by simpa using hlength)
          (by omega), getD_modify_add (hlength ▸ hf)]
        by_cases hkey : file = k
        · rw [if_pos hkey, if_neg (by omega), if_pos hkey.ge, hkey, add_zero]
        · rw [if_neg hkey, add_zero]
          simp only [show k + 1 ≤ file ↔ k ≤ file by omega]
    · -- the file has no byte of the rest
      rw [if_neg (by simpa using hover)]
      have hsame : max (info.fileOffset (k + 1)) (index * info.pieceLength) =
          max (info.fileOffset k) (index * info.pieceLength) := by omega
      rw [← hsame]
      rw [ih (k + 1) (by omega) hlength (by omega)]
      by_cases hkey : file = k
      · subst hkey
        congr 1
        omega
      · congr 1
        simp only [show k + 1 ≤ file ↔ k ≤ file by omega]

theorem length_addPiece :
    (info.addPiece filesProgress index).length = filesProgress.length := length_addToFiles

theorem div_lt_piecesCount {b : ℕ} (hf : file < info.filesCount) (hb : b < info.fileSize file) :
    (info.fileOffset file + b) / info.pieceLength < info.piecesCount := by
  have hend : info.fileOffset (file + 1) ≤ info.fileSizes.sum :=
    (fileOffset_mono (Nat.succ_le_of_lt hf) le_rfl).trans fileOffset_filesCount.le
  have hsucc := fileOffset_succ hf
  refine (info.piecesCount_eq _).2 ((Nat.div_mul_le_self _ _).trans_lt ?_)
  omega

theorem count_of_piecesCount_le (hf : file < info.filesCount) (h : info.piecesCount ≤ index) :
    Blocks.count info.pieceLength (info.fileOffset file) (info.fileSize file)
      (fun i => decide (i = index)) = 0 := by
  refine Blocks.count_eq_zero_iff.2 fun b hb => decide_eq_false ?_
  exact ((div_lt_piecesCount hf hb).trans_le h).ne

theorem getD_addPiece (hlength : filesProgress.length = info.filesCount)
    (hf : file < info.filesCount) :
    (info.addPiece filesProgress index).getD file 0 = filesProgress.getD file 0 +
      (Blocks.count info.pieceLength (info.fileOffset file) (info.fileSize file)
        fun i => decide (i = index) : ℤ) := by
  rw [addPiece, fileIndicesForPiece]
  by_cases h : index < info.piecesCount
  · have hstart : max (info.fileOffset 0) (index * info.pieceLength) = index * info.pieceLength := by
      rw [info.fileOffset_eq 0 (Nat.zero_le _), take_zero, sum_nil]
      exact Nat.zero_max _
    have hloop := getD_addToFiles info.filesCount 0 (Nat.zero_add _) hlength
      (by rw [hstart]; exact (pieceEnd_eq h).2) hf
    rw [hstart, ← range_eq_range', if_pos (Nat.zero_le _)] at hloop
    rw [if_neg (not_le.2 h), info.mapBlock_eq index h, count_piece hf h, ← hloop]
    congr 2
    rw [pieceEnd]
    omega
  · rw [if_pos (not_lt.1 h), addToFiles, count_of_piecesCount_le hf (not_lt.1 h)]
    exact (add_zero _).symm

/-- A loop in which each set piece adds what it is worth to each file. -/
theorem getD_foldl_pieces (addPiece : List ℤ → ℕ → List ℤ) {credit : ℕ → ℕ → ℤ} {n : ℕ}
    (hadd : ∀ {filesProgress : List ℤ} {index}, filesProgress.length = n →
      (addPiece filesProgress index).length = n ∧ ∀ file < n,
        (addPiece filesProgress index).getD file 0 = filesProgress.getD file 0 + credit index file)
    (hlength : filesProgress.length = n) (newPieces : List Bool) (m : ℕ) :
    ((List.range m).foldl (fun filesProgress index =>
        if newPieces.getD index false then addPiece filesProgress index else filesProgress)
        filesProgress).length = n ∧
    ∀ file < n, ((List.range m).foldl (fun filesProgress index =>
        if newPieces.getD index false then addPiece filesProgress index else filesProgress)
        filesProgress).getD file 0 = filesProgress.getD file 0 +
      ∑ index ∈ Finset.range m,
        if newPieces.getD index false = true then credit index file else 0 := by
  induction m with
  | zero => exact ⟨hlength, fun file _ => (add_zero _).symm⟩
  | succ m ih =>
    rw [range_succ, foldl_append, foldl_cons, foldl_nil]
    split_ifs with hnew
    · refine ⟨(hadd ih.1).1, fun file hf => ?_⟩
      rw [(hadd ih.1).2 file hf, ih.2 file hf, Finset.sum_range_succ, if_pos hnew, add_assoc]
    · refine ⟨ih.1, fun file hf => ?_⟩
      rw [ih.2 file hf, Finset.sum_range_succ, if_neg hnew, add_zero]

theorem exists_file {position : ℕ} (h : position < info.fileSizes.sum) :
    ∃ file < info.filesCount, info.fileOffset file ≤ position ∧
      position < info.fileOffset file + info.fileSize file := by
  have hexists : ∃ file, position < info.fileOffset file ∧ file ≤ info.filesCount :=
    ⟨info.filesCount, by rwa [fileOffset_filesCount], le_rfl⟩
  obtain ⟨hlt, hle⟩ := Nat.find_spec hexists
  have hpos : Nat.find hexists ≠ 0 := by
    intro h0
    rw [h0, info.fileOffset_eq 0 (Nat.zero_le _)] at hlt
    exact absurd hlt (by simp)
  obtain ⟨file, hfile⟩ := Nat.exists_eq_succ_of_ne_zero hpos
  rw [hfile] at hlt hle
  refine ⟨file, hle, ?_, by rwa [← fileOffset_succ hle]⟩
  have hmin := Nat.find_min hexists (m := file) (by omega)
  exact not_lt.1 fun hlt => hmin ⟨hlt, le_of_lt hle⟩

end TorrentInfo

/-! ### The torrent -/

/-- What libtorrent says of a torrent. -/
structure NativeStatus where
  /-- The handle that the status is of. -/
  handle : ℕ
  numPieces : ℕ
  pieces : List Bool

/-- The fields of `TorrentImpl` that its progress comes from. -/
structure TorrentProgress where
  torrentInfo : Option TorrentInfo
  nativeHandle : ℕ
  nativeStatus : NativeStatus
  filesProgress : List ℤ := []
  pieces : List Bool := []

/-- `QBitArray::operator^`, for which a shorter array ends with zeros. -/
def xorBits (bits bits' : List Bool) : List Bool :=
  (List.range (max bits.length bits'.length)).map fun i =>
    xor (bits.getD i false) (bits'.getD i false)

theorem getD_xorBits (bits bits' : List Bool) (i : ℕ) :
    (xorBits bits bits').getD i false = xor (bits.getD i false) (bits'.getD i false) := by
  rw [xorBits, getD_eq_getElem?_getD, getElem?_map]
  by_cases h : i < max bits.length bits'.length
  · simp [h]
  · have hbits : bits[i]? = none := getElem?_eq_none (by omega)
    have hbits' : bits'[i]? = none := getElem?_eq_none (by omega)
    simp [h, hbits, hbits']

namespace TorrentProgress

variable (s : TorrentProgress)

def updateProgress : TorrentProgress :=
  match s.torrentInfo with
  | none => s
  | some info =>
    let filesProgress :=
      if s.filesProgress = [] then List.replicate info.filesCount 0 else s.filesProgress
    let newPieces := xorBits s.nativeStatus.pieces s.pieces
    { s with
      pieces := s.nativeStatus.pieces
      filesProgress := (List.range newPieces.length).foldl
        (fun filesProgress index =>
          if newPieces.getD index false then info.addPiece filesProgress index else filesProgress)
        filesProgress }

def updateStatus (nativeStatus : NativeStatus) : TorrentProgress :=
  if nativeStatus.handle ≠ s.nativeHandle then s
  else
    let s' := { s with nativeStatus := nativeStatus }
    if nativeStatus.numPieces ≠ s.nativeStatus.numPieces then s'.updateProgress else s'

/-- `QList::resize`. -/
def resize (l : List ℤ) (n : ℕ) : List ℤ := l.take n ++ List.replicate (n - l.length) 0

/-- The cached state is cleared: no pieces, and nothing of the files. -/
def clear : TorrentProgress :=
  { s with
    nativeStatus :=
      { s.nativeStatus with
        pieces := s.nativeStatus.pieces.map fun _ => false
        numPieces := 0 }
    filesProgress := s.filesProgress.map fun _ => 0
    pieces := s.pieces.map fun _ => false }

def forceRecheck : TorrentProgress := if s.torrentInfo = none then s else s.clear

/-- `reload`; `added` is the handle that libtorrent gives the torrent, and its first status, unless
it fails to add the torrent. -/
def reload (added : Option (ℕ × NativeStatus)) : TorrentProgress :=
  match added with
  | none => s.clear
  | some (handle, status) => { s.clear with nativeHandle := handle, nativeStatus := status }

def endReceivedMetadataHandling (info : TorrentInfo) (added : Option (ℕ × NativeStatus)) :
    TorrentProgress :=
  ({ s with
      torrentInfo := some info
      filesProgress := resize s.filesProgress info.filesCount }.updateProgress).reload added

/-- The constructor. -/
def construct (torrentInfo : Option TorrentInfo) (nativeHandle : ℕ) (nativeStatus : NativeStatus) :
    TorrentProgress :=
  match torrentInfo with
  | none => { torrentInfo := none, nativeHandle, nativeStatus }
  | some info =>
    { torrentInfo := some info, nativeHandle, nativeStatus,
      filesProgress := resize [] info.filesCount : TorrentProgress }.updateProgress

/-- What changes the progress of a torrent. -/
inductive ProgressEvent where
  | updateStatus (nativeStatus : NativeStatus)
  | forceRecheck
  | reload (added : Option (ℕ × NativeStatus))
  | endReceivedMetadataHandling (info : TorrentInfo) (added : Option (ℕ × NativeStatus))

/-- One event at a time; metadata is received once. -/
def progressMachine : Machine TorrentProgress ProgressEvent where
  step s
    | .updateStatus nativeStatus => some (s.updateStatus nativeStatus)
    | .forceRecheck => some s.forceRecheck
    | .reload added => some (s.reload added)
    | .endReceivedMetadataHandling info added =>
      if s.torrentInfo.isSome then none else some (s.endReceivedMetadataHandling info added)

/-- The progress of each file is the number of its bytes in pieces that are present. -/
def ProgressAgrees : Prop :=
  ∀ info ∈ s.torrentInfo, s.filesProgress.length = info.filesCount ∧
    ∀ file < info.filesCount, s.filesProgress.getD file 0 = info.bytesIn s.pieces file

/-- The condition on a status: where it changes the progress, it has all pieces that were present. -/
def NoPieceLost : ProgressEvent → Prop
  | .updateStatus nativeStatus =>
    nativeStatus.handle = s.nativeHandle → nativeStatus.numPieces ≠ s.nativeStatus.numPieces →
      ∀ info ∈ s.torrentInfo, ∀ index < info.piecesCount, s.pieces.getD index false = true →
        nativeStatus.pieces.getD index false = true
  | _ => True

instance : DecidablePred s.NoPieceLost := fun e => by
  cases e <;> unfold NoPieceLost <;> infer_instance

variable {s} {info : TorrentInfo} {e : ProgressEvent} {s' : TorrentProgress}

theorem ProgressAgrees.bounds (h : s.ProgressAgrees) (hinfo : s.torrentInfo = some info) {file : ℕ}
    (hf : file < info.filesCount) :
    0 ≤ s.filesProgress.getD file 0 ∧ s.filesProgress.getD file 0 ≤ info.fileSize file := by
  rw [(h info hinfo).2 file hf]
  exact ⟨Int.natCast_nonneg _, Int.ofNat_le.2 Blocks.count_le⟩

theorem getD_updateProgress (hinfo : s.torrentInfo = some info)
    (hlength : s.filesProgress.length = info.filesCount) :
    s.updateProgress.filesProgress.length = info.filesCount ∧
    ∀ file < info.filesCount, s.updateProgress.filesProgress.getD file 0 =
      s.filesProgress.getD file 0 +
        (Blocks.count info.pieceLength (info.fileOffset file) (info.fileSize file) fun index =>
          xor (s.pieces.getD index false) (s.nativeStatus.pieces.getD index false) : ℕ) := by
  have hstart : (if s.filesProgress = [] then replicate info.filesCount 0
      else s.filesProgress) = s.filesProgress := by
    split_ifs with hempty
    · rw [hempty] at hlength ⊢
      rw [← hlength]
      rfl
    · rfl
  rw [updateProgress, hinfo]
  simp only [hstart]
  obtain ⟨hlength', hprogress⟩ := TorrentInfo.getD_foldl_pieces info.addPiece (fun {_ _} hlength =>
      ⟨info.length_addPiece.trans hlength, fun _ => info.getD_addPiece hlength⟩) hlength
    (xorBits s.nativeStatus.pieces s.pieces) (xorBits s.nativeStatus.pieces s.pieces).length
  refine ⟨hlength', fun file hf => ?_⟩
  rw [hprogress file hf, ← Nat.cast_zero]
  simp only [← Nat.cast_ite, ← Nat.cast_sum]
  rw [← Blocks.count_eq_sum]
  · simp only [getD_xorBits, Bool.xor_comm]
  · intro i hi
    by_contra hge
    rw [getD_eq_getElem?_getD, getElem?_eq_none (not_lt.1 hge)] at hi
    cases hi

theorem torrentInfo_updateProgress : s.updateProgress.torrentInfo = s.torrentInfo := by
  rw [updateProgress]
  split <;> simp [*]

theorem updateProgress_of_torrentInfo_eq_none (hinfo : s.torrentInfo = none) :
    s.updateProgress = s := by
  rw [updateProgress, hinfo]

theorem pieces_updateProgress (hinfo : s.torrentInfo = some info) :
    s.updateProgress.pieces = s.nativeStatus.pieces := by
  rw [updateProgress, hinfo]

theorem progressAgrees_updateProgress_iff (hinfo : s.torrentInfo = some info)
    (h : s.ProgressAgrees) :
    s.updateProgress.ProgressAgrees ↔ ∀ index < info.piecesCount,
      s.pieces.getD index false = true → s.nativeStatus.pieces.getD index false = true := by
  obtain ⟨hlength, hprogress⟩ := h info hinfo
  obtain ⟨hlength', hprogress'⟩ := getD_updateProgress hinfo hlength
  have hinfo' : s.updateProgress.torrentInfo = some info := torrentInfo_updateProgress.trans hinfo
  have hlost : ∀ file < info.filesCount,
      (s.updateProgress.filesProgress.getD file 0 = info.bytesIn s.updateProgress.pieces file ↔
        Blocks.count info.pieceLength (info.fileOffset file) (info.fileSize file) (fun index =>
          s.pieces.getD index false && !s.nativeStatus.pieces.getD index false) = 0) := by
    intro file hf
    have hcount := Blocks.count_add_count_xor (L := info.pieceLength) (o := info.fileOffset file)
      (z := info.fileSize file) (p := fun index => s.pieces.getD index false)
      (q := fun index => s.nativeStatus.pieces.getD index false)
    rw [hprogress' file hf, hprogress file hf, pieces_updateProgress hinfo, TorrentInfo.bytesIn,
      TorrentInfo.bytesIn]
    omega
  constructor
  · intro hagrees index hindex hpiece
    obtain ⟨file, hf, hle, hlt⟩ := info.exists_file ((info.piecesCount_eq index).1 hindex)
    have hzero := (hlost file hf).1 ((hagrees info hinfo').2 file hf)
    have hbyte := Blocks.count_eq_zero_iff.1 hzero (index * info.pieceLength - info.fileOffset file)
      (by omega)
    rw [Nat.add_sub_cancel' hle, Nat.mul_div_cancel _ info.pieceLength_pos, hpiece,
      Bool.true_and, Bool.not_eq_false'] at hbyte
    exact hbyte
  · intro hpieces info' hinfo''
    cases hinfo'.symm.trans hinfo''
    refine ⟨hlength', fun file hf => (hlost file hf).2 (Blocks.count_eq_zero_iff.2 fun b hb => ?_)⟩
    cases hold : s.pieces.getD ((info.fileOffset file + b) / info.pieceLength) false with
    | false => rfl
    | true =>
      rw [hpieces _ (info.div_lt_piecesCount hf hb) hold]
      rfl

/-! ### Runs -/

/-- The progress agrees; a torrent without metadata has none. -/
structure Inv (s : TorrentProgress) : Prop where
  agrees : s.ProgressAgrees
  empty : s.torrentInfo = none → s.filesProgress = [] ∧ s.pieces = []

theorem Inv.clear (i : Inv s) : Inv s.clear := by
  refine ⟨fun info hinfo => ?_, fun hinfo => ?_⟩
  · obtain ⟨hlength, -⟩ := i.agrees info hinfo
    refine ⟨(length_map _).trans hlength, fun file hf => ?_⟩
    have hzero : info.bytesIn s.clear.pieces file = 0 := by
      refine Blocks.count_eq_zero_iff.2 fun b hb => ?_
      show (s.pieces.map fun _ => false).getD _ false = false
      rw [getD_eq_getElem?_getD, getElem?_map]
      cases s.pieces[(info.fileOffset file + b) / info.pieceLength]? <;> rfl
    rw [hzero]
    show (s.filesProgress.map fun _ => (0 : ℤ)).getD file 0 = 0
    rw [getD_eq_getElem?_getD, getElem?_map]
    cases s.filesProgress[file]? <;> rfl
  · obtain ⟨hprogress, hpieces⟩ := i.empty hinfo
    constructor
    · show s.filesProgress.map _ = []
      rw [hprogress]
      rfl
    · show s.pieces.map _ = []
      rw [hpieces]
      rfl

theorem Inv.reload (i : Inv s) (added : Option (ℕ × NativeStatus)) : Inv (s.reload added) := by
  cases added with
  | none => exact i.clear
  | some added => exact ⟨i.clear.agrees, i.clear.empty⟩

theorem inv_of_empty (hinfo : s.torrentInfo = some info) (hpieces : s.pieces = [])
    (hprogress : s.filesProgress = resize [] info.filesCount) : Inv s.updateProgress := by
  have hagrees : s.ProgressAgrees := by
    intro info' hinfo'
    cases hinfo.symm.trans hinfo'
    rw [hprogress, hpieces]
    refine ⟨by simp [resize], fun file hf => ?_⟩
    have hzero : info.bytesIn [] file = 0 := Blocks.count_eq_zero_iff.2 fun _ _ => rfl
    rw [hzero]
    simp [resize, getD_eq_getElem?_getD, hf]
  refine ⟨(progressAgrees_updateProgress_iff hinfo hagrees).2 fun index _ h => ?_, fun h => ?_⟩
  · rw [hpieces] at h
    cases h
  · rw [torrentInfo_updateProgress, hinfo] at h
    cases h

theorem inv_construct (torrentInfo : Option TorrentInfo) (nativeHandle : ℕ)
    (nativeStatus : NativeStatus) : Inv (construct torrentInfo nativeHandle nativeStatus) := by
  cases torrentInfo with
  | none => exact ⟨nofun, fun _ => ⟨rfl, rfl⟩⟩
  | some info =>
    let s : TorrentProgress :=
      { torrentInfo := some info, nativeHandle, nativeStatus,
        filesProgress := resize [] info.filesCount }
    exact inv_of_empty (s := s) rfl rfl rfl

theorem Inv.updateStatus {nativeStatus : NativeStatus} (i : Inv s)
    (h : s.NoPieceLost (.updateStatus nativeStatus)) : Inv (s.updateStatus nativeStatus) := by
  rw [TorrentProgress.updateStatus]
  by_cases hhandle : nativeStatus.handle = s.nativeHandle
  · rw [if_neg (not_not.2 hhandle)]
    by_cases hnum : nativeStatus.numPieces = s.nativeStatus.numPieces
    · rw [if_neg (not_not.2 hnum)]
      exact ⟨i.agrees, i.empty⟩
    · let s' : TorrentProgress := { s with nativeStatus := nativeStatus }
      rw [if_pos hnum]
      obtain hinfo | ⟨info, hinfo⟩ := Option.eq_none_or_eq_some s.torrentInfo
      · rw [updateProgress_of_torrentInfo_eq_none (s := s') hinfo]
        exact ⟨i.agrees, i.empty⟩
      · have hpieces := h hhandle hnum info hinfo
        refine ⟨(progressAgrees_updateProgress_iff (s := s') hinfo i.agrees).2 hpieces,
          fun hnone => ?_⟩
        rw [torrentInfo_updateProgress] at hnone
        cases hnone.symm.trans hinfo
  · rw [if_pos hhandle]
    exact i

theorem Inv.next (i : Inv s) (h : s.NoPieceLost e) (hs : progressMachine.step s e = some s') :
    Inv s' := by
  cases e with
  | updateStatus nativeStatus =>
    cases hs
    exact i.updateStatus h
  | forceRecheck =>
    cases hs
    rw [TorrentProgress.forceRecheck]
    split_ifs
    · exact i
    · exact i.clear
  | reload added =>
    cases hs
    exact i.reload added
  | endReceivedMetadataHandling info added =>
    obtain ⟨hnone, hs⟩ : s.torrentInfo = none ∧ s.endReceivedMetadataHandling info added = s' := by
      simpa [progressMachine] using hs
    obtain ⟨hprogress, hpieces⟩ := i.empty hnone
    rw [← hs, TorrentProgress.endReceivedMetadataHandling]
    let s' : TorrentProgress :=
      { s with
        torrentInfo := some info
        filesProgress := resize s.filesProgress info.filesCount }
    refine (inv_of_empty (s := s') rfl hpieces ?_).reload added
    show resize s.filesProgress info.filesCount = _
    rw [hprogress]

theorem Inv.not_agrees (i : Inv s) (h : ¬ s.NoPieceLost e)
    (hs : progressMachine.step s e = some s') : ¬ s'.ProgressAgrees := by
  cases e with
  | updateStatus nativeStatus =>
    cases hs
    simp only [NoPieceLost, not_forall] at h
    obtain ⟨hhandle, hnum, info, hinfo, index, hindex, hpiece, hlost⟩ := h
    rw [TorrentProgress.updateStatus, if_neg (not_not.2 hhandle), if_pos hnum]
    let s' : TorrentProgress := { s with nativeStatus := nativeStatus }
    rw [progressAgrees_updateProgress_iff (s := s') hinfo i.agrees]
    exact fun hall => hlost (hall index hindex hpiece)
  | _ => exact absurd trivial h

end TorrentProgress

/-- **Pieces and progress.**  Of a torrent that is added with metadata or without, the progress of
every file is the number of its bytes in pieces that are present, throughout exactly the runs in
which no status that changes the number of pieces loses a piece.  Then it is never negative and
never more than the file. -/
theorem progressAgrees_iff (torrentInfo : Option TorrentInfo) (nativeHandle : ℕ)
    (nativeStatus : NativeStatus) (es : List TorrentProgress.ProgressEvent)
    (hr : (TorrentProgress.progressMachine.run
      (TorrentProgress.construct torrentInfo nativeHandle nativeStatus) es).isSome) :
    (TorrentProgress.progressMachine.Always TorrentProgress.ProgressAgrees
        (TorrentProgress.construct torrentInfo nativeHandle nativeStatus) es ↔
      TorrentProgress.progressMachine.Meets TorrentProgress.NoPieceLost
        (TorrentProgress.construct torrentInfo nativeHandle nativeStatus) es) ∧
    ∀ s : TorrentProgress, s.ProgressAgrees → ∀ info ∈ s.torrentInfo, ∀ file < info.filesCount,
      0 ≤ s.filesProgress.getD file 0 ∧ s.filesProgress.getD file 0 ≤ info.fileSize file := by
  refine ⟨Machine.always_iff_meets (TorrentProgress.inv_construct _ _ _) (fun _ i => i.agrees)
    (fun _ _ _ i h hs => i.next h hs) (fun _ _ _ i h hs => i.not_agrees h hs) hr, ?_⟩
  exact fun s h info hinfo file hf => h.bounds hinfo hf

/-- Three files, of which one is empty, in two pieces that come one by one. -/
theorem progressAgrees_iff_threeFiles :
    let info := TorrentInfo.ofSizes [3, 0, 4] 4 (by decide)
    TorrentProgress.progressMachine.Always TorrentProgress.ProgressAgrees
      (TorrentProgress.construct (some info) 1 ⟨1, 0, [false, false]⟩)
      [.updateStatus ⟨1, 1, [true, false]⟩, .updateStatus ⟨1, 2, [true, true]⟩, .forceRecheck] :=
  (progressAgrees_iff _ _ _ _ (by decide)).1.2 (by decide)

/-- A piece is lost: its four bytes are there twice. -/
theorem lost_piece_is_added :
    let info := TorrentInfo.ofSizes [4] 4 (by decide)
    ¬ TorrentProgress.progressMachine.Always TorrentProgress.ProgressAgrees
      (TorrentProgress.construct (some info) 1 ⟨1, 1, [true]⟩) [.updateStatus ⟨1, 0, [false]⟩] := by
  intro info h
  have hagrees := (h.2 _ rfl) info rfl
  exact absurd (hagrees.2 0 (by decide)) (by decide)

end QBittorrent
