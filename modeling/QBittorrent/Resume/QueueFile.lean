import QBittorrent.Lib.Placement
import QBittorrent.Lib.Text

/-!
# Torrent IDs and the queue file

`BencodeResumeDataStorage` finds the torrents by the names of their `.fastresume` files and orders
them by the `queue` file, a line with the ID of a torrent for each place.

* `loadQueue_prefix` : **those of a stored queue come first, in its order.**
-/

namespace QBittorrent

open List

/-- A torrent ID, which is a `Digest32<160>`: 20 bytes, by their 40 hexadecimal digits. -/
structure Digest32 where
  digits : List (Fin 16)
  length_digits : digits.length = 40
  deriving DecidableEq

/-- The Latin-1 code of a hexadecimal digit. -/
def hexDigit (d : Fin 16) : UInt8 :=
  if d.val < 10 then 48 + UInt8.ofNat d.val else 87 + UInt8.ofNat d.val

/-- A character of `[A-Fa-f0-9]`. -/
def parseHexDigit (b : UInt8) : Option (Fin 16) :=
  if 48 ≤ b ∧ b ≤ 57 then some (Fin.ofNat 16 (b.toNat - 48))
  else if 97 ≤ b ∧ b ≤ 102 then some (Fin.ofNat 16 (b.toNat - 87))
  else if 65 ≤ b ∧ b ≤ 70 then some (Fin.ofNat 16 (b.toNat - 55))
  else none

theorem parseHexDigit_hexDigit : ∀ d, parseHexDigit (hexDigit d) = some d := by decide

/-- `QByteArray::trimmed` removes these. -/
def isSpaceByte (b : UInt8) : Bool := (9 ≤ b && b ≤ 13) || b = 32

theorem isSpaceByte_hexDigit : ∀ d, isSpaceByte (hexDigit d) = false := by decide

theorem hexDigit_ne_newline : ∀ d, hexDigit d ≠ 10 := by decide

namespace Digest32

/-- `toString`, as Latin-1. -/
def toLatin1 (id : Digest32) : List UInt8 := id.digits.map hexDigit

@[simp] theorem length_toLatin1 (id : Digest32) : id.toLatin1.length = 40 := by
  simp [toLatin1, id.length_digits]

/-- `fromString` of a text that matches `^([A-Fa-f0-9]{40})$`. -/
def matchHash (line : List UInt8) : Option Digest32 :=
  match line.mapM parseHexDigit with
  | some digits => if h : digits.length = 40 then some ⟨digits, h⟩ else none
  | none => none

theorem matchHash_toLatin1 (id : Digest32) : matchHash id.toLatin1 = some id := by
  have hmap : id.toLatin1.mapM parseHexDigit = some id.digits := by
    unfold toLatin1
    generalize id.digits = ds
    induction ds with
    | nil => rfl
    | cons d ds ih => simp [mapM_cons, parseHexDigit_hexDigit, ih]
  simp [matchHash, hmap, id.length_digits]

theorem toLatin1_ne_nil (id : Digest32) : id.toLatin1 ≠ [] := by
  intro h
  have := id.length_toLatin1
  simp [h] at this

theorem newline_notMem_toLatin1 (id : Digest32) : (10 : UInt8) ∉ id.toLatin1 := by
  intro h
  obtain ⟨d, -, hd⟩ := mem_map.1 h
  exact hexDigit_ne_newline d hd

theorem trim_toLatin1 (id : Digest32) : trim isSpaceByte (id.toLatin1 ++ [10]) = id.toLatin1 := by
  have hspace : ∀ b ∈ id.toLatin1, isSpaceByte b = false := by
    intro b hb
    obtain ⟨d, -, rfl⟩ := mem_map.1 hb
    exact isSpaceByte_hexDigit d
  have hdrop : (id.toLatin1 ++ [10]).dropWhile isSpaceByte = id.toLatin1 ++ [10] := by
    cases h : id.toLatin1 with
    | nil => exact (id.toLatin1_ne_nil h).elim
    | cons b bs =>
      have hb : isSpaceByte b = false := hspace b (by simp [h])
      simp [hb]
  rw [trim, hdrop, rdropWhile_concat_pos _ _ _ (by decide), rdropWhile_eq_self_iff]
  intro hne
  simpa using hspace _ (getLast_mem hne)

end Digest32

/-! ### The queue file -/

/-- `Worker::storeQueue`: the bytes of the file. -/
def queueFile (queue : List Digest32) : List UInt8 :=
  queue.flatMap fun torrentID => torrentID.toLatin1 ++ [10]

/-- `QIODevice::readLine`: the bytes up to a line feed, and no more than `maxSize`, and the rest. -/
def readLine : ℕ → List UInt8 → List UInt8 × List UInt8
  | 0, bytes => ([], bytes)
  | _ + 1, [] => ([], [])
  | maxSize + 1, b :: bytes =>
    if b = 10 then ([b], bytes)
    else ((b :: (readLine maxSize bytes).1), (readLine maxSize bytes).2)

theorem readLine_append (maxSize : ℕ) (bytes : List UInt8) :
    (readLine maxSize bytes).1 ++ (readLine maxSize bytes).2 = bytes := by
  induction maxSize generalizing bytes with
  | zero => rfl
  | succ maxSize ih =>
    cases bytes with
    | nil => rfl
    | cons b bytes =>
      unfold readLine
      split_ifs
      · rfl
      · simp [ih]

theorem readLine_line (maxSize : ℕ) {line : List UInt8} (rest : List UInt8)
    (h : (10 : UInt8) ∉ line) (hmax : line.length < maxSize) :
    readLine maxSize (line ++ 10 :: rest) = (line ++ [10], rest) := by
  induction line generalizing maxSize with
  | nil =>
    cases maxSize with
    | zero => simp at hmax
    | succ maxSize => simp [readLine]
  | cons b line ih =>
    cases maxSize with
    | zero => simp at hmax
    | succ maxSize =>
      obtain ⟨hb, hline⟩ := not_or.1 (mt mem_cons.2 h)
      have := ih maxSize hline (by simpa using hmax)
      simp [readLine, Ne.symm hb, this]

/-- The loop of `loadQueue`; `s` holds `start` and `m_registeredTorrents`. -/
def loadQueueLoop (bytes : List UInt8) (s : ℕ × List Digest32) : ℕ × List Digest32 :=
  let line := trim isSpaceByte (readLine 48 bytes).1
  if _ : line = [] then s
  else
    loadQueueLoop (readLine 48 bytes).2
      (match Digest32.matchHash line with
        | some torrentID => placeNext s torrentID
        | none => s)
termination_by bytes.length
decreasing_by
  rename_i h
  have happ := congrArg List.length (readLine_append 48 bytes)
  have hpos : (readLine 48 bytes).1 ≠ [] := by
    intro hnil
    exact h (by simp [line, hnil, trim])
  have := List.length_pos_of_ne_nil hpos
  rw [List.length_append] at happ
  omega

/-- `loadQueue`, with the bytes of the queue file if it exists. -/
def loadQueue (queueFile : Option (List UInt8)) (m_registeredTorrents : List Digest32) :
    List Digest32 :=
  match queueFile with
  | none => m_registeredTorrents
  | some bytes => (loadQueueLoop bytes (0, m_registeredTorrents)).2

theorem loadQueueLoop_queueFile (queue : List Digest32) (s : ℕ × List Digest32) :
    loadQueueLoop (queueFile queue) s = queue.foldl placeNext s := by
  induction queue generalizing s with
  | nil =>
    unfold loadQueueLoop
    simp [queueFile, readLine, trim]
  | cons id queue ih =>
    have hfile : queueFile (id :: queue) = id.toLatin1 ++ 10 :: queueFile queue := by
      simp [queueFile]
    have hline := readLine_line 48 (queueFile queue) id.newline_notMem_toLatin1 (by simp)
    unfold loadQueueLoop
    simp only [hfile, hline, id.trim_toLatin1, id.toLatin1_ne_nil, dif_neg, not_false_iff,
      Digest32.matchHash_toLatin1, ih, foldl_cons]

theorem loadQueue_queueFile (queue l : List Digest32) :
    loadQueue (some (queueFile queue)) l = placeAll queue l := by
  rw [loadQueue, loadQueueLoop_queueFile, placeAll]

theorem loadQueueLoop_eq_foldl (bytes : List UInt8) (s : ℕ × List Digest32) :
    ∃ queue : List Digest32, loadQueueLoop bytes s = queue.foldl placeNext s := by
  fun_induction loadQueueLoop bytes s with
  | case1 bytes s line h => exact ⟨[], rfl⟩
  | case2 bytes s line h ih =>
    obtain ⟨queue, hq⟩ := ih
    rw [hq]
    cases Digest32.matchHash line with
    | none => exact ⟨queue, rfl⟩
    | some id => exact ⟨id :: queue, rfl⟩

theorem loadQueue_perm (file : Option (List UInt8)) (l : List Digest32) :
    (loadQueue file l).Perm l := by
  cases file with
  | none => exact List.Perm.refl l
  | some bytes =>
    obtain ⟨queue, hq⟩ := loadQueueLoop_eq_foldl bytes (0, l)
    rw [loadQueue, hq]
    exact placeAll_perm queue l

theorem loadQueue_prefix {queue : List Digest32} (h : queue.Nodup) (l : List Digest32) :
    queue.filter (· ∈ l) <+: loadQueue (some (queueFile queue)) l := by
  rw [loadQueue_queueFile]
  exact placeAll_prefix h l

end QBittorrent
