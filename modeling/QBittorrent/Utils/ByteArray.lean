import QBittorrent.Lib.Radix

/-!
# Base32

`Utils::ByteArray::toBase32` puts up to five bytes into a 40-bit chunk and cuts the chunk into eight
5-bit indices, of which the last ones give way to padding where bytes are missing.

* `fillChunk_eq`, `outChars_eq` : one chunk;
* `toBase32_roundTrip` : decoding gives the bytes back.
-/

namespace QBittorrent.ByteArray

open Radix List Option

def alphabet : List Char := "ABCDEFGHIJKLMNOPQRSTUVWXYZ234567".toList

def padchar : Char := '='

/-- The number of characters for each number of missing bytes. -/
def outCharCounts : List ℕ := [8, 7, 5, 4, 2]

/-- The inner loop of `toBase32`: bytes are put into the chunk until it is full or the text ends.
What is left over is the number of bytes that are missing, the chunk and the rest of the text. -/
def fillChunk : ℕ → ℕ → List UInt8 → ℕ × ℕ × List UInt8
  | 0, chunk, input => (0, chunk, input)
  | inPadLen + 1, chunk, [] => (inPadLen + 1, chunk, [])
  | inPadLen + 1, chunk, c :: input =>
    fillChunk inPadLen (chunk ||| c.toNat <<< (inPadLen * 8)) input

/-- The character for the 5 bits of the chunk at place `i`. -/
def outChar (chunk i : ℕ) : Char :=
  let shift := i * 5
  let mask := 0x1f <<< shift
  let charIndex := (chunk &&& mask) >>> shift
  alphabet.getD charIndex default

/-- The characters of a chunk in which `inPadLen` bytes are missing. -/
def outChars (inPadLen chunk : ℕ) : List Char :=
  [7, 6, 5, 4, 3, 2, 1, 0].map fun i =>
    if 8 - outCharCounts.getD inPadLen 0 ≤ i then outChar chunk i else padchar

/-- The loop of `toBase32` over so many chunks. -/
def toBase32From : ℕ → List UInt8 → List Char
  | 0, _ => []
  | chunks + 1, input =>
    let filled := fillChunk 5 0 input
    outChars filled.1 filled.2.1 ++ toBase32From chunks filled.2.2

def toBase32 (input : List UInt8) : List Char := toBase32From ((input.length + 4) / 5) input

/-! ### RFC 4648 -/

/-- The bytes of one group of characters: two, four, five, seven or eight characters of the
alphabet, and padding up to eight.  The bits behind the last byte are zero. -/
def decodeGroup (group : List Char) : Option (List UInt8) :=
  let data := group.takeWhile (· ≠ padchar)
  let number := value 32 (data.map fun c => alphabet.idxOf c)
  let spare := 5 * data.length % 8
  if data.length ∈ [2, 4, 5, 7, 8] ∧ group = data ++ List.replicate (8 - data.length) padchar ∧
      data.all alphabet.contains = true ∧ number % 2 ^ spare = 0 then
    some ((digits 256 (5 * data.length / 8) (number / 2 ^ spare)).map UInt8.ofNat)
  else none

/-- The bytes of a text: only the last group may be padded. -/
def decode (text : List Char) : Option (List UInt8) :=
  if text = [] then some []
  else if text.length ≤ 8 then decodeGroup text
  else if padchar ∈ text.take 8 then none
  else (decodeGroup (text.take 8)).bind fun bytes =>
    (decode (text.drop 8)).map fun rest => bytes ++ rest
termination_by text.length
decreasing_by
  rw [List.length_drop]
  omega

/-- The number of padding characters behind `n` bytes. -/
def padding (n : ℕ) : ℕ := [0, 6, 4, 3, 1].getD (n % 5) 0

/-! ### One chunk -/

/-- The bytes as digits. -/
def bytes (input : List UInt8) : List ℕ := input.map UInt8.toNat

variable {input : List UInt8} {d : ℕ} {l : List ℕ}

theorem bytes_lt (h : d ∈ bytes input) : d < 256 := by
  obtain ⟨c, -, rfl⟩ := mem_map.1 h
  exact c.toNat_lt

theorem or_shiftLeft (n c k : ℕ) (hc : c < 256) :
    n * 256 ^ (k + 1) ||| c <<< (k * 8) = (256 * n + c) * 256 ^ k := by
  have hpow : ∀ j : ℕ, 256 ^ j = 2 ^ (j * 8) := fun j => by rw [Nat.mul_comm, Nat.pow_mul]
  have hshift : n * 256 ^ (k + 1) = (n <<< 8) <<< (k * 8) := by
    rw [Nat.shiftLeft_eq, Nat.shiftLeft_eq, hpow, Nat.mul_assoc, ← Nat.pow_add]
    congr 2
    omega
  rw [hshift, ← Nat.shiftLeft_or_distrib, ← Nat.shiftLeft_add_eq_or_of_lt (i := 8) hc,
    Nat.shiftLeft_eq, Nat.shiftLeft_eq, hpow]
  congr 1
  omega

theorem fillChunk_eq (k n : ℕ) (input : List UInt8) :
    fillChunk k (n * 256 ^ k) input =
      (k - input.length, (bytes (input.take k)).foldl (fun n d => 256 * n + d) n *
        256 ^ (k - input.length), input.drop k) := by
  induction k generalizing n input with
  | zero => simp [fillChunk, bytes]
  | succ k ih =>
    cases input with
    | nil => simp [fillChunk, bytes]
    | cons c input =>
      rw [fillChunk, or_shiftLeft n c.toNat k c.toNat_lt, ih]
      simp [bytes]

theorem outChar_eq (chunk i : ℕ) :
    outChar chunk i = alphabet.getD (chunk / 32 ^ i % 32) default := by
  have hpow : (32 : ℕ) ^ i = 2 ^ (i * 5) := by rw [Nat.mul_comm, Nat.pow_mul]
  have hmask : chunk >>> (i * 5) &&& 0x1f = chunk >>> (i * 5) % 2 ^ 5 :=
    Nat.and_two_pow_sub_one_eq_mod _ 5
  simp only [outChar, Nat.shiftRight_and_distrib, Nat.shiftLeft_shiftRight, hmask]
  rw [Nat.shiftRight_eq_div_pow, hpow]
  rfl

/-- The letter of a digit. -/
def letter (d : ℕ) : Char := alphabet.getD d default

theorem letter_mem (h : d < 32) : letter d ∈ alphabet := by
  have hd : d < alphabet.length := h
  rw [letter, getD_eq_getElem?_getD, List.getElem?_eq_getElem hd, getD_some]
  exact getElem_mem hd

theorem idxOf_letter (h : d < 32) : alphabet.idxOf (letter d) = d := by
  have hd : d < alphabet.length := h
  have hnodup : alphabet.Nodup := by decide
  rw [letter, getD_eq_getElem?_getD, List.getElem?_eq_getElem hd, getD_some]
  exact hnodup.idxOf_getElem d hd

theorem padchar_not_mem : padchar ∉ alphabet := by decide

theorem outChars_eq (inPadLen chunk : ℕ) (h : inPadLen < 5) :
    outChars inPadLen chunk =
      (digits 32 (outCharCounts.getD inPadLen 0)
        (chunk / 32 ^ (8 - outCharCounts.getD inPadLen 0))).map letter ++
        List.replicate (8 - outCharCounts.getD inPadLen 0) padchar := by
  simp only [outChars, outChar_eq]
  match inPadLen with
  | 0 | 1 | 2 | 3 | 4 => simp [outCharCounts, digits, letter, Nat.div_div_eq_div_mul]
  | n + 5 => omega

theorem outCharCounts_spec : ∀ inPadLen < 5,
    outCharCounts.getD inPadLen 0 ∈ [2, 4, 5, 7, 8] ∧
      5 * outCharCounts.getD inPadLen 0 / 8 = 5 - inPadLen ∧
      256 ^ inPadLen = 32 ^ (8 - outCharCounts.getD inPadLen 0) *
        2 ^ (5 * outCharCounts.getD inPadLen 0 % 8) := by
  decide

theorem takeWhile_letters (h : ∀ d ∈ l, d < 32) (n : ℕ) :
    (l.map letter ++ List.replicate n padchar).takeWhile (· ≠ padchar) = l.map letter := by
  rw [takeWhile_append_of_pos]
  · cases n <;> simp [replicate_succ]
  · intro c hc
    obtain ⟨d, hd, rfl⟩ := mem_map.1 hc
    rw [decide_eq_true_eq]
    intro hpad
    exact padchar_not_mem (hpad ▸ letter_mem (h d hd))

theorem map_idxOf_letters (h : ∀ d ∈ l, d < 32) :
    (l.map letter).map (fun c => alphabet.idxOf c) = l := by
  rw [List.map_map]
  conv_rhs => rw [← map_id l]
  exact map_congr_left fun d hd => idxOf_letter (h d hd)

theorem decodeGroup_outChars (hne : input ≠ []) (hle : input.length ≤ 5) :
    decodeGroup (outChars (5 - input.length)
      (value 256 (bytes input) * 256 ^ (5 - input.length))) = some input := by
  have hpos := length_pos_iff.2 hne
  have hpad : 5 - input.length < 5 := by omega
  obtain ⟨hcount, hbytes, hbits⟩ := outCharCounts_spec _ hpad
  rw [outChars_eq _ _ hpad]
  generalize hcountdef : outCharCounts.getD (5 - input.length) 0 = count at *
  have hnumber : value 256 (bytes input) * 256 ^ (5 - input.length) / 32 ^ (8 - count) =
      value 256 (bytes input) * 2 ^ (5 * count % 8) := by
    rw [hbits, Nat.mul_left_comm, Nat.mul_div_cancel_left _ (Nat.pow_pos (by decide))]
  have hlt : value 256 (bytes input) * 2 ^ (5 * count % 8) < 32 ^ count := by
    have hvalue : value 256 (bytes input) < 256 ^ input.length := by
      have := value_lt fun d (hd : d ∈ bytes input) => bytes_lt hd
      rwa [bytes, length_map] at this
    have hmul := Nat.mul_lt_mul_of_pos_right hvalue
      (show 0 < 2 ^ (5 * count % 8) from Nat.pow_pos (by decide))
    refine hmul.trans_le ?_
    have h256 : (256 : ℕ) = 2 ^ 8 := rfl
    have h32 : (32 : ℕ) = 2 ^ 5 := rfl
    rw [h256, h32, ← Nat.pow_mul, ← Nat.pow_mul, ← Nat.pow_add]
    exact Nat.pow_le_pow_right (by decide) (by omega)
  have hmem : ∀ d ∈ digits 32 count
      (value 256 (bytes input) * 2 ^ (5 * count % 8)), d < 32 :=
    fun d hd => mem_digits_lt (by decide) hd
  rw [hnumber]
  have hdigits : digits 256 (5 - (5 - input.length)) (value 256 (bytes input)) = bytes input := by
    have := digits_value fun d (hd : d ∈ bytes input) => bytes_lt hd
    rwa [bytes, length_map, ← bytes, show input.length = 5 - (5 - input.length) by omega]
      at this
  have hback : (bytes input).map UInt8.ofNat = input := by
    rw [bytes, List.map_map]
    conv_rhs => rw [← map_id input]
    exact map_congr_left fun c _ => UInt8.ofNat_toNat
  simp only [decodeGroup, takeWhile_letters hmem, map_idxOf_letters hmem, length_map,
    length_digits, value_digits, Nat.mod_eq_of_lt hlt, Nat.mul_mod_left, hbytes,
    Nat.mul_div_cancel _ (show 0 < 2 ^ (5 * count % 8) from Nat.pow_pos (by decide)), hdigits, hback]
  rw [if_pos]
  refine ⟨hcount, trivial, all_eq_true.2 fun c hc => ?_, trivial⟩
  obtain ⟨d, hd, rfl⟩ := mem_map.1 hc
  exact contains_iff_mem.2 (letter_mem (hmem d hd))

theorem length_outChars (inPadLen chunk : ℕ) : (outChars inPadLen chunk).length = 8 := rfl

/-! ### The whole text -/

theorem toBase32_eq (hne : input ≠ []) :
    toBase32 input =
      outChars (5 - (input.take 5).length)
        (value 256 (bytes (input.take 5)) * 256 ^ (5 - (input.take 5).length)) ++
        toBase32 (input.drop 5) := by
  have hpos := length_pos_iff.2 hne
  have hchunks : (input.length + 4) / 5 = ((input.drop 5).length + 4) / 5 + 1 := by
    rw [length_drop]
    omega
  have hmissing : 5 - (input.take 5).length = 5 - input.length := by
    rw [length_take]
    omega
  have hfill := fillChunk_eq 5 0 input
  rw [Nat.zero_mul] at hfill
  rw [toBase32, hchunks, toBase32From, hfill, hmissing]
  rfl

theorem decode_append {group text : List Char} (hlength : group.length = 8)
    (hpad : text ≠ [] → padchar ∉ group) (htext : text.length ≠ 0 → 8 ≤ text.length) :
    decode (group ++ text) = (decodeGroup group).bind fun bytes =>
      (decode text).map fun rest => bytes ++ rest := by
  have hne : group ++ text ≠ [] := fun h => by
    have := congrArg List.length h
    simp [hlength] at this
  rw [decode, if_neg hne]
  by_cases hnil : text = []
  · subst hnil
    rw [append_nil, if_pos (by omega), decode, if_pos rfl]
    cases decodeGroup group <;> simp
  · have hlt : ¬ (group ++ text).length ≤ 8 := by
      have := length_pos_iff.2 hnil
      rw [length_append]
      omega
    rw [if_neg hlt, take_left' hlength, drop_left' hlength, if_neg (hpad hnil)]

theorem padding_of_lt (n : ℕ) (h : 5 < n) : padding (n - 5) = padding n := by
  have : (n - 5) % 5 = n % 5 := by omega
  rw [padding, this, padding]

theorem padding_eq : ∀ n ≤ 5, 0 < n → 8 - outCharCounts.getD (5 - n) 0 = padding n := by
  decide

/-- What holds of the text of these bytes. -/
structure Right (input : List UInt8) : Prop where
  length_eq : (toBase32 input).length = 8 * ((input.length + 4) / 5)
  exists_body : ∃ body, toBase32 input = body ++ List.replicate (padding input.length) padchar ∧
    ∀ c ∈ body, c ∈ alphabet
  decode_eq : decode (toBase32 input) = some input

theorem right_nil : Right [] where
  length_eq := rfl
  exists_body := ⟨[], rfl, by simp⟩
  decode_eq := by
    rw [show toBase32 [] = [] from rfl, decode, if_pos rfl]

theorem Right.of_drop (hne : input ≠ []) (h : Right (input.drop 5)) : Right input := by
  have hpos := length_pos_iff.2 hne
  have htake : (input.take 5).length ≤ 5 := length_take_le 5 input
  have hne5 : input.take 5 ≠ [] := by
    rw [← length_pos_iff, length_take]
    omega
  have hmissing : 5 - (input.take 5).length < 5 := by
    have := length_pos_iff.2 hne5
    omega
  have hfull : input.drop 5 ≠ [] → (input.take 5).length = 5 := fun hdrop => by
    have := length_pos_iff.2 hdrop
    rw [length_drop] at this
    rw [length_take]
    omega
  have hletters := outChars_eq _ (value 256 (bytes (input.take 5)) *
    256 ^ (5 - (input.take 5).length)) hmissing
  refine ⟨?_, ?_, ?_⟩
  · rw [toBase32_eq hne, length_append, h.length_eq, length_outChars, length_drop]
    omega
  · by_cases hdrop : input.drop 5 = []
    · have hle : input.length ≤ 5 := by simpa using hdrop
      rw [toBase32_eq hne, hdrop, show toBase32 [] = [] from rfl, append_nil, hletters]
      rw [take_of_length_le hle, padding_eq _ hle hpos]
      refine ⟨_, rfl, fun c hc => ?_⟩
      obtain ⟨d, hd, rfl⟩ := mem_map.1 hc
      exact letter_mem (mem_digits_lt (by decide) hd)
    · obtain ⟨body, hbody, hall⟩ := h.exists_body
      have hlt : 5 < input.length := by simpa using hdrop
      rw [hfull hdrop, show outCharCounts.getD (5 - 5) 0 = 8 from rfl, Nat.sub_self,
        replicate_zero, append_nil] at hletters
      rw [toBase32_eq hne, hfull hdrop, Nat.sub_self, hletters, hbody, length_drop,
        padding_of_lt _ hlt, ← append_assoc]
      refine ⟨_, rfl, fun c hc => ?_⟩
      rcases mem_append.1 hc with hc | hc
      · obtain ⟨d, hd, rfl⟩ := mem_map.1 hc
        exact letter_mem (mem_digits_lt (by decide) hd)
      · exact hall c hc
  · rw [toBase32_eq hne, decode_append (length_outChars _ _), decodeGroup_outChars hne5 htake,
      h.decode_eq, bind_some, map_some, take_append_drop]
    · intro htext hpad
      have hdrop : input.drop 5 ≠ [] := fun hnil => htext (by rw [hnil]; rfl)
      rw [hletters, hfull hdrop] at hpad
      simp only [Nat.sub_self, outCharCounts, getD_cons_zero, replicate_zero,
        append_nil] at hpad
      obtain ⟨d, hd, hpad⟩ := mem_map.1 hpad
      exact padchar_not_mem (hpad ▸ letter_mem (mem_digits_lt (by decide) hd))
    · rw [h.length_eq]
      omega

theorem right (input : List UInt8) : Right input := by
  induction hn : input.length using Nat.strong_induction_on generalizing input with
  | _ n ih =>
    by_cases hne : input = []
    · rw [hne]
      exact right_nil
    · have hpos := length_pos_iff.2 hne
      exact Right.of_drop hne (ih _ (by rw [length_drop]; omega) _ rfl)

/-- **Base32.**  The text of every byte array has the length and the padding of RFC 4648 behind
letters of its alphabet, and the decoder of RFC 4648 gives the bytes back.  No two byte arrays have
the same text. -/
theorem toBase32_roundTrip :
    (∀ input, (toBase32 input).length = 8 * ((input.length + 4) / 5) ∧
      (∃ body, toBase32 input = body ++ List.replicate (padding input.length) padchar ∧
        ∀ c ∈ body, c ∈ alphabet) ∧
      decode (toBase32 input) = some input) ∧
    Function.Injective toBase32 := by
  refine ⟨fun input => ⟨(right input).length_eq, (right input).exists_body,
    (right input).decode_eq⟩, fun input input' h => ?_⟩
  have := (right input).decode_eq
  rw [h, (right input').decode_eq] at this
  exact (some.inj this).symm

example : toBase32 [49] = "GE======".toList := by decide

end QBittorrent.ByteArray
