import Mathlib.Data.Finset.Max
import Mathlib.Data.List.DropRight

/-!
# Texts and their bytes

`toUtf8` and `fromUtf8` are the conversions between texts and the bytes of network buffers and
files, on lists so that byte strings can be searched and split.  `trim` removes elements of a
class (spaces) at both ends.

* `reencoded_fromUtf8` : bytes that are no UTF-8 change in decoding and encoding, but **ASCII bytes
  stay as they are, in their order** (`Reencoded.filter_ascii`, `Reencoded.isInfix_of_isInfix`).
-/

namespace QBittorrent

open List String Char

/-- The UTF-8 encoding of a text. -/
def toUtf8 (s : String) : List UInt8 := s.toList.flatMap String.utf8EncodeChar

/-- The character at the head of a list of bytes, if it starts with a well-formed one. -/
def utf8Head? (b : List UInt8) : Option Char := b.toByteArray.utf8DecodeChar? 0

/-- The characters of a list of bytes; a byte that starts no character becomes the replacement
character. -/
def utf8Chars : List UInt8 → List Char
  | [] => []
  | b :: bs =>
    match utf8Head? (b :: bs) with
    | some c => c :: utf8Chars (bs.drop (c.utf8Size - 1))
    | none => Char.ofNat 0xFFFD :: utf8Chars bs
termination_by b => b.length
decreasing_by all_goals simp only [List.length_drop, List.length_cons]; omega

/-- The text of a list of bytes. -/
def fromUtf8 (b : List UInt8) : String := String.ofList (utf8Chars b)

/-- The text of a list of Latin-1 codes. -/
def fromLatin1 (b : List UInt8) : String := String.ofList (b.map fun x => Char.ofNat x.toNat)

theorem utf8Head?_append (c : Char) (b : List UInt8) :
    utf8Head? (String.utf8EncodeChar c ++ b) = some c := by
  rw [utf8Head?, List.toByteArray_append]
  exact ByteArray.utf8DecodeChar?_utf8EncodeChar_append

theorem utf8Chars_append (c : Char) (b : List UInt8) :
    utf8Chars (String.utf8EncodeChar c ++ b) = c :: utf8Chars b := by
  have hhead := utf8Head?_append c b
  have hlen : (utf8EncodeChar c).length = c.utf8Size := length_utf8EncodeChar c
  cases hc : utf8EncodeChar c with
  | nil => exact (utf8EncodeChar_ne_nil hc).elim
  | cons x xs =>
    rw [hc] at hhead hlen
    rw [cons_append] at hhead ⊢
    rw [utf8Chars, hhead]
    have : c.utf8Size - 1 = xs.length := by
      rw [← hlen]
      rfl
    simp [this]

theorem utf8Chars_flatMap (cs : List Char) : utf8Chars (cs.flatMap String.utf8EncodeChar) = cs := by
  induction cs with
  | nil => simp [utf8Chars]
  | cons c cs ih => rw [flatMap_cons, utf8Chars_append, ih]

@[simp] theorem fromUtf8_toUtf8 (s : String) : fromUtf8 (toUtf8 s) = s := by
  rw [fromUtf8, toUtf8, utf8Chars_flatMap, ofList_toList]

theorem toUtf8_injective : Function.Injective toUtf8 :=
  Function.LeftInverse.injective fromUtf8_toUtf8

@[simp] theorem fromUtf8_nil : fromUtf8 [] = "" := fromUtf8_toUtf8 ""

@[simp] theorem toUtf8_empty : toUtf8 "" = [] := rfl

variable {s : String} {c : Char} {b : UInt8}

@[simp] theorem toUtf8_eq_nil : toUtf8 s = [] ↔ s = "" :=
  ⟨fun h => toUtf8_injective h, fun h => by rw [h, toUtf8_empty]⟩

/-! ### ASCII -/

/-- An ASCII byte. -/
def isAscii (b : UInt8) : Bool := b < 128

theorem utf8Size_eq_one : c.utf8Size = 1 ↔ c.val < 128 := by
  rw [utf8Size_eq_one_iff, UInt32.le_iff_toNat_le, UInt32.lt_iff_toNat_lt]
  constructor <;> intro h <;> simp only [UInt32.reduceToNat] at h ⊢ <;> omega

theorem toNat_toUInt8_of_lt (h : c.val < 128) : c.val.toUInt8.toNat = c.val.toNat := by
  have : c.val.toNat < 128 := UInt32.lt_iff_toNat_lt.1 h
  rw [UInt32.toNat_toUInt8]
  omega

theorem utf8EncodeChar_of_lt (h : c.val < 128) : String.utf8EncodeChar c = [c.val.toUInt8] :=
  utf8EncodeChar_eq_singleton (utf8Size_eq_one.2 h)

theorem not_isAscii_of_mem_utf8EncodeChar (h : ¬ c.val < 128) :
    ∀ b ∈ String.utf8EncodeChar c, isAscii b = false := by
  have hlead : ∀ x : UInt8, isAscii (x &&& 0x1f ||| 0xc0) = false ∧
      isAscii (x &&& 0x0f ||| 0xe0) = false ∧ isAscii (x &&& 0x07 ||| 0xf0) = false ∧
      isAscii (x &&& 0x3f ||| 0x80) = false := by
    intro x
    have hfin : ∀ n : Fin 256, isAscii (UInt8.ofNat n &&& 0x1f ||| 0xc0) = false ∧
        isAscii (UInt8.ofNat n &&& 0x0f ||| 0xe0) = false ∧
        isAscii (UInt8.ofNat n &&& 0x07 ||| 0xf0) = false ∧
        isAscii (UInt8.ofNat n &&& 0x3f ||| 0x80) = false := by decide +kernel
    simpa using hfin ⟨x.toNat, x.toNat_lt⟩
  intro b hb
  have := c.utf8Size_pos
  have := c.utf8Size_le_four
  have hne : c.utf8Size ≠ 1 := fun h' => h (utf8Size_eq_one.1 h')
  obtain h | h | h : c.utf8Size = 2 ∨ c.utf8Size = 3 ∨ c.utf8Size = 4 := by omega
  · rw [utf8EncodeChar_eq_cons_cons h] at hb
    simp only [mem_cons, not_mem_nil, or_false] at hb
    rcases hb with rfl | rfl <;> simp only [hlead]
  · rw [utf8EncodeChar_eq_cons_cons_cons h] at hb
    simp only [mem_cons, not_mem_nil, or_false] at hb
    rcases hb with rfl | rfl | rfl <;> simp only [hlead]
  · rw [utf8EncodeChar_eq_cons_cons_cons_cons h] at hb
    simp only [mem_cons, not_mem_nil, or_false] at hb
    rcases hb with rfl | rfl | rfl | rfl <;> simp only [hlead]

theorem mem_of_mem_toUtf8 (hb : isAscii b) (h : b ∈ toUtf8 s) : Char.ofNat b.toNat ∈ s.toList := by
  obtain ⟨c, hc, hbc⟩ := mem_flatMap.1 h
  by_cases hlt : c.val < 128
  · rw [utf8EncodeChar_of_lt hlt, mem_singleton] at hbc
    rwa [hbc, toNat_toUInt8_of_lt hlt, show ofNat c.val.toNat = c from c.ofNat_toNat]
  · rw [not_isAscii_of_mem_utf8EncodeChar hlt b hbc] at hb
    cases hb

theorem count_toUtf8 (hb : isAscii b) (s : String) :
    (toUtf8 s).count b = s.toList.count (Char.ofNat b.toNat) := by
  have hchar : ∀ c : Char, (utf8EncodeChar c).count b =
      if c = ofNat b.toNat then 1 else 0 := by
    intro c
    by_cases hlt : c.val < 128
    · rw [utf8EncodeChar_of_lt hlt]
      have hiff : c.val.toUInt8 = b ↔ c = ofNat b.toNat := by
        constructor
        · rintro rfl
          rw [toNat_toUInt8_of_lt hlt]
          exact c.ofNat_toNat.symm
        · rintro rfl
          have hbig : b.toNat < 128 := UInt8.lt_iff_toNat_lt.1 (of_decide_eq_true hb)
          have hvalid : b.toNat.isValidChar := .inl (by omega)
          have hval : (ofNat b.toNat).val.toNat = b.toNat := by
            rw [ofNat, dif_pos hvalid]
            rfl
          rw [← UInt8.toNat_inj, toNat_toUInt8_of_lt hlt, hval]
      rw [count_singleton]
      exact if_congr (beq_iff_eq.trans hiff) rfl rfl
    · have hnot : b ∉ utf8EncodeChar c := fun hmem => by
        have := not_isAscii_of_mem_utf8EncodeChar hlt b hmem
        rw [hb] at this
        cases this
      rw [count_eq_zero_of_not_mem hnot, if_neg]
      rintro rfl
      refine hlt ?_
      have hbig : b.toNat < 128 := UInt8.lt_iff_toNat_lt.1 (of_decide_eq_true hb)
      have hvalid : b.toNat.isValidChar := .inl (by omega)
      rw [UInt32.lt_iff_toNat_lt, ofNat, dif_pos hvalid]
      exact hbig
  rw [toUtf8]
  induction s.toList with
  | nil => rfl
  | cons c cs ih =>
    rw [flatMap_cons, count_append, ih, hchar, count_cons, Nat.add_comm]
    simp

/-- The second list has the ASCII bytes of the first, and other bytes where the first has. -/
inductive Reencoded : List UInt8 → List UInt8 → Prop
  | nil : Reencoded [] []
  | ascii {b o : List UInt8} {x : UInt8} (hx : isAscii x) (h : Reencoded b o) :
    Reencoded (x :: b) (x :: o)
  | other {b o g g' : List UInt8} (hg : ∀ x ∈ g, isAscii x = false) (hg' : ∀ x ∈ g', isAscii x = false)
    (hne : g' ≠ []) (h : Reencoded b o) : Reencoded (g ++ b) (g' ++ o)

namespace Reencoded

variable {b o pat : List UInt8}

theorem filter_ascii (h : Reencoded b o) : b.filter isAscii = o.filter isAscii := by
  induction h with
  | nil => rfl
  | ascii hx _ ih => rw [filter_cons_of_pos hx, filter_cons_of_pos hx, ih]
  | @other b o g g' hg hg' _ _ ih =>
    have h₁ : g.filter isAscii = [] := filter_eq_nil_iff.2 fun x hx => by simp [hg x hx]
    have h₂ : g'.filter isAscii = [] := filter_eq_nil_iff.2 fun x hx => by simp [hg' x hx]
    rw [filter_append, filter_append, ih, h₁, h₂]

theorem prefix_of_isPrefix (h : Reencoded b o) (hpat : ∀ x ∈ pat, isAscii x) (hp : pat <+: o) :
    pat <+: b := by
  induction h generalizing pat with
  | nil => exact hp
  | ascii hx _ ih =>
    cases pat with
    | nil => exact nil_prefix
    | cons y pat =>
      obtain ⟨rfl, hp'⟩ := cons_prefix_cons.1 hp
      exact cons_prefix_cons.2 ⟨rfl, ih (fun z hz => hpat z (mem_cons_of_mem _ hz)) hp'⟩
  | @other b o g g' _ hg' hne _ _ =>
    cases pat with
    | nil => exact nil_prefix
    | cons y pat =>
      -- the pattern would begin with the first byte of `g'`
      obtain ⟨z, g', rfl⟩ := exists_cons_of_ne_nil hne
      obtain ⟨rfl, -⟩ := cons_prefix_cons.1 hp
      have := hpat y (by simp)
      rw [hg' y (by simp)] at this
      cases this

theorem isInfix_of_isInfix (h : Reencoded b o) (hpat : ∀ x ∈ pat, isAscii x) (hne : pat ≠ [])
    (hp : pat <:+: o) : pat <:+: b := by
  induction h with
  | nil => exact hp
  | ascii hx h ih =>
    obtain hp | hp := infix_cons_iff.1 hp
    · exact ((Reencoded.ascii hx h).prefix_of_isPrefix hpat hp).isInfix
    · exact (ih hp).trans (suffix_cons _ _).isInfix
  | @other b o g g' _ hg' hne' _ ih =>
    refine (ih ?_).trans (suffix_append _ _).isInfix
    clear ih hne'
    induction g' with
    | nil => exact hp
    | cons z g' ih =>
      obtain hp | hp := infix_cons_iff.1 hp
      · obtain ⟨y, pat, rfl⟩ := exists_cons_of_ne_nil hne
        obtain ⟨rfl, -⟩ := cons_prefix_cons.1 hp
        have := hpat y (by simp)
        rw [hg' y (by simp)] at this
        cases this
      · exact ih (fun x hx => hg' x (mem_cons_of_mem _ hx)) hp

end Reencoded

variable {b : List UInt8} {x : UInt8} {cs : List Char} {names : List String}

theorem utf8Head?_eq_some (h : utf8Head? b = some c) :
    b = String.utf8EncodeChar c ++ b.drop c.utf8Size := by
  have hbytes := toByteArray_utf8EncodeChar_of_utf8DecodeChar?_eq_some h
  have : utf8EncodeChar c = b.take c.utf8Size := by
    have := congrArg (fun a : ByteArray => a.data.toList) hbytes
    simpa using this
  rw [this, take_append_drop]

theorem utf8EncodeChar_ofNat (hx : isAscii x) :
    String.utf8EncodeChar (Char.ofNat x.toNat) = [x] := by
  have hlt : x.toNat < 128 := by simpa [isAscii, UInt8.lt_iff_toNat_lt] using hx
  have hval : (ofNat x.toNat).val = x.toUInt32 := by
    rw [ofNat, dif_pos (Or.inl (by omega))]
    exact UInt32.toNat_inj.1 (UInt8.toNat_toUInt32 x).symm
  rw [utf8EncodeChar_of_lt, hval]
  · simp
  · rw [hval, UInt32.lt_iff_toNat_lt]
    simpa using hlt

theorem not_isAscii_of_utf8Head? (h : utf8Head? (x :: b) = none) : isAscii x = false := by
  by_contra hx
  have := utf8Head?_append (ofNat x.toNat) b
  rw [utf8EncodeChar_ofNat (by simpa using hx), singleton_append, h] at this
  cases this

theorem reencoded_fromUtf8 (b : List UInt8) : Reencoded b (toUtf8 (fromUtf8 b)) := by
  rw [fromUtf8, toUtf8, toList_ofList]
  induction b using utf8Chars.induct with
  | case1 => simpa [utf8Chars] using Reencoded.nil
  | case2 x b c h ih =>
    rw [utf8Chars, h]
    have hb := utf8Head?_eq_some h
    have hsize : c.utf8Size = c.utf8Size - 1 + 1 := by
      have := c.utf8Size_pos
      omega
    rw [hsize, drop_succ_cons] at hb
    rw [flatMap_cons, hb]
    by_cases hc : c.val < 128
    · rw [utf8EncodeChar_of_lt hc]
      refine .ascii ?_ ih
      rw [isAscii, decide_eq_true_eq, UInt8.lt_iff_toNat_lt, toNat_toUInt8_of_lt hc]
      exact UInt32.lt_iff_toNat_lt.1 hc
    · exact .other (not_isAscii_of_mem_utf8EncodeChar hc) (not_isAscii_of_mem_utf8EncodeChar hc)
        utf8EncodeChar_ne_nil ih
  | case3 x b h ih =>
    rw [utf8Chars, h]
    refine .other (g := [x]) ?_ (not_isAscii_of_mem_utf8EncodeChar (by decide))
      utf8EncodeChar_ne_nil ih
    intro y hy
    rw [mem_singleton.1 hy]
    exact not_isAscii_of_utf8Head? h

theorem length_le_length_flatMap (cs : List Char) :
    cs.length ≤ (cs.flatMap String.utf8EncodeChar).length := by
  induction cs with
  | nil => rfl
  | cons c cs ih =>
    have := c.utf8Size_pos
    rw [flatMap_cons, List.length_append, length_utf8EncodeChar, length_cons]
    omega

theorem lt_of_length_flatMap (h : (cs.flatMap String.utf8EncodeChar).length = cs.length) :
    ∀ c ∈ cs, c.val < 128 := by
  induction cs with
  | nil => simp
  | cons c cs ih =>
    have hpos := c.utf8Size_pos
    have hle := length_le_length_flatMap cs
    rw [flatMap_cons, List.length_append, length_utf8EncodeChar, length_cons] at h
    intro c' hc'
    obtain rfl | hc' := mem_cons.1 hc'
    · exact utf8Size_eq_one.1 (by omega)
    · exact ih (by omega) c' hc'

theorem fromLatin1_toUtf8_eq_iff : fromLatin1 (toUtf8 s) = s ↔ ∀ c ∈ s.toList, c.val < 128 := by
  constructor
  · intro h
    have hlen := congrArg (fun s : String => s.toList.length) h
    simp only [fromLatin1, String.toList_ofList, List.length_map] at hlen
    exact lt_of_length_flatMap hlen
  · intro h
    have hchars : (s.toList.flatMap utf8EncodeChar).map (fun x => ofNat x.toNat) =
        s.toList := by
      generalize s.toList = cs at h
      induction cs with
      | nil => rfl
      | cons c cs ih =>
        have hc := h c (by simp)
        rw [flatMap_cons, utf8EncodeChar_of_lt hc, singleton_append, map_cons,
          ih fun c' hc' => h c' (mem_cons_of_mem _ hc')]
        rw [toNat_toUInt8_of_lt hc]
        exact congrArg (· :: cs) c.ofNat_toNat
    rw [fromLatin1, toUtf8, hchars, ofList_toList]

theorem ascii_of_ascii_fromLatin1 (h : ∀ c ∈ (fromLatin1 (toUtf8 s)).toList, c.val < 128) :
    ∀ c ∈ s.toList, c.val < 128 := by
  intro c hc
  by_contra hlt
  obtain ⟨b, hb⟩ := exists_mem_of_ne_nil _ (utf8EncodeChar_ne_nil (c := c))
  have hmem : ofNat b.toNat ∈ (fromLatin1 (toUtf8 s)).toList := by
    rw [fromLatin1, toList_ofList]
    exact mem_map.2 ⟨b, mem_flatMap.2 ⟨c, hc, hb⟩, rfl⟩
  have hval := h _ hmem
  have hb' := not_isAscii_of_mem_utf8EncodeChar hlt b hb
  have hnat : (ofNat b.toNat).val.toNat = b.toNat := by
    rw [ofNat, dif_pos (Or.inl (by have := b.toNat_lt; omega))]
    rfl
  rw [UInt32.lt_iff_toNat_lt, hnat] at hval
  rw [isAscii, decide_eq_false_iff_not, UInt8.lt_iff_toNat_lt] at hb'
  exact hb' hval

theorem fromLatin1_toUtf8_of_mem (h : ∀ s ∈ names, fromLatin1 (toUtf8 s) ∈ names) :
    ∀ s ∈ names, fromLatin1 (toUtf8 s) = s := by
  classical
  by_contra hne
  push Not at hne
  obtain ⟨s₀, hs₀, hne₀⟩ := hne
  obtain ⟨s, hs, hmax⟩ := Finset.exists_max_image
    (names.toFinset.filter fun s => fromLatin1 (toUtf8 s) ≠ s) (fun s => (toUtf8 s).length)
    ⟨s₀, by simp [hs₀, hne₀]⟩
  obtain ⟨hmem, hs⟩ : s ∈ names ∧ fromLatin1 (toUtf8 s) ≠ s := by simpa using hs
  have hs' : fromLatin1 (toUtf8 (fromLatin1 (toUtf8 s))) ≠ fromLatin1 (toUtf8 s) := by
    intro heq
    exact hs (fromLatin1_toUtf8_eq_iff.2 (ascii_of_ascii_fromLatin1 (fromLatin1_toUtf8_eq_iff.1 heq)))
  have hle := hmax (fromLatin1 (toUtf8 s)) (by simp [h s hmem, hs'])
  -- the characters of the name that is read are the bytes of `s`
  have hchars : (fromLatin1 (toUtf8 s)).toList.length = (toUtf8 s).length := by
    rw [fromLatin1, toList_ofList, List.length_map]
  have hge := length_le_length_flatMap (fromLatin1 (toUtf8 s)).toList
  refine hs' (fromLatin1_toUtf8_eq_iff.2 (lt_of_length_flatMap ?_))
  change (toUtf8 (fromLatin1 (toUtf8 s))).length = _
  change _ ≤ (toUtf8 (fromLatin1 (toUtf8 s))).length at hge
  omega

/-! ### The byte order mark -/

def byteOrderMark : List UInt8 := [0xEF, 0xBB, 0xBF]

/-- The text of a list of bytes after a byte order mark, if it begins with one. -/
def decodeUtf8 (b : List UInt8) : String :=
  fromUtf8 (if byteOrderMark <+: b then b.drop byteOrderMark.length else b)

theorem exists_decodeUtf8 (b : List UInt8) : ∃ g b', b = g ++ b' ∧
    (∀ x ∈ g, isAscii x = false) ∧ decodeUtf8 b = fromUtf8 b' := by
  by_cases h : byteOrderMark <+: b
  · refine ⟨byteOrderMark, b.drop byteOrderMark.length, ?_, by simp [byteOrderMark, isAscii],
      by rw [decodeUtf8, if_pos h]⟩
    exact (prefix_iff_eq_append.1 h).symm
  · exact ⟨[], b, rfl, by simp, by rw [decodeUtf8, if_neg h]⟩

theorem filter_ascii_decodeUtf8 (b : List UInt8) :
    (toUtf8 (decodeUtf8 b)).filter isAscii = b.filter isAscii := by
  obtain ⟨g, b', rfl, hg, hb⟩ := exists_decodeUtf8 b
  have hnil : g.filter isAscii = [] := filter_eq_nil_iff.2 fun x hx => by simp [hg x hx]
  rw [hb, ← (reencoded_fromUtf8 b').filter_ascii, filter_append, hnil, nil_append]

theorem count_decodeUtf8 (hx : isAscii x) (b : List UInt8) :
    (decodeUtf8 b).toList.count (Char.ofNat x.toNat) = b.count x := by
  rw [← count_toUtf8 hx, ← count_filter hx, filter_ascii_decodeUtf8, count_filter hx]

theorem infix_of_infix_decodeUtf8 {pat : List UInt8} (hpat : ∀ x ∈ pat, isAscii x) (hne : pat ≠ [])
    (h : pat <:+: toUtf8 (decodeUtf8 b)) : pat <:+: b := by
  obtain ⟨g, b', rfl, -, hb⟩ := exists_decodeUtf8 b
  rw [hb] at h
  exact ((reencoded_fromUtf8 b').isInfix_of_isInfix hpat hne h).trans (suffix_append _ _).isInfix

theorem decodeUtf8_toUtf8_of_mark (hs : s.toList = Char.ofNat 0xFEFF :: cs) :
    decodeUtf8 (toUtf8 s) = String.ofList cs := by
  have hmark : byteOrderMark = utf8EncodeChar (ofNat 0xFEFF) := by decide
  have hbytes : toUtf8 s = byteOrderMark ++ cs.flatMap utf8EncodeChar := by
    rw [toUtf8, hs, flatMap_cons, hmark]
  rw [decodeUtf8, if_pos ⟨_, hbytes.symm⟩, hbytes, drop_left, fromUtf8, utf8Chars_flatMap]

theorem decodeUtf8_toUtf8_eq_iff :
    decodeUtf8 (toUtf8 s) = s ↔ s.toList.head? ≠ some (Char.ofNat 0xFEFF) := by
  have hmark : byteOrderMark = utf8EncodeChar (ofNat 0xFEFF) := by decide
  cases hs : s.toList with
  | nil =>
    obtain rfl : s = "" := toList_eq_nil_iff.1 hs
    simp [decodeUtf8, byteOrderMark]
  | cons c cs =>
    by_cases hc : c = ofNat 0xFEFF
    · refine iff_of_false ?_ (by simp [hc])
      intro h
      rw [decodeUtf8_toUtf8_of_mark (hc ▸ hs)] at h
      have := congrArg toList h
      rw [toList_ofList, hs] at this
      exact cons_ne_self c cs this.symm
    · refine iff_of_true ?_ (by simpa using hc)
      rw [decodeUtf8, if_neg, fromUtf8_toUtf8]
      rintro ⟨r, hr⟩
      have hbytes : toUtf8 s = utf8EncodeChar c ++ cs.flatMap utf8EncodeChar := by
        rw [toUtf8, hs, flatMap_cons]
      -- the character at the head is the one that is encoded there
      have hhead := utf8Head?_append (ofNat 0xFEFF) r
      rw [← hmark, hr, hbytes, utf8Head?_append] at hhead
      exact hc (Option.some.inj hhead)

/-- A function that shortens what it changes, and whose values on a list are the list again, changes
nothing there. -/
theorem eq_of_shortens {α : Type*} {f : α → α} (size : α → ℕ)
    (hf : ∀ a, f a ≠ a → size (f a) < size a) {l : List α} (h : ∀ a ∈ l, ∃ b ∈ l, f b = a) : ∀ a ∈ l, f a = a := by
  classical
  by_contra hne
  push Not at hne
  obtain ⟨a₀, ha₀, hne₀⟩ := hne
  obtain ⟨a, ha, hmax⟩ := Finset.exists_max_image (l.toFinset.filter fun a => f a ≠ a) size
    ⟨a₀, by simp [ha₀, hne₀]⟩
  obtain ⟨hmem, ha⟩ : a ∈ l ∧ f a ≠ a := by simpa using ha
  obtain ⟨b, hb, rfl⟩ := h a hmem
  have hchanged : f b ≠ b := fun hkeep => ha (by rw [hkeep, hkeep])
  have hle := hmax b (by simp [hb, hchanged])
  have hlt := hf b hchanged
  omega

theorem length_decodeUtf8_toUtf8 (h : decodeUtf8 (toUtf8 s) ≠ s) :
    (decodeUtf8 (toUtf8 s)).toList.length < s.toList.length := by
  rw [Ne, decodeUtf8_toUtf8_eq_iff, not_not] at h
  have hs := (cons_head?_tail h).symm
  rw [decodeUtf8_toUtf8_of_mark hs, toList_ofList, hs, tail_cons, length_cons]
  exact Nat.lt_succ_self _

theorem decodeUtf8_toUtf8_of_mem (h : ∀ s ∈ names, ∃ t ∈ names, decodeUtf8 (toUtf8 t) = s) :
    ∀ s ∈ names, decodeUtf8 (toUtf8 s) = s :=
  eq_of_shortens (fun s => s.toList.length) (fun _ => length_decodeUtf8_toUtf8) h

theorem toUtf8_fromLatin1_of_ascii (h : ∀ x ∈ b, isAscii x) : toUtf8 (fromLatin1 b) = b := by
  rw [toUtf8, fromLatin1, toList_ofList]
  induction b with
  | nil => rfl
  | cons x b ih =>
    rw [forall_mem_cons] at h
    rw [map_cons, flatMap_cons, utf8EncodeChar_ofNat h.1, ih h.2]
    rfl

theorem decodeUtf8_of_ascii (h : ∀ x ∈ b, isAscii x) : decodeUtf8 b = fromLatin1 b := by
  have hkeep : decodeUtf8 (toUtf8 (fromLatin1 b)) = fromLatin1 b := by
    rw [decodeUtf8_toUtf8_eq_iff, fromLatin1, toList_ofList]
    cases b with
    | nil => simp
    | cons x b =>
      rw [map_cons, head?_cons]
      intro heq
      have hx := x.toNat_lt
      have hnat : (ofNat x.toNat).toNat = x.toNat := by
        rw [ofNat, dif_pos (Or.inl (by omega))]
        rfl
      rw [Option.some.inj heq] at hnat
      have : (ofNat 0xFEFF).toNat = 0xFEFF := by decide
      omega
  rw [toUtf8_fromLatin1_of_ascii h] at hkeep
  exact hkeep

/-! ### Trimming -/

/-- The list without its elements in `p` at both ends. -/
def trim {α : Type*} (p : α → Bool) (l : List α) : List α := (l.dropWhile p).rdropWhile p

section Trim

variable {α : Type*} {p : α → Bool} {l : List α} {a : α}

theorem length_trim_le (p : α → Bool) (l : List α) : (trim p l).length ≤ l.length :=
  (List.rdropWhile_prefix p (l := l.dropWhile p)).length_le.trans (length_dropWhile_le p l)

theorem trim_eq_self (hhead : ∀ a ∈ l.head?, p a = false) (hlast : ∀ a ∈ l.getLast?, p a = false) :
    trim p l = l := by
  have hd : l.dropWhile p = l := by
    cases l with
    | nil => rfl
    | cons a l => simp [hhead a rfl]
  rw [trim, hd, rdropWhile_eq_self_iff]
  intro hl
  simpa using hlast _ (getLast?_eq_getLast_of_ne_nil hl)

theorem head?_trim (h : a ∈ (trim p l).head?) : p a = false := by
  obtain ⟨t, ht⟩ := rdropWhile_prefix p (l.dropWhile p)
  cases hr : trim p l with
  | nil => simp [hr] at h
  | cons b r =>
    rw [hr] at h
    obtain rfl : b = a := by simpa using h
    -- the head of the trimmed list is the head of the list without its leading elements in `p`
    have hd : l.dropWhile p = b :: (r ++ t) := by
      rw [← ht, ← cons_append, ← hr, trim]
    have := head?_dropWhile_not p l
    rw [hd] at this
    simpa using this

theorem getLast?_trim (h : a ∈ (trim p l).getLast?) : p a = false := by
  have hne : trim p l ≠ [] := by
    rintro hnil
    simp [hnil] at h
  have := rdropWhile_last_not p (l.dropWhile p) hne
  rw [Option.mem_def, getLast?_eq_getLast_of_ne_nil hne] at h
  cases h
  exact Bool.eq_false_iff.2 this

@[simp] theorem trim_trim : trim p (trim p l) = trim p l :=
  trim_eq_self (fun _ => head?_trim) (fun _ => getLast?_trim)

theorem exists_eq_append_trim (p : α → Bool) (l : List α) :
    ∃ before after, l = before ++ (trim p l ++ after) ∧ (∀ a ∈ before, p a = true) ∧
      ∀ a ∈ after, p a = true := by
  refine ⟨l.takeWhile p, (l.dropWhile p).rtakeWhile p, ?_, fun a ha => mem_takeWhile_imp ha,
    fun a ha => mem_rtakeWhile_imp ha⟩
  rw [trim, rdropWhile_append_rtakeWhile, List.takeWhile_append_dropWhile]

theorem rdropWhile_append (p : α → Bool) (l m : List α) :
    (l ++ m).rdropWhile p = if m.rdropWhile p = [] then l.rdropWhile p else l ++ m.rdropWhile p := by
  rw [rdropWhile, reverse_append, dropWhile_append]
  by_cases h : m.rdropWhile p = []
  · have hnil : (m.reverse.dropWhile p).isEmpty = true := by simpa [rdropWhile] using h
    rw [if_pos h, if_pos hnil]
    rfl
  · have hnil : ¬ (m.reverse.dropWhile p).isEmpty = true := by simpa [rdropWhile] using h
    rw [if_neg h, if_neg hnil, reverse_append, reverse_reverse]
    rfl

theorem rdropWhile_dropWhile (p : α → Bool) (l : List α) :
    (l.dropWhile p).rdropWhile p = (l.rdropWhile p).dropWhile p := by
  induction l with
  | nil => rfl
  | cons a l ih =>
    have hcons := rdropWhile_append p [a] l
    rw [singleton_append] at hcons
    by_cases ha : p a = true
    · rw [dropWhile_cons_of_pos ha, ih, hcons]
      by_cases hl : l.rdropWhile p = []
      · rw [if_pos hl, hl, rdropWhile_singleton, if_pos ha]
      · rw [if_neg hl, singleton_append, dropWhile_cons_of_pos ha]
    · rw [dropWhile_cons_of_neg ha, hcons]
      by_cases hl : l.rdropWhile p = []
      · rw [if_pos hl, rdropWhile_singleton, if_neg ha, dropWhile_cons_of_neg ha]
      · rw [if_neg hl, singleton_append, dropWhile_cons_of_neg ha]

theorem trim_dropWhile_append {p : α → Bool} {l : List α} (h : l.rdropWhile p = l) (m : List α) :
    trim p (l.dropWhile p ++ m) = (l ++ m.rdropWhile p).dropWhile p := by
  have hfront : (l.dropWhile p ++ m).dropWhile p = (l ++ m).dropWhile p := by
    rw [dropWhile_append, dropWhile_append, dropWhile_idempotent]
  have hback : (l ++ m).rdropWhile p = l ++ m.rdropWhile p := by
    rw [rdropWhile_append]
    by_cases hm : m.rdropWhile p = []
    · rw [if_pos hm, hm, h, append_nil]
    · rw [if_neg hm]
  rw [trim, hfront, rdropWhile_dropWhile, hback]

end Trim

section Split

variable {α : Type*} [DecidableEq α] {c : α}

theorem splitOn_append {l l' a p : List α} {front back : List (List α)}
    (hl : l.splitOn c = front ++ [a]) (hl' : l'.splitOn c = p :: back) :
    (l ++ l').splitOn c = front ++ (a ++ p) :: back := by
  induction l generalizing front a with
  | nil =>
    cases front with
    | nil =>
      obtain rfl : [] = a := by simpa using hl
      simpa using hl'
    | cons b front => simp at hl
  | cons x l ih =>
    rw [splitOn_cons_eq_if_modifyHead] at hl
    rw [cons_append, splitOn_cons_eq_if_modifyHead]
    by_cases hx : (x == c) = true
    · rw [if_pos hx] at hl ⊢
      cases front with
      | nil => simp [splitOn_ne_nil] at hl
      | cons b front =>
        rw [cons_append, cons.injEq] at hl
        rw [ih hl.2, ← hl.1]
        rfl
    · rw [if_neg hx] at hl ⊢
      obtain ⟨front', last, hsplit⟩ : ∃ front' last, l.splitOn c = front' ++ [last] :=
        ⟨_, _, (dropLast_concat_getLast (splitOn_ne_nil c l)).symm⟩
      rw [ih hsplit]
      rw [hsplit] at hl
      cases front' with
      | nil =>
        cases front with
        | nil =>
          obtain rfl : x :: last = a := by simpa using hl
          rfl
        | cons b front => simp at hl
      | cons b front' =>
        cases front with
        | nil => simp at hl
        | cons b' front =>
          rw [cons_append, cons_append, modifyHead_cons, cons.injEq] at hl
          obtain ⟨rfl, htail⟩ := hl
          obtain ⟨rfl, hlast⟩ := append_inj' htail rfl
          rw [cons.injEq] at hlast
          rw [hlast.1]
          rfl

theorem length_splitOn (l : List α) : (l.splitOn c).length = l.count c + 1 := by
  induction l with
  | nil => rfl
  | cons x l ih =>
    rw [splitOn_cons_eq_if_modifyHead, count_cons]
    by_cases hx : (x == c) = true
    · rw [if_pos hx, if_pos hx, length_cons, ih]
    · rw [if_neg hx, if_neg hx, length_modifyHead, ih]

theorem notMem_of_mem_splitOn {l t : List α} (h : t ∈ l.splitOn c) : c ∉ t := by
  induction l generalizing t with
  | nil =>
    obtain rfl : t = [] := by simpa using h
    exact not_mem_nil
  | cons x xs ih =>
    rw [splitOn_cons_eq_if_modifyHead] at h
    by_cases hx : (x == c) = true
    · rw [if_pos hx] at h
      obtain rfl | h := mem_cons.1 h
      · exact not_mem_nil
      · exact ih h
    · rw [if_neg hx] at h
      obtain ⟨head, tail, htail⟩ := exists_cons_of_ne_nil (splitOn_ne_nil c xs)
      rw [htail] at h ih
      obtain rfl | h := mem_cons.1 h
      · have := ih mem_cons_self
        simp only [mem_cons, not_or]
        exact ⟨fun he => hx (by simp [he]), this⟩
      · exact ih (mem_cons_of_mem _ h)

end Split

end QBittorrent
