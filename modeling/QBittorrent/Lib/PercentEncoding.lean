import Mathlib.Data.List.Basic

/-!
# Percent encoding

Bytes written as text: a byte is written as it is, or as a percent sign and two hexadecimal digits.
Which bytes are written in which way is up to the writer, so both encodings here are relations.

* `FormEncoded.percentEncoded` : reading plus signs as spaces **before** decoding undoes it.
* `FormEncoded.exists_percentEncoded` : what is read when they are replaced afterwards.
-/

namespace QBittorrent

open List UInt8

/-- The value of a hexadecimal digit. -/
def hexValue (c : UInt8) : Option UInt8 :=
  if 48 ≤ c ∧ c ≤ 57 then some (c - 48)
  else if 65 ≤ c ∧ c ≤ 70 then some (c - 55)
  else if 97 ≤ c ∧ c ≤ 102 then some (c - 87)
  else none

/-- The second text is a percent encoding of the bytes of the first. -/
inductive PercentEncoded : List UInt8 → List UInt8 → Prop
  | nil : PercentEncoded [] []
  | literal {x : UInt8} {b e : List UInt8} (hx : x ≠ 37) (h : PercentEncoded b e) :
    PercentEncoded (x :: b) (x :: e)
  | percent {x hi lo : UInt8} {b e : List UInt8} (hhi : hexValue hi = some (x / 16))
    (hlo : hexValue lo = some (x % 16)) (h : PercentEncoded b e) :
    PercentEncoded (x :: b) (37 :: hi :: lo :: e)

/-- The bytes of a text in percent encoding. -/
def percentDecode : List UInt8 → List UInt8
  | [] => []
  | [x] => [x]
  | [x, y] => [x, y]
  | x :: hi :: lo :: e =>
    if x = 37 then
      match hexValue hi, hexValue lo with
      | some a, some b => (a * 16 + b) :: percentDecode e
      | _, _ => x :: percentDecode (hi :: lo :: e)
    else x :: percentDecode (hi :: lo :: e)

variable {x : UInt8}

theorem percentDecode_cons (hx : x ≠ 37) (e : List UInt8) :
    percentDecode (x :: e) = x :: percentDecode e := by
  match e with
  | [] | [_] => rfl
  | hi :: lo :: e => rw [percentDecode, if_neg hx]

theorem percentDecode_percent {hi lo : UInt8} (hhi : hexValue hi = some (x / 16))
    (hlo : hexValue lo = some (x % 16)) (e : List UInt8) :
    percentDecode (37 :: hi :: lo :: e) = x :: percentDecode e := by
  have hx : x / 16 * 16 + x % 16 = x := by
    refine UInt8.toNat_inj.1 ?_
    have := x.toNat_lt
    simp only [UInt8.toNat_add, UInt8.toNat_mul, UInt8.toNat_div, UInt8.toNat_mod,
      reduceToNat]
    omega
  rw [percentDecode, if_pos rfl, hhi, hlo]
  exact congrArg (· :: percentDecode e) hx

theorem PercentEncoded.decode {b e : List UInt8} (h : PercentEncoded b e) :
    percentDecode e = b := by
  induction h with
  | nil => rfl
  | literal hx h ih => rw [percentDecode_cons hx, ih]
  | percent hhi hlo h ih => rw [percentDecode_percent hhi hlo, ih]

/-! ### Forms -/

/-- A letter, a digit or one of `*`, `-`, `.`, `_` and `~`. -/
def isUnreserved (x : UInt8) : Bool :=
  (48 ≤ x ∧ x ≤ 57) ∨ (65 ≤ x ∧ x ≤ 90) ∨ (97 ≤ x ∧ x ≤ 122) ∨
    x = 42 ∨ x = 45 ∨ x = 46 ∨ x = 95 ∨ x = 126

/-- The second text is a form encoding of the bytes of the first. -/
inductive FormEncoded : List UInt8 → List UInt8 → Prop
  | nil : FormEncoded [] []
  | space {b e : List UInt8} (h : FormEncoded b e) : FormEncoded (32 :: b) (43 :: e)
  | literal {x : UInt8} {b e : List UInt8} (hx : isUnreserved x) (h : FormEncoded b e) :
    FormEncoded (x :: b) (x :: e)
  | percent {x hi lo : UInt8} {b e : List UInt8} (hhi : hexValue hi = some (x / 16))
    (hlo : hexValue lo = some (x % 16)) (h : FormEncoded b e) :
    FormEncoded (x :: b) (37 :: hi :: lo :: e)

/-- A byte of a form encoding. -/
def isFormByte (x : UInt8) : Bool := isUnreserved x ∨ x = 43 ∨ x = 37

/-- A plus sign read as a space. -/
def plusToSpace (b : List UInt8) : List UInt8 := b.map fun c => if c = 43 then 32 else c

theorem uint8_forall {p : UInt8 → Prop} (h : ∀ n : Fin 256, p (UInt8.ofNat n)) (x : UInt8) : p x := by
  have := h ⟨x.toNat, x.toNat_lt⟩
  rwa [UInt8.ofNat_toNat] at this

theorem isUnreserved_of_hexValue {c v : UInt8} (h : hexValue c = some v) :
    isUnreserved c = true := by
  have hall : ∀ n : Fin 256, (hexValue (ofNat n)).isSome = true →
      isUnreserved (ofNat n) = true := by decide +kernel
  exact uint8_forall (p := fun c => (hexValue c).isSome = true → isUnreserved c = true) hall c
    (by rw [h]; rfl)

theorem ne_of_isUnreserved (h : isUnreserved x = true) : x ≠ 37 ∧ x ≠ 43 := by
  constructor <;> rintro rfl <;> exact absurd h (by decide)

namespace FormEncoded

variable {b e : List UInt8}

theorem isFormByte_of_mem (h : FormEncoded b e) {y : UInt8} (hy : y ∈ e) : isFormByte y = true := by
  have hof : ∀ {c : UInt8}, isUnreserved c = true → isFormByte c = true := fun hc => by
    simp [isFormByte, hc]
  induction h with
  | nil => cases hy
  | space h ih =>
    rcases mem_cons.1 hy with rfl | hy
    · rfl
    · exact ih hy
  | literal hx h ih =>
    rcases mem_cons.1 hy with rfl | hy
    · exact hof hx
    · exact ih hy
  | percent hhi hlo h ih =>
    simp only [mem_cons] at hy
    rcases hy with rfl | rfl | rfl | hy
    · rfl
    · exact hof (isUnreserved_of_hexValue hhi)
    · exact hof (isUnreserved_of_hexValue hlo)
    · exact ih hy

theorem plusToSpace_hex {c v : UInt8} (h : hexValue c = some v) : (if c = 43 then 32 else c) = c :=
  if_neg (ne_of_isUnreserved (isUnreserved_of_hexValue h)).2

theorem percentEncoded (h : FormEncoded b e) : PercentEncoded b (plusToSpace e) := by
  induction h with
  | nil => exact .nil
  | space h ih => exact .literal (by decide) ih
  | literal hx h ih =>
    have hne := ne_of_isUnreserved hx
    rw [plusToSpace, map_cons, if_neg hne.2]
    exact .literal hne.1 ih
  | percent hhi hlo h ih =>
    rw [plusToSpace, map_cons, map_cons, map_cons, plusToSpace_hex hhi,
      plusToSpace_hex hlo, if_neg (by decide)]
    exact .percent hhi hlo ih

theorem exists_percentEncoded (h : FormEncoded b e) :
    ∃ b', PercentEncoded b' e ∧ plusToSpace b' = plusToSpace b := by
  induction h with
  | nil => exact ⟨[], .nil, rfl⟩
  | space h ih =>
    obtain ⟨b', he, hb⟩ := ih
    exact ⟨43 :: b', .literal (by decide) he, congrArg (cons 32) hb⟩
  | @literal x b e hx h ih =>
    obtain ⟨b', he, hb⟩ := ih
    exact ⟨x :: b', .literal (ne_of_isUnreserved hx).1 he, congrArg (cons _) hb⟩
  | @percent x hi lo b e hhi hlo h ih =>
    obtain ⟨b', he, hb⟩ := ih
    exact ⟨x :: b', .percent hhi hlo he, congrArg (cons _) hb⟩

end FormEncoded

end QBittorrent
