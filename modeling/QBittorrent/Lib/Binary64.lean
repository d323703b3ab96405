import Mathlib.Data.Int.Log
import Mathlib.Data.Rat.Floor
import Mathlib.Tactic.Positivity

/-!
# Double precision numbers and thousandths

`Binary64` is the set of rationals with a 53-bit significand; operations round their exact result
to the nearest such number, ties to an even significand.  Overflow, subnormal numbers, infinities
and signed zeros are not modelled.

* `Binary64.div_toInt32_milli_eq_iff` : **exactly which thousandths survive `static_cast<int>(x * 1000)`
  and the division by `1000`.**
-/

namespace QBittorrent

open Int

/-- The nearest integer, ties to even. -/
def roundEven (q : ℚ) : ℤ :=
  if q - ⌊q⌋ < 1 / 2 then ⌊q⌋
  else if 1 / 2 < q - ⌊q⌋ then ⌊q⌋ + 1
  else if ⌊q⌋ % 2 = 0 then ⌊q⌋ else ⌊q⌋ + 1

theorem roundEven_intCast (n : ℤ) : roundEven n = n := by
  simp [roundEven]

theorem abs_roundEven_sub_le (q : ℚ) : |(roundEven q : ℚ) - q| ≤ 1 / 2 := by
  have h₀ : 0 ≤ q - ⌊q⌋ := fract_nonneg q
  have h₁ : q - ⌊q⌋ < 1 := fract_lt_one q
  unfold roundEven
  rw [abs_le]
  split_ifs <;> push_cast <;> constructor <;> linarith

/-- A rational with a significand of 53 bits. -/
def IsBinary64 (q : ℚ) : Prop := ∃ m e : ℤ, |m| ≤ 2 ^ 53 ∧ q = m * 2 ^ e

/-- A double precision number. -/
def Binary64 : Type := {q : ℚ // IsBinary64 q}

namespace Binary64

instance : Coe Binary64 ℚ := ⟨Subtype.val⟩

/-- The exponent of the last place of the significand of `q`. -/
def lastPlace (q : ℚ) : ℤ := Int.log 2 |q| - 52

theorem two_zpow_lastPlace_pos (q : ℚ) : (0 : ℚ) < 2 ^ lastPlace q :=
  zpow_pos (by norm_num) _

theorem abs_div_lastPlace_lt (q : ℚ) : |q / 2 ^ lastPlace q| < 2 ^ 53 := by
  have hp := two_zpow_lastPlace_pos q
  rw [abs_div, abs_of_pos hp, div_lt_iff₀ hp]
  have h := lt_zpow_succ_log_self (b := 2) (by omega) |q|
  have he : log 2 |q| + 1 = 53 + lastPlace q := by
    unfold lastPlace
    omega
  rw [he, zpow_add₀ (by norm_num)] at h
  exact_mod_cast h

theorem abs_roundEven_le (q : ℚ) : |roundEven (q / 2 ^ lastPlace q)| ≤ 2 ^ 53 := by
  have h₁ := abs_div_lastPlace_lt q
  have h₂ := abs_roundEven_sub_le (q / 2 ^ lastPlace q)
  have h₃ : |(roundEven (q / 2 ^ lastPlace q) : ℚ)| < 2 ^ 53 + 1 := by
    have := abs_sub_abs_le_abs_sub (roundEven (q / 2 ^ lastPlace q) : ℚ) (q / 2 ^ lastPlace q)
    linarith
  have h₄ : |roundEven (q / 2 ^ lastPlace q)| < 2 ^ 53 + 1 := by exact_mod_cast h₃
  omega

/-- The double nearest to `q`. -/
def round (q : ℚ) : Binary64 :=
  ⟨roundEven (q / 2 ^ lastPlace q) * 2 ^ lastPlace q, _, _, abs_roundEven_le q, rfl⟩

theorem coe_round (q : ℚ) : (round q : ℚ) = roundEven (q / 2 ^ lastPlace q) * 2 ^ lastPlace q := rfl

theorem abs_round_sub_le (q : ℚ) : |(round q : ℚ) - q| ≤ |q| / 2 ^ 53 := by
  by_cases hq : q = 0
  · simp [hq, coe_round, roundEven]
  have hp := two_zpow_lastPlace_pos q
  have herr : |(round q : ℚ) - q| ≤ 1 / 2 * 2 ^ lastPlace q := by
    have h := abs_roundEven_sub_le (q / 2 ^ lastPlace q)
    have hfac : (round q : ℚ) - q =
        (roundEven (q / 2 ^ lastPlace q) - q / 2 ^ lastPlace q) * 2 ^ lastPlace q := by
      rw [coe_round]
      field_simp
    rw [hfac, abs_mul, abs_of_pos hp]
    exact mul_le_mul_of_nonneg_right h hp.le
  have hlog : (2 : ℚ) ^ lastPlace q * 2 ^ 52 ≤ |q| := by
    have h := zpow_log_le_self (b := 2) (by omega) (abs_pos.2 hq)
    have he : log 2 |q| = lastPlace q + 52 := by
      unfold lastPlace
      omega
    rw [he, zpow_add₀ (by norm_num)] at h
    exact_mod_cast h
  linarith

theorem round_intCast {n : ℤ} (hn : |n| < 2 ^ 53) : (round n : ℚ) = n := by
  by_cases h0 : n = 0
  · simp [h0, coe_round, roundEven]
  have hpos : (0 : ℚ) < |(n : ℚ)| := abs_pos.2 (by exact_mod_cast h0)
  have hlog : log 2 |(n : ℚ)| < 53 := by
    rw [← lt_zpow_iff_log_lt (by omega) hpos]
    exact_mod_cast hn
  -- the last place is not to the right of the point
  obtain ⟨j, hj⟩ : ∃ j : ℕ, lastPlace n = -j := by
    refine ⟨(-lastPlace n).toNat, ?_⟩
    unfold lastPlace
    omega
  have hdiv : (n : ℚ) / 2 ^ lastPlace n = ((n * 2 ^ j : ℤ) : ℚ) := by
    rw [hj]
    push_cast
    rw [zpow_neg, zpow_natCast]
    field_simp
  rw [coe_round, hdiv, roundEven_intCast, hj]
  push_cast
  rw [zpow_neg, zpow_natCast]
  field_simp

/-- The product of two doubles. -/
def mul (a b : Binary64) : Binary64 := round ((a : ℚ) * b)

/-- The quotient of two doubles. -/
def div (a b : Binary64) : Binary64 := round ((a : ℚ) / b)

/-- The conversion of a 32-bit integer, which is exact. -/
def ofInt32 (n : Int32) : Binary64 :=
  ⟨n.toInt, n.toInt, 0, by
    have := n.le_toInt
    have := n.toInt_lt
    rw [abs_le]
    constructor <;> omega, by simp⟩

/-- The integer part. -/
def trunc (q : ℚ) : ℤ := if 0 ≤ q then ⌊q⌋ else ⌈q⌉

/-- `static_cast<int>` of a double.  Out of range it is undefined; the value here is what the
conversion instruction of x86 gives. -/
def toInt32 (a : Binary64) : Int32 :=
  if -2 ^ 31 ≤ trunc a ∧ trunc a < 2 ^ 31 then Int32.ofInt (trunc a) else Int32.minValue

/-! ### Thousandths -/

/-- The double nearest to `k` thousandths. -/
def milli (k : ℤ) : Binary64 := round (k / 1000)

/-- The double nearest to one thousand times `milli k`. -/
def milliTimes1000 (k : ℤ) : Binary64 := round ((milli k : ℚ) * 1000)

theorem abs_milli_sub_le (k : ℤ) : |(milli k : ℚ) - k / 1000| ≤ |(k : ℚ)| / 1000 / 2 ^ 53 := by
  have h := abs_round_sub_le ((k : ℚ) / 1000)
  rwa [abs_div, abs_of_pos (by norm_num : (0 : ℚ) < 1000)] at h

variable {k : ℤ} {q y : ℚ}

theorem milli_injective {k' : ℤ} (hk' : |k'| ≤ 2 ^ 31) (h : milli k = milli k') : k = k' := by
  by_contra hne
  have h1 : (1 : ℚ) ≤ |(k : ℚ) - k'| := by
    have : 1 ≤ |k - k'| := one_le_abs (sub_ne_zero.2 hne)
    exact_mod_cast this
  have hk : |(k : ℚ)| ≤ |(k' : ℚ)| + |(k : ℚ) - k'| := by
    have := abs_sub_abs_le_abs_sub (k : ℚ) k'
    linarith
  have hbound : |(k' : ℚ)| ≤ 2 ^ 31 := by exact_mod_cast hk'
  -- both are within a relative error of 2⁻⁵³ of one double
  have hdist : |(k : ℚ) / 1000 - k' / 1000| ≤
      |(k : ℚ)| / 1000 / 2 ^ 53 + |(k' : ℚ)| / 1000 / 2 ^ 53 := by
    have e₁ := abs_milli_sub_le k
    have e₂ := abs_milli_sub_le k'
    rw [← h] at e₂
    rw [abs_sub_comm] at e₁
    exact (abs_sub_le _ (milli k : ℚ) _).trans (add_le_add e₁ e₂)
  rw [← sub_div, abs_div, abs_of_pos (by norm_num : (0 : ℚ) < 1000)] at hdist
  linarith

theorem abs_milliTimes1000_sub_lt (hk : |k| ≤ 2 ^ 31) : |(milliTimes1000 k : ℚ) - k| < 1 := by
  have hbound : |(k : ℚ)| ≤ 2 ^ 31 := by exact_mod_cast hk
  have hm : |(milli k : ℚ) * 1000 - k| ≤ |(k : ℚ)| / 2 ^ 53 := by
    have hfac : (milli k : ℚ) * 1000 - k = ((milli k : ℚ) - k / 1000) * 1000 := by ring
    rw [hfac, abs_mul, abs_of_pos (by norm_num : (0 : ℚ) < 1000)]
    have := abs_milli_sub_le k
    linarith
  have hle : |(milli k : ℚ) * 1000| ≤ |(k : ℚ)| + |(k : ℚ)| / 2 ^ 53 := by
    have := abs_sub_abs_le_abs_sub ((milli k : ℚ) * 1000) k
    linarith
  have hr := abs_round_sub_le ((milli k : ℚ) * 1000)
  have htri := abs_sub_le (milliTimes1000 k : ℚ) ((milli k : ℚ) * 1000) k
  unfold milliTimes1000 at htri ⊢
  linarith

theorem trunc_eq_floor (h : 0 ≤ q) : trunc q = ⌊q⌋ := if_pos h

theorem trunc_eq_ceil (h : q ≤ 0) : trunc q = ⌈q⌉ := by
  obtain rfl | hq := h.eq_or_lt
  · simp [trunc]
  · exact if_neg (not_le.2 hq)

theorem trunc_of_pos (hk : 0 < k) (h : |y - k| < 1) :
    trunc y = if (k : ℚ) ≤ y then k else k - 1 := by
  obtain ⟨h₁, h₂⟩ := abs_lt.1 h
  have h1k : (1 : ℚ) ≤ k := by exact_mod_cast hk
  rw [trunc_eq_floor (by linarith)]
  split_ifs with hy
  · exact floor_eq_iff.2 ⟨hy, by linarith⟩
  · rw [floor_eq_iff]
    push_cast
    constructor <;> linarith

theorem trunc_of_neg (hk : k < 0) (h : |y - k| < 1) :
    trunc y = if y ≤ (k : ℚ) then k else k + 1 := by
  obtain ⟨h₁, h₂⟩ := abs_lt.1 h
  have hk1 : (k : ℚ) ≤ -1 := by exact_mod_cast (by omega : k ≤ -1)
  rw [trunc_eq_ceil (by linarith)]
  split_ifs with hy
  · exact ceil_eq_iff.2 ⟨by linarith, hy⟩
  · rw [ceil_eq_iff]
    push_cast
    constructor <;> linarith

theorem milliTimes1000_zero : (milliTimes1000 0 : ℚ) = 0 := by
  simp [milliTimes1000, milli, coe_round, roundEven]

theorem trunc_milliTimes1000 (hk : |k| ≤ 2 ^ 31) :
    trunc (milliTimes1000 k) = if |(k : ℚ)| ≤ |(milliTimes1000 k : ℚ)| then k else k - k.sign := by
  have h := abs_milliTimes1000_sub_lt hk
  obtain ⟨h₁, h₂⟩ := abs_lt.1 h
  obtain hneg | rfl | hpos := lt_trichotomy k 0
  · have hk1 : (k : ℚ) ≤ -1 := by exact_mod_cast (by omega : k ≤ -1)
    rw [trunc_of_neg hneg h, sign_eq_neg_one_of_neg hneg, abs_of_nonpos (by linarith),
      abs_of_nonpos (by linarith)]
    simp only [neg_le_neg_iff, sub_neg_eq_add]
  · simp [milliTimes1000_zero, trunc]
  · have h1k : (1 : ℚ) ≤ k := by exact_mod_cast hpos
    rw [trunc_of_pos hpos h, sign_eq_one_of_pos hpos, abs_of_nonneg (by linarith),
      abs_of_nonneg (by linarith)]

/-- `k` thousandths fit in 32 bits, and the product of their double by `1000` is not rounded
below `k`. -/
def KeepsMilli (k : ℤ) : Prop :=
  -2 ^ 31 ≤ k ∧ k < 2 ^ 31 ∧ |(k : ℚ)| ≤ |(milliTimes1000 k : ℚ)|

theorem toInt_toInt32 {a : Binary64} (h₁ : -2 ^ 31 ≤ trunc a) (h₂ : trunc a < 2 ^ 31) :
    a.toInt32.toInt = trunc a := by
  rw [toInt32, if_pos ⟨h₁, h₂⟩, Int32.toInt_ofInt_of_le h₁ h₂]

theorem toInt_milliTimes1000_eq_iff (k : ℤ) :
    (milliTimes1000 k).toInt32.toInt = k ↔ KeepsMilli k := by
  by_cases hk : -2 ^ 31 ≤ k ∧ k < 2 ^ 31
  · have habs : |k| ≤ 2 ^ 31 := abs_le.2 ⟨by omega, by omega⟩
    have ht := trunc_milliTimes1000 habs
    have hsign : -2 ^ 31 ≤ k - k.sign ∧ k - k.sign < 2 ^ 31 := by
      obtain hneg | rfl | hpos := lt_trichotomy k 0
      · rw [sign_eq_neg_one_of_neg hneg]
        omega
      · simp
      · rw [sign_eq_one_of_pos hpos]
        omega
    have hrange : -2 ^ 31 ≤ trunc (milliTimes1000 k) ∧ trunc (milliTimes1000 k) < 2 ^ 31 := by
      rw [ht]
      split_ifs
      · exact hk
      · exact hsign
    rw [toInt_toInt32 hrange.1 hrange.2, ht, KeepsMilli]
    by_cases hle : |(k : ℚ)| ≤ |(milliTimes1000 k : ℚ)|
    · rw [if_pos hle]
      exact iff_of_true rfl ⟨hk.1, hk.2, hle⟩
    · -- zero is exact, so here the sign is not zero
      have hk0 : k ≠ 0 := by
        rintro rfl
        simp at hle
      have : k.sign ≠ 0 := sign_eq_zero_iff_zero.not.2 hk0
      simp [hle, this]
  · constructor
    · intro h
      have := (milliTimes1000 k).toInt32.le_toInt
      have := (milliTimes1000 k).toInt32.toInt_lt
      omega
    · intro h
      exact (hk ⟨h.1, h.2.1⟩).elim

theorem div_toInt32_milli_eq_iff (k : ℤ) :
    div (ofInt32 (mul (milli k) (ofInt32 1000)).toInt32) (ofInt32 1000) = milli k ↔
      KeepsMilli k := by
  have hmul : mul (milli k) (ofInt32 1000) = milliTimes1000 k := rfl
  have hdiv : ∀ n : Int32, div (ofInt32 n) (ofInt32 1000) = milli n.toInt := fun _ => rfl
  rw [hmul, hdiv, ← toInt_milliTimes1000_eq_iff]
  constructor
  · intro h
    refine (milli_injective ?_ h.symm).symm
    have := (milliTimes1000 k).toInt32.le_toInt
    have := (milliTimes1000 k).toInt32.toInt_lt
    exact abs_le.2 ⟨by omega, by omega⟩
  · intro h
    rw [h]

theorem keepsMilli_of_dvd {n : ℤ} (hk : k = n * 1000) (h₁ : -2 ^ 31 ≤ k) (h₂ : k < 2 ^ 31) :
    KeepsMilli k := by
  refine ⟨h₁, h₂, ?_⟩
  have hn : |n| < 2 ^ 53 := abs_lt.2 ⟨by omega, by omega⟩
  have hm : (milli k : ℚ) = n := by
    have : (k : ℚ) / 1000 = n := by
      rw [hk]
      push_cast
      field_simp
    rw [milli, this, round_intCast hn]
  have hk' : |k| < 2 ^ 53 := abs_lt.2 ⟨by omega, by omega⟩
  have ht : (milliTimes1000 k : ℚ) = k := by
    have : (milli k : ℚ) * 1000 = (k : ℤ) := by
      rw [hm, hk]
      push_cast
      ring
    rw [milliTimes1000, this, round_intCast hk']
  rw [ht]

end Binary64

end QBittorrent
