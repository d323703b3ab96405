import Mathlib.Data.Nat.ModEq
import Mathlib.Data.List.Basic
import Mathlib.Tactic.Ring

/-!
# Numbers as digits of a fixed length

Digits in base `b`, the most significant one first, as encoders write them: a number is cut into
`len` digits, and leading zeros stay.

* `value_digits`, `digits_value` : digits and numbers are each other's inverses.
-/

namespace QBittorrent.Radix

open List

/-- The number with these digits. -/
def value (b : ℕ) (l : List ℕ) : ℕ := l.foldl (fun n d => b * n + d) 0

/-- The last `len` digits of a number. -/
def digits (b : ℕ) : ℕ → ℕ → List ℕ
  | 0, _ => []
  | len + 1, n => n / b ^ len % b :: digits b len n

variable {b : ℕ} {l : List ℕ}

@[simp] theorem length_digits (len n : ℕ) : (digits b len n).length = len := by
  induction len with
  | zero => rfl
  | succ len ih => rw [digits, length_cons, ih]

theorem foldl_eq (l : List ℕ) (n : ℕ) :
    l.foldl (fun n d => b * n + d) n = n * b ^ l.length + value b l := by
  induction l generalizing n with
  | nil => simp [value]
  | cons d l ih =>
    have hvalue : value b (d :: l) = (b * 0 + d) * b ^ l.length + value b l := ih _
    rw [foldl_cons, ih, hvalue, length_cons]
    ring

theorem value_cons (d : ℕ) (l : List ℕ) : value b (d :: l) = d * b ^ l.length + value b l := by
  rw [value, foldl_cons, foldl_eq]
  simp

theorem value_lt (h : ∀ d ∈ l, d < b) : value b l < b ^ l.length := by
  induction l with
  | nil => simp [value]
  | cons d l ih =>
    rw [forall_mem_cons] at h
    rw [value_cons, length_cons, pow_succ']
    have hd : (d + 1) * b ^ l.length ≤ b * b ^ l.length := Nat.mul_le_mul_right _ h.1
    have := ih h.2
    rw [Nat.add_mul, one_mul] at hd
    omega

theorem value_digits (len n : ℕ) : value b (digits b len n) = n % b ^ len := by
  induction len with
  | zero => simp [digits, value, Nat.mod_one]
  | succ len ih =>
    rw [digits, value_cons, ih, length_digits, Nat.mod_pow_succ]
    ring

theorem digits_add_mul (len n m : ℕ) : digits b len (n + m * b ^ len) = digits b len n := by
  induction len generalizing m with
  | zero => rfl
  | succ len ih =>
    have hlow : n + m * b ^ (len + 1) = n + m * b * b ^ len := by ring
    rw [digits, digits, hlow, ih]
    congr 1
    rcases Nat.eq_zero_or_pos (b ^ len) with hzero | hpos
    · simp [hzero]
    · rw [Nat.add_mul_div_right _ _ hpos, Nat.add_mul_mod_self_right]

theorem digits_value (h : ∀ d ∈ l, d < b) : digits b l.length (value b l) = l := by
  induction l with
  | nil => rfl
  | cons d l ih =>
    rw [forall_mem_cons] at h
    have hlow := value_lt h.2
    rw [length_cons, digits, value_cons, Nat.add_comm, digits_add_mul, ih h.2,
      Nat.add_mul_div_right _ _ (Nat.zero_lt_of_lt hlow), Nat.div_eq_of_lt hlow, Nat.zero_add,
      Nat.mod_eq_of_lt h.1]

theorem mem_digits_lt (hb : 0 < b) {len n d : ℕ} (h : d ∈ digits b len n) : d < b := by
  induction len with
  | zero => cases h
  | succ len ih =>
    rw [digits, mem_cons] at h
    rcases h with rfl | h
    · exact Nat.mod_lt _ hb
    · exact ih h

end QBittorrent.Radix
