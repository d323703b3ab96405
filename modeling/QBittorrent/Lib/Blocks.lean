import Mathlib.Algebra.BigOperators.Ring.Finset
import Mathlib.Algebra.Order.BigOperators.Group.Finset
import Mathlib.Order.Interval.Finset.Nat

/-!
# Intervals cut into blocks

A sequence of positions is cut into blocks of length `L`.  `Blocks.count L o z p` is the number of
positions of an interval, `z` of them from `o` on, that lie in blocks with the property `p`.

* `Blocks.count_add_count_xor` : what a change of the property does to the count.
-/

namespace QBittorrent

open Finset

namespace Blocks

variable {L o z m : ℕ} {p q : ℕ → Bool}

/-- The number of positions of an interval in blocks with the property. -/
def count (L o z : ℕ) (p : ℕ → Bool) : ℕ :=
  ((Finset.range z).filter fun b => p ((o + b) / L) = true).card

theorem count_le : count L o z p ≤ z :=
  (card_filter_le _ _).trans (card_range z).le

theorem count_eq_zero_iff : count L o z p = 0 ↔ ∀ b < z, p ((o + b) / L) = false := by
  rw [count, card_eq_zero, filter_eq_empty_iff]
  simp only [mem_range, Bool.not_eq_true]

theorem count_single (hL : 0 < L) (i : ℕ) :
    count L o z (fun j => decide (j = i)) = min (o + z) ((i + 1) * L) - max o (i * L) := by
  have hset : (Finset.range z).filter (fun b => decide ((o + b) / L = i) = true) =
      Ico (max o (i * L) - o) (min (o + z) ((i + 1) * L) - o) := by
    ext b
    rw [mem_filter, mem_range, mem_Ico, decide_eq_true_eq,
      Nat.div_eq_iff hL, Nat.succ_mul]
    omega
  rw [count, hset, Nat.card_Ico]
  omega

theorem count_eq_sum (hm : ∀ i, p i = true → i < m) :
    count L o z p =
      ∑ i ∈ Finset.range m, if p i then count L o z (fun j => decide (j = i)) else 0 := by
  have hmaps : ∀ b ∈ (Finset.range z).filter (fun b => p ((o + b) / L) = true),
      (o + b) / L ∈ Finset.range m := fun b hb =>
    mem_range.2 (hm _ (mem_filter.1 hb).2)
  rw [count, card_eq_sum_card_fiberwise hmaps]
  refine sum_congr rfl fun i _ => ?_
  split_ifs with hp
  · congr 1
    rw [filter_filter]
    refine filter_congr fun b _ => ?_
    rw [decide_eq_true_eq]
    exact ⟨And.right, fun h => ⟨h ▸ hp, h⟩⟩
  · rw [card_eq_zero, filter_eq_empty_iff]
    intro b hb hi
    exact hp (hi ▸ (mem_filter.1 hb).2)

theorem count_add_count_xor :
    count L o z p + count L o z (fun i => xor (p i) (q i)) =
      count L o z q + 2 * count L o z fun i => p i && !q i := by
  simp only [count, card_filter, mul_sum, ← sum_add_distrib]
  refine sum_congr rfl fun b _ => ?_
  cases p ((o + b) / L) <;> cases q ((o + b) / L) <;> rfl

end Blocks

end QBittorrent
