import Mathlib.Data.Int.Order.Basic
import Mathlib.Data.List.Basic

/-!
# Comparisons with three results

A comparison gives a negative number, zero or a positive number.  Sorting needs that the results of
`cmp a b` and of `cmp b a` have opposite signs, and that "not greater" is transitive.

* `Compares.lists` : lists are compared by their first elements that differ.
-/

namespace QBittorrent

open Int

variable {α β : Type*}

/-- `cmp` compares the elements that satisfy `p`: it is a total preorder on them. -/
structure Compares (p : α → Prop) (cmp : α → α → ℤ) : Prop where
  sign_swap : ∀ a b, p a → p b → (cmp a b).sign = -(cmp b a).sign
  trans : ∀ a b c, p a → p b → p c → cmp a b ≤ 0 → cmp b c ≤ 0 → cmp a c ≤ 0

theorem sign_eq_iff {x y : ℤ} : x.sign = y.sign ↔
    (x < 0 ↔ y < 0) ∧ (x = 0 ↔ y = 0) ∧ (0 < x ↔ 0 < y) := by
  constructor
  · intro h
    rw [← sign_eq_neg_one_iff_neg, ← sign_eq_zero_iff_zero, ← sign_eq_one_iff_pos, h,
      sign_eq_neg_one_iff_neg, sign_eq_zero_iff_zero, sign_eq_one_iff_pos]
    exact ⟨Iff.rfl, Iff.rfl, Iff.rfl⟩
  · rintro ⟨hneg, hzero, hpos⟩
    obtain hx | hx | hx := lt_trichotomy x 0
    · rw [sign_eq_neg_one_of_neg hx, sign_eq_neg_one_of_neg (hneg.1 hx)]
    · rw [hx, hzero.1 hx]
    · rw [sign_eq_one_of_pos hx, sign_eq_one_of_pos (hpos.1 hx)]

theorem sign_eq_neg_iff {x y : ℤ} : x.sign = -y.sign ↔
    (x < 0 ↔ 0 < y) ∧ (x = 0 ↔ y = 0) ∧ (0 < x ↔ y < 0) := by
  rw [← sign_neg, sign_eq_iff]
  omega

/-- Lists are compared by the first elements that differ. -/
def compareLists (cmp : α → α → ℤ) : List α → List α → ℤ
  | [], [] => 0
  | [], _ :: _ => -1
  | _ :: _, [] => 1
  | a :: l, b :: m => if cmp a b = 0 then compareLists cmp l m else cmp a b

theorem compareLists_singleton (cmp : α → α → ℤ) (a b : α) :
    compareLists cmp [a] [b] = cmp a b := by
  rw [compareLists]
  split_ifs with h
  · exact h.symm
  · rfl

theorem sign_compareLists_swap {p : α → Prop} {cmp : α → α → ℤ}
    (h : ∀ a b, p a → p b → (cmp a b).sign = -(cmp b a).sign) {l m : List α}
    (hl : ∀ a ∈ l, p a) (hm : ∀ a ∈ m, p a) :
    (compareLists cmp l m).sign = -(compareLists cmp m l).sign := by
  induction l generalizing m with
  | nil => cases m <;> rfl
  | cons a l ih =>
    cases m with
    | nil => rfl
    | cons b m =>
      obtain ⟨ha, hl⟩ := List.forall_mem_cons.1 hl
      obtain ⟨hb, hm⟩ := List.forall_mem_cons.1 hm
      have hswap := (sign_eq_neg_iff.1 (h a b ha hb)).2.1
      rw [compareLists, compareLists]
      by_cases heq : cmp a b = 0
      · rw [if_pos heq, if_pos (hswap.1 heq)]
        exact ih hl hm
      · rw [if_neg heq, if_neg fun heq' => heq (hswap.2 heq')]
        exact h a b ha hb

namespace Compares

variable {p : α → Prop} {cmp : α → α → ℤ}

section

variable (h : Compares p cmp)

include h

theorem swap {a b : α} (ha : p a) (hb : p b) :
    (cmp a b < 0 ↔ 0 < cmp b a) ∧ (cmp a b = 0 ↔ cmp b a = 0) ∧ (0 < cmp a b ↔ cmp b a < 0) :=
  sign_eq_neg_iff.1 (h.sign_swap a b ha hb)

theorem lt_of_lt_of_le {a b c : α} (ha : p a) (hb : p b) (hc : p c) (hab : cmp a b < 0)
    (hbc : cmp b c ≤ 0) : cmp a c < 0 := by
  by_contra hac
  have hswap := h.swap ha hc
  have hba := h.trans b c a hb hc ha hbc (by omega)
  have hswap' := h.swap ha hb
  omega

theorem lt_of_le_of_lt {a b c : α} (ha : p a) (hb : p b) (hc : p c) (hab : cmp a b ≤ 0)
    (hbc : cmp b c < 0) : cmp a c < 0 := by
  by_contra hac
  have hswap := h.swap ha hc
  have hcb := h.trans c a b hc ha hb (by omega) hab
  have hswap' := h.swap hb hc
  omega

theorem eq_trans {a b c : α} (ha : p a) (hb : p b) (hc : p c) (hab : cmp a b = 0)
    (hbc : cmp b c = 0) : cmp a c = 0 := by
  have hle := h.trans a b c ha hb hc (le_of_eq hab) (le_of_eq hbc)
  have hba := (h.swap ha hb).2.1.1 hab
  have hcb := (h.swap hb hc).2.1.1 hbc
  have hge := h.trans c b a hc hb ha (le_of_eq hcb) (le_of_eq hba)
  have hswap := h.swap ha hc
  omega

theorem lists : Compares (fun l : List α => ∀ a ∈ l, p a) (compareLists cmp) where
  sign_swap _ _ := sign_compareLists_swap h.sign_swap
  trans l m n hl hm hn hlm hmn := by
    induction l generalizing m n with
    | nil =>
      cases n with
      | nil => exact le_refl _
      | cons => exact (by decide : (-1 : ℤ) ≤ 0)
    | cons a l ih =>
      cases m with
      | nil => exact absurd (show (1 : ℤ) ≤ 0 from hlm) (by decide)
      | cons b m =>
        cases n with
        | nil => exact absurd (show (1 : ℤ) ≤ 0 from hmn) (by decide)
        | cons c n =>
          obtain ⟨ha, hl⟩ := List.forall_mem_cons.1 hl
          obtain ⟨hb, hm⟩ := List.forall_mem_cons.1 hm
          obtain ⟨hc, hn⟩ := List.forall_mem_cons.1 hn
          rw [compareLists] at hlm hmn ⊢
          by_cases hab : cmp a b = 0
          · rw [if_pos hab] at hlm
            by_cases hbc : cmp b c = 0
            · rw [if_pos hbc] at hmn
              rw [if_pos (h.eq_trans ha hb hc hab hbc)]
              exact ih m n hl hm hn hlm hmn
            · have hlt := h.lt_of_le_of_lt ha hb hc (le_of_eq hab) (by omega)
              omega
          · have hlt : cmp a c < 0 := by
              refine h.lt_of_lt_of_le ha hb hc (by omega) ?_
              by_cases hbc : cmp b c = 0
              · omega
              · rwa [if_neg hbc] at hmn
            omega

theorem of_sign {f : β → α} {cmp' : β → β → ℤ} (hf : ∀ b, p (f b))
    (hsign : ∀ a b, (cmp' a b).sign = (cmp (f a) (f b)).sign) : Compares (fun _ => True) cmp' where
  sign_swap a b _ _ := by
    rw [hsign, hsign]
    exact h.sign_swap _ _ (hf a) (hf b)
  trans a b c _ _ _ hab hbc := by
    have hsign' := fun a b => sign_eq_iff.1 (hsign a b)
    have htrans := h.trans (f a) (f b) (f c) (hf a) (hf b) (hf c)
    have h₁ := hsign' a b
    have h₂ := hsign' b c
    have h₃ := hsign' a c
    omega

end

end Compares

end QBittorrent
