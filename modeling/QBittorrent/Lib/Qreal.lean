import Mathlib.Algebra.Order.Ring.Rat
import Mathlib.Algebra.Order.Ring.Cast

/-!
# Numbers that are compared

Doubles, where a program only compares them: rational numbers, the two infinities, and what is not a
number, of which every comparison is false.
-/

namespace QBittorrent

/-- A `qreal` that is compared: a number that may be infinite, or not a number. -/
inductive Qreal where
  | nan
  | number (value : WithBot (WithTop ℚ))

namespace Qreal

def ofRat (q : ℚ) : Qreal := .number ((q : WithTop ℚ) : WithBot (WithTop ℚ))

def infinity : Qreal := .number ((⊤ : WithTop ℚ) : WithBot (WithTop ℚ))

/-- `<` -/
def lt : Qreal → Qreal → Bool
  | .number a, .number b => decide (a < b)
  | _, _ => false

/-- `==` -/
def eq : Qreal → Qreal → Bool
  | .number a, .number b => decide (a = b)
  | _, _ => false

/-- `>=` -/
def ge (a b : Qreal) : Bool := lt b a || eq b a

@[simp] theorem lt_number (a b : WithBot (WithTop ℚ)) :
    lt (.number a) (.number b) = decide (a < b) := rfl

@[simp] theorem lt_nan_left (a : Qreal) : lt .nan a = false := rfl

@[simp] theorem lt_nan_right (a : Qreal) : lt a .nan = false := by cases a <;> rfl

theorem eq_ofRat_of_neg {a : Qreal} {n : ℤ} (hn : n < 0) (h : a.ge (ofRat (0 : ℤ)) = true) :
    a.eq (ofRat n) = false := by
  cases a with
  | nan => rfl
  | number a =>
    simp only [ge, lt, eq, ofRat, Bool.or_eq_true, decide_eq_true_eq, decide_eq_false_iff_not] at h ⊢
    rintro rfl
    have hle := le_of_lt_or_eq h
    rw [WithBot.coe_le_coe, WithTop.coe_le_coe, Int.cast_le] at hle
    omega

end Qreal

end QBittorrent
