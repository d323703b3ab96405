import Mathlib.Data.List.Sort

/-!
# Sorting by a three-way comparison

A routine that sorts by a function whose sign says how two elements compare.  Nothing but the
elements of the result is known if the comparison contradicts itself; otherwise the sort is stable,
which leaves no choice.
-/

namespace QBittorrent

variable {α β : Type*}

/-- The signs agree with one order of the elements, in which some may be equivalent. -/
structure Comparator (cmp : α → α → ℤ) : Prop where
  sign_swap : ∀ a b, (cmp b a).sign = -(cmp a b).sign
  trans : ∀ a b c, cmp a b ≤ 0 → cmp b c ≤ 0 → cmp a c ≤ 0

/-- `a` may stand ahead of `b`. -/
abbrev NotAfter (cmp : α → α → ℤ) (a b : α) : Prop := cmp a b ≤ 0

namespace Comparator

variable {cmp : α → α → ℤ}

end Comparator

/-- A routine that sorts by any comparison. -/
structure StableSort (α : Type*) where
  sort : (α → α → ℤ) → List α → List α
  perm : ∀ cmp l, (sort cmp l).Perm l
  stable : ∀ cmp l, Comparator cmp → sort cmp l = l.insertionSort (NotAfter cmp)

namespace StableSort

variable (S : StableSort α) {cmp : α → α → ℤ} {l : List α} {a b : α}

@[simp] theorem mem_sort : a ∈ S.sort cmp l ↔ a ∈ l := (S.perm cmp l).mem_iff

@[simp] theorem sort_nil : S.sort cmp [] = [] := (S.perm cmp []).eq_nil

theorem nodup_sort (h : l.Nodup) : (S.sort cmp l).Nodup := (S.perm cmp l).nodup_iff.2 h

def insertion (α : Type*) : StableSort α where
  sort cmp l := l.insertionSort (NotAfter cmp)
  perm cmp l := List.perm_insertionSort (NotAfter cmp) l
  stable _ _ _ := rfl

end StableSort

end QBittorrent
