import Mathlib.Data.List.Sort

/-!
# Sorting by a comparison

What a program may rely on when it calls a sorting routine that is not stable: the result holds the
same elements, and no element is less than one that stands before it.

A stable routine keeps equal elements in their order as well, which leaves no choice.

* `eq_of_sorted_of_filter_eq` : a sorted list is known by what it holds of each key.
-/

namespace QBittorrent

open List

variable {α β : Type*}

/-- A routine that sorts lists by the comparison `lt`, with elements that are equivalent in any
order. -/
structure StdSort (α : Type*) (lt : α → α → Bool) where
  sort : List α → List α
  perm : ∀ l, (sort l).Perm l
  sorted : ∀ l, (sort l).Pairwise fun a b => lt b a = false

namespace StdSort

variable [LinearOrder β] {key : α → β}

theorem sorted_le (S : StdSort α fun a b => decide (key a < key b)) (l : List α) :
    (S.sort l).Pairwise fun a b => key a ≤ key b :=
  (S.sorted l).imp fun h => not_lt.1 (by simpa using h)

def insertion (key : α → β) : StdSort α fun a b => decide (key a < key b) where
  sort l := l.insertionSort fun a b => key a ≤ key b
  perm l := List.perm_insertionSort _ l
  sorted l := by
    have : Std.Total fun a b : α => key a ≤ key b := ⟨fun a b => le_total (key a) (key b)⟩
    have : IsTrans α fun a b => key a ≤ key b := ⟨fun _ _ _ => le_trans⟩
    refine (List.pairwise_insertionSort (fun a b => key a ≤ key b) l).imp fun h => ?_
    exact decide_eq_false (not_lt.2 h)

/-- The routine for the opposite order. -/
def flip {lt : α → α → Bool} (S : StdSort α lt) : StdSort α fun a b => lt b a where
  sort l := (S.sort l).reverse
  perm l := (List.reverse_perm _).trans (S.perm l)
  sorted l := List.pairwise_reverse.2 (S.sorted l)

end StdSort

section Stable

variable [LinearOrder β] (key : α → β)

theorem filter_orderedInsert (k : β) (a : α) (l : List α) :
    (l.orderedInsert (fun a b => key a ≤ key b) a).filter (fun b => key b = k) =
      (a :: l).filter fun b => key b = k := by
  induction l with
  | nil => rfl
  | cons b l ih =>
    rw [orderedInsert_cons]
    by_cases hle : key a ≤ key b
    · rw [if_pos hle]
    · rw [if_neg hle, filter_cons, ih]
      by_cases hb : key b = k
      · -- the element that is inserted stands behind those of a smaller key only
        have ha : key a ≠ k := fun ha => hle (ha.trans hb.symm).le
        simp [hb, ha]
      · simp [filter_cons, hb]

theorem filter_insertionSort (k : β) (l : List α) :
    (l.insertionSort fun a b => key a ≤ key b).filter (fun b => key b = k) =
      l.filter fun b => key b = k := by
  induction l with
  | nil => rfl
  | cons a l ih =>
    rw [insertionSort_cons, filter_orderedInsert, filter_cons, ih, filter_cons]

theorem eq_of_sorted_of_filter_eq {l l' : List α} (hl : l.Pairwise fun a b => key a ≤ key b)
    (hl' : l'.Pairwise fun a b => key a ≤ key b)
    (h : ∀ k, l.filter (fun b => key b = k) = l'.filter fun b => key b = k) : l = l' := by
  induction l generalizing l' with
  | nil =>
    cases l' with
    | nil => rfl
    | cons b l' =>
      have := h (key b)
      simp at this
  | cons a l ih =>
    have hmem : ∀ {m m' : List α} {c : α}, (∀ k, m.filter (fun b => key b = k) =
        m'.filter fun b => key b = k) → c ∈ m → c ∈ m' := by
      intro m m' c hm hc
      have hc' : c ∈ m.filter fun b => key b = key c := by simpa using hc
      rw [hm] at hc'
      exact (mem_filter.1 hc').1
    have ha := hmem h mem_cons_self
    obtain ⟨b, l', rfl⟩ := exists_cons_of_ne_nil (ne_nil_of_mem ha)
    have hb : b ∈ a :: l := hmem (fun k => (h k).symm) mem_cons_self
    have hkey : key a = key b := by
      refine le_antisymm ?_ ?_
      · rcases mem_cons.1 hb with rfl | hb
        · exact le_rfl
        · exact rel_of_pairwise_cons hl hb
      · rcases mem_cons.1 ha with rfl | ha
        · exact le_rfl
        · exact rel_of_pairwise_cons hl' ha
    have hhead := h (key b)
    rw [filter_cons_of_pos (by simpa using hkey), filter_cons_of_pos (by simp),
      cons.injEq] at hhead
    obtain ⟨rfl, -⟩ := hhead
    refine congrArg _ (ih hl.of_cons hl'.of_cons fun k => ?_)
    have := h k
    rw [filter_cons, filter_cons] at this
    split_ifs at this
    · exact tail_eq_of_cons_eq this
    · exact this

end Stable

end QBittorrent
