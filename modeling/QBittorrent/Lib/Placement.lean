import Mathlib.Data.List.Perm.Lattice
import Mathlib.Data.List.Sort

/-!
# Moving entries to the front of a list in place

A list is reordered to follow a queue: for each entry of the queue, in order, its first occurrence
behind the entries already placed is swapped with the entry at the end of these.

* `placeAll_prefix` : the entries of the queue are at the front, in its order.
-/

namespace QBittorrent

open List

variable {α : Type*}

/-- The entries at two places are exchanged. -/
def swapAt (l : List α) (i j : ℕ) : List α :=
  match l[i]?, l[j]? with
  | some x, some y => (l.set i y).set j x
  | _, _ => l

theorem swapAt_self (p c : List α) (x : α) :
    swapAt (p ++ x :: c) p.length p.length = p ++ x :: c := by
  simp [swapAt]

theorem swapAt_append (p b c : List α) (x y : α) :
    swapAt (p ++ x :: (b ++ y :: c)) p.length (p.length + (b.length + 1)) =
      p ++ y :: (b ++ x :: c) := by
  have hx : (p ++ x :: (b ++ y :: c))[p.length]? = some x := by simp
  have hy : (p ++ x :: (b ++ y :: c))[p.length + (b.length + 1)]? = some y := by simp
  simp only [swapAt, hx, hy]
  simp

section Place

variable [DecidableEq α] {a : α} {queue : List α}

/-- The first place of `a` from `start` on. -/
def indexFrom (l : List α) (a : α) (start : ℕ) : Option ℕ :=
  if a ∈ l.drop start then some (start + (l.drop start).idxOf a) else none

/-- One entry of the queue: `s` holds the number of entries placed, and the list. -/
def placeNext (s : ℕ × List α) (a : α) : ℕ × List α :=
  match indexFrom s.2 a s.1 with
  | some pos => (s.1 + 1, swapAt s.2 s.1 pos)
  | none => s

/-- The whole queue. -/
def placeAll (queue l : List α) : List α := (queue.foldl placeNext (0, l)).2

theorem placeNext_of_notMem {p r : List α} (h : a ∉ r) :
    placeNext (p.length, p ++ r) a = (p.length, p ++ r) := by
  simp [placeNext, indexFrom, h]

theorem placeNext_of_mem {p r : List α} (h : a ∈ r) :
    ∃ r', placeNext (p.length, p ++ r) a = ((p ++ [a]).length, (p ++ [a]) ++ r') ∧
      r'.Perm (r.erase a) := by
  obtain ⟨b, c, rfl, hb⟩ := eq_append_cons_of_mem h
  have hidx : indexFrom (p ++ (b ++ a :: c)) a p.length = some (p.length + b.length) := by
    simp [indexFrom, idxOf_append_of_notMem hb]
  simp only [placeNext, hidx]
  cases b with
  | nil =>
    simp only [nil_append, length_nil, Nat.add_zero, swapAt_self]
    simp
  | cons x b =>
    have hxa : x ≠ a := fun hx => hb (hx ▸ mem_cons_self)
    have hba : a ∉ b := fun hm => hb (mem_cons_of_mem _ hm)
    refine ⟨b ++ x :: c, ?_, ?_⟩
    · simp only [cons_append, length_cons, swapAt_append]
      simp
    · rw [cons_append, erase_cons_tail (by simpa using hxa),
        erase_append_right _ hba, erase_cons_head]
      exact perm_middle

theorem foldl_placeNext (queue p r : List α) :
    ∃ r', queue.foldl placeNext (p.length, p ++ r) =
        ((p ++ queue.bagInter r).length, (p ++ queue.bagInter r) ++ r') ∧
      ((p ++ queue.bagInter r) ++ r').Perm (p ++ r) := by
  induction queue generalizing p r with
  | nil => exact ⟨r, by simp, by simp⟩
  | cons a queue ih =>
    rw [foldl_cons]
    by_cases ha : a ∈ r
    · obtain ⟨r₁, hstep, hperm⟩ := placeNext_of_mem (p := p) ha
      obtain ⟨r', hfold, hperm'⟩ := ih (p ++ [a]) r₁
      rw [cons_bagInter_of_mem _ ha, ← hperm.bagInter_left queue]
      have happ : p ++ a :: queue.bagInter r₁ = (p ++ [a]) ++ queue.bagInter r₁ := by simp
      rw [hstep, happ]
      refine ⟨r', hfold, hperm'.trans ?_⟩
      rw [append_assoc, singleton_append]
      exact ((hperm.cons a).trans (perm_cons_erase ha).symm).append_left p
    · rw [placeNext_of_notMem ha, cons_bagInter_of_not_mem _ ha]
      exact ih p r

theorem placeAll_perm (queue l : List α) : (placeAll queue l).Perm l := by
  obtain ⟨r', hfold, hperm⟩ := foldl_placeNext queue [] l
  have : placeAll queue l = queue.bagInter l ++ r' := congrArg Prod.snd hfold
  rw [this]
  exact hperm

theorem bagInter_prefix_placeAll (queue l : List α) : queue.bagInter l <+: placeAll queue l := by
  obtain ⟨r', hfold, -⟩ := foldl_placeNext queue [] l
  have : placeAll queue l = queue.bagInter l ++ r' := congrArg Prod.snd hfold
  rw [this]
  exact prefix_append _ _

theorem bagInter_eq_filter (h : queue.Nodup) (l : List α) :
    queue.bagInter l = queue.filter (· ∈ l) := by
  induction queue generalizing l with
  | nil => simp
  | cons a queue ih =>
    obtain ⟨ha, hq⟩ := nodup_cons.1 h
    by_cases hl : a ∈ l
    · rw [cons_bagInter_of_mem _ hl, filter_cons_of_pos (by simpa using hl), ih hq]
      congr 1
      refine filter_congr fun b hb => ?_
      have hba : b ≠ a := fun hba => ha (hba ▸ hb)
      simp [mem_erase_of_ne hba]
    · rw [cons_bagInter_of_not_mem _ hl, filter_cons_of_neg (by simpa using hl), ih hq]

theorem placeAll_prefix (h : queue.Nodup) (l : List α) :
    queue.filter (· ∈ l) <+: placeAll queue l := by
  rw [← bagInter_eq_filter h]
  exact bagInter_prefix_placeAll queue l

end Place

/-! ### Sorted lists with smaller entries at the front -/

variable {l : List α}

theorem not_sublist_of_sublist {a b : α} (hl : l.Nodup) (hab : [a, b].Sublist l) :
    ¬ [b, a].Sublist l := by
  intro hba
  obtain ⟨l₁, l₂, rfl, ha, hb⟩ := cons_sublist_iff.1 hab
  have hb' : b ∈ l₂ := singleton_sublist.1 hb
  have hdisj := (nodup_append.1 hl).2.2
  obtain ⟨s₁, s₂, hs, h₁, h₂⟩ := sublist_append_iff.1 hba
  cases s₁ with
  | nil =>
    have : a ∈ l₂ := h₂.subset (by rw [nil_append] at hs; simp [← hs])
    exact hdisj a ha a this rfl
  | cons c s₁ =>
    obtain rfl : b = c := by simpa using congrArg List.head? hs
    exact hdisj b (h₁.subset mem_cons_self) b hb' rfl

theorem idxOf_lt_of_sublist [DecidableEq α] {a b : α} (hl : l.Nodup) (hab : [a, b].Sublist l) :
    l.idxOf a < l.idxOf b := by
  obtain ⟨l₁, l₂, rfl, ha, hb⟩ := cons_sublist_iff.1 hab
  have hb' : b ∈ l₂ := singleton_sublist.1 hb
  have hb₁ : b ∉ l₁ := fun hb₁ => (nodup_append.1 hl).2.2 b hb₁ b hb' rfl
  rw [idxOf_append_of_mem ha, idxOf_append_of_notMem hb₁]
  have := idxOf_lt_length_of_mem ha
  omega

theorem filter_append_filter {key : α → ℤ} {p : α → Bool} (hs : l.Pairwise fun a b => key a ≤ key b)
    (hp : ∀ a ∈ l, ∀ b ∈ l, p a = true → p b = false → key a < key b) :
    l.filter p ++ l.filter (fun a => !p a) = l := by
  induction l with
  | nil => rfl
  | cons a l ih =>
    obtain ⟨ha, hl⟩ := pairwise_cons.1 hs
    have ih' := ih hl fun x hx y hy =>
      hp x (mem_cons_of_mem _ hx) y (mem_cons_of_mem _ hy)
    by_cases hpa : p a = true
    · simp [hpa, ih']
    · -- nothing behind an entry outside `p` is in `p`
      have hnone : l.filter p = [] := by
        rw [filter_eq_nil_iff]
        intro x hx hpx
        have h₁ := ha x hx
        have h₂ := hp x (mem_cons_of_mem _ hx) a mem_cons_self hpx (by simpa using hpa)
        omega
      have hall : l.filter (fun a => !p a) = l := by
        rw [hnone] at ih'
        exact ih'
      simp [hpa, hnone, hall]

end QBittorrent
