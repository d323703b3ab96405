import Mathlib.Data.List.Dedup
import Mathlib.Data.List.Perm.Subperm
import Mathlib.Data.List.TakeWhile
import Mathlib.Order.Lattice

/-!
# Lists of the newest entries

A list holds at most a number of entries, the newest first.  A new entry is inserted before the
entries that are not newer, and the last one is dropped if there are too many.

* `Holding.insert` : **an entry that is among the newest of all is kept, and with it all that were
  inserted before it.**
-/

namespace QBittorrent

open List

variable {α D : Type*} [LinearOrder D] {date : α → D} {l : List α}

/-- `std::lower_bound` in a list that is sorted from new to old. -/
def lowerBound (date : α → D) (d : D) (l : List α) : ℕ :=
  (l.takeWhile fun a => decide (d < date a)).length

/-- Insert an entry at its place, and drop the last one if there are more than `limit`. -/
def insertNewest (date : α → D) (limit : ℕ) (x : α) (l : List α) : List α :=
  let inserted := l.insertIdx (lowerBound date (date x) l) x
  if limit < inserted.length then inserted.dropLast else inserted

/-- The list is sorted from new to old. -/
def NewestFirst (date : α → D) (l : List α) : Prop := l.Pairwise fun a b => date b ≤ date a

theorem insertIdx_lowerBound (date : α → D) (x : α) (l : List α) :
    l.insertIdx (lowerBound date (date x) l) x =
      l.takeWhile (fun a => decide (date x < date a)) ++
        x :: l.dropWhile (fun a => decide (date x < date a)) := by
  unfold lowerBound
  induction l with
  | nil => rfl
  | cons a l ih =>
    by_cases ha : date x < date a
    · rw [takeWhile_cons_of_pos (by simpa using ha),
        dropWhile_cons_of_pos (by simpa using ha), length_cons, insertIdx_succ_cons,
        ih, cons_append]
    · rw [takeWhile_cons_of_neg (by simpa using ha),
        dropWhile_cons_of_neg (by simpa using ha)]
      rfl

theorem NewestFirst.le_of_mem_dropWhile (h : NewestFirst date l) {d : D} {a : α}
    (ha : a ∈ l.dropWhile fun a => decide (d < date a)) : date a ≤ d := by
  induction l with
  | nil => cases ha
  | cons b l ih =>
    by_cases hb : d < date b
    · rw [dropWhile_cons_of_pos (by simpa using hb)] at ha
      exact ih (pairwise_cons.1 h).2 ha
    · rw [dropWhile_cons_of_neg (by simpa using hb)] at ha
      obtain rfl | ha := mem_cons.1 ha
      · exact not_lt.1 hb
      · exact ((pairwise_cons.1 h).1 a ha).trans (not_lt.1 hb)

theorem NewestFirst.insertIdx (h : NewestFirst date l) (x : α) :
    NewestFirst date (l.insertIdx (lowerBound date (date x) l) x) := by
  have hsplit := h
  rw [NewestFirst, ← takeWhile_append_dropWhile (p := fun a => decide (date x < date a))
    (l := l), pairwise_append] at hsplit
  rw [insertIdx_lowerBound, NewestFirst, pairwise_append, pairwise_cons]
  refine ⟨hsplit.1, ⟨fun b hb => h.le_of_mem_dropWhile hb, hsplit.2.1⟩, fun a ha b hb => ?_⟩
  have hxa : date x < date a := by simpa using mem_takeWhile_imp ha
  obtain rfl | hb := mem_cons.1 hb
  · exact hxa.le
  · exact (h.le_of_mem_dropWhile hb).trans hxa.le

theorem insertIdx_lowerBound_perm (date : α → D) (x : α) (l : List α) :
    (l.insertIdx (lowerBound date (date x) l) x).Perm (x :: l) := by
  rw [insertIdx_lowerBound]
  refine perm_middle.trans (Perm.cons x ?_)
  rw [takeWhile_append_dropWhile]

theorem insertNewest_sublist (date : α → D) (limit : ℕ) (x : α) (l : List α) :
    (insertNewest date limit x l).Sublist (l.insertIdx (lowerBound date (date x) l) x) := by
  unfold insertNewest
  dsimp only
  split_ifs
  · exact dropLast_sublist _
  · exact Sublist.refl _

/-- The list `l` is what is held after `n` new entries were inserted into the list `old`: the new ones
are all there, in front of the old ones that are not newer, and for those that did not fit the
oldest ones have gone. -/
structure Holding (date : α → D) (isNew : α → Bool) (limit : ℕ) (old : List α) (n : ℕ)
    (l : List α) : Prop where
  sorted : NewestFirst date l
  inFront : l.Pairwise fun a b => isNew a = false → isNew b = true → date b < date a
  length : l.length = min limit (old.length + n)
  count : (l.filter isNew).length = n
  rest : (l.filter fun a => !isNew a).Sublist old
  gone : ∀ e ∈ old, e ∉ l → ∀ a ∈ l, date e ≤ date a

namespace Holding

variable {isNew : α → Bool} {limit n : ℕ} {old l : List α} {x : α}

theorem init (hold : ∀ a ∈ old, isNew a = false) (hsorted : NewestFirst date old)
    (hlength : old.length ≤ limit) : Holding date isNew limit old 0 old where
  sorted := hsorted
  inFront := Pairwise.imp_of_mem (fun _ hb _ _ hnew => by rw [hold _ hb] at hnew; cases hnew)
    hsorted
  length := by omega
  count := by
    rw [filter_eq_nil_iff.2 fun a ha => by simp [hold a ha]]
    rfl
  rest := filter_sublist
  gone e he hno := absurd he hno

section

variable (h : Holding date isNew limit old n l)

include h

theorem length_rest : (l.filter fun a => !isNew a).length + n = l.length := by
  have := length_eq_length_filter_add (l := l) isNew
  rw [h.count] at this
  omega

theorem mem_of_lt {a e : α} (ha : a ∈ l) (he : e ∈ old) (hlt : date a < date e) : e ∈ l := by
  by_contra hno
  exact absurd (h.gone e he hno a ha) (not_le.2 hlt)

theorem lowerBound_lt (hle : ∀ a ∈ l, isNew a = true → date a ≤ date x)
    (hroom : old.countP (fun a => decide (date x < date a)) + (n + 1) ≤ limit) :
    lowerBound date (date x) l < limit := by
  have hsub : (l.takeWhile fun a => decide (date x < date a)).Sublist
      (l.filter fun a => !isNew a) := by
    have hall : ∀ a ∈ l.takeWhile fun a => decide (date x < date a), (!isNew a) = true := by
      intro a ha
      have hxa : date x < date a := by simpa using mem_takeWhile_imp ha
      cases hnew : isNew a with
      | false => rfl
      | true => exact absurd (hle a ((takeWhile_sublist _).subset ha) hnew) (not_le.2 hxa)
    rw [← filter_eq_self.2 hall]
    exact (takeWhile_sublist _).filter _
  have hcount : (l.takeWhile fun a => decide (date x < date a)).length ≤
      old.countP fun a => decide (date x < date a) := by
    have hall : (l.takeWhile fun a => decide (date x < date a)).countP
        (fun a => decide (date x < date a)) =
        (l.takeWhile fun a => decide (date x < date a)).length := by
      refine countP_eq_length.2 fun a ha => ?_
      simpa using mem_takeWhile_imp ha
    rw [← hall]
    exact (hsub.trans h.rest).countP_le
  unfold lowerBound
  omega

theorem insert (hx : isNew x = true) (hle : ∀ a ∈ l, isNew a = true → date a ≤ date x)
    (hroom : ∀ a, a = x ∨ (a ∈ l ∧ isNew a = true) →
      old.countP (fun b => decide (date a < date b)) + (n + 1) ≤ limit) :
    Holding date isNew limit old (n + 1) (insertNewest date limit x l) := by
  have hperm := insertIdx_lowerBound_perm date x l
  have hsorted := h.sorted.insertIdx x
  have hsplit := insertIdx_lowerBound date x l
  unfold insertNewest
  generalize l.insertIdx (lowerBound date (date x) l) x = l' at hperm hsorted hsplit
  have hfront : l'.Pairwise fun a b => isNew a = false → isNew b = true → date b < date a := by
    have hl := h.inFront
    rw [← takeWhile_append_dropWhile (p := fun a => decide (date x < date a)) (l := l),
      pairwise_append] at hl
    rw [hsplit, pairwise_append, pairwise_cons]
    refine ⟨hl.1, ⟨fun b _ hxold => ?_, hl.2.1⟩, fun a ha b hb => ?_⟩
    · rw [hx] at hxold
      cases hxold
    · obtain rfl | hb := mem_cons.1 hb
      · exact fun _ _ => by simpa using mem_takeWhile_imp ha
      · exact hl.2.2 a ha b hb
  have hnew : (l'.filter isNew).length = n + 1 := by
    rw [(hperm.filter isNew).length_eq, filter_cons_of_pos hx, length_cons, h.count]
  have hold : (l'.filter fun a => !isNew a) = l.filter fun a => !isNew a := by
    conv_rhs => rw [← takeWhile_append_dropWhile
      (p := fun a => decide (date x < date a)) (l := l)]
    rw [hsplit, filter_append, filter_append, filter_cons_of_neg (by simp [hx])]
  have hlength : l'.length = l.length + 1 := hperm.length_eq
  dsimp only
  split_ifs with hfull
  · -- the last entry goes; it is an old one
    have hne : l' ≠ [] := by
      rintro rfl
      simp at hlength
    have hlast : isNew (l'.getLast hne) = false := by
      by_contra hlast
      have hlast : isNew (l'.getLast hne) = true := by simpa using hlast
      have hz := hroom (l'.getLast hne) <| by
        obtain hzx | hzl := mem_cons.1 (hperm.subset (getLast_mem hne))
        · exact Or.inl hzx
        · exact Or.inr ⟨hzl, hlast⟩
      have hall : ∀ a ∈ l.filter (fun a => !isNew a), date (l'.getLast hne) < date a := by
        intro a ha
        rw [← hold] at ha
        obtain ⟨ha', hanew⟩ := mem_filter.1 ha
        have hfront' := hfront
        rw [← dropLast_append_getLast hne, pairwise_append] at hfront'
        rw [← dropLast_append_getLast hne, mem_append, mem_singleton] at ha'
        obtain ha' | rfl := ha'
        · exact hfront'.2.2 a ha' _ (mem_singleton.2 rfl) (by simpa using hanew) hlast
        · rw [hlast] at hanew
          cases hanew
      have hcount : (l.filter fun a => !isNew a).length ≤
          old.countP fun b => decide (date (l'.getLast hne) < date b) := by
        rw [← countP_eq_length.2 fun a ha => decide_eq_true (hall a ha)]
        exact h.rest.countP_le
      have := h.length_rest
      omega
    have hdrop : (l'.dropLast.filter isNew).length = n + 1 := by
      rw [← hnew]
      conv_rhs => rw [← dropLast_append_getLast hne]
      rw [filter_append, filter_cons_of_neg (by simp [hlast]), filter_nil,
        append_nil]
    refine ⟨hsorted.sublist (dropLast_sublist _), hfront.sublist (dropLast_sublist _), ?_,
      hdrop, ?_, fun e he hno a ha => ?_⟩
    · have := h.length
      rw [length_dropLast]
      omega
    · refine ((dropLast_sublist l').filter _).trans ?_
      rw [hold]
      exact h.rest
    · have hlastle : ∀ a ∈ l'.dropLast, date (l'.getLast hne) ≤ date a := by
        have hsorted' := hsorted
        rw [NewestFirst, ← dropLast_append_getLast hne, pairwise_append] at hsorted'
        exact fun a ha => hsorted'.2.2 a ha _ (mem_singleton.2 rfl)
      by_cases hel : e ∈ l'
      · rw [← dropLast_append_getLast hne, mem_append, mem_singleton] at hel
        obtain rfl := hel.resolve_left hno
        exact hlastle a ha
      · -- it had gone before, so it is not newer than the one that goes now
        have hlastl : l'.getLast hne ∈ l := by
          refine (mem_cons.1 (hperm.subset (getLast_mem hne))).resolve_left fun hzx => ?_
          rw [hzx, hx] at hlast
          cases hlast
        have hel' : e ∉ l := fun hmem => hel (hperm.mem_iff.2 (mem_cons_of_mem x hmem))
        exact (h.gone e he hel' _ hlastl).trans (hlastle a ha)
  · refine ⟨hsorted, hfront, by have := h.length; omega, hnew, by rw [hold]; exact h.rest,
      fun e he hno => ?_⟩
    -- nothing has gone so far
    have hrest : (l.filter fun a => !isNew a) = old := by
      refine h.rest.eq_of_length ?_
      have := h.length
      have := h.length_rest
      omega
    refine absurd (hperm.mem_iff.2 (mem_cons_of_mem x ?_)) hno
    rw [← hrest] at he
    exact (mem_filter.1 he).1

theorem filter_insert (hx : isNew x = true)
    (h' : Holding date isNew limit old (n + 1) (insertNewest date limit x l)) :
    ((insertNewest date limit x l).filter isNew).Perm (x :: l.filter isNew) := by
  have hperm := (insertIdx_lowerBound_perm date x l).filter isNew
  rw [filter_cons_of_pos hx] at hperm
  have heq := ((insertNewest_sublist date limit x l).filter isNew).eq_of_length <| by
    rw [h'.count, hperm.length_eq, length_cons, h.count]
  rwa [heq]

theorem countP_lt (hnodup : old.Nodup) (hold : ∀ e ∈ old, isNew e = false) {a : α} (ha : a ∈ l)
    (hanew : isNew a = false) : old.countP (fun e => decide (date a < date e)) + n < l.length := by
  have hrest := h.length_rest
  have hsub : (a :: old.filter fun e => decide (date a < date e)) ⊆ l.filter fun a => !isNew a := by
    intro e he
    obtain rfl | he := mem_cons.1 he
    · exact mem_filter.2 ⟨ha, by simp [hanew]⟩
    · obtain ⟨he, hlt⟩ := mem_filter.1 he
      exact mem_filter.2 ⟨h.mem_of_lt ha he (of_decide_eq_true hlt), by simp [hold e he]⟩
  have hnot : a ∉ old.filter fun e => decide (date a < date e) := fun hmem =>
    absurd (of_decide_eq_true (mem_filter.1 hmem).2) (lt_irrefl _)
  have hle := (Nodup.subperm (nodup_cons.2 ⟨hnot, hnodup.filter _⟩) hsub).length_le
  rw [length_cons, ← countP_eq_length_filter] at hle
  omega

end

end Holding

namespace NewestFirst

variable {xs : List α} {limit : ℕ} {a b : α}

theorem le_of_mem_drop (h : NewestFirst date xs) (ha : a ∈ xs.take limit) (hb : b ∈ xs.drop limit) :
    date b ≤ date a := by
  rw [NewestFirst, ← take_append_drop limit xs, pairwise_append] at h
  exact h.2.2 a ha b hb

theorem countP_take (h : NewestFirst date xs) (ha : a ∈ xs.take limit) (p : α → Bool) :
    xs.countP (fun b => p b && decide (date a < date b)) =
      (xs.take limit).countP fun b => p b && decide (date a < date b) := by
  have hdrop : (xs.drop limit).countP (fun b => p b && decide (date a < date b)) = 0 :=
    countP_eq_zero.2 fun b hb hlt => by
      rw [Bool.and_eq_true, decide_eq_true_eq] at hlt
      exact absurd hlt.2 (not_lt.2 (h.le_of_mem_drop ha hb))
  conv_lhs => rw [← take_append_drop limit xs, countP_append, hdrop, Nat.add_zero]

theorem le_of_notMem_take (h : NewestFirst date xs) (ha : a ∈ xs.take limit) (hb : b ∈ xs)
    (hno : b ∉ xs.take limit) : date b ≤ date a := by
  rw [← take_append_drop limit xs, mem_append] at hb
  exact h.le_of_mem_drop ha (hb.resolve_left hno)

end NewestFirst

end QBittorrent
