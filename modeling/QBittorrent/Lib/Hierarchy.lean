import Mathlib.Data.Finset.Basic
import Mathlib.Data.List.TakeWhile

/-!
# Names in a hierarchy

A name is a list whose separators give it a place in a hierarchy: what is before the last separator
is the name of the parent.

* `mem_expansions_iff` : the expansions of a name are itself and what is before each separator.
* `segments_prefix_iff` : names as paths of the names of their levels.
* `ParentClosed.union_expansions`, `ParentClosed.removeSubtree` : **adding a name with its expansions
  and removing a name with all that is below it keep a set closed**.
-/

namespace QBittorrent

open List

section Hierarchy

variable {α : Type*} [DecidableEq α] (sep : α)

/-- What is before the last separator; nothing if there is none. -/
def beforeLast (l : List α) : List α := (l.reverse.dropWhile (· ≠ sep)).tail.reverse

/-- What is behind the last separator. -/
def afterLast (l : List α) : List α := (l.reverse.takeWhile (· ≠ sep)).reverse

/-- What is before each separator, and the name itself. -/
def expansions (l : List α) : List (List α) :=
  ((List.range l.length).filter fun i => l[i]? = some sep).map l.take ++ [l]

variable {sep} {l p : List α}

theorem beforeLast_append_afterLast (h : sep ∈ l) :
    beforeLast sep l ++ sep :: afterLast sep l = l := by
  have hdrop : (l.reverse.dropWhile (· ≠ sep)) ≠ [] := by
    rw [Ne, dropWhile_eq_nil_iff]
    intro hall
    simpa using hall sep (mem_reverse.2 h)
  obtain ⟨x, xs, hx⟩ := exists_cons_of_ne_nil hdrop
  have hhead : x = sep := by
    have := head_dropWhile_not (fun y => decide (y ≠ sep)) hdrop
    simp only [hx, head_cons] at this
    simpa using this
  have hsplit := takeWhile_append_dropWhile (p := (· ≠ sep)) (l := l.reverse)
  rw [hx, hhead] at hsplit
  have hrev := congrArg reverse hsplit
  rw [beforeLast, hx, tail_cons, afterLast]
  simpa using hrev

theorem beforeLast_isPrefix (h : sep ∈ l) : beforeLast sep l ++ [sep] <+: l :=
  ⟨afterLast sep l, by simpa using beforeLast_append_afterLast h⟩

theorem beforeLast_of_notMem (h : sep ∉ l) : beforeLast sep l = [] := by
  have hdrop : l.reverse.dropWhile (· ≠ sep) = [] := by
    rw [dropWhile_eq_nil_iff]
    intro x hx
    have : x ≠ sep := fun hxs => h (hxs ▸ mem_reverse.1 hx)
    simpa using this
  rw [beforeLast, hdrop]
  rfl

theorem length_beforeLast_lt (h : l ≠ []) : (beforeLast sep l).length < l.length := by
  by_cases hsep : sep ∈ l
  · have := (beforeLast_isPrefix hsep).length_le
    simp only [length_append, length_cons, length_nil] at this
    omega
  · rw [beforeLast_of_notMem hsep]
    exact length_pos_of_ne_nil h

theorem mem_expansions_iff : p ∈ expansions sep l ↔ p = l ∨ p ++ [sep] <+: l := by
  simp only [expansions, mem_append, mem_map, mem_filter, mem_range,
    decide_eq_true_eq, mem_singleton]
  rw [or_comm]
  refine or_congr Iff.rfl ⟨?_, ?_⟩
  · rintro ⟨i, ⟨hi, hsep⟩, rfl⟩
    refine ⟨l.drop (i + 1), ?_⟩
    have : l[i] = sep := by simpa [getElem?_eq_getElem hi] using hsep
    rw [← this, take_append_getElem hi, take_append_drop]
  · rintro ⟨t, rfl⟩
    refine ⟨p.length, ⟨by simp, by simp⟩, by simp⟩

/-! ### Paths -/

variable (sep) in
/-- The names of the levels, from the top. -/
def segments (l : List α) : List (List α) := (expansions sep l).map (afterLast sep)

theorem afterLast_of_notMem (h : sep ∉ l) : afterLast sep l = l := by
  rw [afterLast, takeWhile_eq_self_iff.2, reverse_reverse]
  intro x hx
  have : x ≠ sep := fun hxs => h (hxs ▸ mem_reverse.1 hx)
  simpa using this

theorem notMem_afterLast (l : List α) : sep ∉ afterLast sep l := by
  intro h
  rw [afterLast, mem_reverse] at h
  simpa using mem_takeWhile_imp h

theorem expansions_of_notMem (h : sep ∉ l) : expansions sep l = [l] := by
  have hnil : (range l.length).filter (fun i => l[i]? = some sep) = [] := by
    rw [filter_eq_nil_iff]
    intro i _ hi
    exact h (mem_of_getElem? (of_decide_eq_true hi))
  rw [expansions, hnil]
  rfl

theorem expansions_append {b a : List α} (h : sep ∉ a) :
    expansions sep (b ++ sep :: a) = expansions sep b ++ [b ++ sep :: a] := by
  have hrange : range (b ++ sep :: a).length =
      range b.length ++ b.length :: (range a.length).map (b.length + 1 + ·) := by
    rw [length_append, length_cons, Nat.add_comm a.length 1, ← Nat.add_assoc,
      range_add, range_succ, append_assoc]
    rfl
  have hbefore : (range b.length).filter (fun i => (b ++ sep :: a)[i]? = some sep) =
      (range b.length).filter fun i => b[i]? = some sep :=
    filter_congr fun i hi => by
      rw [getElem?_append_left (mem_range.1 hi)]
  have hbehind : ((range a.length).map (b.length + 1 + ·)).filter
      (fun i => (b ++ sep :: a)[i]? = some sep) = [] := by
    rw [filter_eq_nil_iff]
    intro i hi hsep
    obtain ⟨j, -, rfl⟩ := mem_map.1 hi
    have hj : (b ++ sep :: a)[b.length + 1 + j]? = a[j]? := by
      rw [getElem?_append_right (by omega), show b.length + 1 + j - b.length = j + 1 by omega]
      rfl
    rw [hj] at hsep
    exact h (mem_of_getElem? (of_decide_eq_true hsep))
  have htake : ((range b.length).filter fun i => b[i]? = some sep).map
      (b ++ sep :: a).take = ((range b.length).filter fun i => b[i]? = some sep).map b.take :=
    map_congr_left fun i hi => by
      have := mem_range.1 (mem_filter.1 hi).1
      exact take_append_of_le_length this.le
  rw [expansions, hrange, filter_append, filter_cons_of_pos (by simp), hbefore, hbehind,
    map_append, htake, expansions]
  simp

theorem expansions_pairwise (l : List α) :
    (expansions sep l).Pairwise fun a b => a.length < b.length := by
  have hlength : ∀ i ∈ (range l.length).filter fun i => l[i]? = some sep, i < l.length :=
    fun i hi => mem_range.1 (mem_filter.1 hi).1
  rw [expansions, pairwise_append]
  refine ⟨?_, pairwise_singleton _ _, ?_⟩
  · rw [pairwise_map]
    refine (pairwise_lt_range.filter _).imp_of_mem fun {i j} hi hj hij => ?_
    rw [length_take, length_take, Nat.min_eq_left (hlength i hi).le,
      Nat.min_eq_left (hlength j hj).le]
    exact hij
  · intro a ha b hb
    obtain ⟨i, hi, rfl⟩ := mem_map.1 ha
    rw [mem_singleton.1 hb, length_take, Nat.min_eq_left (hlength i hi).le]
    exact hlength i hi

theorem segments_of_notMem (h : sep ∉ l) : segments sep l = [l] := by
  rw [segments, expansions_of_notMem h, map_singleton, afterLast_of_notMem h]

theorem segments_of_mem (h : sep ∈ l) :
    segments sep l = segments sep (beforeLast sep l) ++ [afterLast sep l] := by
  rw [segments, segments]
  conv_lhs => rw [← beforeLast_append_afterLast h]
  rw [expansions_append (notMem_afterLast l), map_append, map_singleton,
    beforeLast_append_afterLast h]

theorem segments_ne_nil (l : List α) : segments sep l ≠ [] := by
  simp [segments, expansions]

omit [DecidableEq α] in
private theorem append_ne_singleton {l : List (List α)} (hl : l ≠ []) {a b : List α} :
    l ++ [a] ≠ [b] := fun h => by
  have hlength := congrArg length h
  have hpos := length_pos_of_ne_nil hl
  rw [length_append, length_singleton, length_singleton] at hlength
  omega

theorem segments_injective {m : List α} (h : segments sep l = segments sep m) : l = m := by
  induction hn : l.length using Nat.strong_induction_on generalizing l m with
  | _ n ih =>
    by_cases hl : sep ∈ l
    · have hl' := segments_of_mem hl
      by_cases hm : sep ∈ m
      · rw [hl', segments_of_mem hm] at h
        obtain ⟨hbefore, hafter⟩ := append_inj' h rfl
        have hlt : (beforeLast sep l).length < n := hn ▸ length_beforeLast_lt (ne_nil_of_mem hl)
        rw [← beforeLast_append_afterLast hl, ← beforeLast_append_afterLast hm,
          ih _ hlt hbefore rfl, singleton_inj.1 hafter]
      · rw [hl', segments_of_notMem hm] at h
        exact (append_ne_singleton (segments_ne_nil _) h).elim
    · rw [segments_of_notMem hl] at h
      by_cases hm : sep ∈ m
      · rw [segments_of_mem hm] at h
        exact (append_ne_singleton (segments_ne_nil _) h.symm).elim
      · rw [segments_of_notMem hm] at h
        exact singleton_inj.1 h

theorem segments_prefix_iff {m : List α} :
    segments sep l <+: segments sep m ↔ l ∈ expansions sep m := by
  induction hn : m.length using Nat.strong_induction_on generalizing m with
  | _ n ih =>
    by_cases hm : sep ∈ m
    · have hlt : (beforeLast sep m).length < n := hn ▸ length_beforeLast_lt (ne_nil_of_mem hm)
      have hexp : expansions sep m = expansions sep (beforeLast sep m) ++ [m] := by
        conv_lhs => rw [← beforeLast_append_afterLast hm]
        rw [expansions_append (notMem_afterLast m), beforeLast_append_afterLast hm]
      rw [hexp, mem_append, mem_singleton, ← ih _ hlt rfl, segments_of_mem hm,
        prefix_concat_iff, ← segments_of_mem hm, or_comm]
      exact or_congr_right ⟨segments_injective, fun h => h ▸ rfl⟩
    · rw [expansions_of_notMem hm, mem_singleton, segments_of_notMem hm]
      constructor
      · intro h
        have hone : segments sep l = [m] := by
          exact h.eq_of_length_le (length_pos_of_ne_nil (segments_ne_nil l))
        rw [← segments_of_notMem hm] at hone
        exact segments_injective hone
      · rintro rfl
        rw [segments_of_notMem hm]

/-! ### Closed sets -/

variable (sep) in
/-- The parent of every name of the set is in it. -/
def ParentClosed (s : Finset (List α)) : Prop := ∀ l ∈ s, sep ∈ l → beforeLast sep l ∈ s

theorem beforeLast_mem_expansions (hp : p ∈ expansions sep l) (h : sep ∈ p) :
    beforeLast sep p ∈ expansions sep l := by
  refine mem_expansions_iff.2 (.inr ?_)
  obtain rfl | hpre := mem_expansions_iff.1 hp
  · exact beforeLast_isPrefix h
  · exact (beforeLast_isPrefix h).trans ((prefix_append p [sep]).trans hpre)

theorem ParentClosed.union_expansions {s : Finset (List α)} (h : ParentClosed sep s) (l : List α) :
    ParentClosed sep (s ∪ (expansions sep l).toFinset) := by
  intro p hp hsep
  obtain hp | hp := Finset.mem_union.1 hp
  · exact Finset.mem_union_left _ (h p hp hsep)
  · refine Finset.mem_union_right _ (mem_toFinset.2 ?_)
    exact beforeLast_mem_expansions (mem_toFinset.1 hp) hsep

theorem parentClosed_expansions {s t : Finset (List α)}
    (ht : ∀ p, p ∈ t ↔ ∃ l ∈ s, p ∈ expansions sep l) : ParentClosed sep t := by
  intro p hp hsep
  obtain ⟨l, hl, hp⟩ := (ht p).1 hp
  exact (ht _).2 ⟨l, hl, beforeLast_mem_expansions hp hsep⟩

theorem ParentClosed.removeSubtree {s t : Finset (List α)} (h : ParentClosed sep s) {name : List α}
    (ht : ∀ p, p ∈ t ↔ p ∈ s ∧ p ≠ name ∧ ¬ name ++ [sep] <+: p) : ParentClosed sep t := by
  intro p hp hsep
  obtain ⟨hps, hne, hpre⟩ := (ht p).1 hp
  have hparent := beforeLast_isPrefix hsep
  refine (ht _).2 ⟨h p hps hsep, ?_, ?_⟩
  · rintro rfl
    exact hpre hparent
  · intro hbelow
    exact hpre (hbelow.trans ((prefix_append _ _).trans hparent))

end Hierarchy

end QBittorrent
