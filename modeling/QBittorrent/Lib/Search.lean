import Mathlib.Data.List.Infix

/-!
# Searching and splitting lists

`firstIndex pat l` is the place of the first occurrence of `pat` in `l`, and `pieces keep sep l` are
the parts of `l` between the occurrences of `sep`: the non-empty ones, or all but an empty one at
the end.

* `firstIndex_append` : the first occurrence stays the first;
* `IsTerminated.pieces_append` : splitting is a homomorphism.
-/

namespace QBittorrent

open List Option

variable {α : Type*} [DecidableEq α]

/-- The place of the first occurrence of `pat`. -/
def firstIndex (pat : List α) : List α → Option ℕ
  | [] => if pat = [] then some 0 else none
  | a :: l => if pat <+: a :: l then some 0 else (firstIndex pat l).map (· + 1)

section FirstIndex

variable {pat l r : List α} {i : ℕ}

theorem firstIndex_of_isPrefix (h : pat <+: l) : firstIndex pat l = some 0 := by
  cases l with
  | nil => simp [firstIndex, prefix_nil.1 h]
  | cons a l => rw [firstIndex, if_pos h]

theorem firstIndex_cons_of_not_isPrefix {a : α} (h : ¬ pat <+: a :: l) :
    firstIndex pat (a :: l) = (firstIndex pat l).map (· + 1) := by
  rw [firstIndex, if_neg h]

theorem firstIndex_eq_none : firstIndex pat l = none ↔ ¬ pat <:+: l := by
  induction l with
  | nil => simp [firstIndex]
  | cons a l ih =>
    rw [firstIndex, infix_cons_iff, not_or]
    split_ifs with h
    · simp [h]
    · simp [h, ih]

theorem firstIndex_add_le (h : firstIndex pat l = some i) : i + pat.length ≤ l.length := by
  induction l generalizing i with
  | nil =>
    rw [firstIndex] at h
    split_ifs at h with hp
    cases h
    simp [hp]
  | cons a l ih =>
    rw [firstIndex] at h
    split_ifs at h with hp
    · cases h
      simpa using hp.length_le
    · obtain ⟨j, hj, rfl⟩ := map_eq_some_iff.1 h
      have := ih hj
      rw [length_cons]
      omega

theorem firstIndex_append (h : firstIndex pat l = some i) : firstIndex pat (l ++ r) = some i := by
  induction l generalizing i with
  | nil =>
    rw [firstIndex] at h
    split_ifs at h with hp
    cases h
    exact firstIndex_of_isPrefix (hp ▸ nil_prefix)
  | cons a l ih =>
    rw [firstIndex] at h
    split_ifs at h with hp
    · cases h
      exact firstIndex_of_isPrefix (hp.trans (prefix_append _ _))
    · obtain ⟨j, hj, rfl⟩ := map_eq_some_iff.1 h
      -- the pattern fits in `l`, so it cannot begin before and end in `r`
      have hlen : pat.length ≤ (a :: l).length := by
        have := firstIndex_add_le hj
        rw [length_cons]
        omega
      have hp' : ¬ pat <+: a :: (l ++ r) := fun h' =>
        hp (prefix_of_prefix_length_le h' (prefix_append (a :: l) r) hlen)
      rw [cons_append, firstIndex_cons_of_not_isPrefix hp', ih hj, map_some]

theorem firstIndex_append_of_notMem {c : α} (h : c ∉ l) :
    firstIndex (c :: pat) (l ++ r) = (firstIndex (c :: pat) r).map (· + l.length) := by
  induction l with
  | nil => simp
  | cons a l ih =>
    obtain ⟨ha, hl⟩ := not_or.1 (mem_cons.not.1 h)
    have hp : ¬ c :: pat <+: a :: (l ++ r) := fun h' => ha (cons_prefix_cons.1 h').1
    rw [cons_append, firstIndex_cons_of_not_isPrefix hp, ih hl, Option.map_map]
    rfl

theorem prefix_drop_of_firstIndex (h : firstIndex pat l = some i) : pat <+: l.drop i := by
  induction l generalizing i with
  | nil =>
    rw [firstIndex] at h
    split_ifs at h with hp
    simp [hp]
  | cons a l ih =>
    rw [firstIndex] at h
    split_ifs at h with hp
    · cases h
      exact hp
    · obtain ⟨j, hj, rfl⟩ := map_eq_some_iff.1 h
      exact ih hj

theorem not_infix_take (hpat : pat ≠ []) (h : firstIndex pat l = some i) : ¬ pat <:+: l.take i := by
  rw [← firstIndex_eq_none]
  cases hi : firstIndex pat (l.take i) with
  | none => rfl
  | some j =>
    have hj := firstIndex_append (r := l.drop i) hi
    rw [take_append_drop, h] at hj
    cases hj
    have := firstIndex_add_le hi
    have := length_pos_iff.2 hpat
    rw [length_take] at *
    omega

end FirstIndex

/-! ### Pieces -/

/-- The parts between the occurrences of a separator: without the empty ones, or, to `keep` them,
without an empty one at the end. -/
def pieces (keep : Bool) (sep l : List α) : List (List α) :=
  if _h : l = [] ∨ sep = [] then []
  else
    match firstIndex sep l with
    | none => [l]
    | some i => (if i = 0 ∧ keep = false then [] else [l.take i]) ++
        pieces keep sep (l.drop (i + sep.length))
termination_by l.length
decreasing_by
  have := List.length_pos_iff.2 (not_or.1 _h).1
  have := List.length_pos_iff.2 (not_or.1 _h).2
  rw [List.length_drop]
  omega

section Pieces

variable {keep : Bool} {sep l x : List α}

@[simp] theorem pieces_nil : pieces keep sep [] = [] := by simp [pieces]

theorem pieces_of_not_isInfix (hsep : sep ≠ []) (hl : l ≠ []) (h : ¬ sep <:+: l) :
    pieces keep sep l = [l] := by
  rw [pieces, dif_neg (not_or.2 ⟨hl, hsep⟩), firstIndex_eq_none.2 h]

theorem pieces_of_firstIndex {i : ℕ} (hsep : sep ≠ []) (h : firstIndex sep l = some i) :
    pieces keep sep l = (if i = 0 ∧ keep = false then [] else [l.take i]) ++
      pieces keep sep (l.drop (i + sep.length)) := by
  have hl : l ≠ [] := by
    rintro rfl
    simp [firstIndex, hsep] at h
  rw [pieces, dif_neg (not_or.2 ⟨hl, hsep⟩), h]

theorem infix_of_mem_pieces (h : x ∈ pieces keep sep l) : ¬ sep <:+: x ∧ x <:+: l := by
  induction l using pieces.induct sep with
  | case1 l h' =>
    rw [pieces, dif_pos h'] at h
    cases h
  | case2 l h' hnone =>
    rw [pieces, dif_neg h', hnone] at h
    rw [mem_singleton.1 h]
    exact ⟨firstIndex_eq_none.1 hnone, infix_rfl⟩
  | case3 l h' i hi ih =>
    rw [pieces_of_firstIndex (not_or.1 h').2 hi, mem_append] at h
    obtain h | h := h
    · split_ifs at h with h0
      · cases h
      · rw [mem_singleton.1 h]
        exact ⟨not_infix_take (not_or.1 h').2 hi, (List.take_prefix _ _).isInfix⟩
    · exact (ih h).imp_right fun hinfix => hinfix.trans (drop_suffix _ _).isInfix

theorem pieces_ne_nil (hl : l ≠ []) (hsep : sep ≠ []) (h : ¬ sep <+: l) :
    pieces keep sep l ≠ [] := by
  cases hi : firstIndex sep l with
  | none => simp [pieces_of_not_isInfix hsep hl (firstIndex_eq_none.1 hi)]
  | some i =>
    have h0 : i ≠ 0 := by
      rintro rfl
      exact h (prefix_drop_of_firstIndex hi)
    simp [pieces_of_firstIndex hsep hi, h0]

end Pieces

/-! ### Patterns that end at a mark -/

/-- The last element of the pattern occurs nowhere else in it. -/
def IsTerminated (pat : List α) : Prop := ∃ w c, pat = w ++ [c] ∧ c ∉ w

namespace IsTerminated

variable {pat x y : List α}

section

omit [DecidableEq α]

theorem ne_nil (hpat : IsTerminated pat) : pat ≠ [] := by
  obtain ⟨w, c, rfl, -⟩ := hpat
  simp

theorem infix_left {w : List α} {c : α} (hy : c ∉ y) (h : w ++ [c] <:+: x ++ y) :
    w ++ [c] <:+: x := by
  obtain ⟨s, t, hst⟩ := h
  obtain ⟨z, hx, -⟩ | ⟨z, hx, hz⟩ := append_eq_append_iff.1 hst
  · exact ⟨s, z, hx.symm⟩
  · obtain rfl | hne := eq_or_ne z []
    · exact ⟨s, [], by simpa using hx⟩
    · -- the occurrence would end in `y`
      refine absurd ?_ hy
      have hlast := congrArg getLast? hx
      rw [← append_assoc, getLast?_concat, getLast?_append_of_ne_nil _ hne] at hlast
      rw [hz]
      exact mem_append_left _ (mem_of_getLast? hlast.symm)

theorem infix_or_infix {w : List α} {c : α} (hw : c ∉ w) (h : w ++ [c] <:+: (x ++ [c]) ++ y) :
    w ++ [c] <:+: x ++ [c] ∨ w ++ [c] <:+: y := by
  obtain h | h | ⟨l₁, l₂, h₁, h₂, hl, hsuffix, -⟩ := infix_append_iff_ne_nil.1 h
  · exact Or.inl h
  · exact Or.inr h
  · refine absurd ?_ hw
    -- a part of the pattern that ends at the mark would be a part of `w`
    obtain ⟨l₂, d, rfl⟩ := (eq_nil_or_concat' l₂).resolve_left h₂
    obtain ⟨t, ht⟩ := hsuffix
    have hlast : c ∈ l₁ := by
      have := congrArg getLast? ht
      rw [getLast?_append_of_ne_nil _ h₁, getLast?_concat] at this
      exact mem_of_getLast? this
    rw [← append_assoc] at hl
    rw [(append_inj' hl rfl).1]
    exact mem_append_left _ hlast

end

theorem firstIndex_append (hpat : IsTerminated pat) (hx : ¬ pat <:+: x) :
    firstIndex pat (x ++ (pat ++ y)) = some x.length := by
  rw [← append_assoc]
  refine QBittorrent.firstIndex_append ?_
  cases hi : firstIndex pat (x ++ pat) with
  | none => exact absurd (suffix_append x pat).isInfix (firstIndex_eq_none.1 hi)
  | some i =>
    have hle := firstIndex_add_le hi
    rw [length_append] at hle
    obtain hlt | rfl : i < x.length ∨ i = x.length := by omega
    · -- an occurrence before would end before the mark
      refine absurd ?_ hx
      obtain ⟨w, c, rfl, hc⟩ := hpat
      refine infix_left hc ?_
      obtain ⟨t, ht⟩ := prefix_drop_of_firstIndex hi
      have htne : t ≠ [] := by
        rintro rfl
        have := congrArg length ht
        simp only [length_append, length_drop, length_nil] at this hle
        omega
      obtain ⟨t, d, rfl⟩ := (eq_nil_or_concat' t).resolve_left htne
      refine ⟨(x ++ (w ++ [c])).take i, t, ?_⟩
      have hsplit := take_append_drop i (x ++ (w ++ [c]))
      rw [← ht] at hsplit
      simpa [← append_assoc] using congrArg dropLast hsplit
    · rfl

theorem pieces_append (hpat : IsTerminated pat) :
    pieces false pat (x ++ (pat ++ y)) = pieces false pat x ++ pieces false pat y := by
  induction x using pieces.induct pat with
  | case1 x h =>
    obtain rfl : x = [] := h.resolve_right hpat.ne_nil
    rw [nil_append, pieces_of_firstIndex hpat.ne_nil
      (firstIndex_of_isPrefix (prefix_append _ _))]
    simp
  | case2 x h hnone =>
    have hx := firstIndex_eq_none.1 hnone
    have hne : x ≠ [] := (not_or.1 h).1
    rw [pieces_of_firstIndex hpat.ne_nil (hpat.firstIndex_append hx),
      pieces_of_not_isInfix hpat.ne_nil hne hx, if_neg (by simpa using hne), take_left,
      ← append_assoc, ← length_append, drop_left]
  | case3 x h i hi ih =>
    have hle := firstIndex_add_le hi
    rw [pieces_of_firstIndex hpat.ne_nil (QBittorrent.firstIndex_append hi),
      pieces_of_firstIndex hpat.ne_nil hi, take_append_of_le_length (by omega),
      drop_append_of_le_length hle, ih, append_assoc]

theorem pieces_append_left (hpat : IsTerminated pat) : pieces false pat (pat ++ y) = pieces false pat y := by
  simpa using hpat.pieces_append (x := []) (y := y)

end IsTerminated

end QBittorrent
