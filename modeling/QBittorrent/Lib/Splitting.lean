import QBittorrent.Lib.Search

/-!
# The parts of a list between separators

A separator may overlap itself, so that its occurrences in a list do not say where the list is split.
`Splits sep l parts` says it: each part ends at the leftmost occurrence behind the part before.

* `Splits.unique`, `exists_splits` : there is one way to split a list;
* `Splits.join_eq` : the parts with the separators between them are the list;
* `Splits.not_infix` : no part contains the separator;
-/

namespace QBittorrent

open List

variable {α : Type*}

/-- The parts between the leftmost occurrences of `sep` that do not overlap. -/
inductive Splits (sep : List α) : List α → List (List α) → Prop
  | last {l : List α} (h : ¬ sep <:+: l) : Splits sep l [l]
  | part {p l : List α} {parts : List (List α)}
    (h : ∀ n < p.length, ¬ sep <+: (p ++ (sep ++ l)).drop n) (hparts : Splits sep l parts) :
    Splits sep (p ++ (sep ++ l)) (p :: parts)

/-- The parts with the separators between them. -/
def joinParts (sep : List α) : List (List α) → List α
  | [] => []
  | [p] => p
  | p :: parts => p ++ (sep ++ joinParts sep parts)

section FirstIndex

variable [DecidableEq α] {sep p l : List α} {i : ℕ}

theorem firstIndex_eq_some_iff (hsep : sep ≠ []) : firstIndex sep l = some i ↔
    (∀ n < i, ¬ sep <+: l.drop n) ∧ sep <+: l.drop i := by
  induction l generalizing i with
  | nil => simp [firstIndex, hsep]
  | cons a l ih =>
    rw [firstIndex]
    by_cases hprefix : sep <+: a :: l
    · rw [if_pos hprefix]
      constructor
      · intro h
        cases h
        exact ⟨fun n hn => absurd hn n.not_lt_zero, hprefix⟩
      · rintro ⟨hbefore, -⟩
        cases i with
        | zero => rfl
        | succ i => exact absurd hprefix (hbefore 0 i.succ_pos)
    · rw [if_neg hprefix, Option.map_eq_some_iff]
      constructor
      · rintro ⟨i, hi, rfl⟩
        obtain ⟨hbefore, hat⟩ := ih.1 hi
        refine ⟨fun n hn => ?_, hat⟩
        cases n with
        | zero => exact hprefix
        | succ n => exact hbefore n (Nat.lt_of_succ_lt_succ hn)
      · rintro ⟨hbefore, hat⟩
        cases i with
        | zero => exact absurd hat hprefix
        | succ i => exact ⟨i, ih.2 ⟨fun n hn => hbefore (n + 1) (Nat.succ_lt_succ hn), hat⟩, rfl⟩

theorem firstIndex_part (hsep : sep ≠ []) (h : ∀ n < p.length, ¬ sep <+: (p ++ (sep ++ l)).drop n) :
    firstIndex sep (p ++ (sep ++ l)) = some p.length := by
  rw [firstIndex_eq_some_iff hsep, drop_left]
  exact ⟨h, prefix_append sep l⟩

theorem exists_part (hsep : sep ≠ []) (h : firstIndex sep l = some i) :
    l = l.take i ++ (sep ++ l.drop (i + sep.length)) ∧
      ∀ n < (l.take i).length, ¬ sep <+: (l.take i ++ (sep ++ l.drop (i + sep.length))).drop n := by
  obtain ⟨hbefore, rest, hrest⟩ := (firstIndex_eq_some_iff hsep).1 h
  have hdrop : l.drop (i + sep.length) = rest := by
    rw [← drop_drop, ← hrest, drop_left]
  have hl : l = l.take i ++ (sep ++ l.drop (i + sep.length)) := by
    rw [hdrop, hrest, take_append_drop]
  refine ⟨hl, fun n hn => ?_⟩
  rw [← hl]
  exact hbefore n (hn.trans_le (length_take_le i l))

theorem exists_splits (hsep : sep ≠ []) (l : List α) : ∃ parts, Splits sep l parts := by
  induction hn : l.length using Nat.strong_induction_on generalizing l with
  | _ n ih =>
    cases hi : firstIndex sep l with
    | none => exact ⟨[l], .last (firstIndex_eq_none.1 hi)⟩
    | some i =>
      obtain ⟨hl, hbefore⟩ := exists_part hsep hi
      have hlength := congrArg length hl
      have hpos := length_pos_iff.2 hsep
      simp only [length_append] at hlength
      obtain ⟨parts, hparts⟩ := ih _ (by omega) (l.drop (i + sep.length)) rfl
      rw [hl]
      exact ⟨_, .part hbefore hparts⟩

end FirstIndex

namespace Splits

variable {sep l : List α} {parts parts' : List (List α)}

theorem ne_nil (h : Splits sep l parts) : parts ≠ [] := by
  cases h <;> exact cons_ne_nil _ _

theorem join_eq (h : Splits sep l parts) : joinParts sep parts = l := by
  induction h with
  | last h => rfl
  | @part p l parts h hparts ih =>
    obtain ⟨q, parts, rfl⟩ := exists_cons_of_ne_nil hparts.ne_nil
    rw [joinParts, ih]
    exact cons_ne_nil q parts

variable [DecidableEq α]

theorem not_infix (hsep : sep ≠ []) (h : Splits sep l parts) : ∀ p ∈ parts, ¬ sep <:+: p := by
  induction h with
  | last h =>
    intro p hp
    rwa [mem_singleton.1 hp]
  | @part p l parts h hparts ih =>
    intro q hq
    obtain rfl | hq := mem_cons.1 hq
    · have := not_infix_take hsep (firstIndex_part hsep h)
      rwa [take_left] at this
    · exact ih q hq

theorem unique (hsep : sep ≠ []) (h : Splits sep l parts) (h' : Splits sep l parts') :
    parts = parts' := by
  induction h generalizing parts' with
  | last h =>
    cases h' with
    | last h' => rfl
    | @part p l parts' h' hparts' => exact absurd ⟨p, l, by simp⟩ h
  | @part p l parts h hparts ih =>
    generalize hl : p ++ (sep ++ l) = k at h'
    cases h' with
    | last h' => exact absurd ⟨p, l, by rw [← hl]; simp⟩ h'
    | @part p' l' parts' h' hparts' =>
      -- both parts end at the first occurrence
      have hfirst := firstIndex_part hsep h
      rw [hl, firstIndex_part hsep h'] at hfirst
      obtain ⟨rfl, hrest⟩ := append_inj hl (Option.some.inj hfirst).symm
      rw [ih (append_cancel_left hrest ▸ hparts')]

end Splits

end QBittorrent
