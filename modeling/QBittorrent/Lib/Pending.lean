import Mathlib.Data.Finset.Basic

/-!
# Pending sets over a snapshot

A server that answers with differences keeps a snapshot of the live data and two sets of keys: those
updated and those removed since the snapshot was taken.  `Pending.Tracks` says that the two sets
explain the distance between snapshot and live data: an updated key is live, a removed key is
not, and at every other key the snapshot agrees with the live data (under a relation `R` between
stored and live values).

* `Tracks.step` : a change of the live data;
* `Tracks.flush` : nothing is pending then.
-/

namespace QBittorrent

open Finset Multiset

namespace Pending

variable {K V W : Type*}

section Lists

variable [DecidableEq K]

theorem count_sub_add_val (m : Multiset K) (s s' : Finset K) (k : K) :
    (m - s.val + s'.val).count k =
      m.count k - (if k ∈ s then 1 else 0) + (if k ∈ s' then 1 else 0) := by
  rw [count_add, count_sub, count_eq_of_nodup s.nodup,
    count_eq_of_nodup s'.nodup]
  rfl

theorem count_add_sub_val (m : Multiset K) (s s' : Finset K) (k : K) :
    (m + s.val - s'.val).count k =
      m.count k + (if k ∈ s then 1 else 0) - (if k ∈ s' then 1 else 0) := by
  rw [count_sub, count_add, count_eq_of_nodup s.nodup,
    count_eq_of_nodup s'.nodup]
  rfl

end Lists

/-! ### Tracking -/

/-- The pending sets `updated` and `removed` explain the distance between `snapshot` and `live`. -/
structure Tracks (R : V → W → Prop) (updated removed : Finset K) (snapshot : K → Option V)
    (live : K → Option W) : Prop where
  isSome_of_updated : ∀ k ∈ updated, (live k).isSome
  eq_none_of_removed : ∀ k ∈ removed, live k = none
  rel : ∀ k, k ∉ updated → k ∉ removed → Option.Rel R (snapshot k) (live k)

namespace Tracks

variable {R : V → W → Prop} {updated removed updated' removed' : Finset K}
  {snapshot snapshot' : K → Option V} {live live' : K → Option W} {k : K}

theorem of_rel (h : ∀ k, Option.Rel R (snapshot k) (live k)) : Tracks R ∅ ∅ snapshot live :=
  ⟨by simp, by simp, fun k _ _ => h k⟩

section

variable (h : Tracks R updated removed snapshot live)

include h

theorem step (hu : ∀ k ∈ updated', (live' k).isSome) (hr : ∀ k ∈ removed', live' k = none)
    (hrest : ∀ k, k ∉ updated' → k ∉ removed' → k ∉ updated ∧ k ∉ removed ∧ live' k = live k) :
    Tracks R updated' removed' snapshot live' := by
  refine ⟨hu, hr, fun k hku hkr => ?_⟩
  obtain ⟨h1, h2, h3⟩ := hrest k hku hkr
  rw [h3]
  exact h.rel k h1 h2

theorem mono {S : V → W → Prop} (hRS : ∀ v w, R v w → S v w) :
    Tracks S updated removed snapshot live := by
  refine ⟨h.isSome_of_updated, h.eq_none_of_removed, fun k hu hr => ?_⟩
  have hrel := h.rel k hu hr
  generalize snapshot k = o, live k = o' at hrel ⊢
  cases hrel with
  | some hvw => exact .some (hRS _ _ hvw)
  | none => exact .none

theorem notMem_removed_of_updated (hk : k ∈ updated) : k ∉ removed := by
  intro hr
  have := h.isSome_of_updated k hk
  rw [h.eq_none_of_removed k hr] at this
  cases this

theorem mem_updated_of_fresh (hs : snapshot k = none) (hl : (live k).isSome) : k ∈ updated := by
  by_contra hu
  have hr : k ∉ removed := by
    intro hr
    rw [h.eq_none_of_removed k hr] at hl
    cases hl
  have := h.rel k hu hr
  rw [hs] at this
  generalize live k = o at this hl
  cases this
  cases hl

theorem mem_removed_of_gone (hs : (snapshot k).isSome) (hl : live k = none) : k ∈ removed := by
  by_contra hr
  have hu : k ∉ updated := by
    intro hu
    have := h.isSome_of_updated k hu
    rw [hl] at this
    cases this
  have := h.rel k hu hr
  rw [hl] at this
  generalize snapshot k = o at this hs
  cases this
  cases hs

end

variable [DecidableEq K]

section

variable (h : Tracks R updated removed snapshot live)

include h

theorem update (hk : (live' k).isSome) (hne : ∀ k', k' ≠ k → live' k' = live k') :
    Tracks R (insert k updated) (removed.erase k) snapshot live' := by
  refine h.step (fun k' hk' => ?_) (fun k' hk' => ?_) fun k' hu hr => ?_
  · by_cases hkk : k' = k
    · exact hkk ▸ hk
    · rw [hne k' hkk]
      exact h.isSome_of_updated k' (mem_of_mem_insert_of_ne hk' hkk)
  · rw [hne k' (ne_of_mem_erase hk')]
    exact h.eq_none_of_removed k' (Finset.mem_of_mem_erase hk')
  · rw [mem_insert, not_or] at hu
    exact ⟨hu.2, fun hr' => hr (mem_erase.2 ⟨hu.1, hr'⟩), hne k' hu.1⟩

theorem touch (hk : (live' k).isSome) (hlive : (live k).isSome)
    (hne : ∀ k', k' ≠ k → live' k' = live k') :
    Tracks R (insert k updated) removed snapshot live' := by
  have hr : k ∉ removed := fun hr => by
    rw [h.eq_none_of_removed k hr] at hlive
    cases hlive
  have := h.update hk hne
  rwa [erase_eq_of_notMem hr] at this

theorem remove (hk : live' k = none) (hne : ∀ k', k' ≠ k → live' k' = live k') :
    Tracks R (updated.erase k) (insert k removed) snapshot live' := by
  refine h.step (fun k' hk' => ?_) (fun k' hk' => ?_) fun k' hu hr => ?_
  · rw [hne k' (ne_of_mem_erase hk')]
    exact h.isSome_of_updated k' (Finset.mem_of_mem_erase hk')
  · by_cases hkk : k' = k
    · exact hkk ▸ hk
    · rw [hne k' hkk]
      exact h.eq_none_of_removed k' (mem_of_mem_insert_of_ne hk' hkk)
  · rw [mem_insert, not_or] at hr
    exact ⟨fun hu' => hu (mem_erase.2 ⟨hr.1, hu'⟩), hr.2, hne k' hr.1⟩

end

omit [DecidableEq K] in
theorem flush (h : Tracks R updated removed snapshot live) (snapshot' : K → Option V)
    (hu : ∀ k ∈ updated, Option.Rel R (snapshot' k) (live k))
    (hr : ∀ k ∈ removed, snapshot' k = none)
    (hrest : ∀ k, k ∉ updated → k ∉ removed → snapshot' k = snapshot k) (k : K) :
    Option.Rel R (snapshot' k) (live k) := by
  by_cases hku : k ∈ updated
  · exact hu k hku
  · by_cases hkr : k ∈ removed
    · rw [hr k hkr, h.eq_none_of_removed k hkr]
      exact .none
    · rw [hrest k hku hkr]
      exact h.rel k hku hkr

end Tracks

variable {o : Option V} {R : V → W → Prop}

theorem rel_some_right {w : W} : Option.Rel R o (some w) ↔ ∃ v, o = some v ∧ R v w := by
  constructor
  · rintro (h | _)
    exact ⟨_, rfl, h⟩
  · rintro ⟨v, rfl, h⟩
    exact .some h

theorem rel_none_right : Option.Rel R o none ↔ o = none := by
  constructor
  · rintro (_ | _)
    rfl
  · rintro rfl
    exact .none

theorem rel_eq_iff {o' : Option V} : Option.Rel Eq o o' ↔ o = o' := by
  constructor
  · rintro (rfl | _) <;> rfl
  · rintro rfl
    cases o
    · exact .none
    · exact .some rfl

end Pending

end QBittorrent
