import Mathlib.Data.Finset.Basic

/-!
# Lists whose members supersede later ones

A list is walked once.  A member that is taken names keys; later members with these keys are not
taken.  What comes before a member is never looked at again, so the result depends on the order.

* `mem_kept_or` : a valid member is taken, or one that is taken names its key.
-/

namespace QBittorrent

open List

section Superseding

variable {ι κ : Type*} [DecidableEq κ] (key : ι → κ) (supersedes : ι → Finset κ)
  (valid : ι → Prop) [DecidablePred valid]

/-- What is taken of a list if the keys of `skipped` are not. -/
def kept : Finset κ → List ι → List ι
  | _, [] => []
  | skipped, a :: l =>
    if valid a ∧ key a ∉ skipped then a :: kept (skipped ∪ supersedes a) l else kept skipped l

/-- The keys that are not taken behind a list. -/
def skippedAfter : Finset κ → List ι → Finset κ
  | skipped, [] => skipped
  | skipped, a :: l =>
    if valid a ∧ key a ∉ skipped then skippedAfter (skipped ∪ supersedes a) l
    else skippedAfter skipped l

variable {key supersedes valid} {skipped : Finset κ} {l l' : List ι} {a b : ι}

theorem mem_of_mem_kept (h : a ∈ kept key supersedes valid skipped l) :
    a ∈ l ∧ valid a ∧ key a ∉ skipped := by
  induction l generalizing skipped with
  | nil => cases h
  | cons b l ih =>
    rw [kept] at h
    split_ifs at h with hb
    · obtain rfl | h := mem_cons.1 h
      · exact ⟨mem_cons_self, hb⟩
      · obtain ⟨hmem, hvalid, hkey⟩ := ih h
        exact ⟨mem_cons_of_mem _ hmem, hvalid, fun hs => hkey (Finset.mem_union_left _ hs)⟩
    · obtain ⟨hmem, hvalid, hkey⟩ := ih h
      exact ⟨mem_cons_of_mem _ hmem, hvalid, hkey⟩

theorem mem_skippedAfter {k : κ} : k ∈ skippedAfter key supersedes valid skipped l ↔
    k ∈ skipped ∨ ∃ a ∈ kept key supersedes valid skipped l, k ∈ supersedes a := by
  induction l generalizing skipped with
  | nil => simp [skippedAfter, kept]
  | cons b l ih =>
    rw [skippedAfter, kept]
    split_ifs with hb
    · rw [ih, Finset.mem_union, or_assoc]
      simp
    · exact ih

theorem kept_append : kept key supersedes valid skipped (l ++ l') =
    kept key supersedes valid skipped l ++
      kept key supersedes valid (skippedAfter key supersedes valid skipped l) l' := by
  induction l generalizing skipped with
  | nil => rfl
  | cons b l ih =>
    rw [cons_append, kept, kept, skippedAfter]
    split_ifs with hb
    · rw [ih, cons_append]
    · exact ih

theorem mem_kept_or (ha : a ∈ l) (hvalid : valid a) :
    a ∈ kept key supersedes valid skipped l ∨ key a ∈ skipped ∨
      ∃ b ∈ kept key supersedes valid skipped l, key a ∈ supersedes b := by
  induction l generalizing skipped with
  | nil => cases ha
  | cons c l ih =>
    rw [kept]
    split_ifs with hc
    · obtain rfl | ha := mem_cons.1 ha
      · exact .inl mem_cons_self
      · obtain h | h | ⟨b, hb, h⟩ := @ih (skipped ∪ supersedes c) ha
        · exact .inl (mem_cons_of_mem _ h)
        · obtain h | h := Finset.mem_union.1 h
          · exact .inr (.inl h)
          · exact .inr (.inr ⟨c, mem_cons_self, h⟩)
        · exact .inr (.inr ⟨b, mem_cons_of_mem _ hb, h⟩)
    · obtain rfl | ha := mem_cons.1 ha
      · exact .inr (.inl (by_contra fun h => hc ⟨hvalid, h⟩))
      · exact ih ha

theorem pairwise_kept {R : ι → ι → Prop}
    (h : l.Pairwise fun a b => valid a → valid b → key b ∉ supersedes a → R a b) :
    (kept key supersedes valid skipped l).Pairwise R := by
  induction l generalizing skipped with
  | nil => exact .nil
  | cons c l ih =>
    obtain ⟨hc, hl⟩ := pairwise_cons.1 h
    rw [kept]
    split_ifs with hvalid
    · refine pairwise_cons.2 ⟨fun b hb => ?_, ih hl⟩
      obtain ⟨hmem, hb', hkey⟩ := mem_of_mem_kept hb
      exact hc b hmem hvalid.1 hb' fun hs => hkey (Finset.mem_union_right _ hs)
    · exact ih hl

end Superseding

end QBittorrent
