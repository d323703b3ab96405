import Mathlib.Data.List.Sort

/-!
# Sorting routines and the orders they ask for

A sorting routine like that of the standard library takes any comparison, but promises something only
where the comparison is a strict weak order of the elements of the list.

* `strictWeakOn_of_key` : orders by a key;
* `SortRoutine.insertion` : there is such a routine.
-/

namespace QBittorrent

variable {α β : Type*}

/-- The comparison is a strict weak order of the elements of the list: it is irreflexive and
transitive, and so is being neither less nor greater. -/
structure StrictWeakOn (lt : α → α → Bool) (l : List α) : Prop where
  irrefl : ∀ a ∈ l, lt a a = false
  trans : ∀ a ∈ l, ∀ b ∈ l, ∀ c ∈ l, lt a b = true → lt b c = true → lt a c = true
  incomparable : ∀ a ∈ l, ∀ b ∈ l, ∀ c ∈ l, lt a b = false → lt b a = false → lt b c = false →
    lt c b = false → lt a c = false

section StrictWeakOn

variable {lt : α → α → Bool} {l : List α}

theorem strictWeakOn_of_key [LinearOrder β] (key : α → β)
    (h : ∀ a ∈ l, ∀ b ∈ l, lt a b = decide (key a < key b)) : StrictWeakOn lt l where
  irrefl a ha := by rw [h a ha a ha, decide_eq_false (lt_irrefl _)]
  trans a ha b hb c hc := by
    rw [h a ha b hb, h b hb c hc, h a ha c hc, decide_eq_true_eq, decide_eq_true_eq, decide_eq_true_eq]
    exact lt_trans
  incomparable a ha b hb c hc := by
    rw [h a ha b hb, h b hb a ha, h b hb c hc, h c hc b hb, h a ha c hc]
    simp only [decide_eq_false_iff_not, not_lt]
    exact fun hba _ hcb _ => hcb.trans hba

theorem strictWeakOn_of_forall_eq_false (h : ∀ a ∈ l, ∀ b ∈ l, lt a b = false) : StrictWeakOn lt l where
  irrefl a ha := h a ha a ha
  trans a ha b hb _ _ hab := absurd hab (Bool.eq_false_iff.1 (h a ha b hb))
  incomparable a ha _ _ c hc _ _ _ _ := h a ha c hc

theorem StrictWeakOn.flip (h : StrictWeakOn lt l) : StrictWeakOn (fun a b => lt b a) l where
  irrefl := h.irrefl
  trans a ha b hb c hc hab hbc := h.trans c hc b hb a ha hbc hab
  incomparable a ha b hb c hc hab hba hbc hcb := h.incomparable c hc b hb a ha hbc hcb hab hba

theorem StrictWeakOn.asymm (h : StrictWeakOn lt l) {a b : α} (ha : a ∈ l) (hb : b ∈ l)
    (hab : lt a b = true) : lt b a = false := by
  refine Bool.eq_false_iff.2 fun hba => ?_
  exact Bool.false_ne_true ((h.irrefl a ha).symm.trans (h.trans a ha b hb a ha hab hba))

theorem StrictWeakOn.not_lt_trans (h : StrictWeakOn lt l) {a b c : α} (ha : a ∈ l) (hb : b ∈ l)
    (hc : c ∈ l) (hba : lt b a = false) (hcb : lt c b = false) : lt c a = false := by
  by_contra hca
  rw [Bool.not_eq_false] at hca
  have hab : lt a b = false := Bool.eq_false_iff.2 fun hab =>
    Bool.false_ne_true (hcb.symm.trans (h.trans c hc a ha b hb hca hab))
  have hbc : lt b c = false := Bool.eq_false_iff.2 fun hbc =>
    Bool.false_ne_true (hba.symm.trans (h.trans b hb c hc a ha hbc hca))
  exact Bool.false_ne_true ((h.incomparable c hc b hb a ha hcb hbc hba hab).symm.trans hca)

end StrictWeakOn

/-- A routine that sorts where the comparison is a strict weak order; elsewhere it may do anything. -/
structure SortRoutine (α : Type*) where
  sort : (α → α → Bool) → List α → List α
  perm : ∀ {lt l}, StrictWeakOn lt l → (sort lt l).Perm l
  sorted : ∀ {lt l}, StrictWeakOn lt l → (sort lt l).Pairwise fun a b => lt b a = false

namespace SortRoutine

def insertion : SortRoutine α where
  sort lt l := l.insertionSort fun a b => lt b a = false
  perm _ := List.perm_insertionSort _ _
  sorted {lt l} h := by
    have htotal : Std.Total fun a b : {a // a ∈ l} => lt b.1 a.1 = false :=
      ⟨fun a b => by
        cases hab : lt b.1 a.1 with
        | false => exact .inl rfl
        | true => exact .inr (h.asymm b.2 a.2 hab)⟩
    have htrans : IsTrans {a // a ∈ l} fun a b => lt b.1 a.1 = false :=
      ⟨fun a b c hab hbc => h.not_lt_trans a.2 b.2 c.2 hab hbc⟩
    have hsorted := List.pairwise_insertionSort
      (fun a b : {a // a ∈ l} => lt b.1 a.1 = false) l.attach
    have hmap := List.map_insertionSort (fun a b : {a // a ∈ l} => lt b.1 a.1 = false)
      (fun a b => lt b a = false) Subtype.val l.attach fun a _ b _ => Iff.rfl
    rw [List.attach_map_subtype_val] at hmap
    rw [← hmap, List.pairwise_map]
    exact hsorted

end SortRoutine

/-! ### Pages -/

theorem flatMap_pages (n k : ℕ) (l : List α) :
    (List.range k).flatMap (fun i => (l.drop (i * n)).take n) = l.take (k * n) := by
  induction k with
  | zero => simp
  | succ k ih =>
    rw [List.range_succ, List.flatMap_append, ih, List.flatMap_singleton, Nat.succ_mul, List.take_add]

end QBittorrent
