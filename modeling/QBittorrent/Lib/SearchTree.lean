import Mathlib.Data.List.Basic
import Mathlib.Data.List.TakeWhile
import Mathlib.Data.List.Pairwise

/-!
# Search trees whose order may be lost

An ordered container is a binary tree that searches go down.  Where the elements change their keys
while they are in the tree, searches still go down the same way but need not find what they look
for.  Here a search is what it does in any tree, and what it finds is known where the elements that
have a property come after those that have not.

* `SearchTree.toList_insert` : where a new element is put;
* `SearchTree.firstFound_eq` : the lower bound.
-/

namespace QBittorrent

open List

variable {α : Type*}

/-- Binary trees. -/
inductive SearchTree (α : Type*) where
  | leaf
  | node (left : SearchTree α) (a : α) (right : SearchTree α)

namespace SearchTree

/-- The elements in their order. -/
def toList : SearchTree α → List α
  | leaf => []
  | node left a right => left.toList ++ a :: right.toList

/-- Insert `b`, where `less x` says that `b` is less than `x`. -/
def insert (less : α → Bool) (b : α) : SearchTree α → SearchTree α
  | leaf => node leaf b leaf
  | node left a right =>
    if less a then node (left.insert less b) a right else node left a (right.insert less b)

/-- The lower bound of the elements with the property `p`. -/
def firstFound (p : α → Bool) : SearchTree α → Option α
  | leaf => none
  | node left a right => if p a then (left.firstFound p).or (some a) else right.firstFound p

/-- The elements with the property `p` come after those without. -/
def Partitioned (p : α → Bool) (l : List α) : Prop := l.Pairwise fun a b => p a = true → p b = true

@[simp] theorem toList_leaf : (leaf : SearchTree α).toList = [] := rfl

@[simp] theorem toList_node (left right : SearchTree α) (a : α) :
    (node left a right).toList = left.toList ++ a :: right.toList := rfl

variable {p less : α → Bool} {l l' : List α} {a b : α} {t : SearchTree α}

theorem Partitioned.left (h : Partitioned p (l ++ l')) :
    Partitioned p l := (pairwise_append.1 h).1

theorem Partitioned.right (h : Partitioned p (l ++ l')) :
    Partitioned p l' := (pairwise_append.1 h).2.1

theorem Partitioned.eq_false (h : Partitioned p (l ++ a :: l')) (ha : p a = false) (hb : b ∈ l) :
    p b = false := by
  have := (pairwise_append.1 h).2.2 b hb a mem_cons_self
  cases hp : p b with
  | false => rfl
  | true => rw [this hp] at ha; cases ha

theorem Partitioned.of_mem_dropWhile (h : Partitioned p l) (ha : a ∈ l.dropWhile fun x => !p x) :
    p a = true := by
  induction l with
  | nil => cases ha
  | cons b l ih =>
    cases hb : p b with
    | true =>
      rw [dropWhile_cons_of_neg (by simp [hb])] at ha
      obtain rfl | ha := mem_cons.1 ha
      · exact hb
      · exact (pairwise_cons.1 h).1 a ha hb
    | false =>
      rw [dropWhile_cons_of_pos (by simp [hb])] at ha
      exact ih (pairwise_cons.1 h).2 ha

theorem dropWhile_ne_eq [DecidableEq α] (h : l.find? p = some a) :
    l.dropWhile (fun x => decide (x ≠ a)) = l.dropWhile fun x => !p x := by
  induction l with
  | nil => rfl
  | cons b l ih =>
    cases hb : p b with
    | true =>
      rw [find?_cons_of_pos hb] at h
      cases h
      rw [dropWhile_cons_of_neg (by simp), dropWhile_cons_of_neg (by simp [hb])]
    | false =>
      rw [find?_cons_of_neg (by simp [hb])] at h
      have hne : b ≠ a := by
        rintro rfl
        rw [find?_some h] at hb
        cases hb
      rw [dropWhile_cons_of_pos (by simp [hne]), dropWhile_cons_of_pos (by simp [hb]), ih h]

theorem toList_insert (h : Partitioned less t.toList) :
    (t.insert less b).toList =
      t.toList.takeWhile (fun a => !less a) ++ b :: t.toList.dropWhile (fun a => !less a) := by
  induction t with
  | leaf => rfl
  | node left a right ihl ihr =>
    have hl : Partitioned less left.toList := h.left
    have hr : Partitioned less right.toList := (pairwise_cons.1 h.right).2
    cases ha : less a with
    | true =>
      have htake : (left.toList ++ a :: right.toList).takeWhile (fun x => !less x) =
          left.toList.takeWhile (fun x => !less x) := by
        rw [takeWhile_append]
        split_ifs with hall
        · rw [(takeWhile_sublist _).eq_of_length hall]
          simp [ha]
        · rfl
      have hdrop : (left.toList ++ a :: right.toList).dropWhile (fun x => !less x) =
          left.toList.dropWhile (fun x => !less x) ++ a :: right.toList := by
        rw [dropWhile_append]
        split_ifs with hall
        · rw [isEmpty_iff.1 hall]
          simp [ha]
        · rfl
      simp [insert, ha, ihl hl, htake, hdrop]
    | false =>
      have hall : ∀ x ∈ left.toList, (!less x) = true := fun x hx => by
        rw [h.eq_false ha hx]
        rfl
      simp [insert, ha, ihr hr, takeWhile_append_of_pos hall, dropWhile_append_of_pos hall]

theorem mem_toList_insert : a ∈ (t.insert less b).toList ↔ a = b ∨ a ∈ t.toList := by
  induction t with
  | leaf => simp [insert]
  | node left x right ihl ihr =>
    unfold insert
    split_ifs <;> simp only [toList_node, mem_append, mem_cons, ihl, ihr] <;> tauto

theorem rel_or_rel_of_pairwise {R : α → α → Prop} (h : l.Pairwise R) (ha : a ∈ l) (hb : b ∈ l)
    (hab : a ≠ b) : R a b ∨ R b a := by
  have : Std.Symm fun a b => R a b ∨ R b a := ⟨fun _ _ => Or.symm⟩
  have hboth : l.Pairwise fun a b => R a b ∨ R b a := h.imp Or.inl
  exact hboth.forall ha hb hab

theorem firstFound_eq (h : Partitioned p t.toList) : t.firstFound p = t.toList.find? p := by
  induction t with
  | leaf => rfl
  | node left a right ihl ihr =>
    have hl : Partitioned p left.toList := h.left
    have hr : Partitioned p right.toList := (pairwise_cons.1 h.right).2
    cases ha : p a with
    | true => simp [firstFound, ha, ihl hl]
    | false =>
      have hnone : left.toList.find? p = none := find?_eq_none.2 fun x hx => by
        rw [h.eq_false ha hx]
        exact Bool.false_ne_true
      simp [firstFound, ha, ihr hr, hnone]

end SearchTree

/-- How a container keeps its tree: the shape after an insertion, and the removal of an element. -/
structure Balancing (α : Type*) [DecidableEq α] where
  balance : SearchTree α → SearchTree α
  erase : α → SearchTree α → SearchTree α
  toList_balance : ∀ t, (balance t).toList = t.toList
  toList_erase : ∀ a t, (erase a t).toList = t.toList.erase a

end QBittorrent
