import Mathlib.Data.List.Nodup

/-!
# Moving members of a list

A member of a list without repetitions is moved one place, or to an end; and then several members
are, one after the other.

* `raise_kept`, `lower_kept` : the order that is kept;
* `foldl_moveFront` : the last one moved is first.
-/

namespace QBittorrent.Reorder

open List

variable {α : Type*} [DecidableEq α]

/-- One place towards the front. -/
def moveUp (x : α) : List α → List α
  | a :: b :: l => if a = x then a :: b :: l else if b = x then b :: a :: l else a :: moveUp x (b :: l)
  | l => l

/-- One place towards the back. -/
def moveDown (x : α) : List α → List α
  | a :: b :: l => if a = x then b :: a :: l else a :: moveDown x (b :: l)
  | l => l

def moveFront (x : α) (l : List α) : List α := if x ∈ l then x :: l.erase x else l

def moveBack (x : α) (l : List α) : List α := if x ∈ l then l.erase x ++ [x] else l

variable {x a : α} {l members : List α} {p q : α → Bool}

theorem moveUp_cons_self (a : α) (l : List α) : moveUp a (a :: l) = a :: l := by
  cases l with
  | nil => rfl
  | cons b l => rw [moveUp, if_pos rfl]

theorem moveUp_cons_of_ne (ha : a ≠ x) (hl : l.head? ≠ some x) :
    moveUp x (a :: l) = a :: moveUp x l := by
  cases l with
  | nil => rfl
  | cons b l =>
    have hb : b ≠ x := fun h => hl (congrArg some h)
    rw [moveUp, if_neg ha, if_neg hb]

theorem moveDown_cons_of_ne (ha : a ≠ x) : moveDown x (a :: l) = a :: moveDown x l := by
  cases l with
  | nil => rfl
  | cons b l => rw [moveDown, if_neg ha]

theorem moveUp_append (front : List α) (l : List α) (hfront : x ∉ front) (ha : a ≠ x) :
    moveUp x (front ++ a :: x :: l) = front ++ x :: a :: l := by
  induction front with
  | nil => rw [nil_append, nil_append, moveUp, if_neg ha, if_pos rfl]
  | cons b front ih =>
    have hb : b ≠ x := fun h => hfront (h ▸ mem_cons_self)
    have hrest : x ∉ front := fun h => hfront (mem_cons_of_mem b h)
    have hhead : (front ++ a :: x :: l).head? ≠ some x := by
      cases front with
      | nil => exact fun h => ha (Option.some.inj h)
      | cons c front => exact fun h => hrest (Option.some.inj h ▸ mem_cons_self)
    rw [cons_append, moveUp_cons_of_ne hb hhead, ih hrest, cons_append]

theorem moveDown_append (front : List α) (a : α) (l : List α) (hfront : x ∉ front) :
    moveDown x (front ++ x :: a :: l) = front ++ a :: x :: l := by
  induction front with
  | nil => rw [nil_append, nil_append, moveDown, if_pos rfl]
  | cons b front ih =>
    have hb : b ≠ x := fun h => hfront (h ▸ mem_cons_self)
    have hrest : x ∉ front := fun h => hfront (mem_cons_of_mem b h)
    rw [cons_append, moveDown_cons_of_ne hb, ih hrest, cons_append]

theorem moveUp_of_notMem (h : x ∉ l) : moveUp x l = l := by
  induction l with
  | nil => rfl
  | cons a l ih =>
    have ha : a ≠ x := fun ha => h (ha ▸ mem_cons_self)
    have hl : x ∉ l := fun hx => h (mem_cons_of_mem a hx)
    rw [moveUp_cons_of_ne ha fun hhead => hl (mem_of_mem_head? hhead), ih hl]

theorem moveDown_of_notMem (h : x ∉ l) : moveDown x l = l := by
  induction l with
  | nil => rfl
  | cons a l ih =>
    have ha : a ≠ x := fun ha => h (ha ▸ mem_cons_self)
    rw [moveDown_cons_of_ne ha, ih fun hx => h (mem_cons_of_mem a hx)]

theorem moveDown_eq (hl : l.Nodup) : moveDown x l = (moveUp x l.reverse).reverse := by
  by_cases hx : x ∈ l
  · obtain ⟨front, back, rfl⟩ := append_of_mem hx
    obtain ⟨-, hcons, hdisjoint⟩ := nodup_append.1 hl
    have hfront : x ∉ front := fun h => hdisjoint x h x mem_cons_self rfl
    obtain ⟨hback, -⟩ := nodup_cons.1 hcons
    cases back with
    | nil =>
      have hlast : ∀ front : List α, x ∉ front → moveDown x (front ++ [x]) = front ++ [x] := by
        intro front
        induction front with
        | nil => exact fun _ => rfl
        | cons b front ih =>
          intro h
          have hb : b ≠ x := fun hb => h (hb ▸ mem_cons_self)
          rw [cons_append, moveDown_cons_of_ne hb, ih fun hx => h (mem_cons_of_mem b hx)]
      rw [hlast front hfront, reverse_append, reverse_singleton, singleton_append,
        moveUp_cons_self, reverse_cons, reverse_reverse]
    | cons a back =>
      have ha : a ≠ x := fun h => hback (h ▸ mem_cons_self)
      have hx : x ∉ back.reverse := fun h => hback (mem_cons_of_mem a (mem_reverse.1 h))
      have hreverse : (front ++ x :: a :: back).reverse = back.reverse ++ a :: x :: front.reverse := by
        simp
      rw [moveDown_append front a back hfront, hreverse, moveUp_append _ _ hx ha]
      simp
  · rw [moveDown_of_notMem hx, moveUp_of_notMem fun h => hx (mem_reverse.1 h),
      reverse_reverse]

theorem moveBack_eq (hl : l.Nodup) : moveBack x l = (moveFront x l.reverse).reverse := by
  rw [moveBack, moveFront]
  by_cases hx : x ∈ l
  · rw [if_pos hx, if_pos (mem_reverse.2 hx), reverse_cons,
      (nodup_reverse.2 hl).erase_eq_filter, hl.erase_eq_filter, filter_reverse,
      reverse_reverse]
  · rw [if_neg hx, if_neg fun h => hx (mem_reverse.1 h), reverse_reverse]

/-! ### Several members up -/

/-- The list `a :: l` after the members of `l` that satisfy `p` went past `a` and what takes its
place. -/
def carry (p : α → Bool) : α → List α → List α
  | a, [] => [a]
  | a, b :: l => if p b then b :: carry p a l else a :: carry p b l

theorem foldl_moveUp (front : List α) (a : α) (h : (front ++ a :: l).Nodup) :
    (l.filter p).foldl (fun l x => moveUp x l) (front ++ a :: l) = front ++ carry p a l := by
  induction l generalizing front a with
  | nil => rfl
  | cons b l ih =>
    have hassoc : front ++ a :: b :: l = (front ++ [a]) ++ b :: l := by simp
    by_cases hb : p b = true
    · have hcons := (nodup_append.1 h).2.1
      have hfront : b ∉ front := fun hmem =>
        (nodup_append.1 h).2.2 b hmem b (mem_cons_of_mem a mem_cons_self) rfl
      have hab : a ≠ b := fun hab => (nodup_cons.1 hcons).1 (hab ▸ mem_cons_self)
      have hmoved : front ++ b :: a :: l = (front ++ [b]) ++ a :: l := by simp
      have hnodup : ((front ++ [b]) ++ a :: l).Nodup := by
        rw [← hmoved]
        exact ((Perm.swap b a l).append_left front).nodup_iff.1 h
      rw [filter_cons_of_pos hb, foldl_cons, moveUp_append front l hfront hab, hmoved,
        ih (front ++ [b]) a hnodup, carry, if_pos hb]
      simp
    · rw [filter_cons_of_neg hb, hassoc, ih (front ++ [a]) b (hassoc ▸ h), carry, if_neg hb]
      simp

section

omit [DecidableEq α]

theorem filter_carry_of_imp (hq : ∀ x, q x = true → p x = true) (a : α) (l : List α)
    (ha : p a = false) : (carry p a l).filter q = l.filter q := by
  induction l generalizing a with
  | nil =>
    have hqa : ¬ q a = true := fun h => by rw [hq a h] at ha; cases ha
    rw [carry, filter_cons_of_neg hqa]
  | cons b l ih =>
    rw [carry]
    by_cases hb : p b = true
    · rw [if_pos hb, filter_cons, filter_cons, ih a ha]
    · have hqa : ¬ q a = true := fun h => by rw [hq a h] at ha; cases ha
      have hqb : ¬ q b = true := fun h => hb (hq b h)
      rw [if_neg hb, filter_cons_of_neg hqa, filter_cons_of_neg hqb,
        ih b (Bool.eq_false_iff.2 hb)]

theorem filter_carry_of_not (hq : ∀ x, q x = true → p x = false) (a : α) (l : List α) :
    (carry p a l).filter q = (a :: l).filter q := by
  induction l generalizing a with
  | nil => rfl
  | cons b l ih =>
    rw [carry]
    by_cases hb : p b = true
    · have hqb : ¬ q b = true := fun h => by rw [hq b h] at hb; cases hb
      rw [if_pos hb, filter_cons_of_neg hqb, ih a, filter_cons, filter_cons,
        filter_cons_of_neg hqb]
    · rw [if_neg hb, filter_cons, ih b, filter_cons (x := a)]

end

theorem idxOf_carry_le (hq : ∀ x, p x = true → q x = true) (hx : p x = true) (a : α) (l : List α)
    (ha : p a = false) : ((carry p a l).filter q).idxOf x ≤ ((a :: l).filter q).idxOf x := by
  have hne : ∀ b, p b = false → b ≠ x := fun b hb h => by rw [h, hx] at hb; cases hb
  induction l generalizing a with
  | nil => exact Nat.le_refl _
  | cons b l ih =>
    rw [carry]
    by_cases hb : p b = true
    · have hstep := ih a ha
      rw [if_pos hb, filter_cons_of_pos (hq b hb)]
      by_cases hqa : q a = true
      · rw [filter_cons_of_pos hqa] at hstep ⊢
        rw [filter_cons_of_pos (hq b hb), idxOf_cons_ne _ (hne a ha)]
        rw [idxOf_cons_ne _ (hne a ha)] at hstep
        by_cases hbx : b = x
        · rw [hbx, idxOf_cons_self]
          exact Nat.zero_le _
        · rw [idxOf_cons_ne _ hbx, idxOf_cons_ne _ hbx]
          exact Nat.succ_le_succ hstep
      · rw [filter_cons_of_neg hqa] at hstep ⊢
        rw [filter_cons_of_pos (hq b hb)]
        by_cases hbx : b = x
        · rw [hbx, idxOf_cons_self]
          exact Nat.zero_le _
        · rw [idxOf_cons_ne _ hbx, idxOf_cons_ne _ hbx]
          exact Nat.succ_le_succ hstep
    · have hstep := ih b (Bool.eq_false_iff.2 hb)
      rw [if_neg hb]
      by_cases hqa : q a = true
      · rw [filter_cons_of_pos hqa, filter_cons_of_pos hqa,
          idxOf_cons_ne _ (hne a ha), idxOf_cons_ne _ (hne a ha)]
        exact Nat.succ_le_succ hstep
      · rw [filter_cons_of_neg hqa, filter_cons_of_neg hqa]
        exact hstep

theorem moveUp_perm : (moveUp x l).Perm l := by
  induction l with
  | nil => exact Perm.refl _
  | cons a l ih =>
    cases l with
    | nil => exact Perm.refl _
    | cons b l =>
      rw [moveUp]
      split_ifs with ha hb
      · exact Perm.refl _
      · exact Perm.swap a b l
      · exact ih.cons a

theorem foldl_moveUp_perm (members l : List α) :
    (members.foldl (fun l x => moveUp x l) l).Perm l := by
  induction members generalizing l with
  | nil => exact Perm.refl l
  | cons x members ih => exact (ih _).trans moveUp_perm

/-- The members that satisfy `p`, moved up from the front on. -/
def raise (p : α → Bool) (l : List α) : List α := (l.filter p).foldl (fun l x => moveUp x l) l

/-- The members that satisfy `p`, moved down from the back on. -/
def lower (p : α → Bool) (l : List α) : List α :=
  (l.filter p).reverse.foldl (fun l x => moveDown x l) l

/-- The two members in front do not both satisfy `p`. -/
def FrontFree (p : α → Bool) (l : List α) : Prop := ((l.take 2).filter p).length < 2
  deriving Decidable

section

variable (hl : l.Nodup)

include hl

theorem raise_eq (h : FrontFree p l) :
    (l = raise p l ∧ l.length ≤ 1) ∨
    (∃ a rest, l = a :: rest ∧ p a = false ∧ raise p l = carry p a rest) ∨
    (∃ a b rest, l = a :: b :: rest ∧ p a = true ∧ p b = false ∧
      raise p l = a :: carry p b rest) := by
  cases l with
  | nil => exact .inl ⟨rfl, Nat.zero_le _⟩
  | cons a rest =>
    by_cases ha : p a = true
    · cases rest with
      | nil =>
        refine .inl ⟨?_, Nat.le_refl _⟩
        rw [raise, filter_cons_of_pos ha]
        rfl
      | cons b rest =>
        have hb : p b = false := by
          by_contra hb
          rw [FrontFree, take_succ_cons, take_succ_cons, filter_cons_of_pos ha,
            filter_cons_of_pos (Bool.not_eq_false _ ▸ hb)] at h
          exact absurd h (by simp)
        refine .inr (.inr ⟨a, b, rest, rfl, ha, hb, ?_⟩)
        rw [raise, filter_cons_of_pos ha, filter_cons_of_neg (Bool.eq_false_iff.1 hb),
          foldl_cons, moveUp_cons_self]
        exact foldl_moveUp [a] b hl
    · refine .inr (.inl ⟨a, rest, rfl, Bool.eq_false_iff.2 ha, ?_⟩)
      rw [raise, filter_cons_of_neg ha]
      exact foldl_moveUp [] a hl

theorem raise_kept (h : FrontFree p l) :
    ((∀ x, q x = true → p x = true) → (raise p l).filter q = l.filter q) ∧
    ((∀ x, q x = true → p x = false) → (raise p l).filter q = l.filter q) ∧
    ((∀ x, p x = true → q x = true) → ∀ x, p x = true →
      ((raise p l).filter q).idxOf x ≤ (l.filter q).idxOf x) := by
  obtain ⟨hsame, -⟩ | ⟨a, rest, rfl, ha, hraise⟩ | ⟨a, b, rest, rfl, ha, hb, hraise⟩ :=
    raise_eq hl h
  · rw [← hsame]
    exact ⟨fun _ => rfl, fun _ => rfl, fun _ _ _ => Nat.le_refl _⟩
  · rw [hraise]
    refine ⟨fun hq => ?_, fun hq => filter_carry_of_not hq a rest, fun hq x hx =>
      idxOf_carry_le hq hx a rest ha⟩
    have hqa : ¬ q a = true := fun hqa => by rw [hq a hqa] at ha; cases ha
    rw [filter_carry_of_imp hq a rest ha, filter_cons_of_neg hqa]
  · rw [hraise]
    refine ⟨fun hq => ?_, fun hq => ?_, fun hq x hx => ?_⟩
    · have hqb : ¬ q b = true := fun hqb => by rw [hq b hqb] at hb; cases hb
      rw [filter_cons, filter_cons, filter_carry_of_imp hq b rest hb,
        filter_cons_of_neg hqb]
    · rw [filter_cons, filter_cons, filter_carry_of_not hq b rest]
    · rw [filter_cons_of_pos (hq a ha), filter_cons_of_pos (hq a ha)]
      by_cases hax : a = x
      · rw [hax, idxOf_cons_self]
        exact Nat.zero_le _
      · rw [idxOf_cons_ne _ hax, idxOf_cons_ne _ hax]
        exact Nat.succ_le_succ (idxOf_carry_le hq hx b rest hb)

theorem raise_swaps (h : ¬ FrontFree p l) :
    ∃ a b rest rest', a ≠ b ∧ p a = true ∧ p b = true ∧ l = a :: b :: rest ∧
      raise p l = b :: rest' := by
  have hlength : ((l.take 2).filter p).length ≤ (l.take 2).length := length_filter_le _ _
  obtain ⟨a, b, rest, rfl⟩ : ∃ a b rest, l = a :: b :: rest := by
    cases l with
    | nil => exact absurd (Nat.zero_lt_two : FrontFree p []) h
    | cons a l =>
      cases l with
      | nil =>
        simp only [take_succ_cons, take_nil, length_cons, length_nil] at hlength
        exact absurd (Nat.lt_of_le_of_lt hlength (by decide)) h
      | cons b rest => exact ⟨a, b, rest, rfl⟩
  have hab : a ≠ b := fun hab => (nodup_cons.1 hl).1 (hab ▸ mem_cons_self)
  have hboth : p a = true ∧ p b = true := by
    by_contra hnot
    refine h ?_
    rw [FrontFree, take_succ_cons, take_succ_cons, take_zero]
    cases ha : p a <;> cases hb : p b <;> simp_all
  obtain ⟨ha, hb⟩ := hboth
  have hnodup : ([b] ++ a :: rest).Nodup :=
    (Perm.swap b a rest).nodup_iff.1 hl
  refine ⟨a, b, rest, carry p a rest, hab, ha, hb, rfl, ?_⟩
  rw [raise, filter_cons_of_pos ha, filter_cons_of_pos hb, foldl_cons,
    moveUp_cons_self, foldl_cons, moveUp, if_neg hab, if_pos rfl]
  exact foldl_moveUp [b] a hnodup

theorem foldl_moveDown :
    members.foldl (fun l x => moveDown x l) l =
      (members.foldl (fun l x => moveUp x l) l.reverse).reverse := by
  induction members generalizing l with
  | nil => exact (reverse_reverse l).symm
  | cons x members ih =>
    have hmoved : (moveDown x l).Nodup := by
      rw [moveDown_eq hl, nodup_reverse]
      exact moveUp_perm.nodup_iff.2 (nodup_reverse.2 hl)
    rw [foldl_cons, foldl_cons, ih hmoved, moveDown_eq hl, reverse_reverse]

theorem lower_eq : lower p l = (raise p l.reverse).reverse := by
  rw [lower, raise, foldl_moveDown hl, filter_reverse]

theorem idxOf_reverse (hx : x ∈ l) : l.reverse.idxOf x + l.idxOf x + 1 = l.length := by
  obtain ⟨front, back, rfl⟩ := append_of_mem hx
  obtain ⟨-, hcons, hdisjoint⟩ := nodup_append.1 hl
  have hfront : x ∉ front := fun h => hdisjoint x h x mem_cons_self rfl
  have hback : x ∉ back.reverse := fun h => (nodup_cons.1 hcons).1 (mem_reverse.1 h)
  rw [reverse_append, reverse_cons, append_assoc, singleton_append,
    idxOf_append_of_notMem hback, idxOf_append_of_notMem hfront, idxOf_cons_self,
    idxOf_cons_self, length_append, length_cons, length_reverse]
  omega

theorem lower_kept (h : FrontFree p l.reverse) :
    ((∀ x, q x = true → p x = true) → (lower p l).filter q = l.filter q) ∧
    ((∀ x, q x = true → p x = false) → (lower p l).filter q = l.filter q) ∧
    ((∀ x, p x = true → q x = true) → ∀ x, p x = true →
      (l.filter q).idxOf x ≤ ((lower p l).filter q).idxOf x) := by
  have hreverse : l.reverse.Nodup := nodup_reverse.2 hl
  obtain ⟨himp, hnot, hle⟩ := raise_kept (q := q) hreverse h
  rw [lower_eq hl, filter_reverse]
  refine ⟨fun hq => ?_, fun hq => ?_, fun hq x hx => ?_⟩
  · rw [himp hq, filter_reverse, reverse_reverse]
  · rw [hnot hq, filter_reverse, reverse_reverse]
  · have hperm : ((raise p l.reverse).filter q).Perm (l.filter q) :=
      ((foldl_moveUp_perm _ _).trans (reverse_perm l)).filter q
    have hnodup : ((raise p l.reverse).filter q).Nodup := hperm.nodup_iff.2 (hl.filter q)
    by_cases hmem : x ∈ l.filter q
    · have hbefore := idxOf_reverse (hl.filter q) hmem
      have hafter := idxOf_reverse hnodup (hperm.mem_iff.2 hmem)
      have hraised := hle hq x hx
      rw [filter_reverse] at hraised
      rw [hperm.length_eq] at hafter
      omega
    · rw [idxOf_eq_length hmem,
        idxOf_eq_length fun h => hmem (hperm.mem_iff.1 (mem_reverse.1 h)),
        length_reverse]
      exact Nat.le_of_eq hperm.length_eq.symm

theorem lower_swaps (h : ¬ FrontFree p l.reverse) :
    ∃ a b rest rest', a ≠ b ∧ p a = true ∧ p b = true ∧ l = rest ++ [b, a] ∧
      lower p l = rest' ++ [b] := by
  obtain ⟨a, b, rest, rest', hab, ha, hb, hreverse, hraise⟩ :=
    raise_swaps (nodup_reverse.2 hl) h
  refine ⟨a, b, rest.reverse, rest'.reverse, hab, ha, hb, ?_, ?_⟩
  · rw [← reverse_reverse l, hreverse]
    simp
  · rw [lower_eq hl, hraise]
    simp

end

/-! ### Several members to an end -/

theorem foldl_moveFront (hl : l.Nodup) (hmembers : members.Nodup) (hsub : ∀ x ∈ members, x ∈ l) :
    members.foldl (fun l x => moveFront x l) l =
      members.reverse ++ l.filter fun x => decide (x ∉ members) := by
  induction members generalizing l with
  | nil => simp
  | cons x members ih =>
    obtain ⟨hx, hrest⟩ := nodup_cons.1 hmembers
    have hxl : x ∈ l := hsub x mem_cons_self
    have hperm : l.Perm (x :: l.erase x) := perm_cons_erase hxl
    have hfront : ∀ y ∈ members, y ∈ x :: l.erase x := fun y hy =>
      hperm.mem_iff.1 (hsub y (mem_cons_of_mem x hy))
    rw [foldl_cons, moveFront, if_pos hxl, ih (hperm.nodup_iff.1 hl) hrest hfront,
      filter_cons_of_pos (by simpa using hx), hl.erase_eq_filter, filter_filter,
      reverse_cons, append_assoc, singleton_append]
    congr 2
    refine filter_congr fun y _ => ?_
    by_cases hyx : y = x <;> simp [hyx, hx]

theorem moveFront_perm : (moveFront x l).Perm l := by
  rw [moveFront]
  split_ifs with h
  · exact (perm_cons_erase h).symm
  · exact Perm.refl l

theorem foldl_moveBack (hl : l.Nodup) (hmembers : members.Nodup) (hsub : ∀ x ∈ members, x ∈ l) :
    members.foldl (fun l x => moveBack x l) l =
      (l.filter fun x => decide (x ∉ members)) ++ members := by
  have hfront : ∀ (members l : List α), l.Nodup → members.foldl (fun l x => moveBack x l) l =
      (members.foldl (fun l x => moveFront x l) l.reverse).reverse := by
    intro members
    induction members with
    | nil => exact fun l _ => (reverse_reverse l).symm
    | cons x members ih =>
      intro l hl
      have hmoved : (moveBack x l).Nodup := by
        rw [moveBack_eq hl, nodup_reverse]
        exact moveFront_perm.nodup_iff.2 (nodup_reverse.2 hl)
      rw [foldl_cons, foldl_cons, ih _ hmoved, moveBack_eq hl, reverse_reverse]
  rw [hfront members l hl, foldl_moveFront (nodup_reverse.2 hl) hmembers
    fun x hx => mem_reverse.2 (hsub x hx), reverse_append, reverse_reverse,
    filter_reverse, reverse_reverse]

theorem filter_moveBack (hx : q x = false) : (moveBack x l).filter q = l.filter q := by
  have hqx : ¬ q x = true := Bool.eq_false_iff.1 hx
  rw [moveBack]
  split_ifs with h
  · obtain ⟨front, back, hfront, rfl, herase⟩ := exists_erase_eq h
    rw [herase]
    simp [filter_append, hqx]
  · rfl

end QBittorrent.Reorder
