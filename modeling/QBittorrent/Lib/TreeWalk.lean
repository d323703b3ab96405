import Mathlib.Data.List.Count
import Mathlib.Data.List.Nodup
import Mathlib.Data.List.Perm.Basic
import QBittorrent.Lib.LeafTree

/-!
# Walks over trees

The trees of a forest and all below them, in the order of two walks.  A tree is shown if its label
is wanted or a tree below it is shown.

* `LeafTree.map_mirroredOf_eq_iff` : **the walks agree on the shown trees exactly if the forest is
  narrow.**
-/

namespace QBittorrent.LeafTree

open List

variable {ι L κ : Type*}

mutual

/-- The tree and those below it. -/
def nodes : LeafTree ι L → List (LeafTree ι L)
  | leaf index label => [leaf index label]
  | node label children => node label children :: nodesOf children

def nodesOf : List (LeafTree ι L) → List (LeafTree ι L)
  | [] => []
  | t :: ts => nodes t ++ nodesOf ts

end

section Shown

variable (p : L → Bool)

mutual

/-- The label is wanted, or one below. -/
def shown : LeafTree ι L → Bool
  | leaf _ label => p label
  | node label children => anyShown children || p label

def anyShown : List (LeafTree ι L) → Bool
  | [] => false
  | t :: ts => shown t || anyShown ts

end

mutual

/-- The shown ones, if the tree is shown itself. -/
def mirrored : LeafTree ι L → List (LeafTree ι L)
  | leaf index label => if shown p (leaf index label) then [leaf index label] else []
  | node label children =>
    if shown p (node label children) then node label children :: mirroredOf children else []

def mirroredOf : List (LeafTree ι L) → List (LeafTree ι L)
  | [] => []
  | t :: ts => mirroredOf ts ++ mirrored t

end

/-- No two siblings are shown. -/
def Narrow (ts : List (LeafTree ι L)) : Prop :=
  ts.countP (shown p) ≤ 1 ∧ ∀ t ∈ nodesOf ts, t.children.countP (shown p) ≤ 1
  deriving Decidable

end Shown

variable {p : L → Bool} {t s : LeafTree ι L} {ts : List (LeafTree ι L)} {label : L} {index : ι}

/-! ### The trees below -/

theorem nodesOf_eq_flatMap (ts : List (LeafTree ι L)) : nodesOf ts = ts.flatMap nodes := by
  induction ts with
  | nil => rw [nodesOf, flatMap_nil]
  | cons t ts ih => rw [nodesOf, flatMap_cons, ih]

theorem mem_nodesOf : s ∈ nodesOf ts ↔ ∃ t ∈ ts, s ∈ nodes t := by
  rw [nodesOf_eq_flatMap, mem_flatMap]

theorem nodes_eq_cons (t : LeafTree ι L) : nodes t = t :: nodesOf t.children := by
  cases t with
  | leaf index label => rw [nodes, children, nodesOf]
  | node label children => rw [nodes, LeafTree.children]

theorem self_mem_nodes (t : LeafTree ι L) : t ∈ nodes t := by
  rw [nodes_eq_cons]
  exact mem_cons_self

theorem mem_nodes : s ∈ nodes t ↔ s = t ∨ s ∈ nodesOf t.children := by
  rw [nodes_eq_cons, mem_cons]

theorem anyShown_eq_any (ts : List (LeafTree ι L)) : anyShown p ts = ts.any (shown p) := by
  induction ts with
  | nil => rw [anyShown, any_nil]
  | cons t ts ih => rw [anyShown, any_cons, ih]

theorem shown_eq_or (t : LeafTree ι L) : shown p t = (t.children.any (shown p) || p t.label) := by
  cases t with
  | leaf index label => rw [shown, children, LeafTree.label, any_nil, Bool.false_or]
  | node label children => rw [shown, LeafTree.children, LeafTree.label, anyShown_eq_any]

theorem shown_of_mem_children (hs : s ∈ t.children) (h : shown p s = true) : shown p t = true := by
  rw [shown_eq_or, any_eq_true.2 ⟨s, hs, h⟩, Bool.true_or]

theorem shown_of_mem_nodes (hs : s ∈ nodes t) (h : shown p s = true) : shown p t = true := by
  induction t using induction with
  | leaf index label =>
    rw [nodes, mem_singleton] at hs
    rwa [hs] at h
  | node label children ih =>
    rcases mem_nodes.1 hs with rfl | hbelow
    · exact h
    · obtain ⟨child, hchild, hs⟩ := mem_nodesOf.1 hbelow
      exact shown_of_mem_children (t := .node label children) hchild (ih child hchild hs)

/-- A tree is shown exactly if a label is wanted in it. -/
theorem shown_iff_exists : shown p t = true ↔ ∃ s ∈ nodes t, p s.label = true := by
  constructor
  · intro h
    induction t using induction with
    | leaf index label => exact ⟨_, self_mem_nodes _, by rwa [shown] at h⟩
    | node label children ih =>
      rw [shown_eq_or, Bool.or_eq_true, any_eq_true] at h
      rcases h with ⟨child, hchild, hshown⟩ | h
      · obtain ⟨s, hs, hwanted⟩ := ih child hchild hshown
        exact ⟨s, mem_nodes.2 (Or.inr (mem_nodesOf.2 ⟨child, hchild, hs⟩)), hwanted⟩
      · exact ⟨_, self_mem_nodes _, h⟩
  · rintro ⟨s, hs, hwanted⟩
    refine shown_of_mem_nodes hs ?_
    rw [shown_eq_or, hwanted, Bool.or_true]

theorem filter_nodes_eq_nil (h : shown p t = false) : (nodes t).filter (shown p) = [] := by
  refine filter_eq_nil_iff.2 fun s hs hshown => ?_
  rw [shown_of_mem_nodes hs hshown] at h
  exact Bool.noConfusion h

theorem mirrored_eq_nil (h : shown p t = false) : mirrored p t = [] := by
  cases t with
  | leaf index label => rw [mirrored, h, if_neg Bool.false_ne_true]
  | node label children => rw [mirrored, h, if_neg Bool.false_ne_true]

theorem mirrored_of_shown (h : shown p t = true) :
    mirrored p t = t :: mirroredOf p t.children := by
  cases t with
  | leaf index label => rw [mirrored, h, if_pos rfl, children, mirroredOf]
  | node label children => rw [mirrored, h, if_pos rfl, LeafTree.children]

theorem mirroredOf_perm (h : ∀ t ∈ ts, (mirrored p t).Perm ((nodes t).filter (shown p))) :
    (mirroredOf p ts).Perm ((nodesOf ts).filter (shown p)) := by
  induction ts with
  | nil => rw [mirroredOf, nodesOf, filter_nil]
  | cons t ts ih =>
    rw [forall_mem_cons] at h
    rw [mirroredOf, nodesOf, filter_append]
    exact perm_append_comm.trans (h.1.append (ih h.2))

theorem mirrored_perm (t : LeafTree ι L) :
    (mirrored p t).Perm ((nodes t).filter (shown p)) := by
  induction t using induction with
  | leaf index label =>
    rw [mirrored, nodes, filter_singleton]
    cases shown p (.leaf index label) <;> exact Perm.refl _
  | node label children ih =>
    cases h : shown p (.node label children) with
    | false => rw [mirrored_eq_nil h, filter_nodes_eq_nil h]
    | true =>
      rw [mirrored_of_shown h, nodes_eq_cons, filter_cons_of_pos h]
      exact (mirroredOf_perm ih).cons _

variable (p ts) in
theorem mirroredOf_perm_filter : (mirroredOf p ts).Perm ((nodesOf ts).filter (shown p)) :=
  mirroredOf_perm fun t _ => mirrored_perm t

section Agree

variable {key : LeafTree ι L → κ}

/-- The walks agree on a tree, or on a forest. -/
def Agree (p : L → Bool) (key : LeafTree ι L → κ) (t : LeafTree ι L) : Prop :=
  (mirrored p t).map key = ((nodes t).filter (shown p)).map key

def AgreeOn (p : L → Bool) (key : LeafTree ι L → κ) (ts : List (LeafTree ι L)) : Prop :=
  (mirroredOf p ts).map key = ((nodesOf ts).filter (shown p)).map key

theorem agree_iff_of_shown (h : shown p t = true) : Agree p key t ↔ AgreeOn p key t.children := by
  rw [Agree, AgreeOn, mirrored_of_shown h, nodes_eq_cons, filter_cons_of_pos h, map_cons,
    map_cons, cons_inj_right]

theorem agree_of_not_shown (h : shown p t = false) : Agree p key t := by
  rw [Agree, mirrored_eq_nil h, filter_nodes_eq_nil h]

theorem countP_eq_zero_of_filter (h : (nodesOf ts).filter (shown p) = []) :
    ts.countP (shown p) = 0 := by
  rw [countP_eq_zero]
  intro t ht
  exact filter_eq_nil_iff.1 h t (mem_nodesOf.2 ⟨t, ht, self_mem_nodes t⟩)

theorem filter_eq_nil_of_countP (h : ts.countP (shown p) = 0) :
    (nodesOf ts).filter (shown p) = [] := by
  rw [countP_eq_zero] at h
  refine filter_eq_nil_iff.2 fun s hs hshown => ?_
  obtain ⟨t, ht, hs⟩ := mem_nodesOf.1 hs
  exact h t ht (shown_of_mem_nodes hs hshown)

theorem mirroredOf_eq_nil_iff :
    mirroredOf p ts = [] ↔ (nodesOf ts).filter (shown p) = [] := by
  have hperm := mirroredOf_perm_filter p ts
  constructor
  · intro h
    rw [h] at hperm
    exact hperm.symm.eq_nil
  · intro h
    rw [h] at hperm
    exact hperm.eq_nil

theorem not_agreeOn_cons (hkeys : ((nodesOf (t :: ts)).map key).Nodup) (ht : shown p t = true)
    (hts : ts.countP (shown p) ≠ 0) : ¬ AgreeOn p key (t :: ts) := by
  intro h
  rw [nodesOf, map_append, nodup_append] at hkeys
  obtain ⟨-, -, hdisjoint⟩ := hkeys
  have hne : mirroredOf p ts ≠ [] := fun hnil =>
    hts (countP_eq_zero_of_filter (mirroredOf_eq_nil_iff.1 hnil))
  obtain ⟨s, rest, hrest⟩ := exists_cons_of_ne_nil hne
  have hs : s ∈ nodesOf ts := by
    have hmem : s ∈ mirroredOf p ts := hrest ▸ mem_cons_self
    exact (mem_filter.1 ((mirroredOf_perm_filter p ts).mem_iff.1 hmem)).1
  rw [AgreeOn, mirroredOf, nodesOf, hrest, nodes_eq_cons, cons_append,
    cons_append, filter_cons_of_pos ht, map_cons, map_cons, List.cons.injEq] at h
  exact hdisjoint _ (mem_map_of_mem (self_mem_nodes t)) _ (mem_map_of_mem hs) h.1.symm

theorem agreeOn_cons_of_not_shown (h : shown p t = false) :
    AgreeOn p key (t :: ts) ↔ AgreeOn p key ts := by
  rw [AgreeOn, AgreeOn, mirroredOf, nodesOf, mirrored_eq_nil h, append_nil, filter_append,
    filter_nodes_eq_nil h, nil_append]

theorem agreeOn_cons_of_countP_eq_zero (h : ts.countP (shown p) = 0) :
    AgreeOn p key (t :: ts) ↔ Agree p key t := by
  have hnil := filter_eq_nil_of_countP h
  rw [AgreeOn, Agree, mirroredOf, nodesOf, mirroredOf_eq_nil_iff.2 hnil, nil_append,
    filter_append, hnil, append_nil]

theorem agreeOn_iff (hkeys : ((nodesOf ts).map key).Nodup) :
    AgreeOn p key ts ↔ ts.countP (shown p) ≤ 1 ∧ ∀ t ∈ ts, Agree p key t := by
  induction ts with
  | nil => simp [AgreeOn, mirroredOf, nodesOf]
  | cons t ts ih =>
    have hrest : ((nodesOf ts).map key).Nodup := by
      rw [nodesOf, map_append, nodup_append] at hkeys
      exact hkeys.2.1
    rw [forall_mem_cons]
    cases ht : shown p t with
    | false =>
      rw [agreeOn_cons_of_not_shown ht, ih hrest, countP_cons_of_neg (by simp [ht])]
      simp [agree_of_not_shown ht]
    | true =>
      rw [countP_cons_of_pos ht]
      by_cases hts : ts.countP (shown p) = 0
      · rw [agreeOn_cons_of_countP_eq_zero hts, hts]
        have hhidden : ∀ s ∈ ts, Agree p key s := fun s hs =>
          agree_of_not_shown (Bool.eq_false_iff.2 (countP_eq_zero.1 hts s hs))
        exact ⟨fun h => ⟨Nat.le_refl _, h, hhidden⟩, fun h => h.2.1⟩
      · constructor
        · intro h
          exact absurd h (not_agreeOn_cons hkeys ht hts)
        · rintro ⟨hcount, -⟩
          omega

theorem nodup_children (ht : t ∈ ts) (hkeys : ((nodesOf ts).map key).Nodup) :
    ((nodesOf t.children).map key).Nodup := by
  rw [nodesOf_eq_flatMap, map_flatMap, nodup_flatMap] at hkeys
  have hnodes := hkeys.1 t ht
  rw [nodes_eq_cons, map_cons, nodup_cons] at hnodes
  exact hnodes.2

theorem agree_iff (hkeys : ((nodesOf t.children).map key).Nodup) :
    Agree p key t ↔ ∀ s ∈ nodes t, s.children.countP (shown p) ≤ 1 := by
  induction t using induction with
  | leaf index label =>
    have hagree : Agree p key (.leaf index label : LeafTree ι L) := by
      cases h : shown p (.leaf index label : LeafTree ι L) with
      | false => exact agree_of_not_shown h
      | true => simp [agree_iff_of_shown h, children, AgreeOn, mirroredOf, nodesOf]
    simp [hagree, nodes, children]
  | node label children ih =>
    cases h : shown p (.node label children) with
    | false =>
      refine iff_of_true (agree_of_not_shown h) fun s hs => ?_
      rw [countP_eq_zero.2]
      · exact Nat.zero_le 1
      · intro child hchild hshown
        rw [shown_of_mem_nodes hs (shown_of_mem_children hchild hshown)] at h
        exact Bool.noConfusion h
    | true =>
      rw [agree_iff_of_shown h, agreeOn_iff hkeys, nodes_eq_cons, forall_mem_cons,
        LeafTree.children]
      refine and_congr_right fun _ => ?_
      constructor
      · intro hagree s hs
        obtain ⟨child, hchild, hs⟩ := mem_nodesOf.1 hs
        exact (ih child hchild (nodup_children hchild hkeys)).1 (hagree child hchild) s hs
      · intro hnarrow child hchild
        refine (ih child hchild (nodup_children hchild hkeys)).2 fun s hs => ?_
        exact hnarrow s (mem_nodesOf.2 ⟨child, hchild, hs⟩)

theorem map_mirroredOf_eq_iff (hkeys : ((nodesOf ts).map key).Nodup) :
    (mirroredOf p ts).map key = ((nodesOf ts).filter (shown p)).map key ↔ Narrow p ts := by
  change AgreeOn p key ts ↔ _
  rw [agreeOn_iff hkeys, Narrow]
  refine and_congr_right fun _ => ?_
  constructor
  · intro hagree s hs
    obtain ⟨t, ht, hs⟩ := mem_nodesOf.1 hs
    exact (agree_iff (nodup_children ht hkeys)).1 (hagree t ht) s hs
  · intro hnarrow t ht
    refine (agree_iff (nodup_children ht hkeys)).2 fun s hs => ?_
    exact hnarrow s (mem_nodesOf.2 ⟨t, ht, hs⟩)

end Agree

section Arrange

variable (σ : List (LeafTree ι L) → List (LeafTree ι L)) (hσ : ∀ ts, (σ ts).Perm ts)

/-- The siblings are brought into an order, on every level from the top to the bottom. -/
def arrange (ts : List (LeafTree ι L)) : List (LeafTree ι L) :=
  (σ ts).attach.map fun t =>
    match h : t.1 with
    | leaf index label => leaf index label
    | node label children =>
      have : sizeOf children < sizeOf ts := by
        have hmem := List.sizeOf_lt_of_mem ((hσ ts).mem_iff.1 t.2)
        rw [h, LeafTree.node.sizeOf_spec] at hmem
        omega
      node label (arrange children)
termination_by sizeOf ts

theorem arrange_eq_map (ts : List (LeafTree ι L)) :
    arrange σ hσ ts = (σ ts).map (mapChildren (arrange σ hσ)) := by
  rw [arrange]
  refine (map_congr_left fun t _ => ?_).trans attach_map_val
  obtain ⟨t, ht⟩ := t
  cases t <;> rfl

variable {σ hσ} {β : Type*} {f : LeafTree ι L → β}

theorem map_nodes_arrange_perm (hf : ∀ t, f (t.mapChildren (arrange σ hσ)) = f t)
    (t : LeafTree ι L) :
    ((nodes (t.mapChildren (arrange σ hσ))).map f).Perm ((nodes t).map f) := by
  induction t using induction with
  | leaf index label => exact Perm.refl _
  | node label children ih =>
    rw [nodes_eq_cons, nodes_eq_cons, map_cons, map_cons, hf, mapChildren,
      LeafTree.children, LeafTree.children, nodesOf_eq_flatMap, nodesOf_eq_flatMap, arrange_eq_map,
      flatMap_map, map_flatMap, map_flatMap]
    refine Perm.cons _ ?_
    have hσ' : ∀ t ∈ σ children, ((nodes (t.mapChildren (arrange σ hσ))).map f).Perm
        ((nodes t).map f) := fun t ht => ih t ((hσ children).mem_iff.1 ht)
    exact (Perm.flatMap_left _ hσ').trans ((hσ children).flatMap_right _)

theorem map_nodesOf_arrange_perm (hf : ∀ t, f (t.mapChildren (arrange σ hσ)) = f t)
    (ts : List (LeafTree ι L)) :
    ((nodesOf (arrange σ hσ ts)).map f).Perm ((nodesOf ts).map f) := by
  rw [nodesOf_eq_flatMap, nodesOf_eq_flatMap, arrange_eq_map, flatMap_map, map_flatMap,
    map_flatMap]
  exact (Perm.flatMap_left _ fun t _ => map_nodes_arrange_perm hf t).trans
    ((hσ ts).flatMap_right _)

@[simp] theorem label_mapChildren (g : List (LeafTree ι L) → List (LeafTree ι L))
    (t : LeafTree ι L) : (t.mapChildren g).label = t.label := by
  cases t <;> rfl

theorem shown_mapChildren_arrange (t : LeafTree ι L) :
    shown p (t.mapChildren (arrange σ hσ)) = shown p t := by
  have hperm : ((nodes (t.mapChildren (arrange σ hσ))).map label).Perm ((nodes t).map label) :=
    map_nodes_arrange_perm (label_mapChildren _) t
  rw [Bool.eq_iff_iff, shown_iff_exists, shown_iff_exists]
  constructor
  · rintro ⟨s, hs, hwanted⟩
    obtain ⟨s', hs', heq⟩ := mem_map.1 (hperm.mem_iff.1 (mem_map_of_mem hs))
    exact ⟨s', hs', heq ▸ hwanted⟩
  · rintro ⟨s, hs, hwanted⟩
    obtain ⟨s', hs', heq⟩ := mem_map.1 (hperm.mem_iff.2 (mem_map_of_mem hs))
    exact ⟨s', hs', heq ▸ hwanted⟩

theorem countP_arrange (ts : List (LeafTree ι L)) :
    (arrange σ hσ ts).countP (shown p) = ts.countP (shown p) := by
  rw [arrange_eq_map, countP_map, ← (hσ ts).countP_eq]
  exact countP_congr fun t _ => by rw [Function.comp_apply, shown_mapChildren_arrange]

theorem narrow_arrange_iff (ts : List (LeafTree ι L)) : Narrow p (arrange σ hσ ts) ↔ Narrow p ts := by
  have hcount : ∀ t : LeafTree ι L, (t.mapChildren (arrange σ hσ)).children.countP (shown p) =
      t.children.countP (shown p) := by
    intro t
    cases t with
    | leaf index label => rfl
    | node label children => exact countP_arrange children
  have hperm := map_nodesOf_arrange_perm (f := fun t : LeafTree ι L => t.children.countP (shown p))
    hcount ts
  have hall : ∀ us : List (LeafTree ι L), (∀ t ∈ nodesOf us, t.children.countP (shown p) ≤ 1) ↔
      ∀ n ∈ (nodesOf us).map fun t => t.children.countP (shown p), n ≤ 1 := fun us => by
    rw [forall_mem_map]
  rw [Narrow, Narrow, countP_arrange, hall, hall]
  exact and_congr_right fun _ => forall_congr' fun n => by rw [hperm.mem_iff]

end Arrange

end QBittorrent.LeafTree
