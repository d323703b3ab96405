import Mathlib.Data.List.Basic
import Mathlib.Data.Int.Notation

/-!
# Trees whose nodes count

The children of a node are found by their keys and are in the order in which they came, and a node is
found by the keys on the way from the root.  Every node has a label and a count, and what is added to
the count of a node is added on the whole way to it.

* `CountTree.seen_adjust`, `CountTree.seen_appendAt`, `CountTree.seen_eraseAt` : **what the operations
  do, node by node.**
* `CountTree.takenOff_eq` : a node that is destroyed takes its whole count off the nodes above it.
-/

namespace QBittorrent

open List

inductive CountTree (K L : Type*) where
  | node (label : L) (count : ℤ) (children : List (K × CountTree K L))

namespace CountTree

variable {K L : Type*}

def label : CountTree K L → L
  | node label _ _ => label

def count : CountTree K L → ℤ
  | node _ count _ => count

def children : CountTree K L → List (K × CountTree K L)
  | node _ _ children => children

@[simp] theorem label_node (label : L) (count : ℤ) (children : List (K × CountTree K L)) :
    (node label count children).label = label := rfl

@[simp] theorem count_node (label : L) (count : ℤ) (children : List (K × CountTree K L)) :
    (node label count children).count = count := rfl

@[simp] theorem children_node (label : L) (count : ℤ) (children : List (K × CountTree K L)) :
    (node label count children).children = children := rfl

def keys (t : CountTree K L) : List K := t.children.map Prod.fst

mutual

/-- What the nodes above lose when a node is destroyed: it destroys its children first, which take
their counts off it too, and then takes off what is left of its own. -/
def takenOff : CountTree K L → ℤ
  | node _ count children => takenOffList children + (count - takenOffList children)

def takenOffList : List (K × CountTree K L) → ℤ
  | [] => 0
  | (_, t) :: children => takenOff t + takenOffList children

end

theorem takenOff_eq (t : CountTree K L) : t.takenOff = t.count := by
  cases t with
  | node label count children =>
    rw [takenOff, CountTree.count]
    omega

variable [DecidableEq K]

/-- The child with a key. -/
def child (k : K) (t : CountTree K L) : Option (CountTree K L) := t.children.lookup k

/-- The node at the end of a path. -/
def find : List K → CountTree K L → Option (CountTree K L)
  | [], t => some t
  | k :: path, t => (t.child k).bind (find path)

/-- Change the child with a key. -/
def mapChild (f : CountTree K L → CountTree K L) (k : K) (children : List (K × CountTree K L)) :
    List (K × CountTree K L) :=
  children.map fun entry => if entry.1 = k then (entry.1, f entry.2) else entry

/-- Add to the counts of the nodes on a path, the root among them. -/
def adjust (d : ℤ) : List K → CountTree K L → CountTree K L
  | [], node label count children => node label (count + d) children
  | k :: path, node label count children =>
    node label (count + d) (mapChild (adjust d path) k children)

/-- Change the children of the node at the end of a path. -/
def mapChildrenAt (f : List (K × CountTree K L) → List (K × CountTree K L)) :
    List K → CountTree K L → CountTree K L
  | [], node label count children => node label count (f children)
  | k :: path, node label count children =>
    node label count (mapChild (mapChildrenAt f path) k children)

/-- The node at the end of a path gets one more child, the last one. -/
def appendAt (path : List K) (k : K) (t new : CountTree K L) : CountTree K L :=
  mapChildrenAt (· ++ [(k, new)]) path t

/-- The node at the end of a path loses the child with a key. -/
def eraseAt (path : List K) (k : K) (t : CountTree K L) : CountTree K L :=
  mapChildrenAt (List.filter fun entry => decide (entry.1 ≠ k)) path t

/-! ### What nodes show -/

/-- What a node shows of itself. -/
structure Seen (K L : Type*) where
  label : L
  count : ℤ
  keys : List K

/-- What is seen of a node. -/
def view (t : CountTree K L) : Seen K L := ⟨t.label, t.count, t.keys⟩

/-- What is seen at the end of a path. -/
def seen (path : List K) (t : CountTree K L) : Option (Seen K L) := (t.find path).map CountTree.view

variable {path q : List K} {k k' : K} {t : CountTree K L} {label : L} {count d : ℤ}
  {children : List (K × CountTree K L)} {f : CountTree K L → CountTree K L}
  {g : List (K × CountTree K L) → List (K × CountTree K L)}

theorem lookup_cons_eq {entry : K × CountTree K L} : (entry :: children).lookup k =
    if k = entry.1 then some entry.2 else children.lookup k := by
  rw [lookup_cons]
  by_cases h : k = entry.1
  · simp [h]
  · rw [beq_eq_false_iff_ne.2 h, if_neg h]

theorem lookup_mapChild : (mapChild f k children).lookup k' =
    if k' = k then (children.lookup k').map f else children.lookup k' := by
  induction children with
  | nil => split_ifs <;> rfl
  | cons entry children ih =>
    rw [mapChild, map_cons, ← mapChild, lookup_cons_eq, lookup_cons_eq, ih]
    by_cases hkey : entry.1 = k
    · rw [if_pos hkey, hkey]
      by_cases hk : k' = k
      · simp [hk]
      · simp [hk]
    · rw [if_neg hkey]
      by_cases hk : k' = entry.1
      · simp [hk, hkey]
      · rw [if_neg hk, if_neg hk]

theorem keys_mapChild : (mapChild f k children).map Prod.fst = children.map Prod.fst := by
  rw [mapChild, map_map]
  refine map_congr_left fun entry _ => ?_
  by_cases h : entry.1 = k
  · simp [h]
  · simp [h]

@[simp] theorem seen_nil : seen [] t = some t.view := rfl

theorem seen_cons : seen (k :: path) t = (t.child k).bind (seen path) := by
  cases h : t.child k with
  | none => simp [seen, find, h]
  | some s => simp [seen, find, h]

theorem mem_keys_iff : k ∈ t.keys ↔ (t.child k).isSome := by
  rw [keys, child]
  induction t.children with
  | nil => simp
  | cons entry children ih =>
    by_cases h : k = entry.1
    · simp [h]
    · simp [h]

theorem isSome_seen_concat :
    (seen (path ++ [k]) t).isSome ↔ ∃ n, seen path t = some n ∧ k ∈ n.keys := by
  induction path generalizing t with
  | nil =>
    rw [nil_append, seen_cons]
    have hmem := mem_keys_iff (k := k) (t := t)
    cases h : t.child k with
    | none => rw [h] at hmem; simpa [view] using hmem
    | some s => rw [h] at hmem; simpa [view] using hmem
  | cons k' path ih =>
    rw [cons_append, seen_cons, seen_cons]
    cases t.child k' with
    | none => simp
    | some s => exact ih

theorem seen_adjust : seen q (adjust d path t) =
    (seen q t).map fun n => if q <+: path then { n with count := n.count + d } else n := by
  induction path generalizing q t with
  | nil =>
    cases t with
    | node label count children =>
      cases q with
      | nil => simp [adjust, view, keys]
      | cons k' q =>
        have hne : ¬ (k' :: q) <+: ([] : List K) := by simp
        simp only [if_neg hne, Option.map_id']
        rfl
  | cons k path ih =>
    cases t with
    | node label count children =>
      cases q with
      | nil =>
        simp [adjust, view, keys, keys_mapChild]
      | cons k' q =>
        rw [adjust, seen_cons, seen_cons, child, child, children_node, children_node,
          lookup_mapChild]
        by_cases hk : k' = k
        · rw [if_pos hk]
          cases children.lookup k' with
          | none => rfl
          | some s => simp [ih, hk]
        · simp [hk]

theorem seen_mapChildrenAt_of_not_prefix (h : ¬ path <+: q) :
    seen q (mapChildrenAt g path t) = seen q t := by
  induction path generalizing q t with
  | nil => exact (h q.nil_prefix).elim
  | cons k path ih =>
    cases t with
    | node label count children =>
      cases q with
      | nil =>
        simp [mapChildrenAt, view, keys, keys_mapChild]
      | cons k' q =>
        rw [mapChildrenAt, seen_cons, seen_cons, child, child, children_node, children_node,
          lookup_mapChild]
        by_cases hk : k' = k
        · rw [if_pos hk]
          cases children.lookup k' with
          | none => rfl
          | some s => exact ih fun hpre => h (by rw [hk]; exact (prefix_cons_inj k).2 hpre)
        · rw [if_neg hk]

theorem seen_mapChildrenAt_append : seen (path ++ q) (mapChildrenAt g path t) =
    (t.find path).bind fun n => seen q (node n.label n.count (g n.children)) := by
  induction path generalizing t with
  | nil => cases t; rfl
  | cons k path ih =>
    cases t with
    | node label count children =>
      rw [cons_append, mapChildrenAt, seen_cons, child, children_node, lookup_mapChild,
        if_pos rfl, find, child, children_node]
      cases children.lookup k with
      | none => rfl
      | some s => exact ih

theorem seen_append : seen (path ++ q) t = (t.find path).bind (seen q) := by
  induction path generalizing t with
  | nil => rfl
  | cons k path ih =>
    rw [cons_append, seen_cons, find]
    cases t.child k with
    | none => rfl
    | some s => exact ih

theorem seen_eq_map_find : seen path t = (t.find path).map view := rfl

@[simp] theorem keys_adjust : (adjust d path t).keys = t.keys := by
  cases t
  cases path with
  | nil => rfl
  | cons k path => exact keys_mapChild

theorem keys_appendAt {new : CountTree K L} : (appendAt path k t new).keys =
    if path = [] then t.keys ++ [k] else t.keys := by
  cases t
  cases path with
  | nil => simp [appendAt, mapChildrenAt, keys]
  | cons k' path => exact keys_mapChild

theorem keys_eraseAt : (eraseAt path k t).keys =
    if path = [] then t.keys.filter fun k' => decide (k' ≠ k) else t.keys := by
  cases t
  cases path with
  | nil => simp [eraseAt, mapChildrenAt, keys, filter_map, Function.comp_def]
  | cons k' path => exact keys_mapChild

theorem seen_appendAt (hnew : ∀ n, seen path t = some n → k ∉ n.keys) :
    seen q (appendAt path k t (node label count [])) =
      if q = path ++ [k] then (seen path t).map fun _ => ⟨label, count, []⟩
      else (seen q t).map fun n => if q = path then { n with keys := n.keys ++ [k] } else n := by
  by_cases hpre : path <+: q
  · obtain ⟨q, rfl⟩ := hpre
    rw [appendAt, seen_mapChildrenAt_append, seen_append, seen_eq_map_find]
    rw [seen_eq_map_find] at hnew
    cases hfind : t.find path with
    | none => simp
    | some s =>
      have hk : (s.child k).isNone := by
        have := hnew s.view (by rw [hfind]; rfl)
        rw [view, mem_keys_iff] at this
        simpa using this
      cases q with
      | nil =>
        simp [view, keys]
      | cons k' q =>
        have hne : path ++ k' :: q ≠ path := by simp
        simp only [Option.bind_some, Option.map_some, seen_cons, child, children_node,
          append_cancel_left_eq, cons.injEq, if_neg hne, Option.map_id', lookup_append]
        rw [child, Option.isNone_iff_eq_none] at hk
        by_cases hkk : k' = k
        · subst hkk
          rw [hk]
          cases q with
          | nil => simp [view, keys]
          | cons k'' q => simp [seen_cons, child]
        · simp [hkk, lookup_cons_eq]
  · rw [appendAt, seen_mapChildrenAt_of_not_prefix hpre, if_neg fun h => hpre ⟨[k], h.symm⟩]
    have hne : q ≠ path := fun h => hpre (h ▸ prefix_rfl)
    simp [hne]

theorem seen_eraseAt : seen q (eraseAt path k t) =
    if path ++ [k] <+: q then none
    else (seen q t).map fun n =>
      if q = path then { n with keys := n.keys.filter fun k' => decide (k' ≠ k) } else n := by
  by_cases hpre : path <+: q
  · obtain ⟨q, rfl⟩ := hpre
    rw [eraseAt, seen_mapChildrenAt_append, seen_append]
    cases hfind : t.find path with
    | none => simp
    | some s =>
      cases q with
      | nil =>
        have hne : ¬ path ++ [k] <+: path := fun h => by
          have := h.length_le
          rw [length_append, length_singleton] at this
          omega
        simp [view, keys, filter_map, Function.comp_def, hne]
      | cons k' q =>
        have hne : path ++ k' :: q ≠ path := by simp
        simp only [Option.bind_some, seen_cons, child, children_node, if_neg hne,
          Option.map_id', prefix_append_right_inj, cons_prefix_cons, nil_prefix,
          and_true]
        have hlookup : (s.children.filter fun entry => decide (entry.1 ≠ k)).lookup k' =
            if k = k' then none else s.children.lookup k' := by
          induction s.children with
          | nil => split_ifs <;> rfl
          | cons entry children ih =>
            by_cases he : entry.1 = k
            · rw [filter_cons_of_neg (by simpa using he), ih, lookup_cons_eq, he]
              by_cases hkk : k = k'
              · rw [if_pos hkk, if_pos hkk]
              · rw [if_neg hkk, if_neg hkk, if_neg (Ne.symm hkk)]
            · rw [filter_cons_of_pos (by simpa using he), lookup_cons_eq, lookup_cons_eq, ih]
              by_cases hkk : k = k'
              · rw [if_pos hkk, if_pos hkk, if_neg fun h => he (h.symm.trans hkk.symm)]
              · rw [if_neg hkk, if_neg hkk]
        rw [hlookup]
        split_ifs <;> rfl
  · rw [eraseAt, seen_mapChildrenAt_of_not_prefix hpre,
      if_neg fun h => hpre ((prefix_append path [k]).trans h)]
    have hne : q ≠ path := fun h => hpre (h ▸ prefix_rfl)
    simp [hne]

end CountTree

end QBittorrent
