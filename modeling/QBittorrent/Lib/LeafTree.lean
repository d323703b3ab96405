import Mathlib.Data.List.Forall2
import Mathlib.Data.List.Induction
import Mathlib.Data.Option.Basic

/-!
# Trees of items

Inner nodes and leaves carry labels, leaves an index as well.  A place in a tree is the list of the
numbers of children on the way to the root, the nearest one first, so that the place of the parent is
the rest of the list.

* `LeafTree.look_modify_of_not_isSuffix`, `LeafTree.look_modify_append` : **a change is seen at the
  place and below it, and nowhere else.**
-/

namespace QBittorrent

open List Option

inductive LeafTree (ι L : Type*) where
  | leaf (index : ι) (label : L)
  | node (label : L) (children : List (LeafTree ι L))

namespace LeafTree

variable {ι L : Type*}

def label : LeafTree ι L → L
  | leaf _ label => label
  | node label _ => label

def index? : LeafTree ι L → Option ι
  | leaf index _ => some index
  | node _ _ => none

def children : LeafTree ι L → List (LeafTree ι L)
  | leaf _ _ => []
  | node _ children => children

/-- The tree with another label at its root. -/
def relabel (g : L → L) : LeafTree ι L → LeafTree ι L
  | leaf index label => leaf index (g label)
  | node label children => node (g label) children

/-- The tree with other children below its root. -/
def mapChildren (f : List (LeafTree ι L) → List (LeafTree ι L)) : LeafTree ι L → LeafTree ι L
  | leaf index label => leaf index label
  | node label children => node label (f children)

/-- The subtree at the end of a way from the root. -/
def find : List ℕ → LeafTree ι L → Option (LeafTree ι L)
  | [], t => some t
  | i :: path, t => t.children[i]?.bind (find path)

/-- Change the subtree at the end of a way from the root. -/
def modifyAt (f : LeafTree ι L → LeafTree ι L) : List ℕ → LeafTree ι L → LeafTree ι L
  | [], t => f t
  | i :: path, t => t.mapChildren fun children => children.modify i (modifyAt f path)

/-- The subtree at a place. -/
def at? (t : LeafTree ι L) (place : List ℕ) : Option (LeafTree ι L) := t.find place.reverse

/-- Change the subtree at a place. -/
def modify (f : LeafTree ι L → LeafTree ι L) (place : List ℕ) (t : LeafTree ι L) : LeafTree ι L :=
  t.modifyAt f place.reverse

/-- What a tree shows of itself. -/
@[ext]
structure Seen (ι L : Type*) where
  /-- There is one exactly if it is a leaf. -/
  index? : Option ι
  label : L
  /-- How many children there are. -/
  count : ℕ

def view (t : LeafTree ι L) : Seen ι L := ⟨t.index?, t.label, t.children.length⟩

def look (t : LeafTree ι L) (place : List ℕ) : Option (Seen ι L) := (t.at? place).map view

/-- One more child at a place, behind the others. -/
def addChild (t child : LeafTree ι L) (place : List ℕ) : LeafTree ι L :=
  t.modify (mapChildren (· ++ [child])) place

variable {t child : LeafTree ι L} {f : LeafTree ι L → LeafTree ι L} {g : L → L}
  {place l r path q : List ℕ} {i : ℕ} {seen : Seen ι L}

theorem induction {motive : LeafTree ι L → Prop} (leaf : ∀ index label, motive (leaf index label))
    (node : ∀ label children, (∀ child ∈ children, motive child) → motive (node label children)) :
    ∀ t, motive t
  | .leaf index label => leaf index label
  | .node label children => node label children fun child hchild =>
      have : sizeOf child < sizeOf (LeafTree.node label children) :=
        Nat.lt_of_lt_of_le (sizeOf_lt_of_mem hchild) (by simp)
      induction leaf node child

/-! ### Ways from the root -/

theorem find_append (path q : List ℕ) (t : LeafTree ι L) :
    t.find (path ++ q) = (t.find path).bind (find q) := by
  induction path generalizing t with
  | nil => rfl
  | cons i path ih =>
    rw [cons_append, find, find]
    cases t.children[i]? with
    | none => rfl
    | some child => exact ih child

/-- A change below one child, seen at one child. -/
theorem find_modifyAt_cons (i j : ℕ) (path q : List ℕ) (t : LeafTree ι L) :
    (t.modifyAt f (i :: path)).find (j :: q) = t.children[j]?.bind fun child =>
      (if i = j then child.modifyAt f path else child).find q := by
  cases t with
  | leaf index label => rfl
  | node label children =>
    rw [modifyAt, mapChildren, find, LeafTree.children, LeafTree.children, getElem?_modify]
    cases children[j]? with
    | none => rfl
    | some child => by_cases hij : i = j <;> simp [hij]

theorem find_modifyAt_append (path q : List ℕ) (t : LeafTree ι L) :
    (t.modifyAt f path).find (path ++ q) = (t.find path).bind fun s => (f s).find q := by
  induction path generalizing t with
  | nil => rfl
  | cons i path ih =>
    rw [cons_append, find_modifyAt_cons, find]
    cases t.children[i]? with
    | none => rfl
    | some child => rw [bind_some, bind_some, if_pos rfl, ih]

@[simp] theorem view_mapChildren_modify (i : ℕ) :
    (t.mapChildren fun children => children.modify i f).view = t.view := by
  cases t with
  | leaf index label => rfl
  | node label children => simp [view, mapChildren, index?, LeafTree.label, LeafTree.children]

theorem view_find_modifyAt (h : ¬ path <+: q) (t : LeafTree ι L) :
    ((t.modifyAt f path).find q).map view = (t.find q).map view := by
  induction path generalizing q t with
  | nil => exact absurd nil_prefix h
  | cons i path ih =>
    cases q with
    | nil => exact congrArg some (view_mapChildren_modify i)
    | cons j q =>
      rw [find_modifyAt_cons, find]
      cases t.children[j]? with
      | none => rfl
      | some child =>
        rw [bind_some, bind_some]
        split_ifs with hij
        · rw [hij, cons_prefix_cons, not_and] at h
          exact ih (h rfl) child
        · rfl

theorem find_modifyAt_of_disjoint (h : ¬ path <+: q) (h' : ¬ q <+: path) (t : LeafTree ι L) :
    (t.modifyAt f path).find q = t.find q := by
  induction path generalizing q t with
  | nil => exact absurd nil_prefix h
  | cons i path ih =>
    cases q with
    | nil => exact absurd nil_prefix h'
    | cons j q =>
      rw [find_modifyAt_cons, find]
      cases t.children[j]? with
      | none => rfl
      | some child =>
        rw [bind_some, bind_some]
        split_ifs with hij
        · subst hij
          rw [cons_prefix_cons, not_and] at h h'
          exact ih (h rfl) (h' rfl) child
        · rfl

theorem modifyAt_eq_self (h : ∀ s, t.find path = some s → f s = s) : t.modifyAt f path = t := by
  induction path generalizing t with
  | nil => exact h t rfl
  | cons i path ih =>
    cases t with
    | leaf index label => rfl
    | node label children =>
      have hmodify : children.modify i (modifyAt f path) = children := by
        refine ext_getElem? fun j => ?_
        rw [getElem?_modify]
        by_cases hij : i = j
        · subst hij
          cases hchild : children[i]? with
          | none => rfl
          | some child =>
            rw [Option.map_eq_map, map_some, if_pos rfl, ih]
            intro s hs
            refine h s ?_
            rw [find, LeafTree.children, hchild]
            exact hs
        · cases children[j]? with
          | none => rfl
          | some child => rw [Option.map_eq_map, map_some, if_neg hij]
      rw [modifyAt, mapChildren, hmodify]

/-! ### Places -/

@[simp] theorem at?_nil (t : LeafTree ι L) : t.at? [] = some t := rfl

theorem at?_append (r place : List ℕ) (t : LeafTree ι L) :
    t.at? (r ++ place) = (t.at? place).bind fun s => s.at? r := by
  rw [at?, reverse_append, find_append]
  rfl

theorem at?_cons (i : ℕ) (place : List ℕ) (t : LeafTree ι L) :
    t.at? (i :: place) = (t.at? place).bind fun s => s.children[i]? := by
  rw [← singleton_append, at?_append]
  congr 1
  funext s
  rw [at?, reverse_singleton, find]
  cases s.children[i]? <;> rfl

theorem look_cons_isSome_iff :
    (t.look (i :: place)).isSome ↔ ∃ seen, t.look place = some seen ∧ i < seen.count := by
  rw [look, look, at?_cons]
  cases t.at? place with
  | none => simp
  | some s => simp [view]

theorem at?_modify_append (r place : List ℕ) (t : LeafTree ι L) :
    (t.modify f place).at? (r ++ place) = (t.at? place).bind fun s => (f s).at? r := by
  rw [at?, reverse_append, modify, find_modifyAt_append]
  rfl

@[simp] theorem at?_modify_self (place : List ℕ) (t : LeafTree ι L) :
    (t.modify f place).at? place = (t.at? place).map f := by
  have happend := at?_modify_append (f := f) [] place t
  rw [nil_append] at happend
  rw [happend]
  cases t.at? place <;> rfl

theorem at?_modify_of_disjoint (h : ¬ place <:+ l) (h' : ¬ l <:+ place) (t : LeafTree ι L) :
    (t.modify f place).at? l = t.at? l :=
  find_modifyAt_of_disjoint (fun hprefix => h (by simpa using reverse_suffix.2 hprefix))
    (fun hprefix => h' (by simpa using reverse_suffix.2 hprefix)) t

theorem modify_eq_self (h : ∀ s, t.at? place = some s → f s = s) : t.modify f place = t :=
  modifyAt_eq_self h

theorem look_modify_append (r place : List ℕ) (t : LeafTree ι L) :
    (t.modify f place).look (r ++ place) = (t.at? place).bind fun s => (f s).look r := by
  rw [look, at?_modify_append]
  cases t.at? place <;> rfl

theorem look_modify_of_not_isSuffix (h : ¬ place <:+ l) (t : LeafTree ι L) :
    (t.modify f place).look l = t.look l :=
  view_find_modifyAt (fun hprefix => h (by simpa using reverse_suffix.2 hprefix)) t

@[simp] theorem look_nil (t : LeafTree ι L) : t.look [] = some t.view := rfl

theorem look_append (r place : List ℕ) (t : LeafTree ι L) :
    t.look (r ++ place) = (t.at? place).bind fun s => s.look r := by
  rw [look, at?_append]
  cases t.at? place <;> rfl

theorem look_concat (r : List ℕ) (i : ℕ) (t : LeafTree ι L) :
    t.look (r ++ [i]) = t.children[i]?.bind fun s => s.look r := by
  rw [look_append, at?_cons, at?_nil, bind_some]

theorem index?_eq_none_of_look (h : t.look place = some seen) (hi : i < seen.count) :
    seen.index? = none := by
  obtain ⟨s, -, rfl⟩ := map_eq_some_iff.1 h
  cases s with
  | leaf index label => cases hi
  | node label children => rfl

theorem look_relabel (place l : List ℕ) (t : LeafTree ι L) :
    (t.modify (relabel g) place).look l =
      if l = place then (t.look l).map fun seen => { seen with label := g seen.label }
      else t.look l := by
  by_cases hsuffix : place <:+ l
  · obtain ⟨r, rfl⟩ := hsuffix
    rw [look_modify_append, look_append]
    by_cases hr : r = []
    · rw [hr, nil_append, if_pos rfl]
      cases t.at? place with
      | none => rfl
      | some s => cases s <;> rfl
    · rw [if_neg (by simpa using hr)]
      obtain ⟨r', i, rfl⟩ : ∃ r' i, r = r' ++ [i] :=
        ⟨_, _, (dropLast_concat_getLast hr).symm⟩
      cases t.at? place with
      | none => rfl
      | some s =>
        rw [bind_some, bind_some, look_concat, look_concat]
        cases s <;> rfl
  · rw [look_modify_of_not_isSuffix hsuffix, if_neg]
    rintro rfl
    exact hsuffix suffix_rfl

theorem at?_relabel_of_not_isSuffix (h : ¬ l <:+ place) (t : LeafTree ι L) :
    (t.modify (relabel g) place).at? l = t.at? l := by
  by_cases hsuffix : place <:+ l
  · obtain ⟨r, rfl⟩ := hsuffix
    rw [at?_modify_append, at?_append]
    have hr : r ≠ [] := by
      rintro rfl
      exact h suffix_rfl
    obtain ⟨r', i, rfl⟩ : ∃ r' i, r = r' ++ [i] := ⟨_, _, (dropLast_concat_getLast hr).symm⟩
    cases t.at? place with
    | none => rfl
    | some s =>
      rw [bind_some, bind_some, at?_append, at?_append, at?_cons, at?_cons]
      cases s <;> rfl
  · exact at?_modify_of_disjoint hsuffix h t

variable (child) in
theorem look_addChild (hseen : t.look place = some seen) (hnode : seen.index? = none)
    (hchild : child.children = []) (l : List ℕ) :
    (t.addChild child place).look l =
      if l = seen.count :: place then some child.view
      else if l = place then some { seen with count := seen.count + 1 } else t.look l := by
  obtain ⟨s, hs, rfl⟩ := map_eq_some_iff.1 hseen
  obtain ⟨index, label⟩ | ⟨label, children⟩ := s
  · cases hnode
  rw [addChild]
  by_cases hsuffix : place <:+ l
  · obtain ⟨r, rfl⟩ := hsuffix
    rw [look_modify_append, look_append, hs, bind_some, bind_some, mapChildren]
    cases r using reverseRecOn with
    | nil => simp [view, index?, LeafTree.label, LeafTree.children]
    | append_singleton r i =>
      have hnil : r ++ [i] ++ place ≠ place := fun h => by
        have hlength := congrArg length h
        rw [length_append, length_append, length_singleton] at hlength
        omega
      have hlast : r ++ [i] ++ place = children.length :: place ↔ r = [] ∧ i = children.length := by
        rw [append_assoc, singleton_append]
        constructor
        · intro h
          have hlength := congrArg length h
          rw [length_append, length_cons, length_cons] at hlength
          obtain rfl := length_eq_zero_iff.1 (show r.length = 0 by omega)
          exact ⟨rfl, (cons.inj h).1⟩
        · rintro ⟨rfl, rfl⟩
          rfl
      rw [look_concat, look_concat, if_neg hnil, view, LeafTree.children, LeafTree.children]
      simp only [hlast]
      obtain hlt | rfl | hlt := Nat.lt_trichotomy i children.length
      · rw [if_neg fun h => Nat.ne_of_lt hlt h.2, getElem?_append_left hlt]
      · rw [getElem?_concat_length, bind_some, getElem?_eq_none (Nat.le_refl _)]
        by_cases hr : r = []
        · rw [if_pos ⟨hr, rfl⟩, hr, look_nil]
        · rw [if_neg fun h => hr h.1]
          obtain ⟨r', j, rfl⟩ : ∃ r' j, r = r' ++ [j] :=
            ⟨_, _, (dropLast_concat_getLast hr).symm⟩
          rw [look_append, at?_cons, at?_nil, bind_some, hchild]
          rfl
      · rw [if_neg fun h => Nat.ne_of_gt hlt h.2, getElem?_eq_none (by rw [length_append]; exact hlt),
          getElem?_eq_none (Nat.le_of_lt hlt)]
  · rw [look_modify_of_not_isSuffix hsuffix, if_neg, if_neg]
    · rintro rfl
      exact hsuffix suffix_rfl
    · rintro rfl
      exact hsuffix (suffix_cons ..)

/-! ### Trees of the same shape -/

/-- The trees have the same places, and the labels there are related. -/
def Alike (rel : L → L → Prop) (t t' : LeafTree ι L) : Prop :=
  ∀ place, Option.Rel (fun seen seen' : Seen ι L => seen.index? = seen'.index? ∧
    rel seen.label seen'.label ∧ seen.count = seen'.count) (t.look place) (t'.look place)

section Alike

variable {rel : L → L → Prop} {t' t'' : LeafTree ι L}

theorem Alike.refl (hrefl : ∀ label, rel label label) (t : LeafTree ι L) : Alike rel t t := by
  intro place
  cases t.look place with
  | none => exact .none
  | some seen => exact .some ⟨rfl, hrefl _, rfl⟩

theorem Alike.trans (htrans : ∀ a b c, rel a b → rel b c → rel a c) (h : Alike rel t t')
    (h' : Alike rel t' t'') : Alike rel t t'' := by
  intro place
  have hplace := h place
  have hplace' := h' place
  generalize t.look place = a at hplace
  generalize t'.look place = b at hplace hplace'
  generalize t''.look place = c at hplace'
  cases hplace with
  | none => exact hplace'
  | some hseen =>
    cases hplace' with
    | some hseen' =>
      exact .some ⟨hseen.1.trans hseen'.1, htrans _ _ _ hseen.2.1 hseen'.2.1,
        hseen.2.2.trans hseen'.2.2⟩

theorem alike_leaf {label label' : L} (index : ι) (h : rel label label') :
    Alike rel (leaf index label) (leaf index label') := by
  intro place
  cases place using reverseRecOn with
  | nil => exact .some ⟨rfl, h, rfl⟩
  | append_singleton r i =>
    rw [look_concat, look_concat]
    exact .none

theorem alike_node {label label' : L} {children children' : List (LeafTree ι L)}
    (h : rel label label') (hchildren : List.Forall₂ (Alike rel) children children') :
    Alike rel (node label children) (node label' children') := by
  intro place
  cases place using reverseRecOn with
  | nil => exact .some ⟨rfl, h, hchildren.length_eq⟩
  | append_singleton r i =>
    rw [look_concat, look_concat, LeafTree.children, LeafTree.children]
    by_cases hi : i < children.length
    · have hi' : i < children'.length := hchildren.length_eq ▸ hi
      rw [getElem?_eq_getElem hi, getElem?_eq_getElem hi', bind_some,
        bind_some]
      exact hchildren.get hi hi' r
    · rw [getElem?_eq_none (Nat.le_of_not_lt hi),
        getElem?_eq_none (hchildren.length_eq ▸ Nat.le_of_not_lt hi)]
      exact .none

theorem alike_relabel (hrefl : ∀ label, rel label label) (hg : ∀ label, rel label (g label))
    (t : LeafTree ι L) : Alike rel t (t.relabel g) := by
  cases t with
  | leaf index label => exact alike_leaf index (hg label)
  | node label children =>
    exact alike_node (hg label) (forall₂_same.2 fun child _ => Alike.refl hrefl child)

theorem forall₂_map_self {α : Type*} {r : α → α → Prop} {f : α → α} {l : List α}
    (h : ∀ a ∈ l, r a (f a)) : List.Forall₂ r l (l.map f) := by
  rw [forall₂_map_right_iff, forall₂_same]
  exact h

theorem alike_mapChildren (hrefl : ∀ label, rel label label) (hf : ∀ s, Alike rel s (f s))
    (t : LeafTree ι L) : Alike rel t (t.mapChildren fun children => children.map f) := by
  cases t with
  | leaf index label => exact Alike.refl hrefl _
  | node label children =>
    exact alike_node (hrefl _) (forall₂_map_self fun child _ => hf child)

theorem Alike.modify (hrefl : ∀ label, rel label label) (place : List ℕ)
    (h : ∀ s, t.at? place = some s → Alike rel s (f s)) : Alike rel t (t.modify f place) := by
  intro l
  by_cases hsuffix : place <:+ l
  · obtain ⟨r, rfl⟩ := hsuffix
    rw [look_modify_append, look_append]
    cases hs : t.at? place with
    | none => exact .none
    | some s => exact h s hs r
  · rw [look_modify_of_not_isSuffix hsuffix]
    exact Alike.refl hrefl t l

end Alike

end LeafTree

end QBittorrent
