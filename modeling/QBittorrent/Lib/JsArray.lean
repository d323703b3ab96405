import Mathlib.Algebra.Group.Nat.Defs
import QBittorrent.Lib.StableSort

/-!
# Arrays with named properties

An array of a script holds elements at its indexes, with holes, and properties of other names.  A
name that writes an index is that index, and a property may hide a method of the same name.

* `JsArray.push`, `JsArray.setProperty`, `JsArray.sort` : none, if the operation throws.
* `JsArray.keyed_of_inPlace` : **then the elements are the pushed ones, in their order.**
-/

namespace QBittorrent

open List

variable {α : Type*}

/-- The most elements that an array can have. -/
def maxArrayLength : ℕ := 2 ^ 32 - 1

/-- The index that a name writes, without leading zeros. -/
def arrayIndex? (name : List Char) : Option ℕ :=
  let n := Nat.ofDigitChars 10 name 0
  if Nat.toDigits 10 n = name ∧ n < maxArrayLength then some n else none

theorem arrayIndex?_eq_some_iff {name : List Char} {n : ℕ} :
    arrayIndex? name = some n ↔ name = Nat.toDigits 10 n ∧ n < maxArrayLength := by
  rw [arrayIndex?, Option.ite_none_right_eq_some, Option.some_inj]
  constructor
  · rintro ⟨⟨hname, hlt⟩, rfl⟩
    exact ⟨hname.symm, hlt⟩
  · rintro ⟨rfl, hlt⟩
    rw [Nat.ofDigitChars_ten_toDigits]
    exact ⟨⟨rfl, hlt⟩, rfl⟩

/-- An array, by its elements and the names of its other properties. -/
structure JsArray (α : Type*) where
  items : List (Option α)
  names : List (List Char)

namespace JsArray

def empty : JsArray α := ⟨[], []⟩

variable (a : JsArray α) (name : List Char) (x : α)

/-- The method is found behind a property of its name, or not found because the array inherits from
something else. -/
def hides : Bool := decide (name ∈ a.names) || decide ("__proto__".toList ∈ a.names)

def push : Option (JsArray α) :=
  if a.hides "push".toList || decide (maxArrayLength ≤ a.items.length) then none
  else some { a with items := a.items ++ [some x] }

/-- `a[name] = x` of an object. -/
def setProperty : Option (JsArray α) :=
  match arrayIndex? name with
  | some n =>
    -- behind the end the array grows, with holes in between
    if n < a.items.length then some { a with items := a.items.set n (some x) }
    else some { a with items := a.items ++ (List.replicate (n - a.items.length) none ++ [some x]) }
  | none =>
    -- an object is no length
    if name = "length".toList then none else some { a with names := a.names ++ [name] }

/-- The holes go to the end. -/
def sort (S : StableSort α) (cmp : α → α → ℤ) : Option (JsArray α) :=
  if a.hides "sort".toList then none
  else some { a with
    items := (S.sort cmp (a.items.filterMap id)).map some ++
      List.replicate (a.items.countP Option.isNone) none }

/-- `name in a`, where `inherited` are the names that all arrays have. -/
def has (inherited : List (List Char)) : Bool :=
  match arrayIndex? name with
  | some n => (a.items[n]?.join).isSome
  | none => decide (name = "length".toList) || decide (name ∈ a.names) || decide (name ∈ inherited)

/-- Push elements, and store each under its name. -/
def keyed (name : α → List Char) : JsArray α → List α → Option (JsArray α)
  | a, [] => some a
  | a, x :: xs =>
    (a.push x).bind fun a' => (a'.setProperty (name x) x).bind fun a'' => keyed name a'' xs

end JsArray

/-- The name does not stand for something else than a property of its own when the array holds `i`
elements before it and `j` after it. -/
structure Harmless (name : List Char) (i j : ℕ) : Prop where
  ne_length : name ≠ "length".toList
  ne_sort : name ≠ "sort".toList
  ne_proto : name ≠ "__proto__".toList
  push_last : name = "push".toList → j = 0
  index : ∀ n, arrayIndex? name = some n → n = i

instance (name : List Char) (i j : ℕ) : Decidable (Harmless name i j) :=
  decidable_of_iff (name ≠ "length".toList ∧ name ≠ "sort".toList ∧ name ≠ "__proto__".toList ∧
      (name = "push".toList → j = 0) ∧ ∀ n ∈ arrayIndex? name, n = i)
    ⟨fun h => ⟨h.1, h.2.1, h.2.2.1, h.2.2.2.1, h.2.2.2.2⟩,
      fun h => ⟨h.1, h.2, h.3, h.4, h.5⟩⟩

/-- All names of a list are harmless in it, behind `i` others. -/
def InPlaceFrom : ℕ → List (List Char) → Prop
  | _, [] => True
  | i, name :: names => Harmless name i names.length ∧ InPlaceFrom (i + 1) names

instance decidableInPlaceFrom : ∀ i names, Decidable (InPlaceFrom i names)
  | _, [] => isTrue trivial
  | i, name :: names =>
    have := decidableInPlaceFrom (i + 1) names
    inferInstanceAs (Decidable (Harmless name i names.length ∧ InPlaceFrom (i + 1) names))

/-- All names of a list are harmless in it, and it is short enough for an array. -/
def InPlace (names : List (List Char)) : Prop :=
  InPlaceFrom 0 names ∧ names.length ≤ maxArrayLength
  deriving Decidable

namespace JsArray

variable {S : StableSort α} {cmp : α → α → ℤ} {name : α → List Char} {a a' : JsArray α} {x : α}
  {xs : List α} {method key : List Char} {n i : ℕ}

theorem hides_eq_false_iff :
    a.hides method = false ↔ method ∉ a.names ∧ "__proto__".toList ∉ a.names := by
  rw [hides, Bool.or_eq_false_iff, decide_eq_false_iff_not, decide_eq_false_iff_not]

theorem push_eq_some_iff : a.push x = some a' ↔ a.hides "push".toList = false ∧
    a.items.length < maxArrayLength ∧ { a with items := a.items ++ [some x] } = a' := by
  rw [push, Option.ite_none_left_eq_some, Bool.or_eq_true, not_or, Bool.not_eq_true,
    decide_eq_true_iff, not_le, Option.some_inj, and_assoc]

theorem setProperty_of_lt (h : arrayIndex? key = some n) (hn : n < a.items.length) :
    a.setProperty key x = some { a with items := a.items.set n (some x) } := by
  rw [setProperty, h]
  exact if_pos hn

theorem setProperty_of_le (h : arrayIndex? key = some n) (hn : a.items.length ≤ n) :
    a.setProperty key x = some { a with
      items := a.items ++ (List.replicate (n - a.items.length) none ++ [some x]) } := by
  rw [setProperty, h]
  exact if_neg (not_lt.2 hn)

theorem setProperty_of_none (h : arrayIndex? key = none) : a.setProperty key x = some a' ↔
    key ≠ "length".toList ∧ { a with names := a.names ++ [key] } = a' := by
  rw [setProperty, h]
  dsimp only
  rw [Option.ite_none_left_eq_some, Option.some_inj]

theorem sort_of_items {l : List α} (hhides : a.hides "sort".toList = false)
    (hitems : a.items = l.map some) :
    a.sort S cmp = some { a with items := (S.sort cmp l).map some } := by
  have hcount : (l.map some).countP Option.isNone = 0 := by
    rw [countP_eq_zero]
    rintro o ho
    obtain ⟨x, -, rfl⟩ := mem_map.1 ho
    exact Bool.false_ne_true
  have hfilter : (l.map some).filterMap id = l := by
    rw [filterMap_map]
    exact filterMap_some
  rw [sort, hhides, if_neg Bool.false_ne_true, hitems, hcount, hfilter, replicate_zero,
    append_nil]

theorem sort_eq_some_iff : a.sort S cmp = some a' ↔ a.hides "sort".toList = false ∧
    { a with items := (S.sort cmp (a.items.filterMap id)).map some ++
      List.replicate (a.items.countP Option.isNone) none } = a' := by
  rw [sort, Option.ite_none_left_eq_some, Bool.not_eq_true, Option.some_inj]

/-! ### Harmless names -/

theorem setProperty_of_harmless {j : ℕ} (h : Harmless key a.items.length j) :
    ∃ names, JsArray.setProperty { a with items := a.items ++ [some x] } key x =
        some ⟨a.items ++ [some x], names⟩ ∧
      (names = a.names ∨ names = a.names ++ [key]) := by
  cases hindex : arrayIndex? key with
  | some n =>
    have hn := h.index n hindex
    refine ⟨a.names, ?_, Or.inl rfl⟩
    rw [setProperty_of_lt hindex (by simp [hn]), hn, set_append_right _ _ (le_refl _),
      Nat.sub_self, set_cons_zero]
  | none => exact ⟨a.names ++ [key], (setProperty_of_none hindex).2 ⟨h.ne_length, rfl⟩, Or.inr rfl⟩

theorem keyed_of_inPlaceFrom (hlength : a.items.length + xs.length ≤ maxArrayLength)
    (hpush : xs = [] ∨ a.hides "push".toList = false) (hsort : a.hides "sort".toList = false)
    (h : InPlaceFrom a.items.length (xs.map name)) :
    ∃ a', keyed name a xs = some a' ∧ a'.items = a.items ++ xs.map some ∧
      a'.hides "sort".toList = false := by
  induction xs generalizing a with
  | nil => exact ⟨a, rfl, by simp, hsort⟩
  | cons x xs ih =>
    rw [length_cons] at hlength
    obtain ⟨hharmless, hrest⟩ := h
    rw [length_map] at hharmless
    have hpush := hpush.resolve_left (cons_ne_nil x xs)
    have hpushed := push_eq_some_iff (x := x).2 ⟨hpush, by omega, rfl⟩
    obtain ⟨names, hset, hnames⟩ := setProperty_of_harmless (x := x) hharmless
    rw [hides_eq_false_iff] at hpush hsort
    have hmem : ∀ key, key ∈ names → key ∈ a.names ∨ key = name x := by
      rintro key hkey
      rcases hnames with rfl | rfl
      · exact Or.inl hkey
      · simpa using hkey
    have hproto : "__proto__".toList ∉ names := fun hkey =>
      (hmem _ hkey).elim hpush.2 hharmless.ne_proto.symm
    obtain ⟨a', hkeyed, hitems, hsort'⟩ := @ih ⟨a.items ++ [some x], names⟩
      (by simp only [length_append, length_singleton]; omega)
      (by
        -- a property `push` is the last one
        by_cases hxs : xs = []
        · exact Or.inl hxs
        · refine Or.inr (hides_eq_false_iff.2 ⟨fun hkey => ?_, hproto⟩)
          rcases hmem _ hkey with hkey | hkey
          · exact hpush.1 hkey
          · exact hxs (eq_nil_of_length_eq_zero (hharmless.push_last hkey.symm)))
      (hides_eq_false_iff.2
        ⟨fun hkey => (hmem _ hkey).elim hsort.1 hharmless.ne_sort.symm, hproto⟩)
      (by simpa using hrest)
    refine ⟨a', ?_, ?_, hsort'⟩
    · rw [keyed, hpushed, Option.bind_some, hset, Option.bind_some, hkeyed]
    · rw [hitems, append_assoc, map_cons, singleton_append]

theorem keyed_of_inPlace (h : InPlace (xs.map name)) :
    ∃ a, keyed name empty xs = some a ∧ a.items = xs.map some ∧ a.hides "sort".toList = false := by
  rw [InPlace, length_map] at h
  obtain ⟨a, hkeyed, hitems, hsort⟩ := @keyed_of_inPlaceFrom _ name empty xs
    (by simpa [empty] using h.2) (Or.inr rfl) rfl h.1
  exact ⟨a, hkeyed, by simpa [empty] using hitems, hsort⟩

/-! ### Other names -/

theorem keyed_cons_eq_some (h : keyed name a (x :: xs) = some a') :
    ∃ a'', a.hides "push".toList = false ∧ a.items.length < maxArrayLength ∧
      JsArray.setProperty { a with items := a.items ++ [some x] } (name x) x = some a'' ∧
      keyed name a'' xs = some a' := by
  rw [keyed, Option.bind_eq_some_iff] at h
  obtain ⟨pushed, hpush, hbind⟩ := h
  obtain ⟨a'', hset, hkeyed⟩ := Option.bind_eq_some_iff.1 hbind
  obtain ⟨hhides, hlt, rfl⟩ := push_eq_some_iff.1 hpush
  exact ⟨a'', hhides, hlt, hset, hkeyed⟩

theorem mem_names_keyed (h : keyed name a xs = some a') :
    key ∈ a'.names ↔ key ∈ a.names ∨ key ∈ xs.map name ∧ arrayIndex? key = none := by
  induction xs generalizing a with
  | nil =>
    obtain rfl := Option.some.inj h
    simp
  | cons x xs ih =>
    obtain ⟨a'', -, -, hset, hkeyed⟩ := keyed_cons_eq_some h
    have hnames : key ∈ a''.names ↔ key ∈ a.names ∨ key = name x ∧ arrayIndex? key = none := by
      cases hindex : arrayIndex? (name x) with
      | some n =>
        have hname : a''.names = a.names := by
          by_cases hn : n < (a.items ++ [some x]).length
          · obtain rfl := Option.some.inj ((setProperty_of_lt hindex hn).symm.trans hset)
            rfl
          · obtain rfl := Option.some.inj ((setProperty_of_le hindex (not_lt.1 hn)).symm.trans hset)
            rfl
        rw [hname, iff_self_or]
        rintro ⟨rfl, hnone⟩
        rw [hindex] at hnone
        cases hnone
      | none =>
        obtain ⟨-, rfl⟩ := (setProperty_of_none hindex).1 hset
        rw [mem_append, mem_singleton]
        exact or_congr_right ⟨fun heq => ⟨heq, heq ▸ hindex⟩, And.left⟩
    rw [ih hkeyed, hnames, map_cons, mem_cons, or_assoc, or_and_right]

end JsArray

end QBittorrent
