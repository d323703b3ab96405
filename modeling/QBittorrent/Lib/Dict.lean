import Mathlib.Data.Finmap

/-!
# Finite maps with bulk operations

`Dict K V` is Mathlib's `Finmap` at a constant family.  A program that keeps maps and pending sets
walks over a set and inserts, erases or edits one entry at a time, in an order nobody fixes; here
each such loop is one operation on the whole map, given by its effect on a lookup.
`Dict.foldl_erase` and `Dict.foldl_insert` say that a loop over any enumeration of the set has the
same effect.
-/

namespace QBittorrent

open Finmap List Option

/-- Finite maps from `K` to `V`. -/
abbrev Dict (K V : Type*) := Finmap fun _ : K => V

namespace Dict

variable {K V W : Type*}

private theorem nodupKeys_filterMap (f : K → V → Option W) {l : List (Sigma fun _ : K => V)}
    (h : l.NodupKeys) :
    List.NodupKeys (β := fun _ : K => W)
      (l.filterMap fun e => (f e.1 e.2).map (Sigma.mk (β := fun _ : K => W) e.1)) := by
  induction l with
  | nil => simp
  | cons e l ih =>
    rw [nodupKeys_cons] at h
    have hl := ih h.2
    rw [filterMap_cons]
    cases hf : f e.1 e.2 with
    | none => simpa [hf] using hl
    | some w =>
      refine nodupKeys_cons.2 ⟨?_, hl⟩
      rw [List.mem_keys]
      rintro ⟨w', hw'⟩
      obtain ⟨e', he', hfe⟩ := mem_filterMap.1 hw'
      obtain ⟨w'', -, hw''⟩ := map_eq_some_iff.1 hfe
      have hk : e'.1 = e.1 := congrArg (Sigma.fst (β := fun _ : K => W)) hw''
      exact h.1 (hk ▸ mem_keys_of_mem he')

/-- Edit every entry: `f k v` is the new value at `k`, or `none` to drop the entry. -/
def filterMap (f : K → V → Option W) (m : Dict K V) : Dict K W where
  entries := m.entries.filterMap fun e => (f e.1 e.2).map (Sigma.mk (β := fun _ : K => W) e.1)
  nodupKeys := by
    obtain ⟨⟨l⟩, h⟩ := m
    exact nodupKeys_filterMap f h

/-- Keep the entries that satisfy `p`. -/
def filter (p : K → V → Bool) (m : Dict K V) : Dict K V :=
  filterMap (fun k v => if p k v then some v else none) m

/-- The map that sends each `k ∈ s` to `f k`. -/
def ofFinset (s : Finset K) (f : K → V) : Dict K V where
  entries := s.val.map fun k => ⟨k, f k⟩
  nodupKeys := by
    rw [← Multiset.nodup_keys, Multiset.keys, Multiset.map_map]
    simpa [Function.comp_def] using s.nodup

variable [DecidableEq K] {k : K} {m : Dict K V} {l : List (K × V)} {v : V}

/-- Erase every key of `s`. -/
def eraseAll (s : Finset K) (m : Dict K V) : Dict K V := filter (fun k _ => decide (k ∉ s)) m

@[simp] theorem lookup_filterMap (f : K → V → Option W) (m : Dict K V) (k : K) :
    Finmap.lookup k (filterMap f m) = (Finmap.lookup k m).bind (f k) := by
  obtain ⟨⟨l⟩, h⟩ := m
  change dlookup k (l.filterMap fun e => (f e.1 e.2).map (Sigma.mk (β := fun _ : K => W) e.1)) =
    (dlookup k l).bind (f k)
  change l.NodupKeys at h
  induction l with
  | nil => rfl
  | cons e l ih =>
    obtain ⟨k', v⟩ := e
    rw [nodupKeys_cons] at h
    rw [filterMap_cons]
    by_cases hk : k = k'
    · subst hk
      rw [dlookup_cons_eq, bind_some]
      cases hf : f k v with
      | none =>
        simp only [map_none]
        rw [ih h.2, dlookup_eq_none.2 h.1]
        rfl
      | some w => simp
    · have hne : dlookup k ((⟨k', v⟩ : Sigma fun _ : K => V) :: l) = dlookup k l :=
        dlookup_cons_ne _ _ hk
      rw [hne, ← ih h.2]
      cases hf : f k' v with
      | none => simp
      | some w =>
        exact dlookup_cons_ne _ (⟨k', w⟩ : Sigma fun _ : K => W) hk

@[simp] theorem lookup_filter (p : K → V → Bool) (m : Dict K V) (k : K) :
    Finmap.lookup k (filter p m) = (Finmap.lookup k m).filter (p k) := by
  rw [filter, lookup_filterMap]
  cases lookup k m <;> simp [Option.filter]

@[simp] theorem lookup_eraseAll (s : Finset K) (m : Dict K V) (k : K) :
    Finmap.lookup k (eraseAll s m) = if k ∈ s then none else Finmap.lookup k m := by
  rw [eraseAll, lookup_filter]
  cases lookup k m <;> by_cases h : k ∈ s <;> simp [h]

@[simp] theorem lookup_ofFinset (s : Finset K) (f : K → V) (k : K) :
    Finmap.lookup k (ofFinset s f) = if k ∈ s then some (f k) else none := by
  obtain ⟨⟨l⟩, h⟩ := s
  change dlookup k (l.map fun k => (⟨k, f k⟩ : Sigma fun _ : K => V)) =
    if k ∈ l then some (f k) else none
  clear h
  induction l with
  | nil => rfl
  | cons k' l ih =>
    rw [map_cons]
    by_cases hk : k = k'
    · subst hk; simp
    · rw [dlookup_cons_ne _ (⟨k', f k'⟩ : Sigma fun _ : K => V) hk, ih]
      simp [hk]

theorem mem_iff_isSome (m : Dict K V) (k : K) : k ∈ m ↔ (Finmap.lookup k m).isSome := by
  rw [mem_iff, isSome_iff_exists]

theorem mem_filterMap_some (f : K → V → W) (m : Dict K V) (k : K) :
    k ∈ filterMap (fun k v => some (f k v)) m ↔ k ∈ m := by
  rw [mem_iff_isSome, mem_iff_isSome, lookup_filterMap]
  cases lookup k m <;> rfl

theorem mem_eraseAll (s : Finset K) (m : Dict K V) (k : K) : k ∈ eraseAll s m ↔ k ∈ m ∧ k ∉ s := by
  rw [mem_iff_isSome, mem_iff_isSome, lookup_eraseAll]
  split_ifs with h <;> simp [h]

theorem mem_ofFinset (s : Finset K) (f : K → V) (k : K) : k ∈ ofFinset s f ↔ k ∈ s := by
  rw [mem_iff_isSome, lookup_ofFinset]
  split_ifs with h <;> simp [h]

theorem lookup_union (m m' : Dict K V) (k : K) :
    Finmap.lookup k (m ∪ m') = (Finmap.lookup k m).or (Finmap.lookup k m') := by
  by_cases h : k ∈ m
  · obtain ⟨v, hv⟩ := mem_iff.1 h
    simp [hv]
  · rw [lookup_union_right h, lookup_eq_none.2 h, none_or]

theorem lookup_insert_eq (m : Dict K V) (k k' : K) (v : V) :
    Finmap.lookup k' (Finmap.insert k v m) = if k' = k then some v else Finmap.lookup k' m := by
  split_ifs with h
  · subst h; exact lookup_insert m
  · exact lookup_insert_of_ne m h

theorem lookup_erase_eq (m : Dict K V) (k k' : K) :
    Finmap.lookup k' (Finmap.erase k m) = if k' = k then none else Finmap.lookup k' m := by
  split_ifs with h
  · subst h; exact lookup_erase k' m
  · exact lookup_erase_ne h

theorem eq_empty_iff (m : Dict K V) : m = ∅ ↔ ∀ k, Finmap.lookup k m = none := by
  refine ⟨?_, fun h => ext_lookup fun k => ?_⟩
  · rintro rfl k; exact lookup_empty k
  · rw [h k, lookup_empty]

theorem foldl_insert (l : List K) (f : K → V) (m : Dict K V) :
    l.foldl (fun m k => Finmap.insert k (f k) m) m = ofFinset l.toFinset f ∪ m := by
  induction l generalizing m with
  | nil => exact ext_lookup fun k => by simp [lookup_union]
  | cons a l ih =>
    rw [foldl_cons, ih]
    refine ext_lookup fun k => ?_
    simp only [lookup_union, lookup_ofFinset, lookup_insert_eq]
    by_cases hka : k = a
    · subst hka; by_cases hkl : k ∈ l <;> simp [hkl]
    · by_cases hkl : k ∈ l <;> simp [hka, hkl]

theorem isSome_lookup_foldl_insert (l : List (K × V)) (m : Dict K V) (k : K) :
    (Finmap.lookup k (l.foldl (fun m e => Finmap.insert e.1 e.2 m) m)).isSome ↔
      k ∈ l.map Prod.fst ∨ (Finmap.lookup k m).isSome := by
  induction l generalizing m with
  | nil => simp
  | cons e l ih =>
    rw [foldl_cons, ih, lookup_insert_eq, map_cons, mem_cons]
    split_ifs with h <;> simp [h]

theorem lookup_foldl_insert_of_notMem (h : k ∉ l.map Prod.fst) (m : Dict K V) :
    Finmap.lookup k (l.foldl (fun m e => Finmap.insert e.1 e.2 m) m) = Finmap.lookup k m := by
  induction l generalizing m with
  | nil => rfl
  | cons e' l ih =>
    rw [map_cons, mem_cons, not_or] at h
    rw [foldl_cons, ih h.2, lookup_insert_eq, if_neg h.1]

theorem lookup_foldl_insert_of_mem (hl : (l.map Prod.fst).Nodup) {e : K × V} (he : e ∈ l)
    (m : Dict K V) :
    Finmap.lookup e.1 (l.foldl (fun m e => Finmap.insert e.1 e.2 m) m) = some e.2 := by
  induction l generalizing m with
  | nil => cases he
  | cons e' l ih =>
    rw [map_cons, nodup_cons] at hl
    rw [foldl_cons]
    obtain rfl | he := mem_cons.1 he
    · rw [lookup_foldl_insert_of_notMem hl.1, lookup_insert]
    · exact ih hl.2 he _

/-! ### Counting -/

/-- The number of entries with a value that satisfies `p`. -/
def count (p : V → Bool) (m : Dict K V) : ℕ :=
  (m.keys.filter fun k => (Finmap.lookup k m).any p).card

theorem count_le_card (p : V → Bool) (m : Dict K V) : count p m ≤ m.keys.card :=
  Finset.card_filter_le _ _

theorem count_erase (p : V → Bool) (h : m.lookup k = some v) :
    count p (m.erase k) + (if p v then 1 else 0) = count p m := by
  have hset : (m.erase k).keys.filter (fun k' => (lookup k' (m.erase k)).any p) =
      (m.keys.filter fun k' => (lookup k' m).any p).erase k := by
    ext k'
    by_cases hk : k' = k <;> simp [hk]
  rw [count, hset, count]
  by_cases hv : p v = true
  · rw [if_pos hv, Finset.card_erase_add_one]
    rw [Finset.mem_filter, h]
    exact ⟨mem_keys.2 (mem_of_lookup_eq_some h), hv⟩
  · rw [if_neg hv, Finset.erase_eq_of_notMem, Nat.add_zero]
    rw [Finset.mem_filter, h]
    exact fun hmem => hv hmem.2

theorem count_pos (p : V → Bool) (h : m.lookup k = some v) (hv : p v = true) : 0 < count p m := by
  rw [← count_erase p h, if_pos hv]
  exact Nat.succ_pos _

theorem count_insert (p : V → Bool) (v : V) (h : k ∉ m) :
    count p (m.insert k v) = count p m + if p v then 1 else 0 := by
  have herase : (m.insert k v).erase k = m := by
    refine ext_lookup fun k' => ?_
    rw [lookup_erase_eq, lookup_insert_eq]
    split_ifs with hk
    · rw [hk, lookup_eq_none.2 h]
    · rfl
  rw [← count_erase p (lookup_insert m), herase]

theorem count_insert_add (p : V → Bool) (m : Dict K V) (k : K) (v : V) :
    count p (m.insert k v) + (if (m.lookup k).any p then 1 else 0) =
      count p m + if p v then 1 else 0 := by
  have herase : m.insert k v = (m.erase k).insert k v := by
    refine ext_lookup fun k' => ?_
    rw [lookup_insert_eq, lookup_insert_eq, lookup_erase_eq]
    split_ifs <;> rfl
  rw [herase, count_insert p v (notMem_erase_self)]
  cases h : m.lookup k with
  | none =>
    have hsame : m.erase k = m := by
      refine ext_lookup fun k' => ?_
      rw [lookup_erase_eq]
      split_ifs with hk
      · rw [hk, h]
      · rfl
    rw [hsame]
    rfl
  | some old =>
    have := count_erase p h
    rw [any_some]
    omega

end Dict

end QBittorrent
