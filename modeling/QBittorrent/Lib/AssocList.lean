import Mathlib.Data.List.Dedup

/-!
# Association lists

A list of entries stands for the finite map of its look-ups.

* `AssocList.lookup_foldl_of_mem`, `AssocList.lookup_foldl_of_forall` : **what a loop over the entries
  leaves at a key**, if only one entry writes there, or none does.
-/

namespace QBittorrent

open List

/-- A list of entries. -/
abbrev AssocList (K V : Type*) := List (K × V)

namespace AssocList

variable {K V W : Type*} {m : AssocList K V}

def keys (m : AssocList K V) : List K := m.map Prod.fst

@[simp] theorem keys_nil : keys ([] : AssocList K V) = [] := rfl

@[simp] theorem keys_cons (entry : K × V) (m : AssocList K V) : keys (entry :: m) = entry.1 :: keys m :=
  rfl

theorem mem_keys_of_mem {entry : K × V} (h : entry ∈ m) : entry.1 ∈ keys m :=
  mem_map_of_mem h

theorem mem_keys_filter (p : K → Bool) {key : K} :
    key ∈ keys (m.filter fun entry => p entry.1) ↔ key ∈ keys m ∧ p key = true := by
  rw [keys, keys, mem_map, mem_map]
  constructor
  · rintro ⟨entry, hentry, rfl⟩
    obtain ⟨hmem, hp⟩ := mem_filter.1 hentry
    exact ⟨⟨entry, hmem, rfl⟩, hp⟩
  · rintro ⟨⟨entry, hmem, rfl⟩, hp⟩
    exact ⟨entry, mem_filter.2 ⟨hmem, hp⟩, rfl⟩

variable [DecidableEq K]

/-- The entry of a key is replaced, or a new one is appended. -/
def set (key : K) (value : V) : AssocList K V → AssocList K V
  | [] => [(key, value)]
  | (key', value') :: rest =>
    if key' = key then (key, value) :: rest else (key', value') :: set key value rest

def remove (key : K) (m : AssocList K V) : AssocList K V := m.filter fun entry => decide (entry.1 ≠ key)

/-- The value of a key, for keys that may be compared in another way as well. -/
def get? (key : K) (m : AssocList K V) : Option V := List.lookup key m

/-- The entries of a function that may have no value. -/
def ofKeys (keys : List K) (f : K → Option V) : AssocList K V :=
  keys.filterMap fun key => (f key).map fun value => (key, value)

variable {m : AssocList K V} {key key' : K} {value : V}

/-! ### Look-ups -/

theorem lookup_cons_eq (entry : K × V) (m : AssocList K V) (key : K) :
    List.lookup key (entry :: m) = if entry.1 = key then some entry.2 else List.lookup key m := by
  obtain ⟨key', value⟩ := entry
  rw [lookup_cons]
  by_cases h : key' = key
  · simp [h]
  · have hkey : (key == key') = false := beq_eq_false_iff_ne.2 (Ne.symm h)
    simp [h, hkey]

theorem lookup_eq_none_iff_keys : List.lookup key m = none ↔ key ∉ keys m := by
  induction m with
  | nil => simp
  | cons entry m ih =>
    rw [lookup_cons_eq, keys_cons, mem_cons, not_or]
    by_cases h : entry.1 = key
    · simp [h]
    · simp [h, Ne.symm h, ih]

theorem mem_keys_iff : key ∈ keys m ↔ ∃ value, List.lookup key m = some value := by
  rw [← not_iff_not, ← lookup_eq_none_iff_keys, ← Option.ne_none_iff_exists', not_not]

theorem mem_of_lookup (h : List.lookup key m = some value) : (key, value) ∈ m := by
  induction m with
  | nil => simp at h
  | cons entry m ih =>
    rw [lookup_cons_eq] at h
    split_ifs at h with hkey
    · obtain rfl := hkey
      obtain rfl := Option.some.inj h
      exact mem_cons_self ..
    · exact mem_cons_of_mem _ (ih h)

theorem lookup_eq_some_iff_mem (hm : (keys m).Nodup) :
    List.lookup key m = some value ↔ (key, value) ∈ m := by
  refine ⟨mem_of_lookup, fun h => ?_⟩
  induction m with
  | nil => cases h
  | cons entry m ih =>
    obtain ⟨hnotMem, hm⟩ := nodup_cons.1 hm
    rw [lookup_cons_eq]
    obtain rfl | h := mem_cons.1 h
    · rw [if_pos rfl]
    · have hne : entry.1 ≠ key := fun heq => hnotMem (heq ▸ mem_keys_of_mem h)
      rw [if_neg hne, ih hm h]

/-! ### Operations -/

theorem lookup_set (m : AssocList K V) (key : K) (value : V) (key' : K) :
    List.lookup key' (set key value m) = if key = key' then some value else List.lookup key' m := by
  induction m with
  | nil => rw [set, lookup_cons_eq]
  | cons entry m ih =>
    rw [set]
    by_cases h : entry.1 = key
    · rw [if_pos h, lookup_cons_eq, lookup_cons_eq, h]
      split_ifs <;> rfl
    · rw [if_neg h, lookup_cons_eq, lookup_cons_eq, ih]
      by_cases hkey : entry.1 = key'
      · rw [if_pos hkey, if_pos hkey, if_neg fun heq => h (hkey.trans heq.symm)]
      · rw [if_neg hkey, if_neg hkey]

theorem set_ne_nil (key : K) (value : V) (m : AssocList K V) : set key value m ≠ [] := by
  cases m with
  | nil => simp [set]
  | cons entry m =>
    rw [set]
    split_ifs <;> simp

theorem lookup_remove (m : AssocList K V) (key key' : K) :
    List.lookup key' (remove key m) = if key = key' then none else List.lookup key' m := by
  induction m with
  | nil => simp [remove]
  | cons entry m ih =>
    rw [remove] at ih ⊢
    by_cases h : entry.1 = key
    · rw [filter_cons_of_neg (by simpa using h), ih, lookup_cons_eq, h]
      split_ifs <;> rfl
    · rw [filter_cons_of_pos (by simpa using h), lookup_cons_eq, lookup_cons_eq, ih]
      by_cases hkey : entry.1 = key'
      · rw [if_pos hkey, if_pos hkey, if_neg fun heq => h (hkey.trans heq.symm)]
      · rw [if_neg hkey, if_neg hkey]

theorem get?_set (m : AssocList K V) (key : K) (value : V) (key' : K) :
    get? key' (set key value m) = if key = key' then some value else get? key' m :=
  lookup_set m key value key'

theorem get?_remove (m : AssocList K V) (key key' : K) :
    get? key' (remove key m) = if key = key' then none else get? key' m :=
  lookup_remove m key key'

theorem keys_set (m : AssocList K V) (key : K) (value : V) :
    keys (set key value m) = if key ∈ keys m then keys m else keys m ++ [key] := by
  induction m with
  | nil => simp [set]
  | cons entry m ih =>
    rw [set]
    by_cases h : entry.1 = key
    · simp [h]
    · rw [if_neg h, keys_cons, keys_cons, ih]
      by_cases hmem : key ∈ keys m
      · simp [hmem]
      · simp [hmem, Ne.symm h]

theorem mem_keys_set : key' ∈ keys (set key value m) ↔ key' = key ∨ key' ∈ keys m := by
  rw [keys_set]
  split_ifs with h
  · exact ⟨Or.inr, fun hor => hor.elim (fun heq => heq ▸ h) id⟩
  · rw [mem_append, mem_singleton, or_comm]

theorem nodup_keys_set (h : (keys m).Nodup) : (keys (set key value m)).Nodup := by
  rw [keys_set]
  split_ifs with hmem
  · exact h
  · exact nodup_append.2 ⟨h, nodup_singleton key, fun a ha b hb heq =>
      hmem (mem_singleton.1 hb ▸ heq ▸ ha)⟩

theorem keys_remove (key : K) (m : AssocList K V) :
    keys (remove key m) = (keys m).filter fun key' => decide (key' ≠ key) := by
  rw [keys, remove, keys, filter_map]
  rfl

theorem lookup_ofKeys (keys : List K) (f : K → Option V) (key : K) :
    List.lookup key (ofKeys keys f) = if key ∈ keys then f key else none := by
  induction keys with
  | nil => rfl
  | cons key' keys ih =>
    rw [ofKeys] at ih
    rw [ofKeys, filterMap_cons]
    by_cases hkey : key = key'
    · subst hkey
      cases hf : f key with
      | none =>
        simp only [Option.map_none, ih, hf]
        split_ifs <;> rfl
      | some value => simp [lookup_cons_eq]
    · have hmem : key ∈ key' :: keys ↔ key ∈ keys := by simp [hkey]
      rw [if_congr hmem rfl rfl, ← ih]
      cases f key' with
      | none => rfl
      | some value => simp [lookup_cons_eq, Ne.symm hkey]

section Loop

variable {step : AssocList K W → K × V → AssocList K W} {m : AssocList K V}

theorem lookup_foldl_of_forall (acc : AssocList K W)
    (h : ∀ entry ∈ m, ∀ acc, List.lookup key (step acc entry) = List.lookup key acc) :
    List.lookup key (m.foldl step acc) = List.lookup key acc := by
  induction m generalizing acc with
  | nil => rfl
  | cons entry m ih =>
    obtain ⟨hentry, hrest⟩ := forall_mem_cons.1 h
    rw [foldl_cons, ih _ hrest, hentry]

theorem lookup_foldl_of_mem (hm : (keys m).Nodup) (acc : AssocList K W) {entry : K × V}
    (hmem : entry ∈ m) {value : Option W}
    (hentry : ∀ acc, List.lookup key (step acc entry) = value.or (List.lookup key acc))
    (h : ∀ other ∈ m, other.1 ≠ entry.1 →
      ∀ acc, List.lookup key (step acc other) = List.lookup key acc) :
    List.lookup key (m.foldl step acc) = value.or (List.lookup key acc) := by
  induction m generalizing acc with
  | nil => cases hmem
  | cons first m ih =>
    obtain ⟨hnotMem, hm⟩ := nodup_cons.1 hm
    obtain ⟨hfirst, hrest⟩ := forall_mem_cons.1 h
    rw [foldl_cons]
    obtain rfl | hmem := mem_cons.1 hmem
    · rw [lookup_foldl_of_forall _ fun other hother => ?_, hentry]
      exact hrest other hother fun heq => hnotMem (heq ▸ mem_keys_of_mem hother)
    · rw [ih hm _ hmem hrest, hfirst fun heq => hnotMem (heq ▸ mem_keys_of_mem hmem)]

end Loop

end AssocList

end QBittorrent
