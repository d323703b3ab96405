import Mathlib
import QBittorrent.Lib.AssocList
import QBittorrent.Sync.Variant

/-!
# Differences of nested data

`processMap`, `processHash` and `processList` compute what changed between two values of the sync
data, by the type of each.  What a list or a table has lost is written under its key with a suffix.

* `SyncDiff.diff_right` : the difference leads from the old value to the new one.
-/

namespace QBittorrent.SyncDiff

open AssocList List Multiset Prod

/-- What a `QVariant` holds that is neither a map nor a list, up to `==`. -/
class Scalar (α : Type) where
  /-- `QVariant()`. -/
  invalid : α
  string : String → α
  string_injective : Function.Injective string

/-- A `QVariant`, by the type that `userType` reports. -/
inductive Value (α : Type) where
  | scalar (value : α)
  | list (items : List α)
  | stringList (items : List String)
  | map (fields : List (String × Value α))
  | hash (items : List (String × Value α))

/-- The entries of a map or a hash, in the order of the loop over it. -/
abbrev Fields (α : Type) := AssocList String (Value α)

variable {α : Type} [Scalar α]

def toMap : Option (Value α) → Fields α
  | some (.map fields) => fields
  | some (.hash items) => items
  | _ => []

def toList : Option (Value α) → List α
  | some (.list items) => items
  | some (.stringList items) => items.map Scalar.string
  | _ => []

def KEY_SUFFIX_REMOVED : String := "_removed"

variable [DecidableEq α]

/-- The loop of `processList`. -/
def matchItems : List α → List α → List α → List α × List α
  | [], prevData, syncData => (syncData, prevData)
  | item :: data, prevData, syncData =>
    if prevData.contains item = false then matchItems data prevData (syncData ++ [item])
    else matchItems data (prevData.erase item) syncData

def processList (prevData data : List α) : List α × List α :=
  if prevData.isEmpty then (data, []) else matchItems data prevData []

/-- `prevData != value`, where the new value is a scalar. -/
def differs (prevData : Option (Value α)) (value : α) : Bool :=
  match prevData with
  | none => decide (Scalar.invalid ≠ value)
  | some (.scalar prevValue) => decide (prevValue ≠ value)
  | some _ => true

/-- What a loop assigns to a key, and to the key with the suffix. -/
def assign (syncData : Fields α) (key : String) (changes : Option (Value α) × List α) : Fields α :=
  let syncData := match changes.1 with
    | some value => set key value syncData
    | none => syncData
  if changes.2.isEmpty then syncData
  else set (key ++ KEY_SUFFIX_REMOVED) (.list changes.2) syncData

def unlessEmpty (isEmpty : Bool) (value : Value α) : Option (Value α) :=
  if isEmpty then none else some value

mutual

/-- The cases of `processMap`. -/
def processValue (prevData : Option (Value α)) : Value α → Option (Value α) × List α
  | .map value =>
    let map := processFields (toMap prevData) value []
    (unlessEmpty map.isEmpty (.map map), [])
  | .hash value =>
    let prevItems := toMap prevData
    let result := if prevItems.isEmpty then (value, []) else processItems value prevItems []
    (unlessEmpty result.1.isEmpty (.map result.1), result.2)
  | .list value =>
    let result := processList (toList prevData) value
    (unlessEmpty result.1.isEmpty (.list result.1), result.2)
  | .scalar value => (if differs prevData value then some (.scalar value) else none, [])
  | .stringList _ => (none, [])
termination_by structural value => value

/-- The loop of `processMap`. -/
def processFields (prevData : Fields α) : List (String × Value α) → Fields α → Fields α
  | [], syncData => syncData
  | (key, value) :: rest, syncData =>
    processFields prevData rest
      (assign syncData key (processValue (List.lookup key prevData) value))
termination_by structural data => data

/-- The loop of `processHash`. -/
def processItems : List (String × Value α) → Fields α → Fields α → Fields α × List α
  | [], prevData, syncData => (syncData, (keys prevData).map Scalar.string)
  | (key, value) :: rest, prevData, syncData =>
    let changes := processValue (List.lookup key prevData) value
    match List.lookup key prevData, value with
    | none, _ => processItems rest prevData (set key value syncData)
    | some _, .map _ => processItems rest (remove key prevData) (assign syncData key (changes.1, []))
    | some prevValue, .stringList items =>
      let result := processList (toList (some prevValue)) (items.map Scalar.string)
      processItems rest (remove key prevData)
        (if result.1.isEmpty && result.2.isEmpty then syncData
        else set key (.stringList items) syncData)
    | some _, _ => processItems rest prevData syncData
termination_by structural data => data

end

def processMap (prevData data : Fields α) : Fields α := processFields prevData data []

def processHash (prevData data : Fields α) : Fields α × List α :=
  if prevData.isEmpty then (data, []) else processItems data prevData []

/-! ### Fields with types -/

/-- The type of a field, and of what is in it. -/
inductive Kind where
  | absent
  | scalar
  | list
  | stringList
  | map (fields : String → Kind)
  | hash (items : String → Kind)

namespace Kind

/-- What `processHash` expects. -/
def IsItem : Kind → Prop
  | absent | stringList | map _ => True
  | _ => False

/-- What `processMap` expects. -/
def IsField : Kind → Prop
  | stringList => False
  | _ => True

/-- The key with the suffix is used for it. -/
def IsRemovable : Kind → Prop
  | list | hash _ => True
  | _ => False

/-- Only expected types. -/
def Valid : Kind → Prop
  | map fields => ∀ key, (fields key).IsField ∧ (fields key).Valid
  | hash items => ∀ key, (items key).IsItem ∧ (items key).Valid
  | _ => True

/-- No key is that of a list or a hash with the suffix. -/
def Clear : Kind → Prop
  | map fields => ∀ key, (fields key).Clear ∧
      ((fields key).IsRemovable → fields (key ++ KEY_SUFFIX_REMOVED) = absent)
  | hash items => ∀ key, (items key).Clear
  | _ => True

end Kind

/-- The value has the type. -/
def HasKind : Kind → Option (Value α) → Prop
  | _, none => True
  | .scalar, some (.scalar _) => True
  | .list, some (.list _) => True
  | .stringList, some (.stringList _) => True
  | .map fields, some (.map m) => (keys m).Nodup ∧ ∀ key, HasKind (fields key) (List.lookup key m)
  | .hash items, some (.hash m) => (keys m).Nodup ∧ ∀ key, HasKind (items key) (List.lookup key m)
  | _, some _ => False

def toScalar : Option (Value α) → α
  | some (.scalar value) => value
  | _ => Scalar.invalid

/-- Equal values: lists as multisets, and a missing field is like one that holds nothing. -/
def Same : Kind → Option (Value α) → Option (Value α) → Prop
  | .absent, _, _ => True
  | .scalar, value, value' => toScalar value = toScalar value'
  | .list, value, value' | .stringList, value, value' => (toList value).Perm (toList value')
  | .map fields, value, value' => ∀ key,
      Same (fields key) (List.lookup key (toMap value)) (List.lookup key (toMap value'))
  | .hash items, value, value' => ∀ key,
      (key ∈ keys (toMap value) ↔ key ∈ keys (toMap value')) ∧
        Same (items key) (List.lookup key (toMap value)) (List.lookup key (toMap value'))

/-- No field of a map is lost. -/
def Covers : Kind → Option (Value α) → Option (Value α) → Prop
  | .map fields, value, value' => ∀ key,
      (key ∈ keys (toMap value) → key ∈ keys (toMap value')) ∧
        Covers (fields key) (List.lookup key (toMap value)) (List.lookup key (toMap value'))
  | .hash items, value, value' => ∀ key, key ∈ keys (toMap value') →
      Covers (items key) (List.lookup key (toMap value)) (List.lookup key (toMap value'))
  | _, _, _ => True

/-- A value after the changes to it, and without what has been removed. -/
def patch : Kind → Option (Value α) → Option (Value α) → List α → Option (Value α)
  | .absent, _, _, _ => none
  | .scalar, prev, change, _ | .stringList, prev, change, _ => change.or prev
  | .list, prev, change, removed => some (.list ((toList prev ++ toList change).diff removed))
  | .map fields, prev, change, _ =>
    some (.map (ofKeys (keys (toMap prev) ++ keys (toMap change)).dedup fun key =>
      patch (fields key) (List.lookup key (toMap prev)) (List.lookup key (toMap change))
        (toList (List.lookup (key ++ KEY_SUFFIX_REMOVED) (toMap change)))))
  | .hash items, prev, change, removed =>
    some (.hash (ofKeys (keys (toMap prev) ++ keys (toMap change)).dedup fun key =>
      if removed.contains (Scalar.string key) then none
      else match List.lookup key (toMap prev) with
        | none => List.lookup key (toMap change)
        | some prevItem =>
          patch (items key) (some prevItem) (List.lookup key (toMap change)) []))

section Lists

omit [Scalar α]

variable {prevData data syncData : List α}

variable (prevData data syncData) in
theorem matchItems_eq : ((matchItems data prevData syncData).1 : Multiset α) = syncData + (data - prevData) ∧
    ((matchItems data prevData syncData).2 : Multiset α) = (prevData : Multiset α) - data := by
  induction data generalizing prevData syncData with
  | nil => simp [matchItems, zero_tsub]
  | cons item data ih =>
    rw [matchItems, ← cons_coe]
    by_cases hitem : item ∈ prevData
    · have hpos : 0 < count item (prevData : Multiset α) :=
        count_pos.2 (mem_coe.2 hitem)
      rw [if_neg (by simpa using hitem), (ih _ _).1, (ih _ _).2, ← coe_erase, ← sub_singleton]
      constructor
      · congr 1
        ext a
        rw [count_sub, count_sub, count_sub, Multiset.count_cons,
          Multiset.count_singleton]
        split_ifs with ha
        · rw [← ha] at hpos
          omega
        · omega
      · ext a
        rw [count_sub, count_sub, count_sub, Multiset.count_cons,
          Multiset.count_singleton]
        omega
    · have hzero : count item (prevData : Multiset α) = 0 :=
        count_eq_zero.2 (by simpa using hitem)
      rw [if_pos (by simpa using hitem), (ih _ _).1, (ih _ _).2, ← coe_add, coe_singleton]
      constructor <;> ext a
      · rw [count_add, count_add, count_add, count_sub,
          count_sub, Multiset.count_cons, Multiset.count_singleton]
        split_ifs with ha
        · rw [ha]
          omega
        · omega
      · rw [count_sub, count_sub, Multiset.count_cons]
        split_ifs with ha
        · rw [ha]
          omega
        · omega

theorem processList_eq : ((processList prevData data).1 : Multiset α) = (data : Multiset α) - prevData ∧
    ((processList prevData data).2 : Multiset α) = (prevData : Multiset α) - data := by
  rw [processList]
  by_cases hprev : prevData = []
  · simp [hprev, zero_tsub]
  · rw [if_neg (by simpa using hprev)]
    have hmatch := matchItems_eq prevData data []
    simpa using hmatch

theorem patch_processList :
    ((prevData ++ (processList prevData data).1).diff (processList prevData data).2).Perm data := by
  rw [← coe_eq_coe, ← coe_sub, ← coe_add, processList_eq.1, processList_eq.2]
  ext a
  rw [count_sub, count_add, count_sub, count_sub]
  omega

theorem processList_eq_nil_iff :
    ((processList prevData data).1 = [] ∧ (processList prevData data).2 = []) ↔ prevData.Perm data := by
  rw [← coe_eq_zero, ← coe_eq_zero, processList_eq.1, processList_eq.2,
    ← coe_eq_coe, tsub_eq_zero_iff_le, tsub_eq_zero_iff_le]
  exact ⟨fun h => le_antisymm h.2 h.1, fun h => ⟨h.symm.le, h.le⟩⟩

end Lists

/-! ### Loops -/

variable {prevData data syncData : Fields α} {key key' : String} {value : Value α}
  {changes : Option (Value α) × List α}

theorem append_suffix_inj : key ++ KEY_SUFFIX_REMOVED = key' ++ KEY_SUFFIX_REMOVED ↔ key = key' :=
  String.append_left_inj _

theorem append_suffix_ne (key : String) : key ++ KEY_SUFFIX_REMOVED ≠ key := by
  intro h
  have hlength := congrArg String.length h
  rw [String.length_append] at hlength
  have hsuffix : KEY_SUFFIX_REMOVED.length = 8 := by decide
  omega

section

omit [Scalar α] [DecidableEq α]

theorem lookup_assign_self : List.lookup key (assign syncData key changes) =
    changes.1.or (List.lookup key syncData) := by
  have hset : lookup key (match changes.1 with
      | some value => set key value syncData
      | none => syncData) = changes.1.or (lookup key syncData) := by
    cases changes.1 <;> simp [lookup_set]
  rw [assign]
  by_cases hremoved : changes.2.isEmpty = true
  · rw [if_pos hremoved, hset]
  · rw [if_neg hremoved, lookup_set, if_neg (append_suffix_ne key), hset]

theorem lookup_assign_removed :
    List.lookup (key ++ KEY_SUFFIX_REMOVED) (assign syncData key changes) =
      (if changes.2.isEmpty then none else some (.list changes.2)).or
        (List.lookup (key ++ KEY_SUFFIX_REMOVED) syncData) := by
  have hset : lookup (key ++ KEY_SUFFIX_REMOVED) (match changes.1 with
      | some value => set key value syncData
      | none => syncData) = lookup (key ++ KEY_SUFFIX_REMOVED) syncData := by
    cases changes.1 <;> simp [lookup_set, (append_suffix_ne key).symm]
  rw [assign]
  by_cases hremoved : changes.2.isEmpty = true
  · rw [if_pos hremoved, if_pos hremoved, hset, Option.none_or]
  · rw [if_neg hremoved, if_neg hremoved, lookup_set, if_pos rfl, Option.some_or]

theorem lookup_assign_ne (hne : key ≠ key')
    (hremoved : changes.2 ≠ [] → key ++ KEY_SUFFIX_REMOVED ≠ key') :
    List.lookup key' (assign syncData key changes) = List.lookup key' syncData := by
  have hset : lookup key' (match changes.1 with
      | some value => set key value syncData
      | none => syncData) = lookup key' syncData := by
    cases changes.1 <;> simp [lookup_set, hne]
  rw [assign]
  by_cases hempty : changes.2 = []
  · rw [if_pos (by simpa using hempty), hset]
  · rw [if_neg (by simpa using hempty), lookup_set, if_neg (hremoved hempty), hset]

theorem assign_eq_nil_iff : assign syncData key changes = [] ↔ syncData = [] ∧ changes = (none, []) := by
  obtain ⟨change, removed⟩ := changes
  rw [assign, mk.injEq]
  cases removed with
  | nil => cases change <;> simp [set_ne_nil]
  | cons item items => simp [set_ne_nil]

end

theorem processFields_eq : processFields prevData data syncData = data.foldl (fun syncData entry =>
    assign syncData entry.1 (processValue (List.lookup entry.1 prevData) entry.2)) syncData := by
  induction data generalizing syncData with
  | nil => rw [processFields, foldl_nil]
  | cons entry data ih => rw [processFields, ih, List.foldl_cons]

theorem processFields_eq_nil_iff : processFields prevData data syncData = [] ↔
    syncData = [] ∧ ∀ entry ∈ data, processValue (List.lookup entry.1 prevData) entry.2 = (none, []) := by
  induction data generalizing syncData with
  | nil => simp [processFields]
  | cons entry data ih =>
    rw [processFields, ih, assign_eq_nil_iff, List.forall_mem_cons, and_assoc]

/-- No key with the suffix is a key of the data, where something is removed. -/
def Free (prevData data : Fields α) : Prop :=
  ∀ entry ∈ data, (processValue (List.lookup entry.1 prevData) entry.2).2 ≠ [] →
    entry.1 ++ KEY_SUFFIX_REMOVED ∉ keys data

theorem lookup_processMap (hdata : (keys data).Nodup) (hfree : Free prevData data)
    (hlookup : List.lookup key data = some value) : List.lookup key (processMap prevData data) =
      (processValue (List.lookup key prevData) value).1 := by
  have hmem := mem_of_lookup hlookup
  rw [processMap, processFields_eq, lookup_foldl_of_mem hdata _ hmem (fun acc => lookup_assign_self)
    fun other hother hne acc => ?_]
  · simp
  · refine lookup_assign_ne hne fun hremoved heq => hfree other hother hremoved ?_
    exact heq ▸ mem_keys_of_mem hmem

theorem lookup_processMap_removed (hdata : (keys data).Nodup)
    (hclear : key ++ KEY_SUFFIX_REMOVED ∉ keys data)
    (hlookup : List.lookup key data = some value) :
    toList (List.lookup (key ++ KEY_SUFFIX_REMOVED) (processMap prevData data)) =
      (processValue (List.lookup key prevData) value).2 := by
  have hmem := mem_of_lookup hlookup
  rw [processMap, processFields_eq, lookup_foldl_of_mem hdata _ hmem (fun acc => lookup_assign_removed)
    fun other hother hne acc => ?_]
  · cases hremoved : (processValue (lookup key prevData) value).2 <;> simp [toList]
  · refine lookup_assign_ne (fun heq => hclear (heq ▸ mem_keys_of_mem hother)) fun _ heq => hne ?_
    exact append_suffix_inj.1 heq

theorem lookup_processMap_of_notMem (hkey : key ∉ keys data)
    (hremoved : ∀ entry ∈ data, (processValue (List.lookup entry.1 prevData) entry.2).2 ≠ [] →
      entry.1 ++ KEY_SUFFIX_REMOVED ≠ key) :
    List.lookup key (processMap prevData data) = none := by
  rw [processMap, processFields_eq, lookup_foldl_of_forall _ fun entry hentry acc => ?_]
  · rfl
  · exact lookup_assign_ne (fun heq => hkey (heq ▸ mem_keys_of_mem hentry)) (hremoved entry hentry)

/-- What `processHash` tells of an item. -/
def itemChange (prevItem : Option (Value α)) (value : Value α) : Option (Value α) :=
  match prevItem, value with
  | none, value => some value
  | some prevItem, .map fields => (processValue (some prevItem) (.map fields)).1
  | some prevItem, .stringList items =>
    let result := processList (toList (some prevItem)) (items.map Scalar.string)
    if result.1.isEmpty && result.2.isEmpty then none else some (.stringList items)
  | some _, _ => none

def IsTable (data : Fields α) : Prop :=
  ∀ entry ∈ data, (∃ fields, entry.2 = .map fields) ∨ ∃ items, entry.2 = .stringList items

omit [Scalar α] [DecidableEq α] in
theorem remove_of_notMem (h : key ∉ keys data) : remove key data = data := by
  rw [remove, filter_eq_self]
  intro entry hentry
  rw [decide_eq_true_iff]
  exact fun heq => h (heq ▸ mem_keys_of_mem hentry)

theorem processItems_cons {entry : String × Value α} (h : IsTable [entry]) :
    processItems (entry :: data) prevData syncData = processItems data (remove entry.1 prevData)
      (assign syncData entry.1 (itemChange (List.lookup entry.1 prevData) entry.2, [])) := by
  obtain ⟨key, value⟩ := entry
  rw [processItems.eq_def]
  cases hlookup : lookup key prevData with
  | none =>
    rw [remove_of_notMem (lookup_eq_none_iff_keys.1 hlookup)]
    simp only [hlookup]
    rfl
  | some prevItem =>
    obtain ⟨fields, hvalue⟩ | ⟨items, hvalue⟩ := h _ (List.mem_singleton_self _)
    · obtain rfl : value = .map fields := hvalue
      simp only [hlookup]
      rfl
    · obtain rfl : value = .stringList items := hvalue
      simp only [hlookup, itemChange]
      split_ifs <;> rfl

theorem processItems_eq (hdata : (keys data).Nodup) (h : IsTable data) :
    processItems data prevData syncData =
      (data.foldl (fun syncData entry => assign syncData entry.1
        (itemChange (List.lookup entry.1 prevData) entry.2, [])) syncData,
      (keys (prevData.filter fun entry => decide (entry.1 ∉ keys data))).map Scalar.string) := by
  induction data generalizing prevData syncData with
  | nil => simp [processItems]
  | cons entry data ih =>
    obtain ⟨hnotMem, hdata⟩ := nodup_cons.1 hdata
    obtain ⟨hentry, hrest⟩ := forall_mem_cons.1 h
    rw [processItems_cons (forall_mem_singleton.2 hentry), ih hdata hrest, List.foldl_cons]
    have hfold : ∀ acc : Fields α, data.foldl (fun syncData other => assign syncData other.1
          (itemChange (lookup other.1 (remove entry.1 prevData)) other.2, [])) acc =
        data.foldl (fun syncData other => assign syncData other.1
          (itemChange (lookup other.1 prevData) other.2, [])) acc := by
      intro acc
      refine foldl_ext _ _ _ fun acc other hother => ?_
      have hne : entry.1 ≠ other.1 := fun heq => hnotMem (heq ▸ mem_keys_of_mem hother)
      rw [lookup_remove, if_neg hne]
    have hfilter : (fun other : String × Value α => decide (other.1 ∉ keys (entry :: data))) =
        fun other => decide (other.1 ∉ keys data) && decide (other.1 ≠ entry.1) := by
      funext other
      simp [Bool.and_comm]
    rw [hfold, remove, List.filter_filter, hfilter]

variable (prevData) in
theorem lookup_processHash (hdata : (keys data).Nodup) (h : IsTable data) (key : String) :
    List.lookup key (processHash prevData data).1 =
      (List.lookup key data).bind (itemChange (List.lookup key prevData)) := by
  rw [processHash]
  by_cases hprev : prevData = []
  · subst hprev
    rw [if_pos isEmpty_nil]
    cases lookup key data <;> rfl
  · rw [if_neg (by simpa using hprev), processItems_eq hdata h]
    cases hlookup : lookup key data with
    | none =>
      have hkey := lookup_eq_none_iff_keys.1 hlookup
      rw [lookup_foldl_of_forall _ fun entry hentry acc => ?_]
      · rfl
      · exact lookup_assign_ne (fun heq => hkey (heq ▸ mem_keys_of_mem hentry)) fun hne => absurd rfl hne
    | some value =>
      rw [lookup_foldl_of_mem hdata _ (mem_of_lookup hlookup) (fun acc => lookup_assign_self)
        fun other hother hne acc => ?_]
      · simp
      · exact lookup_assign_ne hne fun hne => absurd rfl hne

variable (prevData) in
theorem mem_processHash_removed (hdata : (keys data).Nodup) (h : IsTable data) (key : String) :
    Scalar.string key ∈ (processHash prevData data).2 ↔ key ∈ keys prevData ∧ key ∉ keys data := by
  rw [processHash]
  by_cases hprev : prevData = []
  · subst hprev
    simp
  · rw [if_neg (by simpa using hprev), processItems_eq hdata h]
    rw [List.mem_map_of_injective Scalar.string_injective,
      mem_keys_filter fun key => decide (key ∉ keys data), decide_eq_true_iff]

omit [Scalar α] [DecidableEq α] in
theorem foldl_assign_eq_nil_iff (change : String × Value α → Option (Value α)) :
    data.foldl (fun syncData entry => assign syncData entry.1 (change entry, [])) syncData = [] ↔
      syncData = [] ∧ ∀ entry ∈ data, change entry = none := by
  induction data generalizing syncData with
  | nil => simp
  | cons entry data ih =>
    rw [List.foldl_cons, ih, assign_eq_nil_iff, List.forall_mem_cons, and_assoc, mk.injEq]
    simp

theorem processHash_eq_nil_iff (hdata : (keys data).Nodup) (h : IsTable data) :
    processHash prevData data = ([], []) ↔
      (∀ entry ∈ data, itemChange (List.lookup entry.1 prevData) entry.2 = none) ∧
        ∀ key ∈ keys prevData, key ∈ keys data := by
  rw [processHash]
  by_cases hprev : prevData = []
  · subst hprev
    cases data with
    | nil => simp
    | cons entry data =>
      refine iff_of_false (by simp) fun hnone => ?_
      have hsome := hnone.1 entry (mem_cons_self ..)
      cases hsome
  · rw [if_neg (by simpa using hprev), processItems_eq hdata h, mk.injEq, foldl_assign_eq_nil_iff,
      and_iff_right rfl, map_eq_nil_iff, eq_nil_iff_forall_not_mem]
    refine and_congr_right fun _ => forall_congr' fun key => ?_
    rw [mem_keys_filter fun key => decide (key ∉ keys data), decide_eq_true_iff, not_and, not_not]

/-! ### Types -/

variable {kind : Kind} {fields items : String → Kind} {prev : Option (Value α)}

section

omit [Scalar α] [DecidableEq α]

theorem hasKind_absent_iff : HasKind .absent prev ↔ prev = none := by
  cases prev <;> simp [HasKind]

theorem hasKind_none (kind : Kind) : HasKind kind (none : Option (Value α)) := by
  cases kind <;> exact trivial

theorem HasKind.lookup_map (h : HasKind (.map fields) prev) (key : String) :
    HasKind (fields key) (List.lookup key (toMap prev)) := by
  cases prev with
  | none => exact hasKind_none _
  | some value =>
    cases value <;> first | exact h.elim | exact h.2 key

theorem HasKind.lookup_hash (h : HasKind (.hash items) prev) (key : String) :
    HasKind (items key) (List.lookup key (toMap prev)) := by
  cases prev with
  | none => exact hasKind_none _
  | some value =>
    cases value <;> first | exact h.elim | exact h.2 key

end

omit [DecidableEq α] in
theorem same_refl (kind : Kind) (value : Option (Value α)) : Same kind value value := by
  induction kind generalizing value with
  | absent => exact trivial
  | scalar => exact rfl
  | list | stringList => exact Perm.refl _
  | map fields ih => exact fun key => ih key _
  | hash items ih => exact fun key => ⟨Iff.rfl, ih key _⟩

theorem isRemovable_of_removed (h : HasKind kind (some value)) (hremoved : (processValue prev value).2 ≠ []) :
    kind.IsRemovable := by
  cases value with
  | list => cases kind <;> first | exact h.elim | exact trivial
  | hash => cases kind <;> first | exact h.elim | exact trivial
  | _ => exact absurd rfl hremoved

theorem processValue_none_removed (value : Value α) : (processValue none value).2 = [] := by
  cases value <;> rfl

theorem patch_congr (h : ¬ kind.IsRemovable) (change : Option (Value α)) (removed removed' : List α) :
    patch kind prev change removed = patch kind prev change removed' := by
  cases kind <;> first | rfl | exact absurd trivial h

section

omit [Scalar α] [DecidableEq α]

theorem toMap_unlessEmpty (m : Fields α) : toMap (unlessEmpty m.isEmpty (.map m)) = m := by
  cases m <;> rfl

theorem unlessEmpty_eq_none_iff {isEmpty : Bool} : unlessEmpty isEmpty value = none ↔ isEmpty = true := by
  cases isEmpty <;> simp [unlessEmpty]

end

/-- **The changes of a value lead to it**, if no key clashes, and there are none exactly if it is the
same. -/
def Follows (α : Type) [Scalar α] [DecidableEq α] (kind : Kind) : Prop :=
  ∀ (prev : Option (Value α)) (value : Value α), HasKind kind prev → HasKind kind (some value) →
    Covers kind prev (some value) →
      (kind.Clear → Same kind
        (patch kind prev (processValue prev value).1 (processValue prev value).2) (some value)) ∧
      (processValue prev value = (none, []) ↔ Same kind prev (some value))

theorem follows_scalar : Follows α .scalar := by
  intro prev value hprev hvalue _
  cases value with
  | scalar value =>
    have hdiffers : differs prev value = true ↔ toScalar prev ≠ value := by
      cases prev with
      | none => simp [differs, toScalar]
      | some prevValue => cases prevValue <;> first | exact hprev.elim | simp [differs, toScalar]
    rw [processValue]
    by_cases hsame : toScalar prev = value
    · have hno : ¬ differs prev value = true := fun h => hdiffers.1 h hsame
      rw [if_neg hno]
      exact ⟨fun _ => hsame, iff_of_true rfl hsame⟩
    · rw [if_pos (hdiffers.2 hsame)]
      exact ⟨fun _ => rfl, iff_of_false (by simp) hsame⟩
  | _ => exact hvalue.elim

theorem follows_list : Follows α .list := by
  intro prev value _ hvalue _
  cases value with
  | list value =>
    have hlist : toList (unlessEmpty (processList (toList prev) value).1.isEmpty
        (.list (processList (toList prev) value).1)) = (processList (toList prev) value).1 := by
      cases (processList (toList prev) value).1 <;> rfl
    rw [processValue]
    refine ⟨fun _ => ?_, ?_⟩
    · simp only [patch, hlist]
      exact patch_processList
    · rw [mk.injEq, unlessEmpty_eq_none_iff, List.isEmpty_iff, processList_eq_nil_iff]
      rfl
  | _ => exact hvalue.elim

/-- The fields of a map, before and after. -/
structure MapStep (fields : String → Kind) (prevData data : Fields α) : Prop where
  nodup : (keys data).Nodup
  kind : ∀ key, HasKind (fields key) (List.lookup key data)
  kept : ∀ key ∈ keys prevData, key ∈ keys data
  follows : ∀ key value, List.lookup key data = some value →
    ((fields key).Clear → Same (fields key) (patch (fields key) (List.lookup key prevData)
        (processValue (List.lookup key prevData) value).1
        (processValue (List.lookup key prevData) value).2) (some value)) ∧
      (processValue (List.lookup key prevData) value = (none, []) ↔
        Same (fields key) (List.lookup key prevData) (some value))

section

variable (h : MapStep fields prevData data)

include h

theorem MapStep.absent_of_removed (hclear : (Kind.map fields).Clear)
    (hlookup : List.lookup key data = some value)
    (hremoved : (processValue (List.lookup key prevData) value).2 ≠ []) :
    fields (key ++ KEY_SUFFIX_REMOVED) = .absent :=
  (hclear key).2 (isRemovable_of_removed (hlookup ▸ h.kind key) hremoved)

theorem MapStep.notMem_of_absent (habsent : fields key = .absent) : key ∉ keys data := by
  have hkind := h.kind key
  rw [habsent, hasKind_absent_iff] at hkind
  exact lookup_eq_none_iff_keys.1 hkind

theorem MapStep.processMap_eq_nil_iff :
    processMap prevData data = [] ↔ ∀ key,
      Same (fields key) (List.lookup key prevData) (List.lookup key data) := by
  rw [processMap, processFields_eq_nil_iff, and_iff_right rfl]
  constructor
  · intro hnone key
    cases hlookup : lookup key data with
    | none =>
      have hkey : key ∉ keys prevData := fun hmem =>
        lookup_eq_none_iff_keys.1 hlookup (h.kept key hmem)
      rw [lookup_eq_none_iff_keys.2 hkey]
      exact same_refl _ _
    | some value => exact (h.follows key value hlookup).2.1 (hnone _ (mem_of_lookup hlookup))
  · intro hsame entry hentry
    have hlookup := (lookup_eq_some_iff_mem h.nodup).2 hentry
    have hentry := hsame entry.1
    rw [hlookup] at hentry
    exact (h.follows _ _ hlookup).2.2 hentry

theorem MapStep.same_patch (hclear : (Kind.map fields).Clear) (key : String) :
    Same (fields key) (List.lookup key
      (ofKeys (keys prevData ++ keys (processMap prevData data)).dedup fun key =>
        patch (fields key) (List.lookup key prevData) (List.lookup key (processMap prevData data))
          (toList (List.lookup (key ++ KEY_SUFFIX_REMOVED) (processMap prevData data)))))
      (List.lookup key data) := by
  have hfree : Free prevData data := fun entry hentry hremoved =>
    h.notMem_of_absent (h.absent_of_removed hclear ((lookup_eq_some_iff_mem h.nodup).2 hentry) hremoved)
  rw [lookup_ofKeys]
  cases hlookup : lookup key data with
  | none =>
    have hdata := lookup_eq_none_iff_keys.1 hlookup
    have hprev : key ∉ keys prevData := fun hmem => hdata (h.kept key hmem)
    by_cases hkind : fields key = .absent
    · rw [hkind]
      exact trivial
    · -- A key that only the difference has is one for removed items.
      have hnone : lookup key (processMap prevData data) = none := by
        refine lookup_processMap_of_notMem hdata fun entry hentry hremoved heq => hkind ?_
        rw [← heq]
        exact h.absent_of_removed hclear ((lookup_eq_some_iff_mem h.nodup).2 hentry) hremoved
      have hkeys : key ∉ (keys prevData ++ keys (processMap prevData data)).dedup := by
        rw [List.mem_dedup, mem_append, not_or]
        exact ⟨hprev, lookup_eq_none_iff_keys.1 hnone⟩
      rw [if_neg hkeys]
      exact same_refl _ _
  | some value =>
    obtain ⟨hpatch, hnone⟩ := h.follows key value hlookup
    have hchange := lookup_processMap h.nodup hfree hlookup
    have hpatch := hpatch (hclear key).1
    by_cases hkeys : key ∈ (keys prevData ++ keys (processMap prevData data)).dedup
    · rw [if_pos hkeys, hchange]
      by_cases hremovable : (fields key).IsRemovable
      · rwa [lookup_processMap_removed h.nodup (h.notMem_of_absent ((hclear key).2 hremovable)) hlookup]
      · rwa [patch_congr hremovable _ _ (processValue (lookup key prevData) value).2]
    · -- The field is new, and holds nothing.
      rw [List.mem_dedup, mem_append, not_or] at hkeys
      have hprev := lookup_eq_none_iff_keys.2 hkeys.1
      rw [lookup_eq_none_iff_keys.2 hkeys.2, hprev] at hchange
      rw [if_neg (by simpa [List.mem_dedup] using hkeys), ← hprev]
      rw [hprev] at hnone ⊢
      exact hnone.1 (Prod.ext hchange.symm (processValue_none_removed value))

end

theorem follows_map (ih : ∀ key, Follows α (fields key)) : Follows α (.map fields) := by
  intro prev value hprev hvalue hcovers
  cases value with
  | map data =>
    have hstep : MapStep fields (toMap prev) data :=
      { nodup := hvalue.1
        kind := hvalue.2
        kept := fun key => (hcovers key).1
        follows := fun key value hlookup =>
          ih key _ value (hprev.lookup_map key) (hlookup ▸ hvalue.2 key)
            (hlookup ▸ (hcovers key).2) }
    have hprocess : processValue prev (.map data) =
        (unlessEmpty (processMap (toMap prev) data).isEmpty (.map (processMap (toMap prev) data)), []) := by
      rfl
    rw [hprocess]
    constructor
    · intro hclear key
      simp only [patch, toMap_unlessEmpty]
      exact hstep.same_patch hclear key
    · rw [mk.injEq, and_iff_left rfl, unlessEmpty_eq_none_iff, List.isEmpty_iff]
      exact hstep.processMap_eq_nil_iff
  | _ => exact hvalue.elim

theorem follows_item (hitem : kind.IsItem) (h : kind.IsField → Follows α kind) {prevItem : Value α}
    (hprev : HasKind kind (some prevItem)) (hvalue : HasKind kind (some value))
    (hcovers : Covers kind (some prevItem) (some value)) :
    (∃ item, patch kind (some prevItem) (itemChange (some prevItem) value) [] = some item) ∧
      (kind.Clear →
        Same kind (patch kind (some prevItem) (itemChange (some prevItem) value) []) (some value)) ∧
        (itemChange (some prevItem) value = none ↔ Same kind (some prevItem) (some value)) := by
  cases kind with
  | absent => cases hasKind_absent_iff.1 hvalue
  | scalar | list | hash => exact hitem.elim
  | map fields =>
    cases value with
    | map data =>
      have hremoved : (processValue (some prevItem) (.map data)).2 = [] := by rw [processValue]
      obtain ⟨hpatch, hnone⟩ := h trivial _ _ hprev hvalue hcovers
      refine ⟨⟨_, rfl⟩, hpatch, ?_⟩
      rw [← hnone, Prod.ext_iff, hremoved, and_iff_left rfl]
      rfl
    | _ => exact hvalue.elim
  | stringList =>
    cases value with
    | stringList items =>
      have hsame : Same .stringList (some prevItem) (some (.stringList items)) ↔
          ((processList (toList (some prevItem)) (items.map Scalar.string)).1.isEmpty &&
            (processList (toList (some prevItem)) (items.map Scalar.string)).2.isEmpty) = true := by
        rw [Bool.and_eq_true, List.isEmpty_iff, List.isEmpty_iff, processList_eq_nil_iff]
        rfl
      rw [itemChange, hsame]
      by_cases hempty : ((processList (toList (some prevItem)) (items.map Scalar.string)).1.isEmpty &&
          (processList (toList (some prevItem)) (items.map Scalar.string)).2.isEmpty) = true
      · rw [if_pos hempty]
        exact ⟨⟨_, rfl⟩, fun _ => hsame.2 hempty, iff_of_true rfl hempty⟩
      · rw [if_neg hempty]
        exact ⟨⟨_, rfl⟩, fun _ => same_refl _ _, iff_of_false (by simp) hempty⟩
    | _ => exact hvalue.elim

omit [Scalar α] [DecidableEq α] in
theorem isTable_of_hasKind (hvalid : (Kind.hash items).Valid) (hnodup : (keys data).Nodup)
    (h : ∀ key, HasKind (items key) (List.lookup key data)) : IsTable data := by
  intro entry hentry
  have hkind := h entry.1
  rw [(lookup_eq_some_iff_mem hnodup).2 hentry] at hkind
  have hitem := (hvalid entry.1).1
  cases hkey : items entry.1 with
  | absent =>
    rw [hkey, hasKind_absent_iff] at hkind
    cases hkind
  | scalar | list | hash => rw [hkey] at hitem; exact hitem.elim
  | stringList =>
    rw [hkey] at hkind
    cases hvalue : entry.2 <;> rw [hvalue] at hkind <;> first | exact hkind.elim | exact .inr ⟨_, rfl⟩
  | map =>
    rw [hkey] at hkind
    cases hvalue : entry.2 <;> rw [hvalue] at hkind <;> first | exact hkind.elim | exact .inl ⟨_, rfl⟩

/-- The items of a table, before and after. -/
structure TableStep (items : String → Kind) (prevData data : Fields α) : Prop where
  nodup : (keys data).Nodup
  isTable : IsTable data
  follows : ∀ key prevItem value, List.lookup key prevData = some prevItem →
    List.lookup key data = some value →
      (∃ item, patch (items key) (some prevItem) (itemChange (some prevItem) value) [] = some item) ∧
        ((items key).Clear → Same (items key)
          (patch (items key) (some prevItem) (itemChange (some prevItem) value) []) (some value)) ∧
        (itemChange (some prevItem) value = none ↔ Same (items key) (some prevItem) (some value))

theorem TableStep.processHash_eq_nil_iff (h : TableStep items prevData data) :
    processHash prevData data = ([], []) ↔ ∀ key, (key ∈ keys prevData ↔ key ∈ keys data) ∧
      Same (items key) (List.lookup key prevData) (List.lookup key data) := by
  rw [SyncDiff.processHash_eq_nil_iff h.nodup h.isTable]
  constructor
  · rintro ⟨hnone, hkept⟩ key
    cases hlookup : lookup key data with
    | none =>
      have hdata := lookup_eq_none_iff_keys.1 hlookup
      have hprev : key ∉ keys prevData := fun hmem => hdata (hkept key hmem)
      rw [lookup_eq_none_iff_keys.2 hprev]
      exact ⟨iff_of_false hprev hdata, same_refl _ _⟩
    | some value =>
      have hitem := hnone _ (mem_of_lookup hlookup)
      cases hprev : lookup key prevData with
      | none =>
        rw [hprev] at hitem
        cases hitem
      | some prevItem =>
        rw [hprev] at hitem
        exact ⟨iff_of_true (mem_keys_iff.2 ⟨_, hprev⟩) (mem_keys_iff.2 ⟨_, hlookup⟩),
          (h.follows key _ _ hprev hlookup).2.2.1 hitem⟩
  · intro hsame
    refine ⟨fun entry hentry => ?_, fun key => (hsame key).1.1⟩
    have hlookup := (lookup_eq_some_iff_mem h.nodup).2 hentry
    obtain ⟨prevItem, hprev⟩ := mem_keys_iff.1 ((hsame entry.1).1.2 (mem_keys_of_mem hentry))
    have hitem := (hsame entry.1).2
    rw [hprev, hlookup] at hitem
    rw [hprev]
    exact (h.follows _ _ _ hprev hlookup).2.2.2 hitem

theorem TableStep.same_patch (h : TableStep items prevData data) (hclear : (Kind.hash items).Clear)
    (key : String) :
    let patched := ofKeys (keys prevData ++ keys (processHash prevData data).1).dedup fun key =>
      if (processHash prevData data).2.contains (Scalar.string key) then none
      else match lookup key prevData with
        | none => lookup key (processHash prevData data).1
        | some prevItem =>
          patch (items key) (some prevItem) (lookup key (processHash prevData data).1) []
    (key ∈ keys patched ↔ key ∈ keys data) ∧
      Same (items key) (lookup key patched) (lookup key data) := by
  intro patched
  have hchange := lookup_processHash prevData h.nodup h.isTable key
  have hremoved := mem_processHash_removed prevData h.nodup h.isTable key
  have hpatched : lookup key patched = _ := lookup_ofKeys ..
  cases hlookup : lookup key data with
  | none =>
    have hdata := lookup_eq_none_iff_keys.1 hlookup
    rw [hlookup, Option.bind_none] at hchange
    have hnone : lookup key patched = none := by
      rw [hpatched]
      by_cases hprev : key ∈ keys prevData
      · have hcontains := contains_iff_mem.2 (hremoved.2 ⟨hprev, hdata⟩)
        rw [if_pos hcontains, ite_self]
      · refine if_neg ?_
        rw [List.mem_dedup, mem_append, not_or]
        exact ⟨hprev, lookup_eq_none_iff_keys.1 hchange⟩
    rw [hnone]
    exact ⟨iff_of_false (lookup_eq_none_iff_keys.1 hnone) hdata, same_refl _ _⟩
  | some value =>
    have hdata : key ∈ keys data := mem_keys_iff.2 ⟨value, hlookup⟩
    rw [hlookup, Option.bind_some] at hchange
    have hkept : ¬ (processHash prevData data).2.contains (Scalar.string key) = true := by
      rw [contains_iff_mem, hremoved]
      exact fun hmem => hmem.2 hdata
    cases hprev : lookup key prevData with
    | none =>
      rw [hprev] at hchange
      have hitem : lookup key patched = some value := by
        have hkeys : key ∈ (keys prevData ++ keys (processHash prevData data).1).dedup :=
          mem_dedup.2 (mem_append_right _ (mem_keys_iff.2 ⟨value, hchange⟩))
        rw [hpatched, if_pos hkeys, if_neg hkept, hprev]
        exact hchange
      rw [hitem]
      exact ⟨iff_of_true (mem_keys_iff.2 ⟨value, hitem⟩) hdata, same_refl _ _⟩
    | some prevItem =>
      rw [hprev] at hchange
      obtain ⟨⟨item, hsome⟩, hsame, -⟩ := h.follows key prevItem value hprev hlookup
      have hitem : lookup key patched =
          patch (items key) (some prevItem) (itemChange (some prevItem) value) [] := by
        have hkeys : key ∈ (keys prevData ++ keys (processHash prevData data).1).dedup :=
          mem_dedup.2 (mem_append_left _ (mem_keys_iff.2 ⟨prevItem, hprev⟩))
        rw [hpatched, if_pos hkeys, if_neg hkept, hprev, ← hchange]
      rw [hitem]
      exact ⟨iff_of_true (mem_keys_iff.2 ⟨item, hitem.trans hsome⟩) hdata, hsame (hclear key)⟩

theorem follows_hash (hvalid : (Kind.hash items).Valid)
    (ih : ∀ key, (items key).IsField → Follows α (items key)) : Follows α (.hash items) := by
  intro prev value hprev hvalue hcovers
  cases value with
  | hash data =>
    have hstep : TableStep items (toMap prev) data :=
      { nodup := hvalue.1
        isTable := isTable_of_hasKind hvalid hvalue.1 hvalue.2
        follows := fun key prevItem value hprevItem hlookup =>
          follows_item (hvalid key).1 (ih key) (hprevItem ▸ hprev.lookup_hash key)
            (hlookup ▸ hvalue.2 key)
            (hlookup ▸ hprevItem ▸ hcovers key (mem_keys_iff.2 ⟨value, hlookup⟩)) }
    have hprocess : processValue prev (.hash data) =
        (unlessEmpty (processHash (toMap prev) data).1.isEmpty
          (.map (processHash (toMap prev) data).1), (processHash (toMap prev) data).2) := by
      rfl
    rw [hprocess]
    constructor
    · intro hclear key
      simp only [patch, toMap_unlessEmpty]
      exact hstep.same_patch hclear key
    · rw [mk.injEq, unlessEmpty_eq_none_iff, List.isEmpty_iff, ← Prod.ext_iff (y := ([], []))]
      exact hstep.processHash_eq_nil_iff
  | _ => exact hvalue.elim

theorem follows (kind : Kind) (hvalid : kind.Valid) (hfield : kind.IsField) : Follows α kind := by
  induction kind with
  | absent => exact fun prev value _ hvalue => by cases hasKind_absent_iff.1 hvalue
  | scalar => exact follows_scalar
  | list => exact follows_list
  | stringList => exact hfield.elim
  | map fields ih =>
    exact follows_map fun key => ih key (hvalid key).2 (hvalid key).1
  | hash items ih =>
    exact follows_hash hvalid fun key hkey => ih key (hvalid key).2 hkey

/-- Two values of one type, the second with all fields of the first. -/
structure Comparable (kind : Kind) (prev value : Value α) : Prop where
  valid : kind.Valid
  prevTyped : HasKind kind (some prev)
  typed : HasKind kind (some value)
  covers : Covers kind (some prev) (some value)

/-- **The difference leads from the old value to the new one**, if no key is that of a list or a table
with the suffix, and it is empty exactly if they are the same. -/
theorem diff_right (fields : String → Kind) (prevData data : Fields α) :
    (Comparable (.map fields) (.map prevData) (.map data) →
      ((Kind.map fields).Clear → Same (.map fields) (patch (.map fields) (some (.map prevData))
        (some (.map (processMap prevData data))) []) (some (.map data))) ∧
      (processMap prevData data = [] ↔
        Same (.map fields) (some (.map prevData)) (some (.map data)))) ∧
    (Comparable (.hash fields) (.hash prevData) (.hash data) →
      ((Kind.hash fields).Clear → Same (.hash fields) (patch (.hash fields) (some (.hash prevData))
        (some (.map (processHash prevData data).1)) (processHash prevData data).2)
          (some (.hash data))) ∧
      (processHash prevData data = ([], []) ↔
        Same (.hash fields) (some (.hash prevData)) (some (.hash data)))) := by
  constructor
  · intro h
    obtain ⟨hpatch, hempty⟩ := follows _ h.valid trivial _ _ h.prevTyped h.typed h.covers
    have hprocess : processValue (some (.map prevData)) (.map data) =
        (unlessEmpty (processMap prevData data).isEmpty (.map (processMap prevData data)), []) := by
      rfl
    rw [hprocess] at hpatch hempty
    simp only [patch, toMap_unlessEmpty] at hpatch
    rw [mk.injEq, and_iff_left rfl, unlessEmpty_eq_none_iff, List.isEmpty_iff] at hempty
    exact ⟨hpatch, hempty⟩
  · intro h
    obtain ⟨hpatch, hempty⟩ := follows _ h.valid trivial _ _ h.prevTyped h.typed h.covers
    have hprocess : processValue (some (.hash prevData)) (.hash data) =
        (unlessEmpty (processHash prevData data).1.isEmpty (.map (processHash prevData data).1),
          (processHash prevData data).2) := by
      rfl
    rw [hprocess] at hpatch hempty
    simp only [patch, toMap_unlessEmpty] at hpatch
    rw [mk.injEq, unlessEmpty_eq_none_iff, List.isEmpty_iff] at hempty
    exact ⟨hpatch, Prod.ext_iff.trans hempty⟩

/-! ### Rows of scalars -/

instance : Scalar Variant where
  invalid := .invalid
  string := .string
  string_injective := fun _ _ h => Variant.string.inj h

def single (kind : Kind) (key : String) : Kind := if key = "x" then kind else .absent

omit [Scalar α] [DecidableEq α] in
theorem hasKind_single {m : Fields α} (h : HasKind kind (List.lookup "x" m))
    (hkeys : ∀ key ∈ keys m, key = "x") (key : String) :
    HasKind (single kind key) (List.lookup key m) := by
  rw [single]
  split_ifs with hx
  · rwa [hx]
  · rw [hasKind_absent_iff, lookup_eq_none_iff_keys]
    exact fun hmem => hx (hkeys key hmem)

/-- A list "x", and another one with its name and the suffix. -/
def twoLists (key : String) : Kind := if key = "x" ∨ key = "x_removed" then .list else .absent

def listsOf (items removed : List Variant) : Fields Variant :=
  [("x", .list items), ("x_removed", .list removed)]

theorem comparable_listsOf (items items' removed removed' : List Variant) :
    Comparable (.map twoLists) (.map (listsOf items removed)) (.map (listsOf items' removed')) := by
  have htyped : ∀ items removed : List Variant,
      HasKind (.map twoLists) (some (.map (listsOf items removed))) := by
    intro items removed
    refine ⟨by simp [listsOf], fun key => ?_⟩
    rw [listsOf, lookup_cons_eq, lookup_cons_eq, twoLists]
    by_cases hx : key = "x"
    · subst hx
      exact trivial
    · by_cases hremoved : key = "x_removed"
      · subst hremoved
        exact trivial
      · rw [if_neg (Ne.symm hx), if_neg (Ne.symm hremoved), if_neg (by simp [hx, hremoved])]
        exact trivial
  refine ⟨fun key => ?_, htyped _ _, htyped _ _, fun key => ⟨fun hmem => hmem, ?_⟩⟩ <;> rw [twoLists]
  · split_ifs <;> exact ⟨trivial, trivial⟩
  · split_ifs <;> exact trivial

/-- A list gets another item, and a table loses its only one. -/
theorem diff_right_list :
    Same (.map (single .list)) (patch (.map (single .list))
        (some (.map [("x", .list [Variant.string "a"])]))
        (some (.map (processMap [("x", .list [Variant.string "a"])] [("x", .list [Variant.string "b"])])))
        []) (some (.map [("x", .list [Variant.string "b"])])) ∧
      Same (.hash (single .stringList)) (patch (.hash (single .stringList))
        (some (.hash [("x", .stringList ["a"])] : Value Variant))
        (some (.map (processHash [("x", .stringList ["a"])] []).1))
        (processHash [("x", .stringList ["a"])] []).2) (some (.hash [])) := by
  constructor
  · refine ((diff_right _ _ _).1 ⟨fun key => ?_, ⟨by simp, ?_⟩, ⟨by simp, ?_⟩, fun key => ?_⟩).1
      fun key => ?_
    · rw [single]
      split_ifs <;> exact ⟨trivial, trivial⟩
    · exact hasKind_single trivial (by simp)
    · exact hasKind_single trivial (by simp)
    · refine ⟨fun hmem => hmem, ?_⟩
      rw [single]
      split_ifs <;> exact trivial
    · rw [single, single]
      refine ⟨by split_ifs <;> exact trivial, fun _ => if_neg fun heq => ?_⟩
      have hlength := congrArg String.length heq
      have hsuffix : KEY_SUFFIX_REMOVED.length = 8 := by decide
      have hx : "x".length = 1 := by decide
      rw [String.length_append] at hlength
      omega
  · refine ((diff_right _ _ _).2 ⟨fun key => ?_, ⟨by simp, ?_⟩, ⟨by simp, ?_⟩, fun key hkey => ?_⟩).1
      fun key => ?_
    · rw [single]
      split_ifs <;> exact ⟨trivial, trivial⟩
    · exact hasKind_single trivial (by simp)
    · exact hasKind_single trivial (by simp)
    · cases hkey
    · rw [single]
      split_ifs <;> exact trivial

/-- A list that loses an item reads like another one that has got it; and no difference is found where
an item of a table has lost a field. -/
theorem removed_key_clash :
    (¬ ∃ patch : Fields Variant → Fields Variant → Option (Value Variant),
      ∀ (fields : String → Kind) (prevData data : Fields Variant),
        Comparable (.map fields) (.map prevData) (.map data) →
          Same (.map fields) (patch prevData (processMap prevData data)) (some (.map data))) ∧
    ¬ ∀ (items : String → Kind) (prevData data : Fields Variant), (Kind.hash items).Valid →
      HasKind (.hash items) (some (.hash prevData)) → HasKind (.hash items) (some (.hash data)) →
        (processHash prevData data = ([], []) ↔
          Same (.hash items) (some (.hash prevData)) (some (.hash data))) := by
  constructor
  · rintro ⟨patch, hpatch⟩
    have hlost := hpatch _ _ _ (comparable_listsOf [.string "a"] [] [] []) "x"
    have hkept := hpatch _ _ _ (comparable_listsOf [.string "a"] [.string "a"] [] [.string "a"]) "x"
    have hsame : processMap (listsOf [.string "a"] []) (listsOf [] []) =
        processMap (listsOf [.string "a"] []) (listsOf [.string "a"] [.string "a"]) := by rfl
    have hperm : ([] : List Variant).Perm [.string "a"] := (Perm.symm hlost).trans hkept
    simpa using hperm.length_eq
  · intro h
    have hiff := h (single (.map (single .scalar)))
      [("x", .map [("x", .scalar (.string "a"))])] [("x", .map [])] (fun key => ?_)
      ⟨by simp, hasKind_single ⟨by simp, hasKind_single trivial (by simp)⟩ (by simp)⟩
      ⟨by simp, hasKind_single ⟨by simp, hasKind_single trivial (by simp)⟩ (by simp)⟩
    · have hsame : Variant.string "a" = Variant.invalid := (hiff.1 rfl "x").2 "x"
      cases hsame
    · rw [single]
      split_ifs
      · refine ⟨trivial, fun key => ?_⟩
        rw [single]
        split_ifs <;> exact ⟨trivial, trivial⟩
      · exact ⟨trivial, trivial⟩

end QBittorrent.SyncDiff
