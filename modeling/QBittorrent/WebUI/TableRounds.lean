import QBittorrent.Lib.Machine
import QBittorrent.WebUI.DynamicTable

/-!
# Rounds of a table

In a round rows are removed and updated, and then the table is updated.  A row gets no second update
before the table has displayed the first, and an update that changes a field that the rendering of a
column depends on carries one of the properties that the column takes notice of.

* `ready_applyOps` : removals and updates;
* `always_shows` : the filtered rows are shown.
-/

namespace QBittorrent.DynamicTable

open List AssocList

variable {V C : Type*}

inductive Op (V : Type*) where
  | removeRow (rowId : RowId)
  | updateRowData (rowId : RowId) (data : Fields V)

/-- What happens until the table is displayed anew. -/
structure Round (V C : Type*) where
  ops : List (Op V)
  view : View V C
  fullUpdate : Bool

def applyOp (t : Table V C) : Op V → Table V C
  | .removeRow rowId => removeRow rowId t
  | .updateRowData rowId data => updateRowData rowId data t

def applyOps (t : Table V C) (ops : List (Op V)) : Table V C := ops.foldl applyOp t

/-- An update of these fields carries a property of each column that depends on one that changes. -/
def Carries (columns : List (Column V C)) (full data : Fields V) : Prop :=
  ∀ column ∈ columns,
    (∃ prop ∈ column.reads,
      AssocList.get? prop (mergeData full data) ≠ AssocList.get? prop full) →
    column.concerns data = true

instance [DecidableEq V] (columns : List (Column V C)) (full data : Fields V) :
    Decidable (Carries columns full data) :=
  inferInstanceAs (Decidable (∀ column ∈ columns, _ → _))

/-- The updates are such, and no row of `updated` gets another one unless it is removed before. -/
def Allowed (columns : List (Column V C)) : List RowId → Table V C → List (Op V) → Prop
  | _, _, [] => True
  | updated, t, .removeRow rowId :: ops =>
    Allowed columns (updated.filter fun id => decide (id ≠ rowId)) (removeRow rowId t) ops
  | updated, t, .updateRowData rowId data :: ops =>
    rowId ∉ updated ∧
    (rowId ∈ AssocList.keys t.rows → Carries columns (fullData t.rows rowId) data) ∧
    Allowed columns (rowId :: updated) (updateRowData rowId data t) ops

instance decidableAllowed [DecidableEq V] (columns : List (Column V C)) :
    ∀ updated t ops, Decidable (Allowed columns updated t ops)
  | _, _, [] => isTrue trivial
  | updated, t, .removeRow rowId :: ops =>
    decidableAllowed columns (updated.filter fun id => decide (id ≠ rowId)) (removeRow rowId t) ops
  | updated, t, .updateRowData rowId data :: ops =>
    have := decidableAllowed columns (rowId :: updated) (updateRowData rowId data t) ops
    inferInstanceAs (Decidable (_ ∧ _ ∧ _))

section Ops

variable {columns : List (Column V C)} {blank : C} {t : Table V C} {updated : List RowId}
  {ops : List (Op V)} {rowId id : RowId} {data full : Fields V} {rows : AssocList RowId (Row V)}

/-- Since it was displayed last, only rows of `updated` have got an update. -/
structure Since (columns : List (Column V C)) (blank : C) (updated : List RowId) (t : Table V C) :
    Prop extends Consistent t where
  ready : ∀ tr ∈ t.trs, Ready columns blank t.rows tr
  right : ∀ tr ∈ t.trs, tr.rowId ∉ updated → Right columns blank t.rows tr

theorem Sound.since (h : Sound columns blank t) : Since columns blank [] t where
  toConsistent := h.toConsistent
  ready tr htr := (h.right tr htr).ready
  right tr htr _ := h.right tr htr

theorem fullData_remove_of_ne (h : id ≠ rowId) :
    fullData (AssocList.remove rowId rows) id = fullData rows id := by
  rw [fullData, get?_remove, if_neg (Ne.symm h), fullData]

theorem rowData_remove_of_ne (h : id ≠ rowId) :
    rowData (AssocList.remove rowId rows) id = rowData rows id := by
  rw [rowData, get?_remove, if_neg (Ne.symm h), rowData]

theorem mem_trs_removeRow (hnodup : (t.trs.map Tr.rowId).Nodup) {tr : Tr C}
    (h : tr ∈ (removeRow rowId t).trs) : tr ∈ t.trs ∧ tr.rowId ≠ rowId := by
  have hsub : (removeRow rowId t).trs.Sublist t.trs := eraseP_sublist
  refine ⟨hsub.subset h, ?_⟩
  replace h : tr ∈ t.trs.eraseP fun tr => decide (tr.rowId = rowId) := h
  generalize t.trs = trs at h hnodup
  induction trs with
  | nil => cases h
  | cons first trs ih =>
    rw [map_cons, nodup_cons] at hnodup
    by_cases hfirst : first.rowId = rowId
    · rw [eraseP_cons_of_pos (by simpa using hfirst)] at h
      exact fun heq => hnodup.1 (hfirst ▸ heq ▸ mem_map_of_mem h)
    · rw [eraseP_cons_of_neg (by simpa using hfirst), mem_cons] at h
      rcases h with rfl | h
      · exact hfirst
      · exact ih h hnodup.2

theorem since_removeRow (h : Since columns blank updated t) :
    Since columns blank (updated.filter fun id => decide (id ≠ rowId)) (removeRow rowId t) := by
  have hmem := fun tr (htr : tr ∈ (removeRow rowId t).trs) => mem_trs_removeRow h.nodup_trs htr
  refine ⟨⟨?_, ?_, ?_, ?_⟩, ?_, ?_⟩
  · rw [removeRow, keys_remove]
    exact h.nodup_rows.filter _
  · exact h.nodup_trs.sublist (eraseP_sublist.map Tr.rowId)
  · intro tr htr
    obtain ⟨hold, hne⟩ := hmem tr htr
    rw [removeRow, keys_remove, mem_filter]
    exact ⟨h.exists_row tr hold, decide_eq_true hne⟩
  · intro id prop hown
    by_cases hid : id = rowId
    · rw [removeRow, rowData, get?_remove, if_pos hid.symm, Option.elim_none,
        hasOwn_iff] at hown
      cases hown
    · rw [removeRow, rowData_remove_of_ne hid] at hown
      rw [removeRow, fullData_remove_of_ne hid]
      exact h.covered id prop hown
  · intro tr htr
    obtain ⟨hold, hne⟩ := hmem tr htr
    exact (h.ready tr hold).congr (fullData_remove_of_ne hne) (rowData_remove_of_ne hne)
  · intro tr htr hupdated
    obtain ⟨hold, hne⟩ := hmem tr htr
    refine (h.right tr hold fun hin => hupdated ?_).congr (fullData_remove_of_ne hne)
    exact mem_filter.2 ⟨hin, decide_eq_true hne⟩

theorem shows_mergeData {column : Column V C} (hcarries : Carries columns full data)
    (hcolumn : column ∈ columns) (hdata : ¬ column.concerns data = true) :
    column.shows blank (mergeData full data) = column.shows blank full := by
  have hconcerns : column.concerns (mergeData full data) = column.concerns full := by
    rw [Bool.eq_iff_iff, Column.concerns, Column.concerns, any_eq_true, any_eq_true]
    refine exists_congr fun prop => and_congr_right fun hprop => ?_
    rw [hasOwn_iff, hasOwn_iff, keys_mergeData]
    refine or_iff_right fun hown => hdata ?_
    exact any_eq_true.2 ⟨prop, hprop, hasOwn_iff.2 hown⟩
  have htd : column.updateTd (mergeData full data) = column.updateTd full := by
    refine column.updateTd_congr _ _ fun prop hprop => ?_
    by_contra hne
    exact hdata (hcarries column hcolumn ⟨prop, hprop, hne⟩)
  rw [Column.shows, Column.shows, hconcerns, htd]

theorem since_updateRowData (h : Since columns blank updated t) (hnew : rowId ∉ updated)
    (hcarries : rowId ∈ AssocList.keys t.rows → Carries columns (fullData t.rows rowId) data) :
    Since columns blank (rowId :: updated) (updateRowData rowId data t) := by
  refine ⟨⟨nodup_keys_set h.nodup_rows, h.nodup_trs, ?_, ?_⟩, ?_, ?_⟩
  · intro tr htr
    exact mem_keys_set.2 (Or.inr (h.exists_row tr htr))
  · intro id prop hown
    rw [updateRowData, rowData_set] at hown
    rw [updateRowData, fullData_set]
    split_ifs at hown ⊢ with hid
    · rw [hasOwn_iff] at hown ⊢
      exact keys_mergeData.2 (Or.inl hown)
    · exact h.covered id prop hown
  · intro tr htr
    by_cases hid : tr.rowId = rowId
    · -- the row was right, and the update carries what it changes
      have hright := h.right tr htr (hid ▸ hnew)
      have hcarries := hcarries (hid ▸ h.exists_row tr htr)
      rw [Ready, updateRowData, fullData_set, rowData_set, if_pos hid.symm, if_pos hid.symm, hright,
        hid, forall₂_map_right_iff, forall₂_same]
      intro column hcolumn
      by_cases hdata : column.concerns data = true
      · exact Or.inr hdata
      · exact Or.inl (shows_mergeData hcarries hcolumn hdata).symm
    · refine (h.ready tr htr).congr ?_ ?_
      · rw [updateRowData, fullData_set, if_neg (Ne.symm hid)]
      · rw [updateRowData, rowData_set, if_neg (Ne.symm hid)]
  · intro tr htr hupdated
    rw [mem_cons, not_or] at hupdated
    refine (h.right tr htr hupdated.2).congr ?_
    rw [updateRowData, fullData_set, if_neg (Ne.symm hupdated.1)]

theorem ready_applyOps (h : Since columns blank updated t)
    (hallowed : Allowed columns updated t ops) :
    ∃ updated', Since columns blank updated' (applyOps t ops) := by
  induction ops generalizing updated t with
  | nil => exact ⟨updated, h⟩
  | cons op ops ih =>
    cases op with
    | removeRow rowId => exact ih (since_removeRow h) hallowed
    | updateRowData rowId data =>
      obtain ⟨hnew, hcarries, hrest⟩ := hallowed
      exact ih (since_updateRowData h hnew hcarries) hrest

end Ops

section Runs

variable (S : StableSort RowId) (columns : List (Column V C)) (blank : C)
  (inherited : List (List Char))

abbrev Displayed (V C : Type*) := Table V C × Option (View V C)

def applyRound (s : Displayed V C) (round : Round V C) : Displayed V C :=
  (update S columns blank inherited round.view round.fullUpdate (applyOps s.1 round.ops),
    some round.view)

/-- The runs of a table. -/
def rounds [DecidableEq V] : Machine (Displayed V C) (Round V C) :=
  Machine.guarded (fun s round => Allowed columns [] s.1 round.ops)
    (applyRound S columns blank inherited)

/-- The table shows what its view asks for. -/
def ShowsView (s : Displayed V C) : Prop := ∀ view ∈ s.2, Shows S columns blank view s.1

/-- The ids of the rows that a round is to display are harmless as names of properties. -/
def HarmlessIds (s : Displayed V C) (round : Round V C) : Prop :=
  InPlace (filteredRows round.view (applyOps s.1 round.ops).rows)
  deriving Decidable

end Runs

section Main

variable [DecidableEq V] {S : StableSort RowId} {columns : List (Column V C)} {blank : C}
  {inherited : List (List Char)} {t : Table V C} {ls : List (Round V C)}

/-- A table shows the filtered rows after every round if the ids of these rows are harmless in each. -/
theorem always_shows (ht : Sound columns blank t)
    (h : (rounds S columns blank inherited).Meets HarmlessIds (t, none) ls) :
    (rounds S columns blank inherited).Always (ShowsView S columns blank) (t, none) ls := by
  refine Machine.guarded_always
    (I := fun s : Displayed V C => Sound columns blank s.1 ∧ ShowsView S columns blank s)
    ⟨ht, fun view hview => by cases hview⟩ (fun s h => h.2) ?_ h
  rintro s round ⟨hsound, -⟩ hallowed hharmless
  obtain ⟨updated, hsince⟩ := ready_applyOps hsound.since hallowed
  obtain ⟨hsound', hshows⟩ := sound_and_shows_update S inherited round.fullUpdate
    hsince.toConsistent hsince.ready hharmless
  refine ⟨hsound', fun view hview => ?_⟩
  obtain rfl := Option.some.inj hview
  exact hshows

end Main

/-! ### A table of trackers -/

/-- The column of the URLs. -/
def urlColumn : Column String String where
  name := "url"
  dataProperties := ["url"]
  compareRows full full' :=
    let url := (AssocList.get? "url" full).getD ""
    let url' := (AssocList.get? "url" full').getD ""
    if url < url' then -1 else if url' < url then 1 else 0
  updateTd full := (AssocList.get? "url" full).getD ""
  reads := ["url"]
  updateTd_congr full full' h := by rw [h "url" List.mem_cons_self]

/-- All trackers, by their URLs. -/
def trackersView : View String String := ⟨urlColumn, false, some fun _ _ => true⟩

/-- A round in which a tracker comes. -/
def trackerRound (url : String) : Round String String :=
  ⟨[.updateRowData url.toList [("url", url)]], trackersView, false⟩

theorem sound_new {columns : List (Column V C)} {blank : C} :
    Sound columns blank (Table.new : Table V C) where
  nodup_rows := nodup_nil
  nodup_trs := nodup_nil
  exists_row _ h := by cases h
  covered _ _ h := by cases h
  right _ h := by cases h

/-- Two trackers that come one after the other are displayed. -/
theorem always_shows_trackers :
    (rounds (StableSort.insertion RowId) [urlColumn] "" []).Always
      (ShowsView (StableSort.insertion RowId) [urlColumn] "") (Table.new, none)
      [trackerRound "udp://b", trackerRound "udp://a"] :=
  always_shows sound_new (by decide)

/-- A tracker whose URL is `1` is displayed twice. -/
theorem not_always_shows_one : ¬ (rounds (StableSort.insertion RowId) [urlColumn] "" []).Always
    (ShowsView (StableSort.insertion RowId) [urlColumn] "") (Table.new, none)
    [trackerRound "1"] := by
  intro h
  have hend := (h.2 _ rfl) trackersView rfl
  have htwo := hend.perm.length_eq
  revert htwo
  decide

end QBittorrent.DynamicTable
