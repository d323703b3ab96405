import QBittorrent.Lib.AssocList
import QBittorrent.Lib.JsArray

/-!
# Tables of the web interface

A `DynamicTable` keeps rows of data and displays some of them.  `updateRowData` puts the fields of an
update to those of the row and keeps the update as its `data`; `updateTable` moves, adds and drops the
displayed rows until they are those of `getFilteredAndSortedRows`, and renders again the cells that
the `data` of their rows concern.

* `DynamicTable.sound_and_shows_update` : **the displayed rows are those of the array, in its order,
  and each cell shows what a full update would.**

A row is referred to by its id.
-/

namespace QBittorrent.DynamicTable

open List AssocList JsArray

abbrev RowId := List Char

/-- The properties of an object. -/
abbrev Fields (V : Type*) := AssocList String V

variable {V C : Type*}

/-- `Object.hasOwn` -/
def hasOwn (data : Fields V) (prop : String) : Bool := decide (prop ∈ AssocList.keys data)

structure Row (V : Type*) where
  /-- The last update that has not been displayed. -/
  data : Fields V
  fullData : Fields V

/-- A column.  What `updateTd` writes into a cell depends on some fields of the row. -/
structure Column (V C : Type*) where
  name : String
  dataProperties : List String
  compareRows : Fields V → Fields V → ℤ
  updateTd : Fields V → C
  /-- The fields that the rendering depends on. -/
  reads : List String
  updateTd_congr : ∀ full full' : Fields V,
    (∀ prop ∈ reads, AssocList.get? prop full = AssocList.get? prop full') → updateTd full = updateTd full'

/-- One of the properties that a column takes notice of is there. -/
def Column.concerns (column : Column V C) (data : Fields V) : Bool :=
  column.dataProperties.any (hasOwn data)

/-- A displayed row. -/
structure Tr (C : Type*) where
  rowId : RowId
  tds : List C

/-- The state of a table. -/
structure Table (V C : Type*) where
  rows : AssocList RowId (Row V)
  /-- The rows of the table body. -/
  trs : List (Tr C)
  selectedRows : List RowId

/-- A table without rows. -/
def Table.new : Table V C := ⟨[], [], []⟩

/-- What is displayed of the rows: the column and direction of the order, and the filter.  There is
none if it is a regular expression that cannot be read. -/
structure View (V C : Type*) where
  column : Column V C
  reverseSort : Bool
  filter : Option (RowId → Fields V → Bool)

def fullData (rows : AssocList RowId (Row V)) (rowId : RowId) : Fields V :=
  (AssocList.get? rowId rows).elim [] Row.fullData

def rowData (rows : AssocList RowId (Row V)) (rowId : RowId) : Fields V :=
  (AssocList.get? rowId rows).elim [] Row.data

/-- `full_data` with the fields of an update. -/
def mergeData (full data : Fields V) : Fields V :=
  data.foldl (fun full field => AssocList.set field.1 field.2 full) full

def updateRowData (rowId : RowId) (data : Fields V) (t : Table V C) : Table V C :=
  { t with rows := AssocList.set rowId ⟨data, mergeData (fullData t.rows rowId) data⟩ t.rows }

def removeRow (rowId : RowId) (t : Table V C) : Table V C where
  rows := AssocList.remove rowId t.rows
  -- `getTrByRowId` finds the first one
  trs := t.trs.eraseP fun tr => decide (tr.rowId = rowId)
  selectedRows := t.selectedRows.filter fun id => decide (id ≠ rowId)

/-- The comparison that rows are sorted by. -/
def compare (view : View V C) (rows : AssocList RowId (Row V)) (row1 row2 : RowId) : ℤ :=
  let res := view.column.compareRows (fullData rows row1) (fullData rows row2)
  if view.reverseSort then -res else res

/-- The rows that pass the filter, in the order in which they came. -/
def filteredRows (view : View V C) (rows : AssocList RowId (Row V)) : List RowId :=
  view.filter.elim [] fun applyFilter =>
    (AssocList.keys rows).filter fun rowId => applyFilter rowId (fullData rows rowId)

/-- The method of `DynamicTable` and of `TorrentsTable`: none, if it throws. -/
def getFilteredAndSortedRows (S : StableSort RowId) (view : View V C)
    (rows : AssocList RowId (Row V)) : Option (JsArray RowId) :=
  -- with a bad expression the array is returned as it is, and empty
  if view.filter.isNone then some JsArray.empty
  else (JsArray.keyed id JsArray.empty (filteredRows view rows)).bind fun filteredRows =>
    filteredRows.sort S (compare view rows)

section UpdateTable

variable (columns : List (Column V C)) (blank : C) (fullUpdate : Bool)

/-- `updateRow` renders the cells that the data concern, with all fields of the row. -/
def updateRow (fullUpdate : Bool) (rows : AssocList RowId (Row V)) (tr : Tr C) :
    AssocList RowId (Row V) × Tr C :=
  let full := fullData rows tr.rowId
  let data := if fullUpdate then full else rowData rows tr.rowId
  (AssocList.set tr.rowId ⟨[], full⟩ rows,
    { tr with tds := List.zipWith (fun column td =>
        if column.concerns data then column.updateTd full else td) columns tr.tds })

/-- `splice` of an array. -/
def splice {α : Type*} (l : List α) (start deleteCount : ℕ) (new : List α) : List α :=
  l.take start ++ new ++ l.drop (start + deleteCount)

/-- The displayed row of an id is moved to a position from somewhere behind it, or a new one is put
there.  The result tells whether it is new. -/
def placeRow (rowPos : ℕ) (rowId : RowId) (trs : List (Tr C)) : List (Tr C) × Tr C × Bool :=
  match (trs.drop rowPos).findIdx? fun tr => decide (tr.rowId = rowId) with
  | some k =>
    let j := rowPos + k
    let tr := trs.getD j ⟨rowId, []⟩
    if rowPos = j then (trs, tr, false)
    else (splice (splice trs j 1 []) rowPos 0 [tr], tr, false)
  | none =>
    let tr := ⟨rowId, List.replicate columns.length blank⟩
    if trs.length ≤ rowPos then (trs ++ [tr], tr, true) else (splice trs rowPos 0 [tr], tr, true)

/-- The loop over the rows that are to be displayed, from a position on.  It throws at a hole, where
there is no `rowId`. -/
def placeRows : ℕ → List (Option RowId) → AssocList RowId (Row V) × List (Tr C) →
    AssocList RowId (Row V) × List (Tr C) × Bool
  | _, [], (rows, trs) => (rows, trs, false)
  | _, none :: _, (rows, trs) => (rows, trs, true)
  | rowPos, some rowId :: rest, (rows, trs) =>
    let (placed, tr, isNew) := placeRow columns blank rowPos rowId trs
    let (rows', tr') := updateRow columns (isNew || fullUpdate) rows tr
    placeRows (rowPos + 1) rest (rows', placed.set rowPos tr')

/-- `updateTable` with the rows that `getFilteredAndSortedRows` has returned, if it has not thrown. -/
def updateTable (inherited : List (List Char)) (array : Option (JsArray RowId))
    (t : Table V C) : Table V C :=
  match array with
  | none => t
  | some array =>
    let selectedRows := t.selectedRows.filter fun rowId => array.has rowId inherited
    match placeRows columns blank fullUpdate 0 array.items (t.rows, t.trs) with
    | (rows, trs, true) => ⟨rows, trs, selectedRows⟩
    | (rows, trs, false) => ⟨rows, trs.take array.items.length, selectedRows⟩

end UpdateTable

section Rows

variable {rows rows' : AssocList RowId (Row V)} {rowId id : RowId} {full data : Fields V}
  {prop : String} {row : Row V}

theorem hasOwn_iff : hasOwn data prop = true ↔ prop ∈ AssocList.keys data := decide_eq_true_iff

@[simp] theorem fullData_set (rows : AssocList RowId (Row V)) (rowId id : RowId) (row : Row V) :
    fullData (AssocList.set rowId row rows) id =
      if rowId = id then row.fullData else fullData rows id := by
  rw [fullData, get?_set]
  split_ifs <;> rfl

@[simp] theorem rowData_set (rows : AssocList RowId (Row V)) (rowId id : RowId) (row : Row V) :
    rowData (AssocList.set rowId row rows) id =
      if rowId = id then row.data else rowData rows id := by
  rw [rowData, get?_set]
  split_ifs <;> rfl

theorem keys_mergeData : prop ∈ AssocList.keys (mergeData full data) ↔
    prop ∈ AssocList.keys data ∨ prop ∈ AssocList.keys full := by
  rw [mergeData]
  induction data generalizing full with
  | nil => simp
  | cons field data ih =>
    rw [foldl_cons, ih, mem_keys_set, AssocList.keys_cons, mem_cons, or_left_comm,
      or_assoc]

structure SameFields (rows rows' : AssocList RowId (Row V)) : Prop where
  keys : AssocList.keys rows' = AssocList.keys rows
  fields : ∀ id, fullData rows' id = fullData rows id

theorem SameFields.refl (rows : AssocList RowId (Row V)) : SameFields rows rows := ⟨rfl, fun _ => rfl⟩

theorem SameFields.trans {rows'' : AssocList RowId (Row V)} (h : SameFields rows rows')
    (h' : SameFields rows' rows'') : SameFields rows rows'' :=
  ⟨h'.keys.trans h.keys, fun id => (h'.fields id).trans (h.fields id)⟩

theorem SameFields.filteredRows_eq (h : SameFields rows rows') (view : View V C) :
    filteredRows view rows' = filteredRows view rows := by
  have hfull : fullData rows' = fullData rows := funext h.fields
  rw [filteredRows, filteredRows, h.keys, hfull]

theorem SameFields.getFilteredAndSortedRows_eq (h : SameFields rows rows') (S : StableSort RowId)
    (view : View V C) :
    getFilteredAndSortedRows S view rows' = getFilteredAndSortedRows S view rows := by
  have hfull : fullData rows' = fullData rows := funext h.fields
  have hcompare : compare view rows' = compare view rows := by
    funext row1 row2
    rw [compare, compare, hfull]
  rw [getFilteredAndSortedRows, getFilteredAndSortedRows, h.filteredRows_eq, hcompare]

end Rows

section Cells

variable {columns : List (Column V C)} {blank : C} {rows rows' : AssocList RowId (Row V)}
  {tr : Tr C} {column : Column V C} {full : Fields V} {id : RowId} {fullUpdate : Bool}

def Column.shows (blank : C) (full : Fields V) (column : Column V C) : C :=
  if column.concerns full then column.updateTd full else blank

/-- Each cell shows what a full update would. -/
def Right (columns : List (Column V C)) (blank : C) (rows : AssocList RowId (Row V)) (tr : Tr C) :
    Prop :=
  tr.tds = columns.map (Column.shows blank (fullData rows tr.rowId))

/-- Each cell shows what a full update would, or is rendered by the next update. -/
def Ready (columns : List (Column V C)) (blank : C) (rows : AssocList RowId (Row V)) (tr : Tr C) :
    Prop :=
  List.Forall₂ (fun column td => td = column.shows blank (fullData rows tr.rowId) ∨
    column.concerns (rowData rows tr.rowId) = true) columns tr.tds

/-- An update that has not been displayed has gone to the fields of its row. -/
def Covered (rows : AssocList RowId (Row V)) : Prop :=
  ∀ id prop, hasOwn (rowData rows id) prop = true → hasOwn (fullData rows id) prop = true

theorem Covered.concerns (h : Covered rows) (hdata : column.concerns (rowData rows id) = true) :
    column.concerns (fullData rows id) = true := by
  obtain ⟨prop, hprop, hown⟩ := any_eq_true.1 hdata
  exact any_eq_true.2 ⟨prop, hprop, h id prop hown⟩

theorem Right.ready (h : Right columns blank rows tr) : Ready columns blank rows tr := by
  rw [Ready, h, forall₂_map_right_iff, forall₂_same]
  exact fun column _ => Or.inl rfl

theorem Ready.congr (h : Ready columns blank rows tr)
    (hfull : fullData rows' tr.rowId = fullData rows tr.rowId)
    (hdata : rowData rows' tr.rowId = rowData rows tr.rowId) : Ready columns blank rows' tr := by
  rw [Ready, hfull, hdata]
  exact h

theorem Right.congr (h : Right columns blank rows tr)
    (hfull : fullData rows' tr.rowId = fullData rows tr.rowId) : Right columns blank rows' tr := by
  rw [Right, hfull]
  exact h

theorem zipWith_eq_map {tds : List C} {data : Fields V}
    (h : List.Forall₂ (fun column td => (column.concerns data = true → column.concerns full = true) ∧
      (td = column.shows blank full ∨ column.concerns data = true)) columns tds) :
    List.zipWith (fun column td => if column.concerns data then column.updateTd full else td) columns
      tds = columns.map (Column.shows blank full) := by
  induction h with
  | nil => rfl
  | @cons column td columns tds hcell _ ih =>
    rw [zipWith_cons_cons, map_cons, ih]
    congr 1
    by_cases hdata : column.concerns data = true
    · rw [if_pos hdata, Column.shows, if_pos (hcell.1 hdata)]
    · rw [if_neg hdata]
      exact hcell.2.resolve_right hdata

theorem right_updateRow (hcovered : Covered rows) (h : Ready columns blank rows tr ∨
      fullUpdate = true ∧ tr.tds = List.replicate columns.length blank) :
    Right columns blank (updateRow columns fullUpdate rows tr).1
      (updateRow columns fullUpdate rows tr).2 := by
  rw [Right, updateRow, fullData_set, if_pos rfl]
  cases fullUpdate with
  | false =>
    have hready := h.resolve_right fun hnew => Bool.false_ne_true hnew.1
    exact zipWith_eq_map (hready.imp fun column td hcell => ⟨hcovered.concerns, hcell⟩)
  | true =>
    refine zipWith_eq_map ?_
    -- a cell that a full update does not concern is blank
    have hcell : ∀ (column : Column V C) (td : C),
        td = column.shows blank (fullData rows tr.rowId) ∨
          column.concerns (fullData rows tr.rowId) = true ∨ td = blank →
        td = column.shows blank (fullData rows tr.rowId) ∨
          column.concerns (fullData rows tr.rowId) = true := by
      rintro column td (htd | hfull | hblank)
      · exact Or.inl htd
      · exact Or.inr hfull
      · by_cases hfull : column.concerns (fullData rows tr.rowId) = true
        · exact Or.inr hfull
        · exact Or.inl (by rw [hblank, Column.shows, if_neg hfull])
    rcases h with hready | ⟨-, hblank⟩
    · exact hready.imp fun column td h =>
        ⟨id, hcell column td (h.imp_right fun hdata => Or.inl (hcovered.concerns hdata))⟩
    · rw [hblank, ← map_const', forall₂_map_right_iff, forall₂_same]
      exact fun column _ => ⟨id, hcell column blank (Or.inr (Or.inr rfl))⟩

@[simp] theorem updateRow_rowId :
    (updateRow columns fullUpdate rows tr).2.rowId = tr.rowId := rfl

variable (columns) in
theorem sameFields_updateRow (fullUpdate : Bool) (h : tr.rowId ∈ AssocList.keys rows) :
    SameFields rows (updateRow columns fullUpdate rows tr).1 where
  keys := by rw [updateRow, keys_set, if_pos h]
  fields id := by
    rw [updateRow, fullData_set]
    split_ifs with heq
    · rw [heq]
    · rfl

variable (columns rows) in
theorem rowData_updateRow_of_ne (fullUpdate : Bool) (h : tr.rowId ≠ id) :
    rowData (updateRow columns fullUpdate rows tr).1 id = rowData rows id := by
  rw [updateRow, rowData_set, if_neg h]

variable (columns tr) in
theorem covered_updateRow (fullUpdate : Bool) (h : Covered rows) :
    Covered (updateRow columns fullUpdate rows tr).1 := by
  intro id prop hown
  rw [updateRow] at hown ⊢
  rw [rowData_set] at hown
  rw [fullData_set]
  split_ifs at hown ⊢ with heq
  · cases hown
  · exact h id prop hown

end Cells

section Loop

variable {columns : List (Column V C)} {blank : C} {fullUpdate : Bool}
  {rows : AssocList RowId (Row V)} {front rest : List (Tr C)} {tr : Tr C} {rowId : RowId}

theorem placeRow_append (columns : List (Column V C)) (blank : C) (front rest : List (Tr C))
    (rowId : RowId) :
    (∃ before tr after, rest = before ++ tr :: after ∧ tr.rowId = rowId ∧
      placeRow columns blank front.length rowId (front ++ rest) =
        (front ++ tr :: (before ++ after), tr, false)) ∨
    ((∀ tr ∈ rest, tr.rowId ≠ rowId) ∧
      placeRow columns blank front.length rowId (front ++ rest) =
        (front ++ ⟨rowId, List.replicate columns.length blank⟩ :: rest,
          ⟨rowId, List.replicate columns.length blank⟩, true)) := by
  rw [placeRow, drop_left]
  cases hfind : rest.findIdx? fun tr => decide (tr.rowId = rowId) with
  | some k =>
    left
    obtain ⟨hk, hrow, -⟩ := List.findIdx?_eq_some_iff_getElem.1 hfind
    refine ⟨rest.take k, rest[k], rest.drop (k + 1), ?_, of_decide_eq_true hrow, ?_⟩
    · rw [getElem_cons_drop, take_append_drop]
    · have hget : (front ++ rest).getD (front.length + k) ⟨rowId, []⟩ = rest[k] := by
        rw [getD_eq_getElem?_getD, List.getElem?_append_right (by omega),
          Nat.add_sub_cancel_left, List.getElem?_eq_getElem hk, Option.getD_some]
      dsimp only
      rw [hget]
      split_ifs with hpos
      · obtain rfl : k = 0 := by omega
        rw [take_zero, nil_append, getElem_cons_drop, drop_zero]
      · have hfirst : splice (front ++ rest) (front.length + k) 1 [] =
            front ++ (rest.take k ++ rest.drop (k + 1)) := by
          rw [splice, take_length_add_append, Nat.add_assoc, drop_length_add_append,
            append_nil, append_assoc]
        rw [hfirst, splice, take_left, Nat.add_zero, drop_left, append_assoc,
          singleton_append]
  | none =>
    right
    refine ⟨fun tr htr => ?_, ?_⟩
    · have := List.findIdx?_eq_none_iff.1 hfind tr htr
      exact of_decide_eq_false this
    · dsimp only
      split_ifs with hlen
      · have hnil : rest = [] := by
          rw [length_append] at hlen
          exact eq_nil_of_length_eq_zero (by omega)
        rw [hnil, append_nil]
      · rw [splice, take_left, Nat.add_zero, drop_left, append_assoc,
          singleton_append]

variable (columns blank fullUpdate) in
theorem placeRows_spec {ids : List RowId} (hids : ids.Nodup)
    (hexists : ∀ id ∈ ids, id ∈ AssocList.keys rows) (hcovered : Covered rows)
    (hnodup : (rest.map Tr.rowId).Nodup) (hfront : ∀ tr ∈ front, Right columns blank rows tr)
    (hrest : ∀ tr ∈ rest, Ready columns blank rows tr) :
    ∃ rows' front' rest', placeRows columns blank fullUpdate front.length (ids.map some)
        (rows, front ++ rest) = (rows', front' ++ rest', false) ∧
      front'.map Tr.rowId = front.map Tr.rowId ++ ids ∧ SameFields rows rows' ∧ Covered rows' ∧
      ∀ tr ∈ front', Right columns blank rows' tr := by
  induction ids generalizing rows front rest with
  | nil => exact ⟨rows, front, rest, rfl, by simp, SameFields.refl rows, hcovered, hfront⟩
  | cons id ids ih =>
    rw [nodup_cons] at hids
    rw [forall_mem_cons] at hexists
    -- what is placed, and what is left behind it
    obtain ⟨tr, rest', isNew, hplace, hid, hready, hrest', hnodup', hne⟩ :
        ∃ tr rest' isNew, placeRow columns blank front.length id (front ++ rest) =
            (front ++ tr :: rest', tr, isNew) ∧ tr.rowId = id ∧
          (Ready columns blank rows tr ∨ (isNew || fullUpdate) = true ∧
            tr.tds = List.replicate columns.length blank) ∧
          (∀ tr ∈ rest', Ready columns blank rows tr) ∧ (rest'.map Tr.rowId).Nodup ∧
          ∀ tr ∈ rest', tr.rowId ≠ id := by
      rcases placeRow_append columns blank front rest id with
        ⟨before, tr, after, rfl, hid, hplace⟩ | ⟨hne, hplace⟩
      · have hsub : ∀ tr' ∈ before ++ after, tr' ∈ before ++ tr :: after := by
          intro tr' htr'
          rw [mem_append] at htr' ⊢
          exact htr'.imp_right (mem_cons_of_mem _)
        rw [map_append, map_cons, nodup_middle, nodup_cons,
          ← map_append] at hnodup
        refine ⟨tr, before ++ after, false, hplace, hid, Or.inl (hrest tr (by simp)),
          fun tr' htr' => hrest tr' (hsub tr' htr'), hnodup.2, fun tr' htr' heq => hnodup.1 ?_⟩
        rw [hid, ← heq]
        exact mem_map_of_mem htr'
      · exact ⟨_, rest, true, hplace, rfl, Or.inr ⟨rfl, rfl⟩, hrest, hnodup, hne⟩
    have hkey : tr.rowId ∈ keys rows := hid ▸ hexists.1
    have hsame := sameFields_updateRow columns (isNew || fullUpdate) hkey
    have hright := right_updateRow hcovered hready
    rcases hupdate : updateRow columns (isNew || fullUpdate) rows tr with ⟨rows₁, tr'⟩
    have hcovered₁ := covered_updateRow columns tr (isNew || fullUpdate) hcovered
    have hid' : tr'.rowId = id := by
      rw [← hid, show tr' = (updateRow columns (isNew || fullUpdate) rows tr).2 by rw [hupdate],
        updateRow_rowId]
    have hdata : ∀ {other : RowId}, other ≠ id → rowData rows₁ other = rowData rows other := by
      intro other hother
      have hne : tr.rowId ≠ other := fun heq => hother (heq ▸ hid)
      have := rowData_updateRow_of_ne columns rows (isNew || fullUpdate) hne
      rwa [hupdate] at this
    rw [hupdate] at hsame hright hcovered₁
    obtain ⟨rows', front', rest'', hrun, hfront', hsame', hcovered', hright'⟩ :=
      @ih rows₁ (front ++ [tr']) rest' hids.2
        (fun other hother => hsame.keys ▸ hexists.2 other hother) hcovered₁ hnodup'
        (by
          intro t ht
          rcases mem_append.1 ht with ht | ht
          · exact (hfront t ht).congr (hsame.fields _)
          · rw [mem_singleton.1 ht]
            exact hright)
        (fun t ht => (hrest' t ht).congr (hsame.fields _) (hdata (hne t ht)))
    refine ⟨rows', front', rest'', ?_, ?_, hsame.trans hsame', hcovered', hright'⟩
    · rw [map_cons, placeRows, hplace]
      dsimp only
      rw [hupdate]
      rw [set_append_right _ _ (le_refl _), Nat.sub_self, set_cons_zero]
      rw [length_append, length_singleton, append_assoc, singleton_append] at hrun
      exact hrun
    · rw [hfront', map_append, map_singleton, hid', append_assoc,
        singleton_append]

end Loop

section Table

variable {S : StableSort RowId} {view : View V C} {columns : List (Column V C)} {blank : C}
  {rows : AssocList RowId (Row V)} {t : Table V C} {inherited : List (List Char)}
  {fullUpdate : Bool}

theorem filteredRows_sublist (view : View V C) (rows : AssocList RowId (Row V)) :
    (filteredRows view rows).Sublist (AssocList.keys rows) := by
  rw [filteredRows]
  cases view.filter with
  | none => exact nil_sublist _
  | some applyFilter => exact filter_sublist

theorem getFilteredAndSortedRows_of_inPlace (h : InPlace (filteredRows view rows)) :
    ∃ names, getFilteredAndSortedRows S view rows =
      some ⟨(S.sort (compare view rows) (filteredRows view rows)).map some, names⟩ := by
  rw [getFilteredAndSortedRows]
  cases hfilter : view.filter with
  | none =>
    refine ⟨[], ?_⟩
    rw [filteredRows, hfilter, Option.elim_none, S.sort_nil]
    rfl
  | some applyFilter =>
    rw [← map_id (filteredRows view rows)] at h
    obtain ⟨array, hkeyed, hitems, hsort⟩ := keyed_of_inPlace h
    refine ⟨array.names, ?_⟩
    rw [Option.isNone_some, if_neg Bool.false_ne_true, hkeyed, Option.bind_some,
      sort_of_items hsort hitems]

/-- The rows have different ids, and so have the displayed ones, which are some of them. -/
structure Consistent (t : Table V C) : Prop where
  nodup_rows : (AssocList.keys t.rows).Nodup
  nodup_trs : (t.trs.map Tr.rowId).Nodup
  exists_row : ∀ tr ∈ t.trs, tr.rowId ∈ AssocList.keys t.rows
  covered : Covered t.rows

/-- A table as updates leave it: all cells are right. -/
structure Sound (columns : List (Column V C)) (blank : C) (t : Table V C) : Prop
    extends Consistent t where
  right : ∀ tr ∈ t.trs, Right columns blank t.rows tr

/-- The displayed rows are the filtered ones, each once, in the order in which they are returned, and
all cells are right. -/
structure Shows (S : StableSort RowId) (columns : List (Column V C)) (blank : C) (view : View V C)
    (t : Table V C) : Prop where
  order : ∃ array, getFilteredAndSortedRows S view t.rows = some array ∧
    array.items = t.trs.map fun tr => some tr.rowId
  perm : (t.trs.map Tr.rowId).Perm (filteredRows view t.rows)
  right : ∀ tr ∈ t.trs, Right columns blank t.rows tr

/-- The table after `updateTable` with its own rows. -/
def update (S : StableSort RowId) (columns : List (Column V C)) (blank : C)
    (inherited : List (List Char)) (view : View V C) (fullUpdate : Bool) (t : Table V C) :
    Table V C :=
  updateTable columns blank fullUpdate inherited (getFilteredAndSortedRows S view t.rows) t

variable (S inherited fullUpdate) in
theorem sound_and_shows_update (hconsistent : Consistent t)
    (hready : ∀ tr ∈ t.trs, Ready columns blank t.rows tr)
    (hplace : InPlace (filteredRows view t.rows)) :
    Sound columns blank (update S columns blank inherited view fullUpdate t) ∧
      Shows S columns blank view (update S columns blank inherited view fullUpdate t) := by
  obtain ⟨names, harray⟩ := getFilteredAndSortedRows_of_inPlace (S := S) hplace
  have hsub := filteredRows_sublist view t.rows
  have hsorted := S.perm (compare view t.rows) (filteredRows view t.rows)
  have hmem : ∀ id ∈ S.sort (compare view t.rows) (filteredRows view t.rows),
      id ∈ keys t.rows := fun id hid => hsub.subset (S.mem_sort.1 hid)
  obtain ⟨rows', front', rest', hrun, hfront, hsame, hcovered, hright⟩ :=
    placeRows_spec columns blank fullUpdate
      (S.nodup_sort (hconsistent.nodup_rows.sublist hsub)) hmem hconsistent.covered
      hconsistent.nodup_trs (forall_mem_nil _) hready
  rw [map_nil, nil_append] at hfront
  rw [nil_append, length_nil] at hrun
  have htake : (front' ++ rest').take
      ((S.sort (compare view t.rows) (filteredRows view t.rows)).map some).length = front' := by
    rw [length_map, ← hfront, length_map, take_left]
  have hupdate : update S columns blank inherited view fullUpdate t = ⟨rows', front',
      t.selectedRows.filter fun rowId => has
        ⟨(S.sort (compare view t.rows) (filteredRows view t.rows)).map some, names⟩ rowId
        inherited⟩ := by
    rw [update, harray, updateTable]
    rw [hrun]
    dsimp only
    rw [htake]
  rw [hupdate]
  constructor
  · refine ⟨⟨?_, ?_, ?_, hcovered⟩, hright⟩
    · rw [hsame.keys]
      exact hconsistent.nodup_rows
    · rw [hfront]
      exact S.nodup_sort (hconsistent.nodup_rows.sublist hsub)
    · intro tr htr
      rw [hsame.keys]
      exact hmem _ (hfront ▸ mem_map_of_mem htr)
  · refine ⟨⟨_, (hsame.getFilteredAndSortedRows_eq S view).trans harray, ?_⟩, ?_, hright⟩
    · rw [← hfront, map_map]
      rfl
    · rw [hfront, hsame.filteredRows_eq]
      exact hsorted

theorem mem_names_of_getFilteredAndSortedRows {array : JsArray RowId} {id : RowId}
    (h : getFilteredAndSortedRows S view rows = some array) (hid : arrayIndex? id = none) :
    id ∈ array.names ↔ id ∈ filteredRows view rows := by
  rw [getFilteredAndSortedRows] at h
  cases hfilter : view.filter with
  | none =>
    rw [hfilter, Option.isNone_none, if_pos rfl] at h
    obtain rfl := Option.some.inj h
    rw [filteredRows, hfilter]
    exact Iff.rfl
  | some applyFilter =>
    rw [hfilter, Option.isNone_some, if_neg Bool.false_ne_true] at h
    obtain ⟨keyed, hkeyed, hsort⟩ := Option.bind_eq_some_iff.1 h
    obtain ⟨-, rfl⟩ := sort_eq_some_iff.1 hsort
    refine (mem_names_keyed hkeyed).trans ?_
    rw [map_id, and_iff_left hid]
    exact or_iff_right not_mem_nil

end Table

end QBittorrent.DynamicTable
