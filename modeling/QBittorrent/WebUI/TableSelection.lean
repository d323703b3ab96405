import Mathlib.Algebra.Order.Ring.Unbundled.Rat
import QBittorrent.WebUI.FilesTable

/-!
# The selection of a table

`updateTable` keeps a selected row if its id is a key of the array of rows.  The table of torrents
stores each row under its id as well; the tables of search results and of files do not, and there the
number of a row is taken for a position.

* `has_iff_of_number` : what the test finds;
* `selection_follows_iff` : when the selection follows.
-/

namespace QBittorrent.DynamicTable

open List

variable {C : Type*}

/-- A value of a field. -/
inductive Value where
  | text (text : Text)
  | number (number : ℚ)

/-- The id of a torrent, of one version or the other. -/
def IsHash (id : RowId) : Prop :=
  (id.length = 40 ∨ id.length = 64) ∧ ∀ c ∈ id, c ∈ "0123456789abcdef".toList
  deriving Decidable

/-- The number that an id writes. -/
def numberOf (id : RowId) : ℕ := Nat.ofDigitChars 10 id 0

/-- An id that has been counted. -/
def IsNumber (id : RowId) : Prop := id = Nat.toDigits 10 (numberOf id)
  deriving Decidable

/-- The names that arrays inherit are those of methods. -/
structure ArrayPrototype where
  names : List (List Char)
  not_hash : ∀ name ∈ names, ¬ IsHash name
  not_number : ∀ name ∈ names, ¬ IsNumber name

/-! ### Search results -/

structure SearchFilters where
  pattern : Text
  filterPattern : Text
  minSize : ℚ
  minUnit : ℕ
  maxSize : ℚ
  maxUnit : ℕ
  minSeeds : ℚ
  maxSeeds : ℚ
  searchInTorrentName : Bool

namespace SearchFilters

variable (toLowerCase : Text → Text) (filters : SearchFilters)

/-- The bounds change places if they are given in the wrong order. -/
def ordered (min max : ℚ) : ℚ × ℚ := if max < min ∧ 0 < max then (max, min) else (min, max)

def getSizeFilters : ℚ × ℚ :=
  ordered (if 0 < filters.minSize then filters.minSize * 1024 ^ filters.minUnit else 0)
    (if 0 < filters.maxSize then filters.maxSize * 1024 ^ filters.maxUnit else 0)

def getSeedsFilters : ℚ × ℚ :=
  ordered (if 0 < filters.minSeeds then filters.minSeeds else 0)
    (if 0 < filters.maxSeeds then filters.maxSeeds else 0)

def searchTerms : List Text := (toLowerCase filters.pattern).splitOn ' '

def filterTerms : List Text := (toLowerCase filters.filterPattern).splitOn ' '

def textOf (full : Fields Value) (prop : String) : Text :=
  match AssocList.get? prop full with
  | some (.text text) => text
  | _ => []

/-- Nothing compares with what is not a number. -/
def compares (full : Fields Value) (prop : String) (p : ℚ → Bool) : Bool :=
  match AssocList.get? prop full with
  | some (.number number) => p number
  | _ => false

/-- The row is not left out. -/
def passes (full : Fields Value) : Bool :=
  let sizeFilters := getSizeFilters filters
  let seedsFilters := getSeedsFilters filters
  !((filters.searchInTorrentName &&
      !containsAllTerms toLowerCase (textOf full "fileName") (searchTerms toLowerCase filters)) ||
    (decide (0 < (filterTerms toLowerCase filters).length) &&
      !containsAllTerms toLowerCase (textOf full "fileName") (filterTerms toLowerCase filters)) ||
    (decide (0 < sizeFilters.1) && compares full "fileSize" fun size => decide (size < sizeFilters.1)) ||
    (decide (0 < sizeFilters.2) && compares full "fileSize" fun size => decide (sizeFilters.2 < size)) ||
    (decide (0 < seedsFilters.1) &&
      compares full "nbSeeders" fun seeds => decide (seeds < seedsFilters.1)) ||
    (decide (0 < seedsFilters.2) &&
      compares full "nbSeeders" fun seeds => decide (seedsFilters.2 < seeds)))

/-- The rows that are not left out. -/
def filteredRows (rows : AssocList RowId (Row Value)) : List RowId :=
  if filters.searchInTorrentName || decide (0 < (filterTerms toLowerCase filters).length) ||
      decide (0 < filters.minSize) || decide (0 < filters.maxSize) then
    (AssocList.keys rows).filter fun rowId => passes toLowerCase filters (fullData rows rowId)
  else AssocList.keys rows

/-- The method of `SearchResultsTable`, which stores nothing under the ids. -/
def getFilteredAndSortedRows (S : StableSort RowId) (column : Column Value C) (reverseSort : Bool)
    (rows : AssocList RowId (Row Value)) : JsArray RowId :=
  ⟨(S.sort (compare ⟨column, reverseSort, none⟩ rows)
    (filteredRows toLowerCase filters rows)).map some, []⟩

end SearchFilters

/-! ### The three tables -/

/-- A table with what its rows are filtered and sorted by.  An array holds all rows. -/
inductive WebTable (C : Type*) where
  | torrents (table : Table Value C) (view : View Value C)
      (isHash : ∀ id ∈ AssocList.keys table.rows, IsHash id)
      (selected : ∀ id ∈ table.selectedRows, IsHash id)
      (length_le : (AssocList.keys table.rows).length ≤ maxArrayLength)
  | searchResults (table : Table Value C) (filters : SearchFilters) (column : Column Value C)
      (reverseSort : Bool) (isNumber : ∀ id ∈ AssocList.keys table.rows, IsNumber id)
      (selected : ∀ id ∈ table.selectedRows, IsNumber id)
      (length_le : (AssocList.keys table.rows).length ≤ maxArrayLength)
  | torrentFiles (root : RootNode Value) (filterTerms : List Text) (column : Column Value C)
      (reverseSort : Bool) (trs : List (Tr C)) (selectedRows : List RowId)
      (selected : ∀ id ∈ selectedRows, IsNumber id)
      (length_le : (LeafTree.nodesOf root.children).length ≤ maxArrayLength)

namespace WebTable

variable (S : StableSort RowId) (S' : StableSort (Node Value)) (toLowerCase : Text → Text)
  (stringify : List (Fields Value) → String)

def table : WebTable C → Table Value C
  | torrents table .. => table
  | searchResults table .. => table
  | torrentFiles root filterTerms column reverseSort trs selectedRows _ _ =>
    ⟨(FilesTable.populateTable root (FilesTable.new column reverseSort filterTerms)).rows, trs,
      selectedRows⟩

/-- What the table's `getFilteredAndSortedRows` returns. -/
def getFilteredAndSortedRows : WebTable C → Option (JsArray RowId)
  | torrents table view _ _ _ => DynamicTable.getFilteredAndSortedRows S view table.rows
  | searchResults table filters column reverseSort _ _ _ =>
    some (SearchFilters.getFilteredAndSortedRows toLowerCase filters S column reverseSort table.rows)
  | torrentFiles root filterTerms column reverseSort _ _ _ _ =>
    some ⟨FilesTable.rowsOf S' toLowerCase stringify .torrentFiles root column reverseSort filterTerms,
      []⟩

/-- The ids of the rows that pass the filter. -/
def passing : WebTable C → List RowId
  | torrents table view _ _ _ => filteredRows view table.rows
  | searchResults table filters _ _ _ _ _ => SearchFilters.filteredRows toLowerCase filters table.rows
  | torrentFiles root filterTerms _ _ _ _ _ _ =>
    ((LeafTree.nodesOf root.children).filter fun node => filterTerms.isEmpty ||
      LeafTree.shown (FilesTable.isMatch toLowerCase filterTerms) node).map FilesTable.rowIdString

def isTorrents : WebTable C → Bool
  | torrents .. => true
  | searchResults .. => false
  | torrentFiles .. => false

/-- After `updateTable` the selected rows are those that were selected and have been returned. -/
def Follows (inherited : ArrayPrototype) (columns : List (Column Value C)) (blank : C)
    (fullUpdate : Bool) (w : WebTable C) : Prop :=
  ∃ array, getFilteredAndSortedRows S S' toLowerCase stringify w = some array ∧
    (updateTable columns blank fullUpdate inherited.names
        (getFilteredAndSortedRows S S' toLowerCase stringify w) w.table).selectedRows =
      w.table.selectedRows.filter fun id => decide (some id ∈ array.items)

end WebTable

section Test

variable {id : RowId} {l : List RowId} {names : List (List Char)} {inherited : ArrayPrototype}

theorem IsHash.length_ge (h : IsHash id) : 40 ≤ id.length := by
  have := h.1
  omega

theorem IsHash.ne (h : IsHash id) {name : List Char} (hname : name.length < 40) : id ≠ name := by
  rintro rfl
  have := h.length_ge
  omega

theorem arrayIndex?_of_hash (h : IsHash id) : arrayIndex? id = none := by
  rw [Option.eq_none_iff_forall_ne_some]
  intro n hn
  obtain ⟨rfl, hlt⟩ := arrayIndex?_eq_some_iff.1 hn
  have hlength : (Nat.toDigits 10 n).length ≤ 10 :=
    (Nat.length_toDigits_le_iff (by decide) (by decide)).2 (hlt.trans (by decide))
  have := h.length_ge
  omega

theorem inPlaceFrom_of_hash (h : ∀ id ∈ l, IsHash id) (i : ℕ) : InPlaceFrom i l := by
  induction l generalizing i with
  | nil => trivial
  | cons id l ih =>
    rw [forall_mem_cons] at h
    refine ⟨⟨h.1.ne (by decide), h.1.ne (by decide), h.1.ne (by decide), fun heq => ?_, fun n hn => ?_⟩,
      ih h.2 (i + 1)⟩
    · exact absurd heq (h.1.ne (by decide))
    · rw [arrayIndex?_of_hash h.1] at hn
      cases hn

theorem has_iff_of_hash {array : JsArray RowId} (h : IsHash id) :
    array.has id inherited.names = true ↔ id ∈ array.names := by
  rw [JsArray.has, arrayIndex?_of_hash h, Bool.or_eq_true, Bool.or_eq_true, decide_eq_true_iff,
    decide_eq_true_iff, decide_eq_true_iff]
  constructor
  · rintro ((heq | hmem) | hmem)
    · exact absurd heq (h.ne (by decide))
    · exact hmem
    · exact absurd h (inherited.not_hash id hmem)
  · exact fun hmem => Or.inl (Or.inr hmem)

theorem has_iff_of_number (h : IsNumber id) (hlength : l.length ≤ maxArrayLength) :
    (⟨l.map some, []⟩ : JsArray RowId).has id inherited.names = true ↔ numberOf id < l.length := by
  rw [JsArray.has]
  cases hindex : arrayIndex? id with
  | some n =>
    obtain ⟨rfl, -⟩ := arrayIndex?_eq_some_iff.1 hindex
    rw [numberOf, Nat.ofDigitChars_ten_toDigits]
    dsimp only
    rw [getElem?_map]
    by_cases hn : n < l.length
    · rw [getElem?_eq_getElem hn]
      exact iff_of_true rfl hn
    · rw [getElem?_eq_none (not_lt.1 hn)]
      exact iff_of_false Bool.false_ne_true hn
  | none =>
    -- the number is none of an index
    have hge : ¬ numberOf id < maxArrayLength := by
      intro hlt
      rw [arrayIndex?_eq_some_iff.2 ⟨h, hlt⟩] at hindex
      cases hindex
    have hne : id ≠ "length".toList := by
      rintro rfl
      revert h
      decide
    rw [decide_eq_false hne, decide_eq_false (not_mem_nil),
      decide_eq_false fun hmem => inherited.not_number id hmem h]
    exact iff_of_false Bool.false_ne_true fun hlt => hge (hlt.trans_le hlength)

theorem filter_eq_filter_iff {α : Type*} {p q : α → Bool} {l : List α} :
    l.filter p = l.filter q ↔ ∀ x ∈ l, (p x = true ↔ q x = true) := by
  constructor
  · intro h x hx
    have hmem : x ∈ l.filter p ↔ x ∈ l.filter q := by rw [h]
    rwa [mem_filter, mem_filter, and_iff_right hx, and_iff_right hx] at hmem
  · exact fun h => filter_congr fun x hx => Bool.eq_iff_iff.2 (h x hx)

end Test

section Main

variable {S : StableSort RowId} {S' : StableSort (Node Value)} {toLowerCase : Text → Text}
  {stringify : List (Fields Value) → String} {inherited : ArrayPrototype}
  {columns : List (Column Value C)} {blank : C} {fullUpdate : Bool} {w : WebTable C}

theorem selectedRows_updateTable (array : JsArray RowId) (t : Table Value C) :
    (updateTable columns blank fullUpdate inherited.names (some array) t).selectedRows =
      t.selectedRows.filter fun id => array.has id inherited.names := by
  rw [updateTable]
  rcases placeRows columns blank fullUpdate 0 array.items (t.rows, t.trs) with ⟨rows, trs, threw⟩
  cases threw <;> rfl

theorem follows_iff_of_eq_some {array : JsArray RowId}
    (h : w.getFilteredAndSortedRows S S' toLowerCase stringify = some array) :
    w.Follows S S' toLowerCase stringify inherited columns blank fullUpdate ↔
      ∀ id ∈ w.table.selectedRows,
        (array.has id inherited.names = true ↔ some id ∈ array.items) := by
  rw [WebTable.Follows, h]
  constructor
  · rintro ⟨array', heq, hselected⟩ id hid
    obtain rfl := Option.some.inj heq
    rw [selectedRows_updateTable, filter_eq_filter_iff] at hselected
    rw [hselected id hid, decide_eq_true_iff]
  · intro hall
    refine ⟨array, rfl, ?_⟩
    rw [selectedRows_updateTable, filter_eq_filter_iff]
    intro id hid
    rw [hall id hid, decide_eq_true_iff]

theorem follows_torrents (table : Table Value C) (view : View Value C)
    (isHash : ∀ id ∈ AssocList.keys table.rows, IsHash id)
    (selected : ∀ id ∈ table.selectedRows, IsHash id)
    (length_le : (AssocList.keys table.rows).length ≤ maxArrayLength) :
    (WebTable.torrents table view isHash selected length_le).Follows S S' toLowerCase stringify
      inherited columns blank fullUpdate := by
  have hsub := filteredRows_sublist view table.rows
  have hhash : ∀ id ∈ filteredRows view table.rows, IsHash id := fun id hid =>
    isHash id (hsub.subset hid)
  have hplace : InPlace (filteredRows view table.rows) :=
    ⟨inPlaceFrom_of_hash hhash 0, hsub.length_le.trans length_le⟩
  obtain ⟨names, harray⟩ := getFilteredAndSortedRows_of_inPlace (S := S) hplace
  refine (follows_iff_of_eq_some (w := .torrents table view isHash selected length_le) harray).2 ?_
  intro id hid
  rw [has_iff_of_hash (selected id hid), mem_map_of_injective (Option.some_injective _),
    S.mem_sort]
  exact mem_names_of_getFilteredAndSortedRows harray (arrayIndex?_of_hash (selected id hid))

theorem follows_iff_of_number {l passing : List RowId}
    (harray : w.getFilteredAndSortedRows S S' toLowerCase stringify = some ⟨l.map some, []⟩)
    (hperm : l.Perm passing) (hnumber : ∀ id ∈ w.table.selectedRows, IsNumber id)
    (hlength : passing.length ≤ maxArrayLength) :
    w.Follows S S' toLowerCase stringify inherited columns blank fullUpdate ↔
      ∀ id ∈ w.table.selectedRows, (id ∈ passing ↔ numberOf id < passing.length) := by
  rw [follows_iff_of_eq_some harray]
  refine forall₂_congr fun id hid => ?_
  rw [has_iff_of_number (hnumber id hid) (hperm.length_eq.trans_le hlength), hperm.length_eq,
    mem_map_of_injective (Option.some_injective _), hperm.mem_iff]
  exact iff_comm

/-- The selection of a table follows what is displayed exactly if the table is that of torrents, or of
the selected rows those pass the filter whose numbers are less than the number of all rows that do. -/
theorem selection_follows_iff (w : WebTable C) :
    w.Follows S S' toLowerCase stringify inherited columns blank fullUpdate ↔
      w.isTorrents = true ∨ ∀ id ∈ w.table.selectedRows,
        (id ∈ w.passing toLowerCase ↔ numberOf id < (w.passing toLowerCase).length) := by
  cases w with
  | torrents table view isHash selected length_le =>
    exact iff_of_true (follows_torrents table view isHash selected length_le) (Or.inl rfl)
  | searchResults table filters column reverseSort isNumber selected length_le =>
    rw [WebTable.isTorrents, or_iff_right Bool.false_ne_true]
    refine follows_iff_of_number rfl (S.perm _ _) selected ?_
    refine List.Sublist.length_le ?_ |>.trans length_le
    rw [WebTable.passing, SearchFilters.filteredRows]
    split_ifs
    · exact filter_sublist
    · exact List.Sublist.refl _
  | torrentFiles root filterTerms column reverseSort trs selectedRows selected length_le =>
    rw [WebTable.isTorrents, or_iff_right Bool.false_ne_true]
    obtain ⟨l, hrows, hperm⟩ := FilesTable.rowsOf_perm S' toLowerCase stringify .torrentFiles root
      column reverseSort filterTerms
    refine follows_iff_of_number (l := l) ?_ hperm selected ?_
    · rw [WebTable.getFilteredAndSortedRows, hrows]
    · rw [WebTable.passing, length_map]
      exact (length_filter_le _ _).trans length_le

end Main

/-! ### Two files -/

def sizeColumn : Column Value Text where
  name := "size"
  dataProperties := ["size"]
  compareRows _ _ := 0
  updateTd full := SearchFilters.textOf full "size"
  reads := ["size"]
  updateTd_congr full full' h := by
    rw [SearchFilters.textOf, SearchFilters.textOf, h "size" List.mem_cons_self]

/-- A torrent with the files `a` and `b`. -/
def filesAB : RootNode Value := ⟨[.leaf 0 ⟨0, ['a'], []⟩, .leaf 1 ⟨1, ['b'], []⟩], by decide⟩

/-- The file `b` is selected, and the only one that matches. -/
def filesABTable : WebTable Text :=
  .torrentFiles filesAB [['b']] sizeColumn false [] [['1']] (by decide) (by decide)

def someMethods : ArrayPrototype :=
  ⟨["push".toList, "sort".toList, "splice".toList], by decide, by decide⟩

/-- The selected file is displayed and loses its selection. -/
theorem not_follows_filesABTable :
    ¬ filesABTable.Follows (StableSort.insertion _) (StableSort.insertion _) id (fun _ => "")
      someMethods [sizeColumn] [] false := by
  obtain ⟨l, hrows, hperm⟩ := FilesTable.rowsOf_perm (StableSort.insertion (Node Value)) id
    (fun _ => "") .torrentFiles filesAB sizeColumn false [['b']]
  rw [follows_iff_of_number (l := l) (by rw [filesABTable, WebTable.getFilteredAndSortedRows, hrows])
    hperm (by decide) (by decide)]
  decide

end QBittorrent.DynamicTable
