import Mathlib.Data.List.Infix
import QBittorrent.Lib.TreeWalk
import QBittorrent.WebUI.DynamicTable

/-!
# Tables of files

`TorrentFilesTable` and `BulkRenameTorrentFilesTable` show the files and folders of a torrent in the
order of their tree.  The siblings are sorted in place; without a filter the rows are those of
`toArray`, with a filter `_filterNodes` collects each folder behind what is shown below it and the
result is reversed.

* `filterNodes_eq` : what is collected;
* `rowsOf_eq_restrict_iff` : when the filter keeps the order.
-/

namespace QBittorrent.DynamicTable

open LeafTree List

abbrev Text := List Char

/-- `Misc.containsAllTerms` -/
def containsAllTerms (toLowerCase : Text → Text) (text : Text) (terms : List Text) : Bool :=
  let textToSearch := toLowerCase text
  terms.all fun term =>
    let isTermRequired := ['+'].isPrefixOf term
    let isTermExcluded := ['-'].isPrefixOf term
    if isTermRequired || isTermExcluded then
      -- a lonely sign is ignored
      if term.length = 1 then true
      else
        let textContainsTerm := decide (term.drop 1 <:+: textToSearch)
        if isTermExcluded then !textContainsTerm else textContainsTerm
    else decide (term <:+: textToSearch)

/-- What the tables read of a `FileNode`. -/
structure FileNode (V : Type*) where
  rowId : ℕ
  /-- `original` in the table for renaming -/
  name : Text
  /-- `data`, which is `full_data` as well -/
  data : Fields V

/-- A file with its `fileId`, or a folder. -/
abbrev Node (V : Type*) := LeafTree ℕ (FileNode V)

/-- The root of a file tree.  The rows are numbered when the tree is built. -/
structure RootNode (V : Type*) where
  children : List (Node V)
  nodup : ((LeafTree.nodesOf children).map fun node => node.label.rowId).Nodup

/-- The two tables. -/
inductive FilesTableKind where
  | torrentFiles
  | bulkRename

/-- The column in which folders come before files. -/
def FilesTableKind.nameColumn : FilesTableKind → String
  | torrentFiles => "name"
  | bulkRename => "original"

/-- A table of files.  The `prev` fields are those of the last call. -/
structure FilesTable (V C : Type*) where
  rows : AssocList RowId (Row V)
  /-- The children of the root, if there is one. -/
  root : Option (List (Node V))
  filterTerms : List Text
  sortedColumn : Column V C
  reverseSort : Bool
  prevFilterTerms : List Text
  prevRowsString : Option String
  prevFilteredRows : List (Option RowId)
  prevSortedColumn : Option String
  prevReverseSort : Option Bool

namespace FilesTable

variable {V C : Type*}

def rowIdString (node : Node V) : RowId := Nat.toDigits 10 node.label.rowId

def getRow (rows : AssocList RowId (Row V)) (node : Node V) : Option RowId :=
  if (AssocList.keys rows).contains (rowIdString node) then some (rowIdString node) else none

/-- A table without a tree. -/
def new (sortedColumn : Column V C) (reverseSort : Bool) (filterTerms : List Text) :
    FilesTable V C where
  rows := []
  root := none
  filterTerms := filterTerms
  sortedColumn := sortedColumn
  reverseSort := reverseSort
  prevFilterTerms := []
  prevRowsString := none
  prevFilteredRows := []
  prevSortedColumn := none
  prevReverseSort := none

/-- `_addNodeToTable` for all nodes, each ahead of its children. -/
def populateTable (root : RootNode V) (t : FilesTable V C) : FilesTable V C where
  __ := t
  rows := (LeafTree.nodesOf root.children).foldl (fun rows node =>
    (updateRowData (rowIdString node) node.label.data (⟨rows, [], []⟩ : Table V C)).rows) t.rows
  root := some root.children

section Filter

variable (toLowerCase : Text → Text) (filterTerms : List Text) (rows : AssocList RowId (Row V))

def isMatch (label : FileNode V) : Bool := containsAllTerms toLowerCase label.name filterTerms

mutual

def filterNodes : Node V → List (Option RowId) → Bool × List (Option RowId)
  | .leaf fileId label, filteredRows =>
    if isMatch toLowerCase filterTerms label then
      (true, filteredRows ++ [getRow rows (.leaf fileId label)])
    else (false, filteredRows)
  | .node label children, filteredRows =>
    match filterChildren children false filteredRows with
    | (childAdded, filteredRows) =>
      if childAdded then (true, filteredRows ++ [getRow rows (.node label children)])
      else if isMatch toLowerCase filterTerms label then
        (true, filteredRows ++ [getRow rows (.node label children)])
      else (false, filteredRows)

/-- The children are all visited, also behind one that is added. -/
def filterChildren : List (Node V) → Bool → List (Option RowId) → Bool × List (Option RowId)
  | [], acc, filteredRows => (acc, filteredRows)
  | child :: children, acc, filteredRows =>
    match filterNodes child filteredRows with
    | (added, filteredRows) => filterChildren children (added || acc) filteredRows

end

/-- The rows of the nodes, or of those that are shown. -/
def getFilteredRows (root : List (Node V)) : List (Option RowId) :=
  if filterTerms.isEmpty then (LeafTree.nodesOf root).map (getRow rows)
  else (filterChildren toLowerCase filterTerms rows root false []).2.reverse

end Filter

/-- How two siblings compare.  A node is found under its number. -/
def compareNodes (nameColumn : String) (column : Column V C) (reverseSort : Bool)
    (node1 node2 : Node V) : ℤ :=
  let isFolder : Node V → Bool := fun node => node.index?.isNone
  let res := column.compareRows node1.label.data node2.label.data
  let ordered := if reverseSort then -res else res
  if column.name = nameColumn then
    if isFolder node1 && !isFolder node2 then -1
    else if isFolder node2 && !isFolder node1 then 1
    else ordered
  else ordered

/-- The siblings are sorted from the top of the tree to the bottom. -/
def sortNodesByColumn (S : StableSort (Node V)) (nameColumn : String) (column : Column V C)
    (reverseSort : Bool) (nodes : List (Node V)) : List (Node V) :=
  LeafTree.arrange (S.sort (compareNodes nameColumn column reverseSort))
    (S.perm (compareNodes nameColumn column reverseSort)) nodes

section Rows

variable (S : StableSort (Node V)) (toLowerCase : Text → Text)
  (stringify : List (Fields V) → String) (kind : FilesTableKind)

def generateRowsSignature (rows : AssocList RowId (Row V)) : String :=
  stringify (rows.map fun entry => entry.2.fullData)

def hasRowsChanged (t : FilesTable V C) (rowsString : String) : Bool :=
  let rowsChanged := decide (some rowsString ≠ t.prevRowsString)
  let isFilterTermsChanged := t.filterTerms.zipIdx.any fun term =>
    decide (some term.1 ≠ t.prevFilterTerms[term.2]?)
  let isFilterChanged := decide (t.filterTerms.length ≠ t.prevFilterTerms.length) ||
    (decide (0 < t.filterTerms.length) && isFilterTermsChanged)
  let isSortedColumnChanged := decide (t.prevSortedColumn ≠ some t.sortedColumn.name)
  let isReverseSortChanged := decide (t.prevReverseSort ≠ some t.reverseSort)
  rowsChanged || isFilterChanged || isSortedColumnChanged || isReverseSortChanged

def getFilteredAndSortedRows (t : FilesTable V C) : List (Option RowId) × FilesTable V C :=
  match t.root with
  | none => ([], t)
  | some root =>
    let rowsString := generateRowsSignature stringify t.rows
    if hasRowsChanged t rowsString then
      -- sort, then filter
      let sorted := sortNodesByColumn S kind.nameColumn t.sortedColumn t.reverseSort root
      let filteredRows := getFilteredRows toLowerCase t.filterTerms t.rows sorted
      (filteredRows, { t with
        root := some sorted
        prevFilterTerms := t.filterTerms
        prevRowsString := some rowsString
        prevFilteredRows := filteredRows
        prevSortedColumn := some t.sortedColumn.name
        prevReverseSort := some t.reverseSort })
    else (t.prevFilteredRows, t)

/-- The rows of a table that has got its first tree. -/
def rowsOf (root : RootNode V) (sortedColumn : Column V C) (reverseSort : Bool)
    (filterTerms : List Text) : List (Option RowId) :=
  (getFilteredAndSortedRows S toLowerCase stringify kind
    (populateTable root (new sortedColumn reverseSort filterTerms))).1

end Rows

def restrict (toLowerCase : Text → Text) (filterTerms : List Text) (root : RootNode V)
    (rows : List (Option RowId)) : List (Option RowId) :=
  rows.filter fun row => (LeafTree.nodesOf root.children).any fun node =>
    LeafTree.shown (isMatch toLowerCase filterTerms) node && decide (row = some (rowIdString node))

section Filter

variable {toLowerCase : Text → Text} {filterTerms : List Text} {rows : AssocList RowId (Row V)}
  {children : List (Node V)} {node : Node V}

/-- What is collected of a node stands in the opposite order. -/
def Collects (toLowerCase : Text → Text) (filterTerms : List Text) (rows : AssocList RowId (Row V))
    (node : Node V) : Prop :=
  ∀ filteredRows, filterNodes toLowerCase filterTerms rows node filteredRows =
    (LeafTree.shown (isMatch toLowerCase filterTerms) node, filteredRows ++
      ((LeafTree.mirrored (isMatch toLowerCase filterTerms) node).map (getRow rows)).reverse)

theorem filterChildren_of_collects
    (h : ∀ child ∈ children, Collects toLowerCase filterTerms rows child) (acc : Bool)
    (filteredRows : List (Option RowId)) :
    filterChildren toLowerCase filterTerms rows children acc filteredRows =
      (LeafTree.anyShown (isMatch toLowerCase filterTerms) children || acc, filteredRows ++
        ((LeafTree.mirroredOf (isMatch toLowerCase filterTerms) children).map
          (getRow rows)).reverse) := by
  induction children generalizing acc filteredRows with
  | nil => simp [filterChildren, anyShown, mirroredOf]
  | cons child children ih =>
    rw [forall_mem_cons] at h
    rw [filterChildren, h.1]
    dsimp only
    rw [ih h.2, anyShown, mirroredOf, map_append, reverse_append,
      append_assoc, ← Bool.or_assoc, Bool.or_comm (anyShown _ children)]

theorem filterNodes_eq (node : Node V) : Collects toLowerCase filterTerms rows node := by
  induction node using induction with
  | leaf fileId label =>
    intro filteredRows
    rw [filterNodes, mirrored, shown]
    cases isMatch toLowerCase filterTerms label <;> simp
  | node label children ih =>
    intro filteredRows
    rw [filterNodes, filterChildren_of_collects ih, Bool.or_false]
    dsimp only
    rw [shown, anyShown_eq_any]
    cases hany : children.any (shown (isMatch toLowerCase filterTerms)) with
    | true =>
      have hshown : shown (isMatch toLowerCase filterTerms) (.node label children : Node V) =
          true := by
        rw [shown, anyShown_eq_any, hany, Bool.true_or]
      rw [if_pos rfl, mirrored_of_shown hshown, LeafTree.children]
      simp
    | false =>
      -- nothing has been collected below
      have hbelow : mirroredOf (isMatch toLowerCase filterTerms) children = [] := by
        refine mirroredOf_eq_nil_iff.2 (filter_eq_nil_of_countP ?_)
        rw [countP_eq_zero]
        intro child hchild
        exact any_eq_false.1 hany child hchild
      rw [if_neg Bool.false_ne_true, hbelow, mirrored, shown,
        anyShown_eq_any, hany, hbelow]
      cases isMatch toLowerCase filterTerms label <;> simp

theorem getFilteredRows_of_terms (h : filterTerms ≠ []) (root : List (Node V)) :
    getFilteredRows toLowerCase filterTerms rows root =
      (LeafTree.mirroredOf (isMatch toLowerCase filterTerms) root).map (getRow rows) := by
  have hempty : filterTerms.isEmpty = false := by simpa using h
  rw [getFilteredRows, hempty, if_neg Bool.false_ne_true,
    filterChildren_of_collects fun child _ => filterNodes_eq child]
  simp

end Filter

section Rows

variable {rows : AssocList RowId (Row V)} {node node' : Node V} {root : RootNode V}

theorem rowIdString_inj : rowIdString node = rowIdString node' ↔ node.label.rowId = node'.label.rowId := by
  constructor
  · intro h
    have hread := congrArg (fun name => Nat.ofDigitChars 10 name 0) h
    simpa [rowIdString] using hread
  · intro h
    rw [rowIdString, rowIdString, h]

theorem mem_keys_populateTable (t : FilesTable V C) (h : node ∈ LeafTree.nodesOf root.children) :
    rowIdString node ∈ AssocList.keys (populateTable root t).rows := by
  have hkeys : ∀ (nodes : List (Node V)) (rows : AssocList RowId (Row V)) (id : RowId),
      id ∈ AssocList.keys (nodes.foldl (fun rows node => (updateRowData (rowIdString node)
        node.label.data (⟨rows, [], []⟩ : Table V C)).rows) rows) ↔
      id ∈ nodes.map rowIdString ∨ id ∈ AssocList.keys rows := by
    intro nodes
    induction nodes with
    | nil => simp
    | cons node nodes ih =>
      intro rows id
      rw [foldl_cons, ih, updateRowData, AssocList.mem_keys_set, map_cons, mem_cons,
        or_left_comm, or_assoc]
  exact (hkeys _ _ _).2 (Or.inl (mem_map_of_mem h))

theorem getRow_of_mem (h : rowIdString node ∈ AssocList.keys rows) :
    getRow rows node = some (rowIdString node) := if_pos (contains_iff_mem.2 h)

end Rows

section Main

variable (S : StableSort (Node V)) (toLowerCase : Text → Text) (stringify : List (Fields V) → String)
  (kind : FilesTableKind) (root : RootNode V) (column : Column V C) (reverseSort : Bool)
  (filterTerms : List Text)

/-- The tree as it is displayed. -/
abbrev sortedNodes : List (Node V) :=
  sortNodesByColumn S kind.nameColumn column reverseSort root.children

theorem rowsOf_eq : rowsOf S toLowerCase stringify kind root column reverseSort filterTerms =
    getFilteredRows toLowerCase filterTerms (populateTable root (new column reverseSort filterTerms)).rows
      (sortedNodes S kind root column reverseSort) := by
  rfl

theorem map_sorted_perm (p : FileNode V → Bool) :
    ((LeafTree.nodesOf (sortedNodes S kind root column reverseSort)).map
      fun node => (node.label.rowId, LeafTree.shown p node)).Perm
      ((LeafTree.nodesOf root.children).map fun node => (node.label.rowId, LeafTree.shown p node)) :=
  map_nodesOf_arrange_perm (fun node => by
    rw [label_mapChildren, shown_mapChildren_arrange]) root.children

variable {S kind root column reverseSort} {node : Node V}

theorem exists_of_mem_sorted (p : FileNode V → Bool)
    (h : node ∈ LeafTree.nodesOf (sortedNodes S kind root column reverseSort)) :
    ∃ old ∈ LeafTree.nodesOf root.children, old.label.rowId = node.label.rowId ∧
      LeafTree.shown p old = LeafTree.shown p node := by
  obtain ⟨old, hold, heq⟩ := mem_map.1
    ((map_sorted_perm S kind root column reverseSort p).mem_iff.1 (mem_map_of_mem h))
  exact ⟨old, hold, Prod.mk.inj heq⟩

theorem getRow_sorted (h : node ∈ LeafTree.nodesOf (sortedNodes S kind root column reverseSort)) :
    getRow (populateTable root (new column reverseSort filterTerms)).rows node =
      some (rowIdString node) := by
  obtain ⟨old, hold, hid, -⟩ := exists_of_mem_sorted (fun _ => true) h
  have hmem := mem_keys_populateTable (new column reverseSort filterTerms) hold
  rw [rowIdString_inj.2 hid] at hmem
  exact getRow_of_mem hmem

theorem any_shown_eq (p : FileNode V → Bool)
    (h : node ∈ LeafTree.nodesOf (sortedNodes S kind root column reverseSort)) :
    ((LeafTree.nodesOf root.children).any fun old =>
      LeafTree.shown p old && decide (some (rowIdString node) = some (rowIdString old))) =
        LeafTree.shown p node := by
  obtain ⟨old, hold, hid, hshown⟩ := exists_of_mem_sorted p h
  rw [Bool.eq_iff_iff, any_eq_true, ← hshown]
  constructor
  · rintro ⟨other, hother, hboth⟩
    rw [Bool.and_eq_true, decide_eq_true_iff, Option.some_inj, rowIdString_inj] at hboth
    rw [inj_on_of_nodup_map root.nodup hold hother (hid.trans hboth.2), hboth.1]
  · intro hold'
    refine ⟨old, hold, ?_⟩
    rw [hold', Bool.true_and, decide_eq_true_iff, Option.some_inj, rowIdString_inj, hid]

variable (S kind root column reverseSort)

theorem rowsOf_nil : rowsOf S toLowerCase stringify kind root column reverseSort [] =
    (LeafTree.nodesOf (sortedNodes S kind root column reverseSort)).map fun node =>
      some (rowIdString node) := by
  exact map_congr_left fun node hnode => getRow_sorted [] hnode

theorem rowsOf_of_terms (hterms : filterTerms ≠ []) :
    rowsOf S toLowerCase stringify kind root column reverseSort filterTerms =
      (LeafTree.mirroredOf (isMatch toLowerCase filterTerms)
        (sortedNodes S kind root column reverseSort)).map fun node => some (rowIdString node) := by
  rw [rowsOf_eq, getFilteredRows_of_terms hterms]
  have hperm := mirroredOf_perm_filter (isMatch toLowerCase filterTerms)
    (sortedNodes S kind root column reverseSort)
  exact map_congr_left fun node hnode =>
    getRow_sorted filterTerms (mem_filter.1 (hperm.mem_iff.1 hnode)).1

theorem restrict_rowsOf_nil : restrict toLowerCase filterTerms root
      (rowsOf S toLowerCase stringify kind root column reverseSort []) =
    ((LeafTree.nodesOf (sortedNodes S kind root column reverseSort)).filter
      (LeafTree.shown (isMatch toLowerCase filterTerms))).map fun node => some (rowIdString node) := by
  rw [rowsOf_nil, restrict, filter_map]
  exact congrArg _ (filter_congr fun node hnode =>
    any_shown_eq (isMatch toLowerCase filterTerms) hnode)

theorem rowsOf_perm :
    ∃ l : List RowId, rowsOf S toLowerCase stringify kind root column reverseSort filterTerms =
        l.map some ∧
      l.Perm (((LeafTree.nodesOf root.children).filter fun node => filterTerms.isEmpty ||
        LeafTree.shown (isMatch toLowerCase filterTerms) node).map rowIdString) := by
  let p : FileNode V → Bool := isMatch toLowerCase filterTerms
  have hsplit : ∀ nodes : List (Node V),
      (nodes.filter fun node => filterTerms.isEmpty || shown p node).map rowIdString =
        ((nodes.map fun node => (node.label.rowId, shown p node)).filter
          fun e => filterTerms.isEmpty || e.2).map fun e => Nat.toDigits 10 e.1 := by
    intro nodes
    rw [filter_map, map_map]
    rfl
  have hkept := ((map_sorted_perm S kind root column reverseSort p).filter
    fun e => filterTerms.isEmpty || e.2).map fun e => Nat.toDigits 10 e.1
  rw [← hsplit, ← hsplit] at hkept
  by_cases hterms : filterTerms = []
  · subst hterms
    refine ⟨(nodesOf (sortedNodes S kind root column reverseSort)).map rowIdString, ?_, ?_⟩
    · rw [rowsOf_nil, map_map]
      rfl
    · simpa [sortedNodes, sortNodesByColumn] using hkept
  · refine ⟨(mirroredOf p (sortedNodes S kind root column reverseSort)).map rowIdString,
      ?_, ?_⟩
    · rw [rowsOf_of_terms _ _ _ _ _ _ _ _ hterms, map_map]
      rfl
    · have hempty : filterTerms.isEmpty = false := by simpa using hterms
      have hmirrored := mirroredOf_perm_filter p
        (sortedNodes S kind root column reverseSort)
      simp only [hempty, Bool.false_or] at hkept ⊢
      exact (hmirrored.map rowIdString).trans hkept

/-- A filter keeps the rows that it shows, in the order that they have without it, exactly if neither
the root nor a folder has two children that match the terms or are above a node that does. -/
theorem rowsOf_eq_restrict_iff (hterms : filterTerms ≠ []) :
    rowsOf S toLowerCase stringify kind root column reverseSort filterTerms =
        restrict toLowerCase filterTerms root
          (rowsOf S toLowerCase stringify kind root column reverseSort []) ↔
      LeafTree.Narrow (isMatch toLowerCase filterTerms) root.children := by
  have hrowIds : ((nodesOf (sortedNodes S kind root column reverseSort)).map
      fun node => node.label.rowId).Nodup := by
    have hperm := (map_sorted_perm S kind root column reverseSort fun _ => true).map Prod.fst
    rw [map_map, map_map] at hperm
    exact hperm.nodup_iff.2 root.nodup
  have hkeys : ((nodesOf (sortedNodes S kind root column reverseSort)).map
      fun node => some (rowIdString node)).Nodup := by
    refine List.Nodup.map_on (fun node hnode node' hnode' heq => ?_) (List.Nodup.of_map _ hrowIds)
    exact inj_on_of_nodup_map hrowIds hnode hnode' (rowIdString_inj.1 (Option.some.inj heq))
  rw [rowsOf_of_terms _ _ _ _ _ _ _ _ hterms, restrict_rowsOf_nil,
    map_mirroredOf_eq_iff hkeys, sortedNodes, sortNodesByColumn, narrow_arrange_iff]

end Main

/-! ### Two files -/

/-- A column that shows a field as it is and does not sort by it. -/
def plainColumn (name : String) : Column String String where
  name := name
  dataProperties := [name]
  compareRows _ _ := 0
  updateTd full := (AssocList.get? name full).getD ""
  reads := [name]
  updateTd_congr full full' h := by rw [h name List.mem_cons_self]

/-- A torrent with the files `a1` and `b1`. -/
def twoFiles : RootNode String :=
  ⟨[.leaf 0 ⟨0, ['a', '1'], []⟩, .leaf 1 ⟨1, ['b', '1'], []⟩], by decide⟩

def rowsOfTwo (filterTerms : List Text) : List (Option RowId) :=
  rowsOf (StableSort.insertion _) id (fun _ => "") .torrentFiles twoFiles (plainColumn "size") false
    filterTerms

/-- One of the files matches `a`. -/
theorem rowsOf_eq_restrict_a :
    rowsOfTwo [['a']] = restrict id [['a']] twoFiles (rowsOfTwo []) :=
  (rowsOf_eq_restrict_iff (StableSort.insertion _) id (fun _ => "") .torrentFiles twoFiles
    (plainColumn "size") false [['a']] (by decide)).2 (by decide)

/-- Both match `1`, and come in the opposite order. -/
theorem rowsOf_ne_restrict_one :
    rowsOfTwo [['1']] ≠ restrict id [['1']] twoFiles (rowsOfTwo []) := by
  rw [rowsOfTwo, rowsOfTwo, rowsOf_of_terms _ _ _ _ _ _ _ _ (by decide), restrict_rowsOf_nil,
    sortedNodes, sortNodesByColumn, arrange_eq_map]
  decide

end FilesTable

end QBittorrent.DynamicTable
