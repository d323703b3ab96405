import QBittorrent.Torrent.ActualPaths
import QBittorrent.Torrent.FileStorage

/-!
# Renaming many files and folders

The web UI sends one request for each row that is to get another name, from the last row to the first,
so that the files are renamed before the folders that they are in.  The server computes what a request
does from the paths that libtorrent has acknowledged.

* `RenameFiles.right_of_timely` : files get the names shown if renames are acknowledged in time.
-/

namespace QBittorrent.RenameFiles

open PathText QBittorrent.Path TorrentFiles AbstractFileStorage List Option

/-- A row of the table. -/
structure Row where
  path : QString
  isFolder : Bool
  original : QString
  renamed : QString

/-- `Filesystem.folderName`. -/
def folderName (filepath : QString) : QString :=
  match lastSlash filepath with
  | none => []
  | some slashIndex => filepath.take slashIndex

structure Request where
  isFolder : Bool
  oldPath : QString
  newPath : QString

/-- The request for a row, unless its name stays. -/
def request (row : Row) : Option Request :=
  if row.renamed = row.original then none
  else
    let parentPath := folderName row.path
    some {
      isFolder := row.isFolder
      oldPath := if parentPath ≠ [] then parentPath ++ '/' :: row.original else row.original
      newPath := if parentPath ≠ [] then parentPath ++ '/' :: row.renamed else row.renamed }

variable (Q : QtDir)

/-- `renameFileAction` and `renameFolderAction`. -/
def serve (torrent : TorrentFiles) (request : Request) : Except String TorrentFiles :=
  let oldPath := ofString Q request.oldPath
  let newPath := ofString Q request.newPath
  let renames :=
    if request.isFolder then AbstractFileStorage.renameFolder Q torrent.filePaths oldPath newPath
    else AbstractFileStorage.renameFile torrent.filePaths oldPath newPath
  renames.map (List.foldl (fun torrent rename => torrent.renameFile Q rename.1 rename.2) torrent)

/-- A row with what happens before and when its request is handled. -/
structure Turn where
  row : Row
  /-- How many renames libtorrent acknowledges before. -/
  acknowledged : ℕ
  /-- The server refuses the request for a reason of its own. -/
  refused : Bool

/-- The torrent, the rows that the web UI counts, and those that the server has renamed. -/
structure State where
  torrent : TorrentFiles
  replaced : List Row
  accepted : List Row

/-- `_inner_rename`.  A refused request comes back as a response like any other. -/
def innerRename (turn : Turn) (s : State) : State :=
  let torrent := (handleFileRenamedAlert Q)^[turn.acknowledged] s.torrent
  match request turn.row with
  | none => { s with torrent }
  | some request =>
    match if turn.refused then .error "" else serve Q torrent request with
    | .error _ => { s with torrent, replaced := s.replaced ++ [turn.row] }
    | .ok torrent =>
      { torrent, replaced := s.replaced ++ [turn.row], accepted := s.accepted ++ [turn.row] }

/-- `rename` with `replaceAll`: from the last row to the first. -/
def rename (matchedFiles : List Turn) (s : State) : State := matchedFiles.foldr (innerRename Q) s

/-! ### What the preview shows -/

/-- A row of the tree with its new name. -/
structure Selected where
  /-- The names on the way to the file or the folder. -/
  node : List QString
  renamed : QString

/-- The name that is shown for a file or a folder. -/
def nameAfter (selection : List Selected) (node : List QString) : QString :=
  match selection.find? fun selected => decide (selected.node = node) with
  | some selected => selected.renamed
  | none => node.getLastD []

/-- The names on the way to a file, with the new ones. -/
def namesAfter (selection : List Selected) (names : List QString) : List QString :=
  (List.range names.length).map fun i => nameAfter selection (names.take (i + 1))

/-- The row of the table for a file or a folder. -/
def Selected.row (places : List (List QString)) (selected : Selected) : Row where
  path := join '/' selected.node
  isFolder := decide (selected.node ∉ places)
  original := selected.node.getLastD []
  renamed := selected.renamed

/-- A row that is to get another name, and the moment of its request. -/
structure Planned extends Selected where
  acknowledged : ℕ
  refused : Bool

def Planned.turn (places : List (List QString)) (planned : Planned) : Turn :=
  ⟨planned.toSelected.row places, planned.acknowledged, planned.refused⟩

/-- The files of a torrent by their names. -/
structure IsTree (places : List (List QString)) : Prop where
  ne_nil : ∀ names ∈ places, names ≠ []
  isName : ∀ names ∈ places, ∀ name ∈ names, IsName '/' '.' name ∧ '\x00' ∉ name
  apart : places.Pairwise Apart

/-- A file or a folder. -/
def IsNode (places : List (List QString)) (node : List QString) : Prop :=
  node ≠ [] ∧ ∃ names ∈ places, node <+: names

/-- The rows that are selected, in the order of the table, with new names. -/
structure IsSelection (places : List (List QString)) (selection : List Selected) : Prop where
  isNode : ∀ selected ∈ selection, IsNode places selected.node
  isName : ∀ selected ∈ selection, IsName '/' '.' selected.renamed ∧ '\x00' ∉ selected.renamed
  /-- A folder is before what is in it. -/
  order : selection.Pairwise fun selected selected' => ¬ selected'.node <+: selected.node
  /-- No two siblings ever share a name. -/
  siblings : ∀ node node', IsNode places node → IsNode places node' →
    node.dropLast = node'.dropLast → node ≠ node' →
      nameAfter selection node ≠ node'.getLastD [] ∧
        nameAfter selection node ≠ nameAfter selection node'

variable {Q} {places : List (List QString)} {selection done : List Selected} {selected : Selected}
  {names m node : List QString} {i : ℕ}

/-! ### Old and new names -/

theorem length_namesAfter : (namesAfter selection names).length = names.length := by
  rw [namesAfter, length_map, length_range]

theorem getElem?_namesAfter (h : i < names.length) :
    (namesAfter selection names)[i]? = some (nameAfter selection (names.take (i + 1))) := by
  rw [namesAfter, getElem?_map, getElem?_range h, map_some]

/-- Each name is the old or the new one. -/
def Mixed (selection : List Selected) (names m : List QString) : Prop :=
  m.length = names.length ∧ ∀ i < names.length,
    m[i]? = names[i]? ∨ m[i]? = some (nameAfter selection (names.take (i + 1)))

theorem Mixed.take (h : Mixed selection names m) (k : ℕ) :
    Mixed selection (names.take k) (m.take k) := by
  refine ⟨by rw [length_take, length_take, h.1], fun i hi => ?_⟩
  rw [length_take] at hi
  rw [getElem?_take_of_lt (by omega), getElem?_take_of_lt (by omega), take_take,
    Nat.min_eq_left (by omega)]
  exact h.2 i (by omega)

theorem IsNode.dropLast (h : IsNode places node) (hne : node.dropLast ≠ []) :
    IsNode places node.dropLast := by
  obtain ⟨-, names, hnames, hpre⟩ := h
  exact ⟨hne, names, hnames, (List.dropLast_prefix node).trans hpre⟩

theorem IsSelection.eq_of_mixed (h : IsSelection places selection) {node node' : List QString}
    (hnode : node = [] ∨ IsNode places node) (hnode' : node' = [] ∨ IsNode places node')
    (hm : Mixed selection node m) (hm' : Mixed selection node' m) : node = node' := by
  induction m using reverseRecOn generalizing node node' with
  | nil =>
    rw [length_eq_zero_iff.1 hm.1.symm, length_eq_zero_iff.1 hm'.1.symm]
  | append_singleton m z ih =>
    have hlength := hm.1
    have hlength' := hm'.1
    rw [length_append, length_singleton] at hlength hlength'
    obtain rfl | ⟨parent, x, rfl⟩ := eq_nil_or_concat' node
    · simp at hlength
    obtain rfl | ⟨parent', y, rfl⟩ := eq_nil_or_concat' node'
    · simp at hlength'
    rw [length_append, length_singleton] at hlength hlength'
    have hisNode := hnode.resolve_left (by simp)
    have hisNode' := hnode'.resolve_left (by simp)
    have hlast : ∀ {p : List QString} {w : QString}, m.length + 1 = p.length + 1 →
        Mixed selection (p ++ [w]) (m ++ [z]) → z = w ∨ z = nameAfter selection (p ++ [w]) := by
      intro p w hp hmixed
      have hget := hmixed.2 p.length (by simp)
      rw [getElem?_append_right (by omega), show p.length - m.length = 0 by omega,
        getElem?_concat_length, take_of_length_le (by simp)] at hget
      simpa using hget
    have hparent : ∀ {p : List QString} {w : QString}, p ++ [w] = [] ∨ IsNode places (p ++ [w]) →
        p = [] ∨ IsNode places p := by
      intro p w hpw
      by_cases hp : p = []
      · exact .inl hp
      · have := (hpw.resolve_left (by simp)).dropLast
        rw [dropLast_concat] at this
        exact .inr (this hp)
    have htake : ∀ {p : List QString} {w : QString}, m.length + 1 = p.length + 1 →
        Mixed selection (p ++ [w]) (m ++ [z]) → Mixed selection p m := by
      intro p w hp hmixed
      have := hmixed.take p.length
      rwa [take_left' rfl, take_left' (by omega)] at this
    obtain rfl : parent = parent' :=
      ih (hparent hnode) (hparent hnode') (htake hlength hm) (htake hlength' hm')
    by_cases hxy : x = y
    · rw [hxy]
    · have hne : parent ++ [x] ≠ parent ++ [y] := by simpa using hxy
      obtain ⟨hold, hnew⟩ := h.siblings _ _ hisNode hisNode' (by simp) hne
      obtain ⟨hold', -⟩ := h.siblings _ _ hisNode' hisNode (by simp) hne.symm
      have hy : (parent ++ [y]).getLastD [] = y := by simp
      have hx : (parent ++ [x]).getLastD [] = x := by simp
      rw [hy] at hold
      rw [hx] at hold'
      obtain hzx | hzx := hlast hlength hm <;> obtain hzy | hzy := hlast hlength' hm'
      · exact absurd (hzx.symm.trans hzy) hxy
      · exact absurd (hzy.symm.trans hzx) hold'
      · exact absurd (hzx.symm.trans hzy) hold
      · exact absurd (hzx.symm.trans hzy) hnew

theorem IsSelection.nameAfter_suffix (h : IsSelection places selection) (hdone : done <:+ selection)
    (node : List QString) :
    nameAfter done node = node.getLastD [] ∨ nameAfter done node = nameAfter selection node := by
  obtain ⟨before, rfl⟩ := hdone
  cases hfind : done.find? fun selected => decide (selected.node = node) with
  | none => exact .inl (by rw [nameAfter, hfind])
  | some selected =>
    obtain rfl : selected.node = node := by simpa using find?_some hfind
    have hbefore : before.find? (fun other => decide (other.node = selected.node)) = none := by
      refine find?_eq_none.2 fun other hother => ?_
      have hne := (pairwise_append.1 h.order).2.2 other hother selected (mem_of_find?_eq_some hfind)
      intro heq
      rw [decide_eq_true_iff] at heq
      exact hne (heq ▸ prefix_rfl)
    refine .inr ?_
    rw [nameAfter, nameAfter, find?_append, hbefore, hfind, none_or]

theorem getElem?_eq_getLastD (h : i < names.length) :
    names[i]? = some ((names.take (i + 1)).getLastD []) := by
  rw [take_succ_eq_append_getElem h, getLastD_concat, getElem?_eq_getElem h]

theorem IsSelection.mixed (h : IsSelection places selection) (hdone : done <:+ selection)
    (names : List QString) : Mixed selection names (namesAfter done names) := by
  refine ⟨length_namesAfter, fun i hi => ?_⟩
  rw [getElem?_namesAfter hi, getElem?_eq_getLastD hi]
  obtain hname | hname := h.nameAfter_suffix hdone (names.take (i + 1)) <;> rw [hname]
  · exact .inl rfl
  · exact .inr rfl

theorem namesAfter_eq_self (h : ∀ selected ∈ done, ¬ selected.node <+: names) :
    namesAfter done names = names := by
  refine ext_getElem? fun i => ?_
  by_cases hi : i < names.length
  · have hfind : done.find? (fun selected => decide (selected.node = names.take (i + 1))) = none := by
      refine find?_eq_none.2 fun selected hselected heq => h selected hselected ?_
      rw [decide_eq_true_iff] at heq
      exact heq ▸ take_prefix ..
    rw [getElem?_namesAfter hi, getElem?_eq_getLastD hi, nameAfter, hfind]
  · rw [getElem?_eq_none (by rw [length_namesAfter]; omega), getElem?_eq_none (by omega)]

theorem namesAfter_append (l r : List QString) : namesAfter done (l ++ r) =
    namesAfter done l ++ (List.range r.length).map fun i => nameAfter done (l ++ r.take (i + 1)) := by
  rw [namesAfter, namesAfter, length_append, range_add, map_append, List.map_map]
  congr 1
  · refine map_congr_left fun i hi => ?_
    rw [take_append_of_le_length (by have := mem_range.1 hi; omega)]
  · refine map_congr_left fun i _ => ?_
    rw [Function.comp_apply, Nat.add_assoc, take_length_add_append]

theorem nameAfter_cons_of_ne (h : selected.node ≠ node) :
    nameAfter (selected :: done) node = nameAfter done node := by
  rw [nameAfter, nameAfter, find?_cons_of_neg (by simpa using h)]

theorem namesAfter_cons (horder : ∀ other ∈ done, ¬ other.node <+: selected.node)
    (hne : selected.node ≠ []) (r : List QString) : ∃ below : List QString, below.length = r.length ∧
      namesAfter done (selected.node ++ r) = selected.node ++ below ∧
        namesAfter (selected :: done) (selected.node ++ r) =
          selected.node.dropLast ++ [selected.renamed] ++ below := by
  refine ⟨(range r.length).map fun i => nameAfter done (selected.node ++ r.take (i + 1)),
    by rw [length_map, length_range], ?_, ?_⟩
  · rw [namesAfter_append, namesAfter_eq_self horder]
  · rw [namesAfter_append]
    congr 1
    · obtain hnil | ⟨parent, x, hconcat⟩ := eq_nil_or_concat' selected.node
      · exact absurd hnil hne
      · have hparent : namesAfter (selected :: done) parent = parent := by
          refine namesAfter_eq_self (forall_mem_cons.2 ⟨fun hpre => ?_, fun other hother hpre => ?_⟩)
          · have hlength := hpre.length_le
            rw [hconcat, length_append, length_singleton] at hlength
            omega
          · exact horder other hother (hpre.trans (hconcat ▸ prefix_append ..))
        have hlast : nameAfter (selected :: done) (parent ++ [x]) = selected.renamed := by
          rw [nameAfter, find?_cons_of_pos (by simp [hconcat])]
        rw [hconcat, namesAfter_append, hparent, dropLast_concat]
        simp [range_succ, hlast]
    · refine map_congr_left fun i hi => nameAfter_cons_of_ne fun heq => ?_
      have hlength := congrArg length heq
      have hi := mem_range.1 hi
      rw [length_append, length_take] at hlength
      omega

theorem namesAfter_cons_of_not (h : ¬ selected.node <+: names) :
    namesAfter (selected :: done) names = namesAfter done names := by
  refine map_congr_left fun i _ => nameAfter_cons_of_ne fun heq => h ?_
  exact heq ▸ take_prefix ..

/-! ### One request -/

theorem isName_of_mixed (hnames : ∀ name ∈ names, IsName '/' '.' name ∧ '\x00' ∉ name)
    (hselection : ∀ selected ∈ selection,
      IsName '/' '.' selected.renamed ∧ '\x00' ∉ selected.renamed)
    (h : Mixed selection names m) : ∀ name ∈ m, IsName '/' '.' name ∧ '\x00' ∉ name := by
  intro name hname
  obtain ⟨i, hi⟩ := mem_iff_getElem?.1 hname
  have hlt : i < names.length := h.1 ▸ (List.getElem?_eq_some_iff.1 hi).1
  have hold : (names.take (i + 1)).getLastD [] ∈ names :=
    mem_of_getElem? (getElem?_eq_getLastD hlt)
  obtain heq | heq := h.2 i hlt <;> rw [hi] at heq
  · exact hnames name (mem_of_getElem? heq.symm)
  · obtain rfl := some.inj heq
    rw [nameAfter]
    cases hfind : selection.find? fun selected => decide (selected.node = names.take (i + 1)) with
    | none => exact hnames _ hold
    | some selected => exact hselection selected (mem_of_find?_eq_some hfind)

theorem notMem_join (h : ∀ name ∈ names, '\x00' ∉ name) : '\x00' ∉ join '/' names := by
  induction names with
  | nil => simp
  | cons name names ih =>
    obtain ⟨hname, hnames⟩ := forall_mem_cons.1 h
    by_cases hnil : names = []
    · rwa [hnil, join_singleton]
    · rw [join_cons _ hnil]
      simp [hname, ih hnames]

theorem ofString_join (hne : names ≠ []) (h : ∀ name ∈ names, IsName '/' '.' name ∧ '\x00' ∉ name) :
    ofString Q (join '/' names) = ofNames false names ∧ (ofNames false names).isValid = true ∧
      (ofNames false names).isAbsolute = false := by
  have hnormal : IsNormal '/' '.' (keeps Q.dropsAboveRoot false) names :=
    isNormal_of_isName fun name hname => (h name hname).1
  have hnul : '\x00' ∉ join '/' names := notMem_join fun name hname => (h name hname).2
  have htext : (ofNames false names).pathStr = join '/' names := by rw [ofNames_false hne]
  refine ⟨?_, ?_, ?_⟩
  · rw [ofString_eq, ← htext, cleanPath_ofNames hnormal]
  · have hnil : (ofNames false names).pathStr ≠ [] := pathStr_ofNames_ne_nil hnormal
    rw [isValid, Path.isEmpty, htext]
    rw [htext] at hnil
    simpa [hnil] using fun c hc (heq : c = '\x00') => hnul (heq ▸ hc)
  · rw [isAbsolute_ofNames hnormal]

theorem request_row (hne : selected.node ≠ [])
    (hnode : ∀ name ∈ selected.node, IsName '/' '.' name)
    (hrenamed : selected.renamed ≠ selected.node.getLastD []) :
    request (selected.row places) = some {
      isFolder := decide (selected.node ∉ places)
      oldPath := join '/' selected.node
      newPath := join '/' (selected.node.dropLast ++ [selected.renamed]) } := by
  obtain hnil | ⟨parent, x, hconcat⟩ := eq_nil_or_concat' selected.node
  · exact absurd hnil hne
  · rw [hconcat] at hnode
    have hx : '/' ∉ x := (hnode x (by simp)).1
    have hchanged : ¬ (selected.row places).renamed = (selected.row places).original := hrenamed
    rw [request, if_neg hchanged]
    by_cases hparent : parent = []
    · have hfolder : folderName (selected.row places).path = [] := by
        have hlast : lastSlash x = none := if_neg hx
        rw [Selected.row, hconcat, hparent, nil_append, join_singleton, folderName, hlast]
      simp only [hfolder]
      simp [Selected.row, hconcat, hparent]
    · have hjoin : ∀ y : QString, join '/' (parent ++ [y]) = join '/' parent ++ '/' :: y := by
        intro y
        rw [join_append '/' hparent (by simp), join_singleton]
      have hfolder : folderName (selected.row places).path = join '/' parent := by
        rw [Selected.row, hconcat, hjoin, folderName, lastSlash_append hx]
        exact take_left' rfl
      have hparentNe : join '/' parent ≠ [] := by
        have hnormal : IsNormal '/' '.' true parent :=
          isNormal_of_isName fun name hname => hnode name (by simp [hname])
        have htext : (ofNames false parent).pathStr ≠ [] := pathStr_ofNames_ne_nil hnormal
        rwa [ofNames_false hparent] at htext
      simp only [hfolder]
      simp [hparentNe, Selected.row, hconcat, hjoin]

/-- The files have old and new names, and those below the row are where they are to be. -/
structure Ready (places : List (List QString)) (selection done : List Selected) (selected : Selected)
    (filePaths : List Path) : Prop where
  stored : ∀ (i : ℕ) (names : List QString), places[i]? = some names →
    ∃ m, Mixed selection names m ∧ filePaths[i]? = some (ofNames false m)
  length : filePaths.length = places.length
  below : ∀ (i : ℕ) (names : List QString), places[i]? = some names → selected.node <+: names →
    filePaths[i]? = some (ofNames false (namesAfter done names))

/-- The renames are those of the files below the row, each to the place where the file is to be. -/
structure Right (places : List (List QString)) (done : List Selected) (selected : Selected)
    (renames : List (ℕ × Path)) : Prop where
  sound : ∀ rename ∈ renames, ∃ names, places[rename.1]? = some names ∧ selected.node <+: names ∧
    rename.2 = ofNames false (namesAfter (selected :: done) names)
  complete : ∀ (i : ℕ) (names : List QString), places[i]? = some names → selected.node <+: names →
    ∃ rename ∈ renames, rename.1 = i

section Server

variable {filePaths : List Path}

theorem IsSelection.order_done (h : IsSelection places selection)
    (hdone : selected :: done <:+ selection) : ∀ other ∈ done, ¬ other.node <+: selected.node :=
  (pairwise_cons.1 (h.order.sublist hdone.sublist)).1

theorem isNode_take {k : ℕ} (hnames : names ∈ places) : names.take k = [] ∨ IsNode places (names.take k) :=
  or_iff_not_imp_left.2 fun hne => ⟨hne, names, hnames, take_prefix ..⟩

variable (htree : IsTree places) (h : IsSelection places selection)
  (hdone : selected :: done <:+ selection)
include htree h hdone

theorem isName_node : ∀ name ∈ selected.node, IsName '/' '.' name ∧ '\x00' ∉ name := by
  obtain ⟨-, names, hnames, hpre⟩ := h.isNode selected (hdone.subset (mem_cons_self ..))
  exact fun name hname => htree.isName names hnames name (hpre.subset hname)

theorem isName_target : ∀ name ∈ selected.node.dropLast ++ [selected.renamed],
    IsName '/' '.' name ∧ '\x00' ∉ name := by
  intro name hname
  obtain hname | hname := mem_append.1 hname
  · exact isName_node htree h hdone name (dropLast_subset _ hname)
  · rw [mem_singleton.1 hname]
    exact h.isName selected (hdone.subset (mem_cons_self ..))

omit htree in
theorem isPrefix_of_mixed (hnames : names ∈ places) (hm : Mixed selection names m)
    (hpre : selected.node <+: m ∨ selected.node.dropLast ++ [selected.renamed] <+: m) :
    selected.node <+: names := by
  have hnode := h.isNode selected (hdone.subset (mem_cons_self ..))
  have hlength : (selected.node.dropLast ++ [selected.renamed]).length = selected.node.length := by
    have := length_pos_of_ne_nil hnode.1
    rw [length_append, length_dropLast, length_singleton]
    omega
  have hown : Mixed selection selected.node (m.take selected.node.length) := by
    obtain hpre | hpre := hpre
    · rw [← prefix_iff_eq_take.1 hpre]
      have hmixed := h.mixed (nil_suffix) selected.node
      rwa [namesAfter_eq_self (by simp)] at hmixed
    · rw [← hlength, ← prefix_iff_eq_take.1 hpre]
      have hmixed := h.mixed hdone selected.node
      obtain ⟨below, hnil, -, hnew⟩ := namesAfter_cons (h.order_done hdone) hnode.1 []
      rw [append_nil, eq_nil_of_length_eq_zero hnil, append_nil] at hnew
      rwa [hnew] at hmixed
  have heq := h.eq_of_mixed (.inr hnode) (isNode_take hnames) hown (hm.take _)
  exact heq ▸ take_prefix ..

variable (hready : Ready places selection done selected filePaths)
include hready

omit hdone in
theorem Ready.exists_names {i : ℕ} {path : Path} (hi : filePaths[i]? = some path) :
    ∃ names m, places[i]? = some names ∧ names ∈ places ∧ Mixed selection names m ∧
      (∀ name ∈ m, IsName '/' '.' name) ∧ path = ofNames false m := by
  have hlt : i < places.length := hready.length ▸ (List.getElem?_eq_some_iff.1 hi).1
  have hnames := getElem?_eq_getElem hlt
  obtain ⟨m, hm, hget⟩ := hready.stored i _ hnames
  refine ⟨places[i], m, hnames, getElem_mem hlt, hm, fun name hname => ?_,
    some.inj (hi.symm.trans hget)⟩
  exact (isName_of_mixed (htree.isName _ (getElem_mem hlt)) h.isName hm name hname).1

omit h hdone hready in
theorem IsTree.eq_of_isPrefix {i j : ℕ} {names names' : List QString} (hi : places[i]? = some names)
    (hj : places[j]? = some names') (hpre : names <+: names') : i = j := by
  obtain ⟨hlt, rfl⟩ := List.getElem?_eq_some_iff.1 hi
  obtain ⟨hlt', rfl⟩ := List.getElem?_eq_some_iff.1 hj
  have hnodup : places.Nodup := htree.apart.imp
    fun {l m} (hlm : Apart l m) (heq : l = m) => hlm.1 (heq ▸ prefix_rfl)
  by_contra hij
  have hne : places[i] ≠ places[j] := fun heq => hij (hnodup.getElem_inj_iff.1 heq)
  exact (htree.apart.forall (getElem_mem hlt) (getElem_mem hlt') hne).1 hpre

omit hdone in
theorem Ready.nodup : filePaths.Nodup := by
  refine nodup_iff_injective_getElem.2 fun i j hij => Fin.ext ?_
  obtain ⟨names, m, hi, hmem, hm, hisName, hpath⟩ :=
    hready.exists_names htree h (getElem?_eq_getElem i.2)
  obtain ⟨names', m', hj, hmem', hm', hisName', hpath'⟩ :=
    hready.exists_names htree h (getElem?_eq_getElem j.2)
  have hmm : m = m' := ofNames_false_injective (isNormal_of_isName hisName)
    (isNormal_of_isName hisName') (hpath.symm.trans (hij.trans hpath'))
  have hnode : ∀ {names : List QString}, names ∈ places → names = [] ∨ IsNode places names :=
    fun hnames => .inr ⟨htree.ne_nil _ hnames, _, hnames, prefix_rfl⟩
  have heq := h.eq_of_mixed (hnode hmem) (hnode hmem') hm (hmm ▸ hm')
  exact htree.eq_of_isPrefix hi hj (heq ▸ prefix_rfl)

theorem renameFile_right (hmem : selected.node ∈ places) : ∃ renames,
    AbstractFileStorage.renameFile filePaths (ofNames false selected.node)
      (ofNames false (selected.node.dropLast ++ [selected.renamed])) = .ok renames ∧
        Right places done selected renames := by
  have hnode := h.isNode selected (hdone.subset (mem_cons_self ..))
  obtain ⟨i, hi⟩ := mem_iff_getElem?.1 hmem
  obtain ⟨below, hbelow, hold, hnew⟩ := namesAfter_cons (h.order_done hdone) hnode.1 []
  rw [eq_nil_of_length_eq_zero hbelow] at hold hnew
  rw [append_nil] at hold hnew
  have hpath := hready.below i _ hi prefix_rfl
  rw [hold] at hpath
  obtain ⟨-, hvalid, -⟩ := ofString_join (Q := userDir) hnode.1 (isName_node htree h hdone)
  obtain ⟨-, hvalid', hrelative⟩ := ofString_join (Q := userDir) (by simp) (isName_target htree h hdone)
  refine ⟨_, (renameFile_eq_ok_iff (hready.nodup htree h)).2
    ⟨hvalid, hvalid', hrelative, i, hpath, fun j hj hget => hj ?_, rfl⟩, ?_, ?_⟩
  · obtain ⟨names, m, hj, hnames, hm, hisName, heq⟩ := hready.exists_names htree h hget
    have htarget := fun name hname => (isName_target htree h hdone name hname).1
    have hnew := ofNames_false_injective (isNormal_of_isName htarget)
      (isNormal_of_isName hisName) heq
    exact (htree.eq_of_isPrefix hi hj
      (isPrefix_of_mixed h hdone hnames hm (.inr (hnew ▸ prefix_rfl)))).symm
  · intro rename hrename
    rw [mem_singleton.1 hrename]
    exact ⟨_, hi, prefix_rfl, by rw [hnew, append_nil]⟩
  · intro j names hj hpre
    exact ⟨_, mem_singleton_self _, htree.eq_of_isPrefix hi hj hpre⟩

theorem renameFolder_right (hmem : selected.node ∉ places) : ∃ renames,
    AbstractFileStorage.renameFolder Q filePaths (ofNames false selected.node)
      (ofNames false (selected.node.dropLast ++ [selected.renamed])) = .ok renames ∧
        Right places done selected renames := by
  have hnode := h.isNode selected (hdone.subset (mem_cons_self ..))
  have hisName := fun name hname => (isName_node htree h hdone name hname).1
  have htarget := fun name hname => (isName_target htree h hdone name hname).1
  have hnormal : IsNormal '/' '.' true selected.node := isNormal_of_isName hisName
  have hnormal' : IsNormal '/' '.' true (selected.node.dropLast ++ [selected.renamed]) :=
    isNormal_of_isName htarget
  obtain ⟨-, hvalid, -⟩ := ofString_join (Q := Q) hnode.1 (isName_node htree h hdone)
  obtain ⟨-, hvalid', hrelative⟩ := ofString_join (Q := Q) (by simp) (isName_target htree h hdone)
  -- A file is below the folder if it was there at the beginning.
  have hbelow : ∀ {i : ℕ} {names : List QString}, places[i]? = some names →
      selected.node <+: names → ∃ below, below ≠ [] ∧
        (∀ name ∈ selected.node ++ below, IsName '/' '.' name) ∧
        filePaths[i]? = some (ofNames false (selected.node ++ below)) ∧
        namesAfter (selected :: done) names = selected.node.dropLast ++ [selected.renamed] ++ below := by
    intro i names hi hpre
    have hpath := hready.below i names hi hpre
    have hmixed := h.mixed ((suffix_cons ..).trans hdone) names
    have hname := isName_of_mixed (htree.isName _ (mem_of_getElem? hi)) h.isName hmixed
    obtain ⟨r, rfl⟩ := hpre
    obtain ⟨below, hlength, hold, hnew⟩ := namesAfter_cons (h.order_done hdone) hnode.1 r
    rw [hold] at hpath hname
    refine ⟨below, fun hnil => hmem ?_, fun name hmem => (hname name hmem).1, hpath, hnew⟩
    rw [hnil] at hlength
    rw [eq_nil_of_length_eq_zero hlength.symm, append_nil] at hi
    exact mem_of_getElem? hi
  have hfile : ∀ {i : ℕ} {names : List QString} {path : Path}, places[i]? = some names →
      selected.node <+: names → filePaths[i]? = some path →
      path.hasAncestor (ofNames false selected.node) = true ∧
        div Q (ofNames false (selected.node.dropLast ++ [selected.renamed]))
          (relativePathOf Q (ofNames false selected.node) path) =
            ofNames false (namesAfter (selected :: done) names) := by
    intro i names path hi hpre hpath
    obtain ⟨below, hne, hname, hget, hnew⟩ := hbelow hi hpre
    obtain rfl := some.inj (hpath.symm.trans hget)
    have hbelowName : ∀ name ∈ below, IsName '/' '.' name := fun name hmem =>
      hname name (mem_append_right _ hmem)
    have hrest : IsNormal '/' '.' true below := isNormal_of_isName hbelowName
    have htop : IsNormal '/' '.' (keeps Q.dropsAboveRoot false)
        (selected.node.dropLast ++ [selected.renamed]) := hnormal'
    refine ⟨(hasAncestor_names_iff
      (isNormal_of_isName hname) hnormal).2
        ⟨prefix_append .., hnode.1, by simpa using hne⟩, ?_⟩
    rw [AbstractFileStorage.relativePathOf_below hnode.1 hname, div_ofNames htop hrest,
      foldl_push_names hbelowName, hnew]
  have hancestor : ∀ {i : ℕ} {path : Path}, filePaths[i]? = some path →
      (path.hasAncestor (ofNames false selected.node) = true ∨
        path.hasAncestor (ofNames false (selected.node.dropLast ++ [selected.renamed])) = true) →
      ∃ names, places[i]? = some names ∧ selected.node <+: names := by
    intro i path hi hpath
    obtain ⟨names, m, hget, hnames, hm, hname, rfl⟩ := hready.exists_names htree h hi
    have hm' : IsNormal '/' '.' true m := isNormal_of_isName hname
    rw [hasAncestor_names_iff hm' hnormal,
      hasAncestor_names_iff hm' hnormal'] at hpath
    exact ⟨names, hget, isPrefix_of_mixed h hdone hnames hm (hpath.imp And.left And.left)⟩
  refine ⟨_, renameFolder_eq_ok_iff.2
    ⟨hvalid, hvalid', hrelative, fun path hpath hold => ?_, ?_, rfl⟩, ?_, ?_⟩
  · obtain ⟨i, hi⟩ := mem_iff_getElem?.1 hpath
    refine Bool.eq_false_iff.2 fun hnew => ?_
    obtain ⟨names, hget, hpre⟩ := hancestor hi (.inr hnew)
    rw [(hfile hget hpre hi).1] at hold
    cases hold
  · obtain ⟨names, hnames, hpre⟩ := hnode.2
    obtain ⟨i, hi⟩ := mem_iff_getElem?.1 hnames
    obtain ⟨below, -, -, hget, -⟩ := hbelow hi hpre
    exact ⟨_, mem_of_getElem? hget, (hfile hi hpre hget).1⟩
  · intro rename hrename
    obtain ⟨⟨path, i⟩, hentry, hsome⟩ := mem_filterMap.1 hrename
    have hi := mem_zipIdx_iff_getElem?.1 hentry
    split_ifs at hsome with hold
    obtain rfl := some.inj hsome
    obtain ⟨names, hget, hpre⟩ := hancestor hi (.inl hold)
    exact ⟨names, hget, hpre, (hfile hget hpre hi).2⟩
  · intro i names hi hpre
    obtain ⟨below, -, -, hget, -⟩ := hbelow hi hpre
    refine ⟨(i, ofNames false (namesAfter (selected :: done) names)), mem_filterMap.2
      ⟨(ofNames false (selected.node ++ below), i), mem_zipIdx_iff_getElem?.2 hget, ?_⟩, rfl⟩
    rw [if_pos (hfile hi hpre hget).1, (hfile hi hpre hget).2]

end Server

/-! ### The run -/

variable {t : TorrentFiles}

/-- **Where the files are, and where they will be**, after the requests of some rows. -/
structure Tracked (Q : QtDir) (places : List (List QString)) (selection done : List Selected)
    (t : TorrentFiles) : Prop where
  length : t.filePaths.length = places.length
  stored : ∀ (i : ℕ) (names : List QString), places[i]? = some names →
    ∃ m, Mixed selection names m ∧ t.filePaths[i]? = some (ofNames false m)
  settled : ∀ (i : ℕ) (names : List QString), places[i]? = some names →
    (∀ rename ∈ t.renames, rename.1 ≠ i) →
      t.filePaths[i]? = some (ofNames false (namesAfter done names))
  pending : ∀ (i : ℕ) (names : List QString), places[i]? = some names → ∀ rename ∈ t.renames,
    rename.1 = i → makeUserPath Q rename.2 = ofNames false (namesAfter done names)

theorem Tracked.handleFileRenamedAlert (h : Tracked Q places selection done t)
    (hselection : IsSelection places selection) (hdone : done <:+ selection) :
    Tracked Q places selection done (handleFileRenamedAlert Q t) := by
  cases hrenames : t.renames with
  | nil =>
    have hsame : TorrentFiles.handleFileRenamedAlert Q t = t := by
      rw [TorrentFiles.handleFileRenamedAlert, hrenames]
    rwa [hsame]
  | cons rename renames =>
    obtain ⟨index, actualPath⟩ := rename
    have hmem : (index, actualPath) ∈ t.renames := hrenames ▸ mem_cons_self ..
    rw [handleFileRenamedAlert_eq hrenames]
    have hget : ∀ {i : ℕ} {names : List QString}, places[i]? = some names →
        (index = i ∧ (t.filePaths.set index (makeUserPath Q actualPath))[i]? =
          some (ofNames false (namesAfter done names))) ∨
        (index ≠ i ∧ (t.filePaths.set index (makeUserPath Q actualPath))[i]? = t.filePaths[i]?) := by
      intro i names hi
      by_cases hindex : index = i
      · subst hindex
        have hlt : index < t.filePaths.length := h.length ▸ (List.getElem?_eq_some_iff.1 hi).1
        rw [getElem?_set_self hlt, h.pending _ _ hi _ hmem rfl]
        exact .inl ⟨rfl, rfl⟩
      · exact .inr ⟨hindex, getElem?_set_ne hindex⟩
    refine ⟨by simpa using h.length, fun i names hi => ?_, fun i names hi hnone => ?_,
      fun i names hi other hother => h.pending i names hi other (hrenames ▸ mem_cons_of_mem _ hother)⟩
    · obtain ⟨-, hget⟩ | ⟨-, hget⟩ := hget hi <;> dsimp only <;> rw [hget]
      · exact ⟨_, hselection.mixed hdone names, rfl⟩
      · exact h.stored i names hi
    · obtain ⟨-, hget⟩ | ⟨hindex, hget⟩ := hget hi <;> dsimp only <;> rw [hget]
      exact h.settled i names hi (hrenames ▸ forall_mem_cons.2 ⟨hindex, hnone⟩)

theorem Tracked.iterate (h : Tracked Q places selection done t)
    (hselection : IsSelection places selection) (hdone : done <:+ selection) (n : ℕ) :
    Tracked Q places selection done ((TorrentFiles.handleFileRenamedAlert Q)^[n] t) := by
  induction n generalizing t with
  | zero => exact h
  | succ n ih => exact ih (h.handleFileRenamedAlert hselection hdone)

variable (Q t) in
/-- The torrent with more renames behind the others. -/
def waiting (renames : List (ℕ × Path)) : TorrentFiles :=
  { t with
    renames := t.renames ++
      renames.map fun rename => (rename.1, t.makeActualPath Q rename.1 rename.2) }

theorem foldl_renameFile {renames : List (ℕ × Path)}
    (h : ∀ rename ∈ renames, rename.1 < t.filePaths.length) :
    renames.foldl (fun torrent rename => torrent.renameFile Q rename.1 rename.2) t =
      waiting Q t renames := by
  induction renames generalizing t with
  | nil => simp [waiting]
  | cons rename renames ih =>
    obtain ⟨hrename, hrest⟩ := forall_mem_cons.1 h
    have hnext := ih (t := t.doRenameFile rename.1 (t.makeActualPath Q rename.1 rename.2)) hrest
    rw [foldl_cons, TorrentFiles.renameFile, if_pos hrename, hnext, waiting, waiting, map_cons,
      doRenameFile]
    rw [append_assoc, singleton_append]
    rfl

theorem Tracked.ready (h : Tracked Q places selection done t)
    (hnone : ∀ (i : ℕ) (names : List QString), places[i]? = some names → selected.node <+: names →
      ∀ rename ∈ t.renames, rename.1 ≠ i) :
    Ready places selection done selected t.filePaths :=
  ⟨h.stored, h.length, fun i names hi hpre => h.settled i names hi (hnone i names hi hpre)⟩

theorem serve_right (htree : IsTree places) (h : IsSelection places selection)
    (hdone : selected :: done <:+ selection) (hready : Ready places selection done selected t.filePaths)
    (hrenamed : selected.renamed ≠ selected.node.getLastD []) : ∃ requested renames,
      request (selected.row places) = some requested ∧ Right places done selected renames ∧
        serve Q t requested = .ok (waiting Q t renames) := by
  have hnode := h.isNode selected (hdone.subset (mem_cons_self ..))
  have hname := isName_node htree h hdone
  obtain ⟨hold, -⟩ := ofString_join (Q := Q) hnode.1 hname
  obtain ⟨hnew, -⟩ := ofString_join (Q := Q) (by simp) (isName_target htree h hdone)
  have hstorage : ∃ renames, Right places done selected renames ∧
      (if decide (selected.node ∉ places) then
        renameFolder Q t.filePaths (ofNames false selected.node)
          (ofNames false (selected.node.dropLast ++ [selected.renamed]))
      else AbstractFileStorage.renameFile t.filePaths (ofNames false selected.node)
        (ofNames false (selected.node.dropLast ++ [selected.renamed]))) = .ok renames := by
    by_cases hmem : selected.node ∈ places
    · obtain ⟨renames, hok, hright⟩ := renameFile_right htree h hdone hready hmem
      exact ⟨renames, hright, by rw [if_neg (by simpa using hmem), hok]⟩
    · obtain ⟨renames, hok, hright⟩ := renameFolder_right htree h hdone hready hmem
      exact ⟨renames, hright, by rw [if_pos (by simpa using hmem), hok]⟩
  obtain ⟨renames, hright, hok⟩ := hstorage
  refine ⟨_, renames, request_row hnode.1 (fun name hmem => (hname name hmem).1) hrenamed, hright, ?_⟩
  simp only [serve, hold, hnew, hok, Except.map]
  rw [foldl_renameFile fun rename hrename => ?_]
  obtain ⟨names, hget, -⟩ := hright.sound rename hrename
  exact hready.length ▸ (List.getElem?_eq_some_iff.1 hget).1

theorem Tracked.append (h : Tracked Q places selection done t) (htree : IsTree places)
    (hselection : IsSelection places selection) (hdone : selected :: done <:+ selection)
    {renames : List (ℕ × Path)} (hright : Right places done selected renames)
    (hnone : ∀ (i : ℕ) (names : List QString), places[i]? = some names → selected.node <+: names →
      ∀ rename ∈ t.renames, rename.1 ≠ i)
    (hkept : ∀ (i : ℕ) (names : List QString), places[i]? = some names → selected.node <+: names →
      t.Kept i (ofNames false (namesAfter (selected :: done) names))) :
    Tracked Q places selection (selected :: done) (waiting Q t renames) := by
  refine ⟨h.length, h.stored, fun i names hi hnothing => ?_, fun i names hi rename hmem hindex => ?_⟩
  · have hpre : ¬ selected.node <+: names := by
      intro hpre
      obtain ⟨rename, hmem, rfl⟩ := hright.complete i names hi hpre
      exact hnothing _ (mem_append_right _ (mem_map_of_mem hmem)) rfl
    rw [namesAfter_cons_of_not hpre]
    exact h.settled i names hi fun rename hmem => hnothing rename (mem_append_left _ hmem)
  · obtain hmem | hmem := mem_append.1 hmem
    · have hpre : ¬ selected.node <+: names := fun hpre => hnone i names hi hpre rename hmem hindex
      rw [namesAfter_cons_of_not hpre]
      exact h.pending i names hi rename hmem hindex
    · obtain ⟨rename, hrename, rfl⟩ := mem_map.1 hmem
      obtain rfl : rename.1 = i := hindex
      obtain ⟨names', hi', hpre, hpath⟩ := hright.sound rename hrename
      obtain rfl := some.inj (hi.symm.trans hi')
      have hmixed := hselection.mixed hdone names
      have hname := isName_of_mixed (htree.isName _ (mem_of_getElem? hi)) hselection.isName hmixed
      have hnormal : IsNormal '/' '.' (keeps Q.dropsAboveRoot false) (namesAfter (selected :: done) names) :=
        isNormal_of_isName fun name hmem => (hname name hmem).1
      have hclean : (ofNames false (namesAfter (selected :: done) names)).IsClean Q :=
        ⟨false, _, hnormal, rfl⟩
      have hrelative : (ofNames false (namesAfter (selected :: done) names)).isRelative = true := by
        rw [isRelative_eq, isAbsolute_ofNames hnormal]
        rfl
      rw [hpath]
      exact (makeUserPath_makeActualPath_iff hclean hrelative).2 (hkept _ names hi hpre)

theorem namesAfter_cons_same (horder : ∀ other ∈ done, ¬ other.node <+: selected.node)
    (hne : selected.node ≠ []) (hsame : selected.renamed = selected.node.getLastD []) :
    namesAfter (selected :: done) names = namesAfter done names := by
  by_cases hpre : selected.node <+: names
  · obtain ⟨r, rfl⟩ := hpre
    obtain ⟨below, -, hold, hnew⟩ := namesAfter_cons horder hne r
    obtain hnil | ⟨parent, x, hconcat⟩ := eq_nil_or_concat' selected.node
    · exact absurd hnil hne
    · rw [hold, hnew, hsame, hconcat]
      simp
  · exact namesAfter_cons_of_not hpre

def rows (plan : List Planned) : List Selected := plan.map Planned.toSelected

variable (Q) in
/-- The torrent when the request of a row comes, if the rows behind it have been handled. -/
def atRequest (places : List (List QString)) (t : TorrentFiles) (planned : Planned)
    (rest : List Planned) : TorrentFiles :=
  (handleFileRenamedAlert Q)^[planned.acknowledged]
    (rename Q (rest.map (Planned.turn places)) ⟨t, [], []⟩).torrent

variable (Q) in
/-- No request is refused, and when it comes no file below its row is waiting for another rename, and
none of the parts that a torrent adds itself is in the name that the file is to have. -/
def Timely (places : List (List QString)) (t : TorrentFiles) (plan : List Planned) : Prop :=
  ∀ (planned : Planned) (rest : List Planned), planned :: rest <:+ plan →
    planned.renamed ≠ planned.node.getLastD [] → planned.refused = false ∧
      ∀ (i : ℕ) (names : List QString), places[i]? = some names → planned.node <+: names →
        (∀ rename ∈ (atRequest Q places t planned rest).renames, rename.1 ≠ i) ∧
          (atRequest Q places t planned rest).Kept i
            (ofNames false (namesAfter (rows (planned :: rest)) names))

theorem tracked_rename (htree : IsTree places) {plan : List Planned}
    (h : IsSelection places (rows plan)) (hpaths : t.filePaths = places.map (ofNames false))
    (hrenames : t.renames = []) (htimely : Timely Q places t plan) {rest : List Planned}
    (hrest : rest <:+ plan) :
    Tracked Q places (rows plan) (rows rest)
        (rename Q (rest.map (Planned.turn places)) ⟨t, [], []⟩).torrent ∧
      (rename Q (rest.map (Planned.turn places)) ⟨t, [], []⟩).replaced =
        (rename Q (rest.map (Planned.turn places)) ⟨t, [], []⟩).accepted := by
  induction rest with
  | nil =>
    have hself : ∀ names : List QString, namesAfter (rows []) names = names := fun names =>
      namesAfter_eq_self (by simp [rows])
    have hget : ∀ (i : ℕ) (names : List QString), places[i]? = some names →
        t.filePaths[i]? = some (ofNames false names) := by
      intro i names hi
      rw [hpaths, getElem?_map, hi, map_some]
    refine ⟨⟨by simp [rename, hpaths], fun i names hi => ⟨names, ?_, hget i names hi⟩,
      fun i names hi _ => ?_, fun i names hi rename hmem => ?_⟩, rfl⟩
    · have hmixed := h.mixed nil_suffix names
      rwa [namesAfter_eq_self (by simp)] at hmixed
    · rw [hself]
      exact hget i names hi
    · have hmem : rename ∈ t.renames := hmem
      rw [hrenames] at hmem
      cases hmem
  | cons planned rest ih =>
    obtain ⟨htracked, hcount⟩ := ih ((suffix_cons ..).trans hrest)
    have hdone : rows (planned :: rest) <:+ rows plan := hrest.map Planned.toSelected
    have hdone' : planned.toSelected :: rows rest <:+ rows plan := hdone
    have hat : Tracked Q places (rows plan) (rows rest) (atRequest Q places t planned rest) :=
      htracked.iterate h ((suffix_cons ..).trans hdone') _
    have hnode := h.isNode planned.toSelected (hdone'.subset (mem_cons_self ..))
    rw [map_cons, rename, foldr_cons, ← rename, innerRename]
    by_cases hsame : planned.renamed = planned.node.getLastD []
    · have hnone : request (planned.turn places).row = none := if_pos hsame
      simp only [hnone]
      refine ⟨?_, hcount⟩
      have hnames : ∀ names : List QString,
          namesAfter (rows (planned :: rest)) names = namesAfter (rows rest) names := fun names =>
        namesAfter_cons_same (h.order_done hdone') hnode.1 hsame
      refine ⟨hat.length, hat.stored, fun i names hi => ?_, fun i names hi => ?_⟩ <;> rw [hnames]
      · exact hat.settled i names hi
      · exact hat.pending i names hi
    · obtain ⟨haccepted, hfiles⟩ := htimely planned rest hrest hsame
      have hready := hat.ready fun i names hi hpre => (hfiles i names hi hpre).1
      obtain ⟨requested, renames, hrequest, hright, hserve⟩ :=
        serve_right htree h hdone' hready hsame
      have hrow : request (planned.turn places).row = some requested := hrequest
      have hrefused : (planned.turn places).refused = false := haccepted
      have hserve : serve Q ((handleFileRenamedAlert Q)^[(planned.turn places).acknowledged]
          (rename Q (rest.map (Planned.turn places)) ⟨t, [], []⟩).torrent) requested =
            .ok (waiting Q (atRequest Q places t planned rest) renames) := hserve
      simp only [hrow, hrefused, Bool.false_eq_true, if_false, hserve, hcount, and_true]
      exact hat.append htree h hdone' hright (fun i names hi hpre => (hfiles i names hi hpre).1)
        fun i names hi hpre => (hfiles i names hi hpre).2

/-- The files are where the preview shows them when all has been acknowledged, and the rows that are
counted are those that the server has renamed. -/
structure Previewed (Q : QtDir) (places : List (List QString)) (t : TorrentFiles)
    (plan : List Planned) : Prop where
  shown : (acknowledgeAll Q (rename Q (plan.map (Planned.turn places)) ⟨t, [], []⟩).torrent).filePaths =
    places.map fun names => ofNames false (namesAfter (rows plan) names)
  counted : (rename Q (plan.map (Planned.turn places)) ⟨t, [], []⟩).replaced =
    (rename Q (plan.map (Planned.turn places)) ⟨t, [], []⟩).accepted

/-- **Renaming does what the preview shows**, if no request is refused and each comes when the earlier
renames of its files have been acknowledged. -/
theorem right_of_timely {plan : List Planned} (htree : IsTree places)
    (h : IsSelection places (rows plan)) (hpaths : t.filePaths = places.map (ofNames false))
    (hrenames : t.renames = []) (htimely : Timely Q places t plan) : Previewed Q places t plan := by
  obtain ⟨htracked, hcount⟩ := tracked_rename htree h hpaths hrenames htimely suffix_rfl
  refine ⟨?_, hcount⟩
  have hfinal := htracked.iterate h suffix_rfl
    (rename Q (plan.map (Planned.turn places)) ⟨t, [], []⟩).torrent.renames.length
  have hnone : (acknowledgeAll Q
      (rename Q (plan.map (Planned.turn places)) ⟨t, [], []⟩).torrent).renames = [] :=
    (acknowledgeAll_spec _).2.1
  refine ext_getElem? fun i => ?_
  cases hi : places[i]? with
  | none =>
    have hle := getElem?_eq_none_iff.1 hi
    have hlength : (acknowledgeAll Q
      (rename Q (plan.map (Planned.turn places)) ⟨t, [], []⟩).torrent).filePaths.length =
        places.length := hfinal.length
    rw [getElem?_map, hi, map_none, getElem?_eq_none (by omega)]
  | some names =>
    rw [getElem?_map, hi, map_some]
    refine hfinal.settled i names hi fun rename hmem => ?_
    have hmem : rename ∈ (acknowledgeAll Q
      (RenameFiles.rename Q (plan.map (Planned.turn places)) ⟨t, [], []⟩).torrent).renames := hmem
    rw [hnone] at hmem
    cases hmem

def oneFile : TorrentFiles where
  isAppendExtensionEnabled := false
  isUnwantedFolderEnabled := false
  fileSizes := [5]
  completedFiles := [false]
  filePriorities := [DownloadPriority.Normal]
  filePaths := [ofNames false [['d'], ['a']]]
  actualPaths := [ofNames false [['d'], ['a']]]
  renames := []

/-- Both get new names; so many renames are acknowledged before the request for the folder. -/
def bothRows (acknowledged : ℕ) : List Planned :=
  [⟨⟨[['d']], ['e']⟩, acknowledged, false⟩, ⟨⟨[['d'], ['a']], ['b']⟩, 0, false⟩]

theorem isTree_oneFile : IsTree [[['d'], ['a']]] where
  ne_nil := by simp
  isName := by
    intro names hnames name hname
    rw [mem_singleton.1 hnames] at hname
    obtain rfl | rfl : name = ['d'] ∨ name = ['a'] := by simpa using hname
    · exact ⟨⟨by decide, by decide, by decide, by decide⟩, by decide⟩
    · exact ⟨⟨by decide, by decide, by decide, by decide⟩, by decide⟩
  apart := pairwise_singleton ..

theorem isSelection_bothRows (n : ℕ) : IsSelection [[['d'], ['a']]] (rows (bothRows n)) where
  isNode := by
    intro selected hselected
    obtain rfl | rfl : selected = ⟨[['d']], ['e']⟩ ∨ selected = ⟨[['d'], ['a']], ['b']⟩ := by
      simpa [rows, bothRows] using hselected
    · exact ⟨by simp, _, mem_singleton_self _, by decide⟩
    · exact ⟨by simp, _, mem_singleton_self _, prefix_rfl⟩
  isName := by
    intro selected hselected
    obtain rfl | rfl : selected = ⟨[['d']], ['e']⟩ ∨ selected = ⟨[['d'], ['a']], ['b']⟩ := by
      simpa [rows, bothRows] using hselected
    · exact ⟨⟨by decide, by decide, by decide, by decide⟩, by decide⟩
    · exact ⟨⟨by decide, by decide, by decide, by decide⟩, by decide⟩
  order := by
    exact pairwise_pair.2 fun hpre => absurd hpre.length_le (by simp)
  siblings := by
    rintro node node' ⟨hne, names, hnames, hpre⟩ ⟨hne', names', hnames', hpre'⟩ hparent hnot
    rw [mem_singleton.1 hnames] at hpre
    rw [mem_singleton.1 hnames'] at hpre'
    have hlength := congrArg length hparent
    have hpos := length_pos_of_ne_nil hne
    have hpos' := length_pos_of_ne_nil hne'
    rw [length_dropLast, length_dropLast] at hlength
    exact absurd ((prefix_of_prefix_length_le hpre hpre' (by omega)).eq_of_length (by omega)) hnot

/-- The folder is renamed when the rename of its file has been acknowledged. -/
theorem right_of_timely_folder : Previewed userDir [[['d'], ['a']]] oneFile (bothRows 1) := by
  refine right_of_timely isTree_oneFile (isSelection_bothRows 1) rfl rfl ?_
  intro planned rest hsuffix _
  rw [bothRows, suffix_cons_iff, suffix_cons_iff] at hsuffix
  obtain hfirst | hsecond | hnil := hsuffix
  · obtain ⟨rfl, rfl⟩ := cons.inj hfirst
    refine ⟨rfl, fun i names hi _ => ?_⟩
    obtain ⟨rfl, rfl⟩ : i = 0 ∧ names = [['d'], ['a']] := by
      cases i <;> simp_all
    have hnone : (atRequest userDir [[['d'], ['a']]] oneFile ⟨⟨[['d']], ['e']⟩, 1, false⟩
        [⟨⟨[['d'], ['a']], ['b']⟩, 0, false⟩]).renames = [] := by decide
    rw [hnone]
    exact ⟨by simp, by decide, by decide, by decide⟩
  · obtain ⟨rfl, rfl⟩ := cons.inj hsecond
    refine ⟨rfl, fun i names hi _ => ?_⟩
    obtain ⟨rfl, rfl⟩ : i = 0 ∧ names = [['d'], ['a']] := by
      cases i <;> simp_all
    exact ⟨by simp [atRequest, rename, oneFile], by decide, by decide, by decide⟩
  · cases eq_nil_of_suffix_nil hnil

/-- The folder is renamed before that: its file gets the old name again. -/
theorem late_acknowledgement : ¬ ∀ (Q : QtDir) (places : List (List QString)) (t : TorrentFiles)
    (plan : List Planned), IsTree places → IsSelection places (rows plan) →
      t.filePaths = places.map (ofNames false) → t.renames = [] →
        (∀ planned ∈ plan, planned.refused = false) → Previewed Q places t plan := by
  intro h
  have hpreviewed := h userDir _ oneFile (bothRows 0) isTree_oneFile (isSelection_bothRows 0) rfl rfl
    (by simp [bothRows])
  exact absurd hpreviewed.shown (by decide)

end QBittorrent.RenameFiles
