import QBittorrent.Base.Path
import QBittorrent.Lib.LeafTree
import Mathlib.Data.Rat.Floor

/-!
# The content of a torrent as a tree

`TorrentContentModel` with its items.  The items are a tree whose leaves are the files; an item is
known by its place, which is also what `m_filesIndex` has for each file.  Numbers of type `qreal` are
rational numbers here, so that they are not rounded.

* `TorrentContentModel` : the model, and what is done when there is news.
-/

namespace QBittorrent.TorrentContent

inductive DownloadPriority where
  | ignored | normal | high | maximum | mixed
  deriving DecidableEq

/-- The members of `TorrentContentModelItem`. -/
@[ext]
structure Fields where
  name : QString
  size : ℕ
  remaining : ℕ
  priority : DownloadPriority
  progress : ℚ
  availability : ℚ

namespace Fields

/-- A new item. -/
def ofName (name : QString) (size : ℕ) : Fields := ⟨name, size, 0, .normal, 0, -1⟩

variable (fields : Fields)

def shownProgress : ℚ := if 0 < fields.size then fields.progress else 1

def shownRemaining : ℕ := if fields.priority = .ignored then 0 else fields.remaining

def shownAvailability : ℚ := if 0 < fields.size then fields.availability else 0

/-- `setProgress` of a file. -/
def setProgress (progress : ℚ) : Fields :=
  { fields with progress := progress, remaining := (fields.size * (1 - progress)).floor.toNat }

def setAvailability (availability : ℚ) : Fields := { fields with availability := availability }

def withPriority (priority : DownloadPriority) : Fields := { fields with priority := priority }

/-- The sums and the loop variables of `recalculateProgress`.  The sizes of a torrent add up to less than
`2 ^ 63`, so the sums of `qulonglong` do not wrap. -/
def addProgress (sums : ℚ × ℕ × ℕ) : ℚ × ℕ × ℕ :=
  if fields.priority = .ignored then sums
  else (sums.1 + fields.shownProgress * fields.size, sums.2.1 + fields.size,
    sums.2.2 + fields.shownRemaining)

/-- Those of `recalculateAvailability`. -/
def addAvailability (sums : ℚ × ℕ × Bool) : ℚ × ℕ × Bool :=
  if fields.priority = .ignored then sums
  else if 0 ≤ fields.shownAvailability then
    (sums.1 + fields.shownAvailability * fields.size, sums.2.1 + fields.size, true)
  else (sums.1, sums.2.1 + fields.size, sums.2.2)

/-- A folder whose children have the sums. -/
def takeProgress (sums : ℚ × ℕ × ℕ) : Fields :=
  if 0 < sums.2.1 then { fields with progress := sums.1 / sums.2.1, remaining := sums.2.2 }
  else { fields with progress := 1, remaining := 0 }

def takeAvailability (sums : ℚ × ℕ × Bool) : Fields :=
  { fields with availability := if 0 < sums.2.1 ∧ sums.2.2 = true then sums.1 / sums.2.1 else -1 }

end Fields

/-- The index of a leaf is `m_fileIndex`. -/
abbrev Item := LeafTree ℕ Fields

/-! ### Priorities -/

mutual

/-- `setPriority` without an update of the parent. -/
def setPriorityBelow (newPriority : DownloadPriority) : Item → Item
  | .leaf index fields => .leaf index (fields.withPriority newPriority)
  | .node fields children =>
    if fields.priority = newPriority then .node fields children
    else if newPriority = .mixed then .node (fields.withPriority newPriority) children
    else .node (fields.withPriority newPriority) (setPrioritiesBelow newPriority children)

def setPrioritiesBelow (newPriority : DownloadPriority) : List Item → List Item
  | [] => []
  | child :: children =>
    setPriorityBelow newPriority child :: setPrioritiesBelow newPriority children

end

/-- The last loop of `setPriority` of a folder, over its children. -/
def updateChildren : Item → Item
  | .leaf index fields => .leaf index fields
  | .node fields children =>
    if fields.priority = .mixed then .node fields children
    else .node fields (setPrioritiesBelow fields.priority children)

/-- The priority that all have, if they have the same. -/
def commonPriority : List DownloadPriority → DownloadPriority
  | [] => .mixed
  | prio :: rest => if rest.all fun other => decide (other = prio) then prio else .mixed

def childPriorities (item : Item) : List DownloadPriority :=
  item.children.map fun child => child.label.priority

/-- `updatePriority` of the folder at a place, which calls its `setPriority`. -/
def updatePriorityBy (setPriority : DownloadPriority → Item → Item) (place : List ℕ) (root : Item) :
    Item :=
  if place = [] then root
  else match root.at? place with
    | none => root
    | some folder => setPriority (commonPriority (childPriorities folder)) root

/-- `setPriority` of the item at a place, with an update of the parent. -/
def setPriority : List ℕ → DownloadPriority → Item → Item
  | [], _, root => root
  | i :: parent, newPriority, root =>
    match root.at? (i :: parent) with
    | none => root
    | some item =>
      if item.label.priority = newPriority then root
      else
        let root := root.modify (.relabel fun fields => fields.withPriority newPriority) (i :: parent)
        let root := updatePriorityBy (setPriority parent) parent root
        root.modify updateChildren (i :: parent)

def updatePriority (place : List ℕ) (root : Item) : Item :=
  updatePriorityBy (setPriority place) place root

/-! ### Progress and availability -/

mutual

/-- `recalculateProgress` of a folder that is not the root. -/
def recalculateProgress : Item → Item
  | .leaf index fields => .leaf index fields
  | .node fields children =>
    let children := recalculateProgressOf children
    .node (fields.takeProgress
      (children.foldl (fun sums child => child.label.addProgress sums) (0, 0, 0))) children

/-- The calls of the loop. -/
def recalculateProgressOf : List Item → List Item
  | [] => []
  | child :: children =>
    (if child.label.priority = .ignored then child else recalculateProgress child) ::
      recalculateProgressOf children

end

mutual

/-- `recalculateAvailability` of a folder that is not the root. -/
def recalculateAvailability : Item → Item
  | .leaf index fields => .leaf index fields
  | .node fields children =>
    let children := recalculateAvailabilityOf children
    .node (fields.takeAvailability
      (children.foldl (fun sums child => child.label.addAvailability sums) (0, 0, false))) children

def recalculateAvailabilityOf : List Item → List Item
  | [] => []
  | child :: children =>
    (if child.label.priority = .ignored then child else recalculateAvailability child) ::
      recalculateAvailabilityOf children

end

/-- `recalculateProgress` of the root, which keeps its own values. -/
def recalculateRootProgress (root : Item) : Item := root.mapChildren recalculateProgressOf

/-- `recalculateAvailability` of the root, which has no data itself. -/
def recalculateRootAvailability (root : Item) : Item :=
  (root.mapChildren recalculateAvailabilityOf).relabel fun fields => fields.setAvailability (-1)

/-! ### The loop over the files -/

/-- `increaseSize` of the folder at a place. -/
def increaseSize (delta : ℕ) : List ℕ → Item → Item
  | [], root => root
  | i :: parent, root =>
    increaseSize delta parent (root.modify (.relabel fun fields =>
      { fields with size := (fields.size + delta) % 2 ^ 64 }) (i :: parent))

/-- `appendChild` of the folder at a place; it is told the size of a file only. -/
def appendChild (item : Item) (place : List ℕ) (root : Item) : Item :=
  let root := root.addChild item place
  match item with
  | .leaf _ fields => increaseSize fields.size place root
  | .node _ _ => root

/-- What a content handler has of a file. -/
structure ContentFile where
  filePath : QString
  fileSize : ℕ

/-- The variables of the loop. -/
structure Builder where
  rootItem : Item
  filesIndex : List (List ℕ)
  /-- The folders that were made, by the places of their parents and their names. -/
  folderMap : List ((List ℕ × QString) × List ℕ)
  lastParentPath : List QString
  lastParent : List ℕ

namespace Builder

variable (b : Builder)

/-- How many children an item has. -/
def childCount (place : List ℕ) : ℕ := ((b.rootItem.at? place).map fun item => item.children.length).getD 0

/-- One pass of the inner loop. -/
def enterFolder (folderName : QString) : Builder :=
  match b.folderMap.lookup (b.lastParent, folderName) with
  | some newParent =>
    { b with lastParentPath := b.lastParentPath ++ [folderName], lastParent := newParent }
  | none =>
    let newParent := b.childCount b.lastParent :: b.lastParent
    { b with
      rootItem := appendChild (.node (.ofName folderName 0) []) b.lastParent b.rootItem
      folderMap := ((b.lastParent, folderName), newParent) :: b.folderMap
      lastParentPath := b.lastParentPath ++ [folderName]
      lastParent := newParent }

/-- The folder of the next file. -/
def findFolder (pathFolders : List QString) : Builder :=
  if b.lastParentPath = pathFolders then b
  else pathFolders.foldl enterFolder { b with lastParentPath := [], lastParent := [] }

def appendFile (fileName : QString) (fileSize index : ℕ) : Builder :=
  { b with
    rootItem := appendChild (.leaf index (.ofName fileName fileSize)) b.lastParent b.rootItem
    filesIndex := b.filesIndex ++ [b.childCount b.lastParent :: b.lastParent] }

end Builder

def pathParts (file : ContentFile) : List QString :=
  (file.filePath.splitOn '/').filter fun part => decide (part ≠ [])

def pathFolders (file : ContentFile) : List QString := (pathParts file).dropLast

def fileName (file : ContentFile) : QString := (pathParts file).getLastD []

/-- One pass of the loop over the files. -/
def addFile (b : Builder) (file : ContentFile) : Builder :=
  (b.findFolder (pathFolders file)).appendFile (fileName file) file.fileSize b.filesIndex.length

/-- The root item without children. -/
def emptyRoot : Item := .node (.ofName [] 0) []

/-- The loop of `populate`, for a model without files. -/
def build (files : List ContentFile) : Builder := files.foldl addFile ⟨emptyRoot, [], [], [], []⟩

/-! ### The model -/

structure TorrentContentModel where
  rootItem : Item
  filesIndex : List (List ℕ)

namespace TorrentContentModel

variable (m : TorrentContentModel)

def eachFile {α : Type} (change : α → Item → List ℕ → Item) (values : List α) : Item :=
  (m.filesIndex.zip values).foldl (fun root entry => change entry.2 root entry.1) m.rootItem

/-- `recalculateProgress` and `recalculateAvailability` of the root item. -/
def recalculated (root : Item) : TorrentContentModel :=
  { m with rootItem := recalculateRootAvailability (recalculateRootProgress root) }

def updateFilesProgress (filesProgress : List ℚ) : TorrentContentModel :=
  if m.filesIndex.length ≠ filesProgress.length then m
  else m.recalculated (m.eachFile (fun progress root place =>
    root.modify (.relabel fun fields => fields.setProgress progress) place) filesProgress)

def updateFilesPriorities (fprio : List DownloadPriority) : TorrentContentModel :=
  if m.filesIndex.length ≠ fprio.length then m
  else { m with rootItem := m.eachFile (fun priority root place => setPriority place priority root) fprio }

/-- The function that `updateFilesAvailability` hands over; it is called when the fractions are known. -/
def availabilityFetched (availableFileFractions : List ℚ) : TorrentContentModel :=
  if m.filesIndex.length ≠ availableFileFractions.length then m
  else { m with rootItem := recalculateRootProgress (m.eachFile (fun availability root place =>
    root.modify (.relabel fun fields => fields.setAvailability availability) place)
      availableFileFractions) }

def priorityAt (place : List ℕ) : Option DownloadPriority :=
  (m.rootItem.look place).map fun seen => seen.label.priority

/-- What `prioritizeFiles` is told. -/
def getFilePriorities : List (Option DownloadPriority) := m.filesIndex.map m.priorityAt

def setItemPriority (place : List ℕ) (priority : DownloadPriority) : TorrentContentModel :=
  if m.priorityAt place = some priority then m
  else m.recalculated (setPriority place priority m.rootItem)

/-- What the content handler knows when the model is filled. -/
structure Content where
  files : List ContentFile
  filesProgress : List ℚ
  filePriorities : List DownloadPriority

/-- `populate` of a model without files. -/
def populate (content : Content) : TorrentContentModel :=
  let b := build content.files
  ((⟨b.rootItem, b.filesIndex⟩ : TorrentContentModel).updateFilesProgress
    content.filesProgress).updateFilesPriorities content.filePriorities

end TorrentContentModel

end QBittorrent.TorrentContent
