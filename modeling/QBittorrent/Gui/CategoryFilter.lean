import QBittorrent.Lib.CountTree
import Mathlib
import QBittorrent.Session.CategoryViews

/-!
# The filter of categories

`CategoryFilterModel` keeps a tree of the categories with the numbers of torrents that are in them
or below.  It reads the session once and then follows its signals, one at a time; the session emits
them while it works.

* `Mirrors` : the tree shows the categories, and every item counts its torrents.
-/

namespace QBittorrent.CategoryFilter

variable {ι : Type} [DecidableEq ι]

/-- The keys of a `QMap`, in its order. -/
def ascending {α : Type} [LinearOrder α] (s : Finset α) : List α := s.sort (· ≤ ·)

theorem mem_ascending {α : Type} [LinearOrder α] {s : Finset α} {a : α} : a ∈ ascending s ↔ a ∈ s :=
  Finset.mem_sort _

/-! ### The session -/

/-- What the session knows of categories and of the torrents in them. -/
structure Session (ι : Type) where
  categories : Finset String := ∅
  /-- The names in the file of the categories. -/
  storedCategories : Finset String := ∅
  /-- The categories of the torrents. -/
  torrents : Dict ι String := ∅
  /-- The categories of the torrents that are being added. -/
  loadingTorrents : Dict ι String := ∅
  /-- The categories that were put back while torrents were restored. -/
  recoveredCategories : Finset String := ∅
  isSubcategoriesEnabled : Bool := false

/-- The signals that the model hears, with what it reads of the torrents. -/
inductive Signal where
  | categoryAdded (name : String)
  | categoryRemoved (name : String)
  | torrentCategoryChanged (category oldCategory : String)
  | subcategoriesSupportChanged
  | torrentsLoaded (categories : List String)
  | torrentAboutToBeRemoved (category : String)

/-- A signal, and the session when it is emitted. -/
abbrev Emission (ι : Type) := Session ι × Signal

/-- What the user, the start of the session and libtorrent ask for. -/
inductive Request (ι : Type) where
  | addCategory (name : String)
  /-- Torrents are visited in this order. -/
  | removeCategory (name : String) (order : List ι)
  /-- When subcategories are turned off, the file is read, or is not readable. -/
  | setSubcategoriesEnabled (value isReadable : Bool)
  | addTorrent (id : ι) (category : String)
  | restoreTorrent (id : ι) (category : String)
  /-- The end of a sequence of alerts about torrents that were added. -/
  | finishLoading (ids : List ι)
  | setTorrentCategory (id : ι) (category : String)
  | removeTorrent (id : ι)

/-- `TorrentImpl::belongsToCategory`. -/
def belongsToCategory (isSubcategoriesEnabled : Bool) (category torrentCategory : String) : Bool :=
  if torrentCategory = "" then decide (category = "")
  else decide (torrentCategory = category) ||
    (isSubcategoriesEnabled && isBelow category torrentCategory)

/-- The session after some emissions. -/
def lastSession (s : Session ι) (es : List (Emission ι)) : Session ι :=
  (es.getLast?.map Prod.fst).getD s

namespace Session

/-- The loop of `addCategory` over the categories that a name expands to. -/
def addParents (name : String) : List String → Session ι → List (Emission ι)
  | [], _ => []
  | parent :: parents, s =>
    if parent ≠ name ∧ parent ∉ s.categories then
      let s : Session ι := { s with categories := insert parent s.categories }
      (s, .categoryAdded parent) :: addParents name parents s
    else addParents name parents s

def addCategory (name : String) (s : Session ι) : List (Emission ι) :=
  if name = "" then []
  else if ¬ isValidCategoryName name ∨ name ∈ s.categories then []
  else
    let parents := if s.isSubcategoriesEnabled then addParents name (expandCategory name) s else []
    let s := lastSession s parents
    parents ++ [({ s with
      categories := insert name s.categories
      storedCategories := insert name s.categories }, .categoryAdded name)]

/-- `TorrentImpl::setCategory`. -/
def setTorrentCategory (id : ι) (category : String) (s : Session ι) : List (Emission ι) :=
  match s.torrents.lookup id with
  | none => []
  | some oldCategory =>
    if oldCategory = category then []
    else if category ≠ "" ∧ category ∉ s.categories then []
    else [({ s with torrents := s.torrents.insert id category },
      .torrentCategoryChanged category oldCategory)]

/-- The first loop of `removeCategory`. -/
def resetTorrents (name : String) : List ι → Session ι → List (Emission ι)
  | [], _ => []
  | id :: ids, s =>
    let es := if (s.torrents.lookup id).any (belongsToCategory s.isSubcategoriesEnabled name) then
      s.setTorrentCategory id "" else []
    es ++ resetTorrents name ids (lastSession s es)

/-- The loop of `removeCategory` over the categories; one is erased after its signal. -/
def removeSubcategories (name : String) : List String → Session ι → List (Emission ι)
  | [], _ => []
  | category :: categories, s =>
    if isBelow name category then
      (s, .categoryRemoved category) ::
        removeSubcategories name categories { s with categories := s.categories.erase category }
    else removeSubcategories name categories s

def subcategories (name : String) (s : Session ι) : Finset String :=
  if s.isSubcategoriesEnabled then s.categories.filter fun category => isBelow name category else ∅

def removeCategory (name : String) (order : List ι) (s : Session ι) : List (Emission ι) :=
  let resets := resetTorrents name order s
  let s := lastSession s resets
  let removals := if s.isSubcategoriesEnabled then
    removeSubcategories name (ascending s.categories) s else []
  let left := (s.categories \ s.subcategories name).erase name
  if s.subcategories name = ∅ ∧ name ∉ s.categories then resets
  else resets ++ removals ++
    [({ s with categories := left, storedCategories := left }, .categoryRemoved name)]

def expandCategories (categories : Finset String) : Finset String :=
  categories ∪ categories.biUnion fun name => (expandCategory name).toFinset

def setSubcategoriesEnabled (value isReadable : Bool) (s : Session ι) : List (Emission ι) :=
  if s.isSubcategoriesEnabled = value then []
  else
    let s : Session ι :=
      if value then
        { s with
          categories := expandCategories s.categories
          storedCategories := expandCategories s.categories }
      else { s with categories := if isReadable then s.storedCategories else ∅ }
    [({ s with isSubcategoriesEnabled := value }, .subcategoriesSupportChanged)]

/-- The emissions of adding the category of a torrent, if the session lacks it. -/
def takeCategory (category : String) (s : Session ι) : List (Emission ι) :=
  if category ≠ "" ∧ category ∉ s.categories then s.addCategory category else []

/-- The category that a torrent is added with, once the session has taken its category. -/
def takenCategory (category : String) (s : Session ι) : String :=
  if category ∈ s.categories then category else ""

/-- The signals of a request. -/
def emissions (s : Session ι) : Request ι → List (Emission ι)
  | .addCategory name => s.addCategory name
  | .removeCategory name order => s.removeCategory name order
  | .setSubcategoriesEnabled value isReadable => s.setSubcategoriesEnabled value isReadable
  | .addTorrent _ category => s.takeCategory category
  | .restoreTorrent _ category =>
    if category ∈ s.recoveredCategories then [] else s.takeCategory category
  | .finishLoading ids =>
    let loaded : Session ι :=
      { s with
        torrents := ids.foldl (fun torrents id =>
          torrents.insert id ((s.loadingTorrents.lookup id).getD "")) s.torrents
        loadingTorrents := ids.foldl (fun loading id => loading.erase id) s.loadingTorrents }
    [(loaded, .torrentsLoaded (ids.map fun id => (s.loadingTorrents.lookup id).getD ""))]
  | .setTorrentCategory id category => s.setTorrentCategory id category
  | .removeTorrent id =>
    match s.torrents.lookup id with
    | none => []
    | some category =>
      [({ s with torrents := s.torrents.erase id }, .torrentAboutToBeRemoved category)]

def after (s : Session ι) (r : Request ι) : Session ι :=
  let s' := lastSession s (s.emissions r)
  match r with
  | .addTorrent id category =>
    { s' with loadingTorrents := s'.loadingTorrents.insert id (s'.takenCategory category) }
  | .restoreTorrent id category =>
    if category ∈ s.recoveredCategories then
      { s' with loadingTorrents := s'.loadingTorrents.insert id category }
    else
      { s' with
        loadingTorrents := s'.loadingTorrents.insert id (s'.takenCategory category)
        recoveredCategories :=
          if category ∉ s.categories ∧ category ∈ s'.categories then
            insert category s'.recoveredCategories
          else s'.recoveredCategories }
  | _ => s'

end Session

/-! ### The model -/

/-- `CategoryModelItem`: the label is the name, the keys are the uids. -/
abbrev CategoryModelItem := CountTree String String

def UID_ALL : String := "\x01"

def UID_UNCATEGORIZED : String := ""

def shortName (fullName : String) : String := subcategoryName fullName

/-- The uids on the way to the item of a category. -/
def itemPath (isSubcategoriesEnabled : Bool) (fullName : String) : List String :=
  if isSubcategoriesEnabled then (expandCategory fullName).map shortName else [fullName]

def parentName (isSubcategoriesEnabled : Bool) (categoryName : String) : Option String :=
  let expanded := expandCategory categoryName
  if isSubcategoriesEnabled && decide (1 < expanded.length) then expanded[expanded.length - 2]?
  else none

structure CategoryFilterModel where
  rootItem : CategoryModelItem := .node "" 0 []
  isSubcategoriesEnabled : Bool := false
  /-- An assertion does not hold: an item is not there, or there is one already. -/
  failed : Bool := false

namespace CategoryFilterModel

def fail (m : CategoryFilterModel) : CategoryFilterModel := { m with failed := true }

/-- `increaseTorrentsCount` of the item at a path. -/
def increase (delta : ℤ) (path : List String) (m : CategoryFilterModel) : CategoryFilterModel :=
  { m with rootItem := m.rootItem.adjust delta path }

/-- `addChild` of the item at a path, which must not have the child yet. -/
def addChild (path : List String) (uid : String) (name : String) (torrentsCount : ℤ)
    (m : CategoryFilterModel) : CategoryFilterModel :=
  match m.rootItem.seen path with
  | none => m.fail
  | some parent =>
    if uid ∈ parent.keys then m.fail
    else { m with
      rootItem := (m.rootItem.appendAt path uid (.node name torrentsCount [])).adjust torrentsCount
        path }

/-- The path of `m_rootItem->childAt(index)`. -/
def childAt (index : ℕ) (m : CategoryFilterModel) : Option (List String) :=
  m.rootItem.keys[index]?.map fun uid => [uid]

/-- `findItem`, the path of the item. -/
def findItem (fullName : String) (m : CategoryFilterModel) : Option (List String) :=
  if fullName = "" then m.childAt 1
  else if (m.rootItem.seen (itemPath m.isSubcategoriesEnabled fullName)).isSome then
    some (itemPath m.isSubcategoriesEnabled fullName)
  else none

/-- Change the count of an item that has to be there. -/
def increaseItem (delta : ℤ) (path : Option (List String)) (m : CategoryFilterModel) :
    CategoryFilterModel :=
  match path with
  | none => m.fail
  | some path => m.increase delta path

def categoryAdded (categoryName : String) (m : CategoryFilterModel) : CategoryFilterModel :=
  let uid := if m.isSubcategoriesEnabled then shortName categoryName else categoryName
  match parentName m.isSubcategoriesEnabled categoryName with
  | none => m.addChild [] uid uid 0
  | some parent =>
    match m.findItem parent with
    | none => m.fail
    | some path => m.addChild path uid uid 0

/-- An item is deleted, with those below it. -/
def delete (path : List String) (m : CategoryFilterModel) : CategoryFilterModel :=
  match m.rootItem.find path, path.getLast? with
  | some item, some uid => { m with
      rootItem := (m.rootItem.adjust (-item.takenOff) path.dropLast).eraseAt path.dropLast uid }
  | _, _ => m

def categoryRemoved (categoryName : String) (m : CategoryFilterModel) : CategoryFilterModel :=
  match m.findItem categoryName with
  | none => m
  | some path => m.delete path

def torrentsLoaded (categories : List String) (m : CategoryFilterModel) : CategoryFilterModel :=
  categories.foldl (fun m category =>
    let m := m.increaseItem 1 (m.findItem category)
    m.increaseItem 1 (m.childAt 0)) m

def torrentAboutToBeRemoved (category : String) (m : CategoryFilterModel) : CategoryFilterModel :=
  let m := m.increaseItem (-1) (m.findItem category)
  m.increaseItem (-1) (m.childAt 0)

def torrentCategoryChanged (category oldCategory : String) (m : CategoryFilterModel) :
    CategoryFilterModel :=
  let m := m.increaseItem (-1) (m.findItem oldCategory)
  m.increaseItem 1 (m.findItem category)

/-- The loop of `populate` over the categories that a name expands to. -/
def populateSubcategories (torrents : Dict ι String) :
    List String → List String → CategoryFilterModel → CategoryFilterModel
  | [], _, m => m
  | subcat :: subcats, path, m =>
    let m := if (m.rootItem.seen (path ++ [shortName subcat])).isSome then m else
      m.addChild path (shortName subcat) (shortName subcat)
        (Dict.count (fun category => decide (category = subcat)) torrents)
    populateSubcategories torrents subcats (path ++ [shortName subcat]) m

def populate (s : Session ι) (m : CategoryFilterModel) : CategoryFilterModel :=
  let m : CategoryFilterModel :=
    { m with
      rootItem := .node m.rootItem.label
        (m.rootItem.count - CountTree.takenOffList m.rootItem.children) []
      isSubcategoriesEnabled := s.isSubcategoriesEnabled }
  let m := m.addChild [] UID_ALL "All" s.torrents.keys.card
  let m := m.addChild [] UID_UNCATEGORIZED "Uncategorized"
    (Dict.count (fun category => decide (category = "")) s.torrents)
  (ascending s.categories).foldl (fun m categoryName =>
    if m.isSubcategoriesEnabled then
      populateSubcategories s.torrents (expandCategory categoryName) [] m
    else m.addChild [] categoryName categoryName
      (Dict.count (belongsToCategory s.isSubcategoriesEnabled categoryName) s.torrents)) m

/-- What the model makes of a signal. -/
def handle (e : Emission ι) (m : CategoryFilterModel) : CategoryFilterModel :=
  match e.2 with
  | .categoryAdded name => m.categoryAdded name
  | .categoryRemoved name => m.categoryRemoved name
  | .torrentCategoryChanged category oldCategory => m.torrentCategoryChanged category oldCategory
  | .subcategoriesSupportChanged => m.populate e.1
  | .torrentsLoaded categories => m.torrentsLoaded categories
  | .torrentAboutToBeRemoved category => m.torrentAboutToBeRemoved category

end CategoryFilterModel

/-! ### Runs -/

/-- What there is after a signal; `announced` are the categories whose removal was signalled by the
same request. -/
structure Snapshot (ι : Type) where
  session : Session ι
  announced : List String
  model : CategoryFilterModel

/-- The categories announced as removed, after a signal. -/
def announce (announced : List String) : Signal → List String
  | .categoryRemoved name => name :: announced
  | _ => announced

/-- What there is after each signal of a list. -/
def snapshots : List String → CategoryFilterModel → List (Emission ι) → List (Snapshot ι)
  | _, _, [] => []
  | announced, m, e :: es =>
    ⟨e.1, announce announced e.2, m.handle e⟩ ::
      snapshots (announce announced e.2) (m.handle e) es

/-- The session and the model between requests, with what there was after each signal of the last
request. -/
structure Watched (ι : Type) where
  session : Session ι
  model : CategoryFilterModel
  last : List (Snapshot ι) := []

/-- The torrents of the session are visited once each, and torrents are added once. -/
def Possible (w : Watched ι) : Request ι → Prop
  | .removeCategory _ order => order.Nodup ∧ order.toFinset = w.session.torrents.keys
  | .addTorrent id _ => id ∉ w.session.torrents ∧ id ∉ w.session.loadingTorrents
  | .restoreTorrent id _ => id ∉ w.session.torrents ∧ id ∉ w.session.loadingTorrents
  | .finishLoading ids => ids ≠ [] ∧ ids.Nodup ∧
    ∀ id ∈ ids, id ∈ w.session.loadingTorrents ∧ id ∉ w.session.torrents
  | _ => True

instance (w : Watched ι) : DecidablePred (Possible w) := fun e => by
  cases e <;> unfold Possible <;> infer_instance

def next (w : Watched ι) (r : Request ι) : Watched ι :=
  let es := w.session.emissions r
  { session := w.session.after r
    model := es.foldl (fun m e => m.handle e) w.model
    last := snapshots [] w.model es }

/-- Requests are handled one at a time. -/
def machine (ι : Type) [DecidableEq ι] : Machine (Watched ι) (Request ι) := .guarded Possible next

/-- The session with the categories of the file, and a new model. -/
def start (storedCategories : Finset String) (isSubcategoriesEnabled : Bool) : Watched ι :=
  let s : Session ι :=
    { categories :=
        if isSubcategoriesEnabled then Session.expandCategories storedCategories
        else storedCategories
      storedCategories := storedCategories
      isSubcategoriesEnabled := isSubcategoriesEnabled }
  { session := s, model := ({} : CategoryFilterModel).populate s }

/-! ### What is claimed -/

/-- The categories that the session has or is about to have once the announced ones are gone. -/
def remaining (s : Session ι) (announced : List String) : Finset String :=
  s.categories.filter fun category =>
    ∀ name ∈ announced, belongsToCategory s.isSubcategoriesEnabled name category = false

/-- **The model mirrors the session**: beside the items of all torrents and of those without a
category there is exactly an item for each category, once, and every item has the number of torrents
that belong to it. -/
structure Mirrors (s : Session ι) (announced : List String) (m : CategoryFilterModel) : Prop where
  notFailed : m.failed = false
  mode : m.isSubcategoriesEnabled = s.isSubcategoriesEnabled
  first : ∃ uids, m.rootItem.keys = UID_ALL :: UID_UNCATEGORIZED :: uids
  all : m.rootItem.seen [UID_ALL] = some ⟨"All", s.torrents.keys.card, []⟩
  uncategorized : m.rootItem.seen [UID_UNCATEGORIZED] =
    some ⟨"Uncategorized", Dict.count (fun category => decide (category = "")) s.torrents, []⟩
  items : ∀ path : List String, path ≠ [] → path ≠ [UID_ALL] → path ≠ [UID_UNCATEGORIZED] →
    ((m.rootItem.seen path).isSome ↔
      ∃ category ∈ remaining s announced, itemPath s.isSubcategoriesEnabled category = path)
  once : ∀ path n, m.rootItem.seen path = some n → n.keys.Nodup
  counts : ∀ category ∈ remaining s announced, ∃ uids,
    m.rootItem.seen (itemPath s.isSubcategoriesEnabled category) =
      some ⟨if s.isSubcategoriesEnabled then shortName category else category,
        Dict.count (belongsToCategory s.isSubcategoriesEnabled category) s.torrents, uids⟩

/-- The model mirrors the session after each signal and between requests. -/
structure Right (w : Watched ι) : Prop where
  afterSignals : ∀ x ∈ w.last, Mirrors x.session x.announced x.model
  now : Mirrors w.session [] w.model

end QBittorrent.CategoryFilter
