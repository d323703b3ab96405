import QBittorrent.Lib.Hierarchy
import QBittorrent.Lib.Machine
import QBittorrent.Resume.Params
import QBittorrent.Sync.Session
import Mathlib.Data.Finset.Sort
import Mathlib.Data.String.Basic

/-!
# Categories, tags and the torrents that have them

The part of `SessionImpl` that keeps categories, tags, the default paths and the torrents, and the
part of `TorrentImpl` that depends on them.  A category is a name with `/` between the names of its
parents, and its paths come from its own options or, piece by piece, from those of its parents.

An operation of the session gives an `Outcome`: the session after it, the signals that it emitted
about categories and tags, the torrents that were told of changed category options and those that
were asked to move their storage.  Loops over `m_torrents` treat every torrent on its own.
-/

namespace QBittorrent

/-! ### Names of categories -/

/-- `Session::isValidCategoryName`. -/
def isValidCategoryName (name : String) : Bool :=
  let cs := name.toList
  name = "" || (cs.head? ≠ some '/' && cs.getLast? ≠ some '/' && '\\' ∉ cs &&
    (cs.zip cs.tail).all fun c => !(c.1 = '/' && c.2 = '/'))

/-- `Session::subcategoryName`. -/
def subcategoryName (category : String) : String := String.ofList (afterLast '/' category.toList)

/-- `Session::parentCategoryName`. -/
def parentCategoryName (category : String) : String :=
  String.ofList (beforeLast '/' category.toList)

/-- `Session::expandCategory`. -/
def expandCategory (category : String) : List String :=
  (expansions '/' category.toList).map String.ofList

theorem length_parentCategoryName_lt {category : String} (h : category ≠ "") :
    (parentCategoryName category).toList.length < category.toList.length := by
  rw [parentCategoryName, String.toList_ofList]
  refine length_beforeLast_lt fun hnil => h ?_
  rw [← String.ofList_toList (s := category), hnil]

/-- A name starts with that of a category and a separator. -/
def isBelow (category name : String) : Bool := (category.toList ++ ['/']).isPrefixOf name.toList

/-! ### Paths -/

/-- `Path::isAbsolute`, of the paths of Unix. -/
def isAbsolutePath (path : String) : Bool := path.toList.head? = some '/'

/-- `QDir::cleanPath`, and the directory that relative default paths are in. -/
structure PathSettings where
  cleanPath : String → String
  downloads : String

namespace PathSettings

variable (Q : PathSettings)

def path (pathStr : String) : String :=
  if pathStr.toList.any fun c => c = '/' || c = '\\' then Q.cleanPath pathStr else pathStr

/-- `operator/`. -/
def join (lhs rhs : String) : String :=
  if rhs = "" then lhs else if lhs = "" then rhs else Q.path (lhs ++ "/" ++ rhs)

/-- Runs of characters that no path may have become a space. -/
def replaceInvalid : List Char → List Char
  | [] => []
  | c :: cs =>
    if c ∈ ":?\"*<>|".toList then
      if (cs.head?.map fun d => decide (d ∈ ":?\"*<>|".toList)).getD false then replaceInvalid cs
      else ' ' :: replaceInvalid cs
    else c :: replaceInvalid cs

/-- `Utils::Fs::toValidPath`. -/
def toValidPath (name : String) : String := Q.path (String.ofList (replaceInvalid name.toList))

end PathSettings

/-! ### The state -/

/-- The fields of `LoadTorrentParams` that the session fills in from categories, tags and paths. -/
structure LoadParams where
  category : String
  tags : Finset Tag
  useAutoTMM : Bool
  savePath : String
  downloadPath : String

structure TorrentImpl extends LoadParams where
  hasMetadata : Bool
  isFinished : Bool
  hasFinishedStatus : Bool
  isMoveInProgress : Bool
  actualStorageLocation : String

structure SessionImpl where
  categories : Dict String CategoryOptions
  /-- The file of the categories. -/
  storedCategories : Dict String CategoryOptions
  tags : Finset Tag
  torrents : Dict TorrentID TorrentImpl
  loadingTorrents : Dict TorrentID LoadParams
  isSubcategoriesEnabled : Bool
  savePath : String
  downloadPath : String
  isDownloadPathEnabled : Bool
  isAutoTMMDisabledByDefault : Bool
  useCategoryPathsInManualMode : Bool
  isDisableAutoTMMWhenCategoryChanged : Bool
  isDisableAutoTMMWhenDefaultSavePathChanged : Bool
  isDisableAutoTMMWhenCategorySavePathChanged : Bool

/-- A new installation: the default settings, no category, no tag and no torrent. -/
def SessionImpl.initial (Q : PathSettings) : SessionImpl where
  categories := ∅
  storedCategories := ∅
  tags := ∅
  torrents := ∅
  loadingTorrents := ∅
  isSubcategoriesEnabled := false
  savePath := Q.downloads
  downloadPath := Q.join Q.downloads "temp"
  isDownloadPathEnabled := false
  isAutoTMMDisabledByDefault := true
  useCategoryPathsInManualMode := false
  isDisableAutoTMMWhenCategoryChanged := false
  isDisableAutoTMMWhenDefaultSavePathChanged := true
  isDisableAutoTMMWhenCategorySavePathChanged := true

/-- Signals about categories and tags. -/
inductive Signal where
  | categoryAdded (name : String)
  | categoryRemoved (name : String)
  | categoryOptionsChanged (name : String)
  | subcategoriesSupportChanged
  | tagAdded (tag : Tag)
  | tagRemoved (tag : Tag)

/-- What an operation does. -/
structure Outcome where
  session : SessionImpl
  signals : List Signal := []
  /-- The torrents whose `handleCategoryOptionsChanged` is called. -/
  handled : Finset TorrentID := ∅
  /-- The calls of `moveStorage` with their targets. -/
  moves : Dict TorrentID String := ∅

instance (t : Tag) : Decidable t.isValid := inferInstanceAs (Decidable (_ ∧ _))

namespace SessionImpl

variable (Q : PathSettings) (s : SessionImpl)

/-! ### Paths of categories -/

/-- `categoryOptions`, the default ones of a category that is not there. -/
def categoryOptions (categoryName : String) : CategoryOptions :=
  (s.categories.lookup categoryName).getD {}

/-- `categorySavePath`, with given options. -/
def categorySavePathWith (categoryName : String) (options : CategoryOptions) : String :=
  if _h : categoryName = "" then s.savePath else
    if options.savePath ≠ "" then
      if isAbsolutePath options.savePath then options.savePath
      else Q.join s.savePath options.savePath
    else if s.isSubcategoriesEnabled then
      -- an implicit path is below that of the parent
      let path := Q.toValidPath (subcategoryName categoryName)
      if isAbsolutePath path then path
      else Q.join (categorySavePathWith (parentCategoryName categoryName)
        (s.categoryOptions (parentCategoryName categoryName))) path
    else
      let path := Q.toValidPath categoryName
      if isAbsolutePath path then path else Q.join s.savePath path
termination_by categoryName.toList.length
decreasing_by exact length_parentCategoryName_lt _h

def categorySavePath (categoryName : String) : String :=
  s.categorySavePathWith Q categoryName (s.categoryOptions categoryName)

/-- The category whose download path option a category without one has. -/
def optionParent (categoryName : String) : String :=
  if s.isSubcategoriesEnabled then parentCategoryName categoryName else ""

theorem length_optionParent_lt {categoryName : String} (h : categoryName ≠ "") :
    (s.optionParent categoryName).toList.length < categoryName.toList.length := by
  rw [optionParent]
  split
  · exact length_parentCategoryName_lt h
  · refine List.length_pos_of_ne_nil fun hnil => h ?_
    rw [← String.ofList_toList (s := categoryName), hnil]

def resolveCategoryDownloadPathOption (categoryName : String)
    (option : Option DownloadPathOption) : DownloadPathOption :=
  if _h : categoryName = "" then ⟨s.isDownloadPathEnabled, ""⟩ else
    match option with
    | some option => option
    | none => resolveCategoryDownloadPathOption (s.optionParent categoryName)
      (s.categoryOptions (s.optionParent categoryName)).downloadPath
termination_by categoryName.toList.length
decreasing_by exact s.length_optionParent_lt _h

def withDownloadPathEnabled (options : CategoryOptions) : CategoryOptions :=
  match options.downloadPath with
  | some ⟨true, _⟩ => options
  | _ => { options with downloadPath := some ⟨true, ""⟩ }

/-- `categoryDownloadPath`, with given options. -/
def categoryDownloadPathWith (categoryName : String) (options : CategoryOptions) : String :=
  let option := s.resolveCategoryDownloadPathOption categoryName options.downloadPath
  if ¬ option.enabled then "" else
    if _h : categoryName = "" then s.downloadPath else
      let name := if s.isSubcategoriesEnabled then subcategoryName categoryName else categoryName
      let path := if option.path ≠ "" then option.path else Q.toValidPath name
      if isAbsolutePath path then path else
        let parentDownloadPath := categoryDownloadPathWith (s.optionParent categoryName)
          (withDownloadPathEnabled (s.categoryOptions (s.optionParent categoryName)))
        Q.join (if parentDownloadPath = "" then s.downloadPath else parentDownloadPath) path
termination_by categoryName.toList.length
decreasing_by exact s.length_optionParent_lt _h

def categoryDownloadPath (categoryName : String) : String :=
  s.categoryDownloadPathWith Q categoryName (s.categoryOptions categoryName)

def suggestedSavePath (categoryName : String) (useAutoTMM : Option Bool) : String :=
  if useAutoTMM.getD !s.isAutoTMMDisabledByDefault || s.useCategoryPathsInManualMode then
    s.categorySavePath Q categoryName
  else s.savePath

def suggestedDownloadPath (categoryName : String) (useAutoTMM : Option Bool) : String :=
  if (useAutoTMM.getD !s.isAutoTMMDisabledByDefault || s.useCategoryPathsInManualMode) &&
      s.categoryDownloadPath Q categoryName ≠ "" then
    s.categoryDownloadPath Q categoryName
  else s.downloadPath

end SessionImpl

namespace TorrentImpl

variable (Q : PathSettings) (s : SessionImpl) (t : TorrentImpl)

/-- `TorrentImpl::savePath`. -/
def effectiveSavePath : String :=
  if t.useAutoTMM then s.categorySavePath Q t.category else t.savePath

/-- `TorrentImpl::downloadPath`. -/
def effectiveDownloadPath : String :=
  if t.useAutoTMM then s.categoryDownloadPath Q t.category else t.downloadPath

/-- `adjustStorageLocation`: the target of the call of `moveStorage`, if there is one. -/
def adjustStorageLocation : Option String :=
  let downloadPath := t.effectiveDownloadPath Q s
  let targetPath := if t.isFinished || t.hasFinishedStatus || downloadPath = "" then
    t.effectiveSavePath Q s else downloadPath
  if targetPath ≠ t.actualStorageLocation || t.isMoveInProgress then some targetPath else none

/-- `setAutoTMMEnabled(false)`: the torrent keeps the paths that its category has now. -/
def disableAutoTMM : TorrentImpl × Option String :=
  if t.useAutoTMM then
    let t' : TorrentImpl :=
      { t with
        useAutoTMM := false
        savePath := s.categorySavePath Q t.category
        downloadPath := s.categoryDownloadPath Q t.category }
    (t', t'.adjustStorageLocation Q s)
  else (t, none)

def handleCategoryOptionsChanged : Option String :=
  if t.useAutoTMM then t.adjustStorageLocation Q s else none

def belongsToCategory (category : String) : Bool :=
  if t.category = "" then category = ""
  else t.category = category || (s.isSubcategoriesEnabled && isBelow category t.category)

/-- `setCategory`, for a category that the torrent may have. -/
def setCategory (category : String) : TorrentImpl × Option String :=
  if t.category = category then (t, none)
  else if category ≠ "" ∧ category ∉ s.categories then (t, none)
  else
    let r := if s.isDisableAutoTMMWhenCategoryChanged then t.disableAutoTMM Q s else (t, none)
    let t' : TorrentImpl := { r.1 with category := category }
    (t', if t'.useAutoTMM then t'.adjustStorageLocation Q s else r.2)

end TorrentImpl

namespace SessionImpl

variable (Q : PathSettings) (s : SessionImpl)

/-- Every torrent on its own: what becomes of it, and the target of its `moveStorage`. -/
def forTorrents (f : TorrentImpl → TorrentImpl × Option String) : Outcome where
  session := { s with torrents := s.torrents.filterMap fun _ t => some (f t).1 }
  moves := s.torrents.filterMap fun _ t => (f t).2

/-! ### Categories -/

/-- Torrents of the affected categories leave the automatic mode, if the user wants that. -/
def disableAffected (disable : Bool) (affected : String → Prop) [DecidablePred affected] : Outcome :=
  if disable then
    s.forTorrents fun t => if affected t.category then t.disableAutoTMM Q s else (t, none)
  else { session := s }

/-- What `loadCategories` makes of stored options. -/
def reloadOptions (options : CategoryOptions) : CategoryOptions where
  savePath := Q.path options.savePath
  downloadPath := options.downloadPath.map fun option =>
    if option.enabled then ⟨true, Q.path option.path⟩ else ⟨false, ""⟩

def storeCategories : SessionImpl := { s with storedCategories := s.categories }

/-- `addCategory`, or nothing if it returns false. -/
def addCategory (name : String) (options : CategoryOptions) : Option Outcome :=
  if name = "" then none
  else if ¬ isValidCategoryName name ∨ name ∈ s.categories then none
  else
    let parents := if s.isSubcategoriesEnabled then
      (expandCategory name).filter fun parent => parent ≠ name ∧ parent ∉ s.categories else []
    let withParents :=
      parents.foldl (fun categories parent => categories.insert parent {}) s.categories
    some
      { session := { s with categories := withParents.insert name options }.storeCategories
        signals := parents.map .categoryAdded ++ [.categoryAdded name] }

/-- The categories after `editCategory`. -/
def withOptions (name : String) (options : CategoryOptions) : SessionImpl :=
  { s with categories := s.categories.insert name options }.storeCategories

/-- `editCategory`, or nothing if it returns false. -/
def editCategory (name : String) (options : CategoryOptions) : Option Outcome :=
  match s.categories.lookup name with
  | none => none
  | some currentOptions =>
    if options = currentOptions then none else
      -- torrents are taken out of the automatic mode before the paths change
      let r₁ := s.disableAffected Q s.isDisableAutoTMMWhenCategorySavePathChanged (· = name)
      let s₂ := r₁.session.withOptions name options
      some
        { session := s₂
          signals := [.categoryOptionsChanged name]
          handled := (s₂.torrents.filter fun _ t => t.category = name).keys
          moves := r₁.moves ∪ s₂.torrents.filterMap fun _ t =>
            if t.category = name then t.handleCategoryOptionsChanged Q s₂ else none }

def subcategoriesOf (name : String) : Finset String :=
  if s.isSubcategoriesEnabled then s.categories.keys.filter fun category => isBelow name category
  else ∅

def removeCategory (name : String) : Outcome :=
  let r₁ := s.forTorrents fun t =>
    if t.belongsToCategory s name then t.setCategory Q s "" else (t, none)
  let subcategories := s.subcategoriesOf name
  let categories := (s.categories.eraseAll subcategories).erase name
  if subcategories = ∅ ∧ name ∉ s.categories then r₁ else
    { r₁ with
      session := { r₁.session with categories := categories }.storeCategories
      signals := (subcategories.sort (· ≤ ·)).map .categoryRemoved ++ [.categoryRemoved name] }

def expandCategories (categories : Dict String CategoryOptions) : Dict String CategoryOptions :=
  categories ∪ Dict.ofFinset (categories.keys.biUnion fun name => (expandCategory name).toFinset)
    fun _ => {}

/-- `loadCategories`; a file of more than a mebibyte is not read. -/
def loadCategories (fileSize : Dict String CategoryOptions → ℕ) : SessionImpl :=
  { s with
    categories := if 1024 * 1024 < fileSize s.storedCategories then ∅
      else s.storedCategories.filterMap fun _ options => some (reloadOptions Q options) }

def setSubcategoriesEnabled (fileSize : Dict String CategoryOptions → ℕ) (value : Bool) : Outcome :=
  if s.isSubcategoriesEnabled = value then { session := s } else
    let s₁ := if value then { s with categories := expandCategories s.categories }.storeCategories
      else s.loadCategories Q fileSize
    { session := { s₁ with isSubcategoriesEnabled := value }
      signals := [.subcategoriesSupportChanged] }

/-! ### Tags -/

/-- `addTag`, or nothing if it returns false. -/
def addTag (tag : Tag) : Option Outcome :=
  if ¬ tag.isValid ∨ tag ∈ s.tags then none
  else some { session := { s with tags := insert tag s.tags }, signals := [.tagAdded tag] }

def removeTag (tag : Tag) : Outcome :=
  if tag ∈ s.tags then
    { session :=
        { s with
          tags := s.tags.erase tag
          torrents := s.torrents.filterMap fun _ t => some { t with tags := t.tags.erase tag } }
      signals := [.tagRemoved tag] }
  else { session := s }

/-- `TorrentImpl::addTag` of a torrent of the session. -/
def torrentAddTag (id : TorrentID) (tag : Tag) : Outcome :=
  match s.torrents.lookup id with
  | none => { session := s }
  | some t =>
    if ¬ tag.isValid ∨ tag ∈ t.tags then { session := s } else
      let added : Option Outcome := if tag ∈ s.tags then some { session := s } else s.addTag tag
      match added with
      | none => { session := s }
      | some r =>
        { r with
          session :=
            { r.session with
              torrents := r.session.torrents.insert id { t with tags := insert tag t.tags } } }

/-- `TorrentImpl::removeTag` of a torrent of the session. -/
def torrentRemoveTag (id : TorrentID) (tag : Tag) : Outcome :=
  match s.torrents.lookup id with
  | none => { session := s }
  | some t =>
    { session :=
        { s with torrents := s.torrents.insert id { t with tags := t.tags.erase tag } } }

/-- `TorrentImpl::setCategory` of a torrent of the session. -/
def torrentSetCategory (id : TorrentID) (category : String) : Outcome :=
  match s.torrents.lookup id with
  | none => { session := s }
  | some t =>
    let r := t.setCategory Q s category
    { session := { s with torrents := s.torrents.insert id r.1 }
      moves := r.2.elim ∅ fun target => (∅ : Dict TorrentID String).insert id target }

/-! ### Adding torrents -/

/-- The fields of `AddTorrentParams` that go with categories, tags and paths. -/
structure AddTorrentParams where
  category : String
  tags : List Tag
  useAutoTMM : Option Bool
  savePath : String
  downloadPath : String
  useDownloadPath : Option Bool

/-- The tags that a torrent is added with: those that the session has or takes. -/
def addTags (tags : List Tag) : Outcome × Finset Tag :=
  tags.foldl (fun r tag =>
    if tag ∈ r.1.session.tags then (r.1, insert tag r.2)
    else match r.1.session.addTag tag with
      | none => r
      | some r' => ({ r.1 with session := r'.session, signals := r.1.signals ++ r'.signals },
          insert tag r.2)) ({ session := s }, ∅)

def takeCategory (category : String) : Outcome × String :=
  if category ≠ "" ∧ category ∉ s.categories then
    match s.addCategory category {} with
    | none => ({ session := s }, "")
    | some r => (r, category)
  else ({ session := s }, category)

def initLoadTorrentParams (params : AddTorrentParams) : Outcome × LoadParams :=
  let r₁ := s.takeCategory params.category
  let s₁ := r₁.1.session
  let category := r₁.2
  let defaultSavePath := s₁.suggestedSavePath Q category params.useAutoTMM
  let defaultDownloadPath := s₁.suggestedDownloadPath Q category params.useAutoTMM
  let useAutoTMM := params.useAutoTMM.getD
    (params.savePath = "" && params.downloadPath = "" && !s₁.isAutoTMMDisabledByDefault)
  let savePath := if useAutoTMM then "" else
    if isAbsolutePath params.savePath then params.savePath
    else Q.join defaultSavePath params.savePath
  let useDownloadPath := params.useDownloadPath.getD
    (params.downloadPath ≠ "" || s₁.isDownloadPathEnabled)
  let downloadPath := if useAutoTMM || !useDownloadPath then "" else
    if isAbsolutePath params.downloadPath then params.downloadPath
    else Q.join (if defaultDownloadPath ≠ "" then defaultDownloadPath else s₁.downloadPath)
      params.downloadPath
  let r₂ := s₁.addTags params.tags
  ({ r₂.1 with signals := r₁.1.signals ++ r₂.1.signals },
    { category, tags := r₂.2, useAutoTMM, savePath, downloadPath })

/-- `takeCategory` for a torrent that is restored, and whether the category was put back, now or for
a torrent before. -/
def restoreCategory (recovered : Finset String) (category : String) : Outcome × Bool × String :=
  if category ≠ "" ∧ category ∉ recovered ∧ category ∉ s.categories then
    match s.addCategory category {} with
    | none => ({ session := s }, false, "")
    | some r => (r, true, category)
  else ({ session := s }, category ≠ "" ∧ category ∈ recovered, category)

/-- The part of `processNextResumeData` that puts the category and the tags of stored parameters
back; `recovered` are the categories put back before.  A torrent of a recovered category whose
paths are different leaves the automatic mode. -/
def recoverCategory (recovered : Finset String) (params : LoadParams) (storageLocation : String) :
    Outcome × LoadParams × Finset String :=
  let r₁ := s.restoreCategory recovered params.category
  let s₁ := r₁.1.session
  let isCategoryRecovered := r₁.2.1
  let params₁ : LoadParams := { params with category := r₁.2.2 }
  let params₂ : LoadParams :=
    if isCategoryRecovered && params.useAutoTMM &&
        storageLocation ≠ s₁.categorySavePath Q params₁.category &&
        storageLocation ≠ s₁.categoryDownloadPath Q params₁.category then
      { params₁ with useAutoTMM := false, savePath := storageLocation, downloadPath := "" }
    else params₁
  let r₂ := s₁.addTags (((params.tags.image Tag.toString).sort (· ≤ ·)).map Tag.ofString)
  ({ r₂.1 with signals := r₁.1.signals ++ r₂.1.signals }, { params₂ with tags := r₂.2 },
    if isCategoryRecovered then insert params.category recovered else recovered)

/-- The end of `processNextResumeData`. -/
def restoreTorrent (recovered : Finset String) (id : TorrentID) (params : LoadParams)
    (storageLocation : String) : Outcome × Finset String :=
  let r := s.recoverCategory Q recovered params storageLocation
  ({ r.1 with
      session := { r.1.session with loadingTorrents := r.1.session.loadingTorrents.insert id r.2.1 } },
    r.2.2)

/-- The end of `addTorrent_impl`. -/
def addTorrent (id : TorrentID) (params : AddTorrentParams) : Outcome :=
  let r := s.initLoadTorrentParams Q params
  { r.1 with
    session := { r.1.session with loadingTorrents := r.1.session.loadingTorrents.insert id r.2 } }

/-- What libtorrent says of an added torrent. -/
structure NativeStatus where
  hasMetadata : Bool
  isFinished : Bool
  hasFinishedStatus : Bool
  savePath : String

/-- `handleAddTorrentAlert` of a torrent that is being loaded, and `createTorrent`. -/
def handleAddTorrentAlert (id : TorrentID) (status : NativeStatus) : Outcome :=
  match s.loadingTorrents.lookup id with
  | none => { session := s }
  | some params =>
    { session :=
        { s with
          loadingTorrents := s.loadingTorrents.erase id
          torrents := s.torrents.insert id
            { params with
              hasMetadata := status.hasMetadata
              isFinished := status.isFinished
              hasFinishedStatus := status.hasFinishedStatus
              isMoveInProgress := false
              actualStorageLocation := if status.hasMetadata then status.savePath else "" } } }

end SessionImpl

end QBittorrent
