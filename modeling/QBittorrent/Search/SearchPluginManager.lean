import QBittorrent.Base.Text
import QBittorrent.Lib.Dict

/-!
# Updates of search plugins

A plugin is a file; the plugins that work are those that the search engine lists in its
capabilities, an XML document.  An update puts the new file in the place of the old one, keeps a
backup meanwhile, and reloads the capabilities.

* `right_iff_listed` : when an update leaves what it should.
-/

namespace QBittorrent

open QString Finmap List

/-! ### Versions -/

/-- A version of two numbers. -/
structure PluginVersion where
  major : ℤ := 0
  minor : ℤ := 0
  deriving DecidableEq

namespace PluginVersion

def isValid (v : PluginVersion) : Bool :=
  decide (0 ≤ v.major ∧ 0 ≤ v.minor ∧ (0 < v.major ∨ 0 < v.minor))

/-- The comparison of the components. -/
def Less (v w : PluginVersion) : Prop := v.major < w.major ∨ v.major = w.major ∧ v.minor < w.minor
  deriving Decidable

theorem Less.ne {v w : PluginVersion} (h : v.Less w) : v ≠ w := by
  rintro rfl
  rcases h with h | ⟨-, h⟩ <;> exact absurd h (Int.lt_irrefl _)

def fromString (string : List Char) : PluginVersion :=
  match string.splitOn '.' with
  | [major, minor] =>
    match toInt major, toInt minor with
    | some major, some minor => ⟨major, minor⟩
    | _, _ => {}
  | _ => {}

end PluginVersion

namespace SearchPluginManager

/-- `readLine` with a largest length: the line and what follows it. -/
def readLine : ℕ → List UInt8 → List UInt8 × List UInt8
  | 0, rest => ([], rest)
  | _ + 1, [] => ([], [])
  | n + 1, c :: rest =>
    if c = 10 then ([c], rest) else (c :: (readLine n rest).1, (readLine n rest).2)

theorem length_readLine_le (n : ℕ) (content : List UInt8) :
    (readLine n content).2.length ≤ content.length := by
  induction n generalizing content with
  | zero => exact Nat.le_refl _
  | succ n ih =>
    cases content with
    | nil => exact Nat.le_refl _
    | cons c rest =>
      rw [readLine]
      by_cases hc : c = 10
      · rw [if_pos hc]
        exact Nat.le_succ _
      · rw [if_neg hc]
        exact (ih rest).trans (Nat.le_succ _)

theorem length_readLine_lt (n : ℕ) {content : List UInt8} (h : content ≠ []) :
    (readLine (n + 1) content).2.length < content.length := by
  obtain ⟨c, rest, rfl⟩ := exists_cons_of_ne_nil h
  rw [readLine]
  by_cases hc : c = 10
  · rw [if_pos hc]
    exact Nat.lt_succ_self _
  · rw [if_neg hc]
    exact Nat.lt_succ_of_le (length_readLine_le n rest)

/-- The version in the first line that begins with `#VERSION:`. -/
def getPluginVersion (content : List UInt8) : PluginVersion :=
  if _h : content = [] then {}
  else
    let line := (decodeUtf8 (readLine 16 content).1).toList.filter fun c => c ≠ ' '
    if (line.take 9).map Char.toLower = "#version:".toList then
      let version := PluginVersion.fromString (line.drop 9)
      if version.isValid then version else {}
    else getPluginVersion (readLine 16 content).2
termination_by content.length
decreasing_by exact length_readLine_lt 15 _h

end SearchPluginManager

/-! ### Capabilities -/

/-- A node of an XML document. -/
inductive Xml where
  | text (content : List Char)
  | element (tagName : List Char) (children : List Xml)
  | other

mutual

/-- `QDomElement::text`. -/
def Xml.innerText : Xml → List Char
  | .text content => content
  | .element _ children => innerTexts children
  | .other => []
termination_by structural x => x

def Xml.innerTexts : List Xml → List Char
  | [] => []
  | node :: nodes => node.innerText ++ innerTexts nodes
termination_by structural x => x

end

def Xml.hasTag (tagName : List Char) : Xml → Bool
  | .element tag _ => tag = tagName
  | _ => false

mutual

/-- The elements below a node with this tag, in document order. -/
def Xml.elementsByTagName (tagName : List Char) : Xml → List Xml
  | .element _ children => elementsIn tagName children
  | .text _ | .other => []
termination_by structural x => x

def Xml.elementsIn (tagName : List Char) : List Xml → List Xml
  | [] => []
  | node :: nodes =>
    (if node.hasTag tagName then [node] else []) ++
      (node.elementsByTagName tagName ++ elementsIn tagName nodes)
termination_by structural x => x

end

def Xml.firstText (tagName : List Char) (node : Xml) : List Char :=
  match node.elementsByTagName tagName with
  | [] => []
  | found :: _ => found.innerText

structure PluginInfo where
  name : List Char
  version : PluginVersion
  fullName : List Char
  url : List Char
  supportedCategories : List (List Char)
  iconPath : Option (List Char)
  enabled : Bool

inductive PluginSignal where
  | installed (name : List Char)
  | updated (name : List Char)
  | installationFailed (name : List Char) (reason : String)
  | updateFailed (name : List Char) (reason : String)

/-- The plugins that are installed, and the files with their contents. -/
structure SearchPluginManager where
  plugins : Dict (List Char) PluginInfo
  files : Dict (List Char) (List UInt8)

namespace SearchPluginManager

/-- Where the plugins are, and the engines that are switched off in the preferences. -/
structure Settings where
  pluginsLocation : List Char
  disabledEngines : List (List Char)

variable (settings : Settings)

def pluginFile (name extension : List Char) : List Char :=
  settings.pluginsLocation ++ '/' :: (name ++ extension)

def pluginPath (name : List Char) : List Char := pluginFile settings name ['.', 'p', 'y']

def backupPath (name : List Char) : List Char :=
  pluginPath settings name ++ ['.', 'b', 'a', 'k']

/-! ### Files -/

/-- `Utils::Fs::copyFile`: nothing is copied over a file that exists. -/
def copyFile (files : Dict (List Char) (List UInt8)) (source target : List Char) :
    Dict (List Char) (List UInt8) :=
  match files.lookup source with
  | none => files
  | some content => if target ∈ files then files else files.insert target content

def removeFile (files : Dict (List Char) (List UInt8)) (path : List Char) :
    Dict (List Char) (List UInt8) := files.erase path

/-- The version of a file; a file that cannot be opened has the empty one. -/
def versionOf (files : Dict (List Char) (List UInt8)) (path : List Char) : PluginVersion :=
  match files.lookup path with
  | none => {}
  | some content => getPluginVersion content

def iconPathOf (files : Dict (List Char) (List UInt8)) (name : List Char) : Option (List Char) :=
  if pluginFile settings name ['.', 'p', 'n', 'g'] ∈ files then
    some (pluginFile settings name ['.', 'p', 'n', 'g'])
  else if pluginFile settings name ['.', 'i', 'c', 'o'] ∈ files then
    some (pluginFile settings name ['.', 'i', 'c', 'o'])
  else none

/-! ### Reloading -/

/-- The entry for an element of the capabilities. -/
def pluginOf (files : Dict (List Char) (List UInt8)) (pluginName : List Char) (engineElem : Xml) :
    PluginInfo where
  name := pluginName
  version := versionOf files (pluginPath settings pluginName)
  fullName := engineElem.firstText ['n', 'a', 'm', 'e']
  url := engineElem.firstText ['u', 'r', 'l']
  supportedCategories :=
    (((engineElem.firstText "categories".toList).splitOn ' ').map trimmed).filter fun c => c ≠ []
  iconPath := iconPathOf settings files pluginName
  enabled := !settings.disabledEngines.contains pluginName

/-- One child of the document element. -/
def updateEngine (s : SearchPluginManager × List PluginSignal) (engineNode : Xml) :
    SearchPluginManager × List PluginSignal :=
  match engineNode with
  | .element pluginName children =>
    let plugin := pluginOf settings s.1.files pluginName (.element pluginName children)
    match s.1.plugins.lookup pluginName with
    | none =>
      ({ s.1 with plugins := s.1.plugins.insert pluginName plugin }, s.2 ++ [.installed pluginName])
    | some old =>
      if old.version ≠ plugin.version then
        ({ s.1 with plugins := s.1.plugins.insert pluginName plugin }, s.2 ++ [.updated pluginName])
      else s
  | _ => s

/-- The children of the document element, if the output is a list of capabilities. -/
def engines (capabilities : Option Xml) : List Xml :=
  match capabilities with
  | some (.element tagName children) => if tagName = "capabilities".toList then children else []
  | _ => []

/-- `update`, from the output of the search engine. -/
def update (capabilities : Option Xml) (s : SearchPluginManager) :
    SearchPluginManager × List PluginSignal :=
  (engines capabilities).foldl (updateEngine settings) (s, [])

/-! ### Installation -/

/-- The new file is copied to the place of the plugin; an old file goes to the backup first. -/
def putInPlace (files : Dict (List Char) (List UInt8)) (name path : List Char) :
    Dict (List Char) (List UInt8) :=
  let destPath := pluginPath settings name
  if destPath ∈ files then
    let saved := copyFile files destPath (backupPath settings name)
    copyFile (removeFile saved destPath) path destPath
  else copyFile files path destPath

/-- `installPlugin_impl`, from what the search engine prints when the new file is in place and, if
it is asked again, when the old one is. -/
def installPluginImpl (s : SearchPluginManager) (name path : List Char)
    (capabilities restoredCapabilities : Option Xml) : SearchPluginManager × List PluginSignal :=
  let newVersion := versionOf s.files path
  if (s.plugins.lookup name).any fun plugin => !decide (plugin.version.Less newVersion) then
    (s, [.updateFailed name "A more recent version of this plugin is already installed."])
  else
    let destPath := pluginPath settings name
    let backup := backupPath settings name
    let updated := decide (destPath ∈ s.files)
    let loaded := update settings capabilities
      { s with files := putInPlace settings s.files name path }
    if name ∉ loaded.1.plugins then
      let files := removeFile loaded.1.files destPath
      if updated then
        let files := removeFile (copyFile files backup destPath) backup
        let restored := update settings restoredCapabilities { loaded.1 with files := files }
        (restored.1,
          loaded.2 ++ restored.2 ++ [.updateFailed name "Plugin is not supported."])
      else
        ({ loaded.1 with files := files },
          loaded.2 ++ [.installationFailed name "Plugin is not supported."])
    else if updated then
      ({ loaded.1 with files := removeFile loaded.1.files backup }, loaded.2)
    else loaded

/-! ### What is meant -/

/-- The output lists the plugin. -/
def Listed (capabilities : Option Xml) (name : List Char) : Prop :=
  ∃ node ∈ engines capabilities, node.hasTag name = true

/-- The entry is that of the first element for the plugin, with the version of its file. -/
structure Describes (plugin : PluginInfo) (name : List Char) (capabilities : Option Xml)
    (content : List UInt8) : Prop where
  name_eq : plugin.name = name
  version_eq : plugin.version = getPluginVersion content
  exists_element : ∃ node, (engines capabilities).find? (fun node => node.hasTag name) = some node ∧
    plugin.fullName = node.firstText ['n', 'a', 'm', 'e'] ∧
    plugin.url = node.firstText ['u', 'r', 'l'] ∧
    plugin.supportedCategories =
      (((node.firstText "categories".toList).splitOn ' ').map trimmed).filter fun c => c ≠ []

/-- An update of an installed plugin: its entry, and a newer file at `path`. -/
structure IsUpdate (s : SearchPluginManager) (name path : List Char) (old : PluginInfo)
    (newContent : List UInt8) : Prop where
  installed : s.plugins.lookup name = some old
  newFile : s.files.lookup path = some newContent
  newer : old.version.Less (getPluginVersion newContent)

/-- What an update from `s` should leave. -/
def Right (capabilities : Option Xml) (s : SearchPluginManager) (name : List Char)
    (newContent : List UInt8) (r : SearchPluginManager × List PluginSignal) : Prop :=
  (¬ Listed capabilities name →
    r.1.files.lookup (pluginPath settings name) = s.files.lookup (pluginPath settings name) ∧
    r.1.plugins.lookup name = s.plugins.lookup name ∧ ∃ reason, .updateFailed name reason ∈ r.2) ∧
  (Listed capabilities name → r.1.files.lookup (pluginPath settings name) = some newContent ∧
    (∃ plugin, r.1.plugins.lookup name = some plugin ∧
      Describes plugin name capabilities newContent) ∧
    backupPath settings name ∉ r.1.files)

/-! ### What reloading does -/

variable {settings} {s : SearchPluginManager × List PluginSignal} {node : Xml} {nodes : List Xml}
  {name path : List Char} {capabilities : Option Xml} {signal : PluginSignal} {plugin : PluginInfo}

theorem pluginOf_version {files : Dict (List Char) (List UInt8)} :
    (pluginOf settings files name node).version = versionOf files (pluginPath settings name) := rfl

theorem updateEngine_files : (updateEngine settings s node).1.files = s.1.files := by
  cases node with
  | element pluginName children =>
    rw [updateEngine]
    cases s.1.plugins.lookup pluginName with
    | none => rfl
    | some old =>
      dsimp only
      split_ifs <;> rfl
  | text _ => rfl
  | other => rfl

theorem foldl_updateEngine_files : (nodes.foldl (updateEngine settings) s).1.files = s.1.files := by
  induction nodes generalizing s with
  | nil => rfl
  | cons node nodes ih => rw [foldl_cons, ih, updateEngine_files]

theorem updateEngine_signals (h : signal ∈ (updateEngine settings s node).2) :
    signal ∈ s.2 ∨ ∃ name, signal = .installed name ∨ signal = .updated name := by
  cases node with
  | element pluginName children =>
    rw [updateEngine] at h
    cases hlookup : s.1.plugins.lookup pluginName with
    | none =>
      rw [hlookup, mem_append, List.mem_singleton] at h
      exact h.imp_right fun heq => ⟨_, .inl heq⟩
    | some old =>
      rw [hlookup] at h
      dsimp only at h
      split_ifs at h
      · rw [mem_append, List.mem_singleton] at h
        exact h.imp_right fun heq => ⟨_, .inr heq⟩
      · exact .inl h
  | text _ => exact .inl h
  | other => exact .inl h

theorem foldl_updateEngine_signals (h : signal ∈ (nodes.foldl (updateEngine settings) s).2) :
    signal ∈ s.2 ∨ ∃ name, signal = .installed name ∨ signal = .updated name := by
  induction nodes generalizing s with
  | nil => exact .inl h
  | cons node nodes ih =>
    exact (ih h).elim updateEngine_signals .inr

theorem updateEngine_lookup_of_ne (h : node.hasTag name = false) :
    (updateEngine settings s node).1.plugins.lookup name = s.1.plugins.lookup name := by
  cases node with
  | element pluginName children =>
    have hne : name ≠ pluginName := by
      rintro rfl
      simp [Xml.hasTag] at h
    rw [updateEngine]
    cases s.1.plugins.lookup pluginName with
    | none => exact lookup_insert_of_ne _ hne
    | some old =>
      dsimp only
      split_ifs
      · exact lookup_insert_of_ne _ hne
      · rfl
  | text _ => rfl
  | other => rfl

theorem updateEngine_lookup_of_version (h : s.1.plugins.lookup name = some plugin)
    (hversion : plugin.version = versionOf s.1.files (pluginPath settings name)) :
    (updateEngine settings s node).1.plugins.lookup name = some plugin := by
  cases hnode : node.hasTag name with
  | false => rw [updateEngine_lookup_of_ne hnode, h]
  | true =>
    cases node with
    | element pluginName children =>
      obtain rfl : pluginName = name := by simpa [Xml.hasTag] using hnode
      rw [updateEngine, h]
      dsimp only
      rw [pluginOf_version, if_neg (not_not.2 hversion), h]
    | text _ => cases hnode
    | other => cases hnode

theorem foldl_updateEngine_lookup_of_version (h : s.1.plugins.lookup name = some plugin)
    (hversion : plugin.version = versionOf s.1.files (pluginPath settings name)) :
    (nodes.foldl (updateEngine settings) s).1.plugins.lookup name = some plugin := by
  induction nodes generalizing s with
  | nil => exact h
  | cons node nodes ih =>
    refine ih (updateEngine_lookup_of_version h hversion) ?_
    rw [updateEngine_files]
    exact hversion

theorem foldl_updateEngine_lookup_of_listed {old : PluginInfo}
    (h : s.1.plugins.lookup name = some old)
    (hversion : old.version ≠ versionOf s.1.files (pluginPath settings name))
    (hfind : nodes.find? (fun node => node.hasTag name) = some node) :
    (nodes.foldl (updateEngine settings) s).1.plugins.lookup name =
      some (pluginOf settings s.1.files name node) := by
  induction nodes generalizing s with
  | nil => cases hfind
  | cons first nodes ih =>
    rw [foldl_cons]
    cases hfirst : first.hasTag name with
    | false =>
      rw [find?_cons_of_neg (by simp [hfirst])] at hfind
      have := ih (s := updateEngine settings s first)
        (by rw [updateEngine_lookup_of_ne hfirst, h]) (by rwa [updateEngine_files]) hfind
      rwa [updateEngine_files] at this
    | true =>
      rw [find?_cons_of_pos hfirst, Option.some.injEq] at hfind
      subst hfind
      cases first with
      | element pluginName children =>
        obtain rfl : pluginName = name := by simpa [Xml.hasTag] using hfirst
        have hlookup : (updateEngine settings s (.element pluginName children)).1.plugins.lookup
            pluginName = some (pluginOf settings s.1.files pluginName
              (.element pluginName children)) := by
          rw [updateEngine, h]
          dsimp only
          rw [pluginOf_version, if_pos hversion]
          exact lookup_insert _
        refine foldl_updateEngine_lookup_of_version hlookup ?_
        rw [updateEngine_files]
        rfl
      | text _ => cases hfirst
      | other => cases hfirst

theorem foldl_updateEngine_mem (h : (s.1.plugins.lookup name).isSome) :
    ((nodes.foldl (updateEngine settings) s).1.plugins.lookup name).isSome := by
  induction nodes generalizing s with
  | nil => exact h
  | cons node nodes ih =>
    refine ih ?_
    cases hnode : node.hasTag name with
    | false => rwa [updateEngine_lookup_of_ne hnode]
    | true =>
      cases node with
      | element pluginName children =>
        obtain rfl : pluginName = name := by simpa [Xml.hasTag] using hnode
        rw [updateEngine]
        cases hlookup : s.1.plugins.lookup pluginName with
        | none =>
          rw [lookup_insert]
          rfl
        | some old =>
          dsimp only
          split_ifs
          · rw [lookup_insert]
            rfl
          · exact h
      | text _ => cases hnode
      | other => cases hnode

theorem update_lookup_of_listed {s : SearchPluginManager} {old : PluginInfo}
    (h : s.plugins.lookup name = some old)
    (hversion : old.version ≠ versionOf s.files (pluginPath settings name))
    (hfind : (engines capabilities).find? (fun node => node.hasTag name) = some node) :
    (update settings capabilities s).1.plugins.lookup name =
      some (pluginOf settings s.files name node) :=
  foldl_updateEngine_lookup_of_listed (s := (s, [])) h hversion hfind

theorem update_files {s : SearchPluginManager} :
    (update settings capabilities s).1.files = s.files := foldl_updateEngine_files

theorem updateFailed_not_mem_update {s : SearchPluginManager} {reason : String} :
    .updateFailed name reason ∉ (update settings capabilities s).2 := by
  intro h
  rcases foldl_updateEngine_signals h with h | ⟨_, h | h⟩
  · exact not_mem_nil h
  · cases h
  · cases h

/-! ### What becomes of the files -/

variable {files : Dict (List Char) (List UInt8)} {source target p : List Char}
  {content : List UInt8}

theorem copyFile_of_mem (h : target ∈ files) : copyFile files source target = files := by
  rw [copyFile]
  cases files.lookup source with
  | none => rfl
  | some content => exact if_pos h

theorem lookup_copyFile_target (h : target ∉ files) :
    (copyFile files source target).lookup target = files.lookup source := by
  rw [copyFile]
  cases files.lookup source with
  | none => exact lookup_eq_none.2 h
  | some content =>
    dsimp only
    rw [if_neg h]
    exact lookup_insert _

theorem lookup_copyFile_of_ne (h : p ≠ target) :
    (copyFile files source target).lookup p = files.lookup p := by
  rw [copyFile]
  cases files.lookup source with
  | none => rfl
  | some content =>
    split_ifs
    · rfl
    · exact lookup_insert_of_ne _ h

theorem not_mem_removeFile : p ∉ removeFile files p := notMem_erase_self

theorem backupPath_ne : backupPath settings name ≠ pluginPath settings name := by
  intro h
  have hlength := congrArg length h
  rw [backupPath, length_append] at hlength
  exact absurd hlength (by simp)

theorem lookup_removed_of_ne (h : files.lookup path = some content)
    (hne : path ≠ pluginPath settings name) :
    (removeFile (copyFile files (pluginPath settings name) (backupPath settings name))
      (pluginPath settings name)).lookup path = some content := by
  rw [removeFile, lookup_erase_ne hne]
  by_cases hbackup : path = backupPath settings name
  · rw [copyFile_of_mem, h]
    rw [← hbackup, ← lookup_isSome, h]
    rfl
  · rw [lookup_copyFile_of_ne hbackup, h]

theorem lookup_putInPlace (h : files.lookup path = some content)
    (hne : path ≠ pluginPath settings name) :
    (putInPlace settings files name path).lookup (pluginPath settings name) = some content := by
  rw [putInPlace]
  by_cases hmem : pluginPath settings name ∈ files
  · rw [if_pos hmem, lookup_copyFile_target not_mem_removeFile, lookup_removed_of_ne h hne]
  · rw [if_neg hmem, lookup_copyFile_target hmem, h]

theorem lookup_putInPlace_self (h : pluginPath settings name ∈ files) :
    (putInPlace settings files name (pluginPath settings name)).lookup (pluginPath settings name) =
      none := by
  rw [putInPlace, if_pos h, lookup_copyFile_target not_mem_removeFile]
  exact lookup_eq_none.2 not_mem_removeFile

theorem backupPath_mem_putInPlace (h : pluginPath settings name ∉ files) :
    backupPath settings name ∈ putInPlace settings files name path ↔
      backupPath settings name ∈ files := by
  rw [putInPlace, if_neg h, ← lookup_isSome, lookup_copyFile_of_ne backupPath_ne,
    lookup_isSome]

/-! ### Updates -/

section
variable {s : SearchPluginManager} {old : PluginInfo} {newContent : List UInt8}
  {capabilities restored : Option Xml}

def loaded (settings : Settings) (s : SearchPluginManager) (name path : List Char)
    (capabilities : Option Xml) : SearchPluginManager × List PluginSignal :=
  update settings capabilities { s with files := putInPlace settings s.files name path }

/-- The last step of an update. -/
def withoutBackup (settings : Settings) (name : List Char) (s : SearchPluginManager) :
    SearchPluginManager :=
  { s with files := removeFile s.files (backupPath settings name) }

theorem loaded_files :
    (loaded settings s name path capabilities).1.files = putInPlace settings s.files name path :=
  update_files

theorem mem_loaded (h : s.plugins.lookup name = some old) :
    name ∈ (loaded settings s name path capabilities).1.plugins := by
  rw [← lookup_isSome]
  exact foldl_updateEngine_mem (by rw [h]; rfl)

section

variable (h : IsUpdate s name path old newContent)

include h

theorem installPluginImpl_eq_of_installed :
    installPluginImpl settings s name path capabilities restored =
      if pluginPath settings name ∈ s.files then
        (withoutBackup settings name (loaded settings s name path capabilities).1,
          (loaded settings s name path capabilities).2)
      else loaded settings s name path capabilities := by
  have hversion : ((s.plugins.lookup name).any fun plugin =>
      !decide (plugin.version.Less (versionOf s.files path))) = false := by
    rw [h.installed, versionOf, h.newFile]
    simp [h.newer]
  rw [installPluginImpl, if_neg (by rw [hversion]; exact Bool.false_ne_true)]
  refine (if_neg (not_not.2 (mem_loaded h.installed))).trans ?_
  by_cases hmem : pluginPath settings name ∈ s.files
  · rw [if_pos hmem]
    exact if_pos (decide_eq_true hmem)
  · rw [if_neg hmem]
    exact if_neg (by rw [decide_eq_false hmem]; exact Bool.false_ne_true)

theorem installPluginImpl_plugins :
    (installPluginImpl settings s name path capabilities restored).1.plugins =
      (loaded settings s name path capabilities).1.plugins := by
  rw [installPluginImpl_eq_of_installed h]
  split_ifs <;> rfl

theorem installPluginImpl_signals :
    (installPluginImpl settings s name path capabilities restored).2 =
      (loaded settings s name path capabilities).2 := by
  rw [installPluginImpl_eq_of_installed h]
  split_ifs <;> rfl

theorem lookup_installPluginImpl :
    (installPluginImpl settings s name path capabilities restored).1.files.lookup
        (pluginPath settings name) =
      (putInPlace settings s.files name path).lookup (pluginPath settings name) := by
  rw [installPluginImpl_eq_of_installed h]
  by_cases hmem : pluginPath settings name ∈ s.files
  · rw [if_pos hmem]
    refine (lookup_erase_ne backupPath_ne.symm).trans ?_
    rw [loaded_files]
  · rw [if_neg hmem, loaded_files]

theorem backupPath_mem_installPluginImpl :
    backupPath settings name ∈
        (installPluginImpl settings s name path capabilities restored).1.files ↔
      pluginPath settings name ∉ s.files ∧ backupPath settings name ∈ s.files := by
  rw [installPluginImpl_eq_of_installed h]
  by_cases hmem : pluginPath settings name ∈ s.files
  · rw [if_pos hmem]
    exact iff_of_false not_mem_removeFile fun h => h.1 hmem
  · rw [if_neg hmem, loaded_files, backupPath_mem_putInPlace hmem]
    exact (and_iff_right hmem).symm

theorem lookup_installPluginImpl_iff :
    (installPluginImpl settings s name path capabilities restored).1.files.lookup
        (pluginPath settings name) = some newContent ↔ path ≠ pluginPath settings name := by
  rw [lookup_installPluginImpl h]
  constructor
  · rintro hlookup rfl
    have hmem : pluginPath settings name ∈ s.files := by
      rw [← lookup_isSome, h.newFile]
      rfl
    rw [lookup_putInPlace_self hmem] at hlookup
    cases hlookup
  · exact lookup_putInPlace h.newFile

theorem describes_installPluginImpl (hpath : path ≠ pluginPath settings name)
    (hlisted : Listed capabilities name) :
    ∃ plugin, (installPluginImpl settings s name path capabilities restored).1.plugins.lookup name =
      some plugin ∧ Describes plugin name capabilities newContent := by
  have hversion : versionOf (putInPlace settings s.files name path) (pluginPath settings name) =
      getPluginVersion newContent := by
    rw [versionOf, lookup_putInPlace h.newFile hpath]
  obtain ⟨node, hfind⟩ := Option.isSome_iff_exists.1 (find?_isSome.2 hlisted)
  refine ⟨pluginOf settings (putInPlace settings s.files name path) name node, ?_, rfl, hversion,
    node, hfind, rfl, rfl, rfl⟩
  rw [installPluginImpl_plugins h]
  refine update_lookup_of_listed h.installed ?_ hfind
  rw [hversion]
  exact h.newer.ne

end

/-- **Updates of a plugin.**  An update leaves what it should exactly when the new file is listed
and is another file than the plugin's own, and no backup of a missing file was there before. -/
theorem right_iff_listed (h : IsUpdate s name path old newContent) :
    Right settings capabilities s name newContent
        (installPluginImpl settings s name path capabilities restored) ↔
      Listed capabilities name ∧ path ≠ pluginPath settings name ∧
        (backupPath settings name ∈ s.files → pluginPath settings name ∈ s.files) := by
  constructor
  · rintro ⟨hbroken, hgood⟩
    have hlisted : Listed capabilities name := by
      by_contra hnot
      obtain ⟨-, -, reason, hreason⟩ := hbroken hnot
      rw [installPluginImpl_signals h] at hreason
      exact updateFailed_not_mem_update hreason
    obtain ⟨hfile, -, hbackup⟩ := hgood hlisted
    rw [backupPath_mem_installPluginImpl h] at hbackup
    exact ⟨hlisted, (lookup_installPluginImpl_iff h).1 hfile,
      fun hmem => by_contra fun hnot => hbackup ⟨hnot, hmem⟩⟩
  · rintro ⟨hlisted, hpath, hbackup⟩
    refine ⟨fun hnot => absurd hlisted hnot, fun _ => ⟨(lookup_installPluginImpl_iff h).2 hpath,
      describes_installPluginImpl h hpath hlisted, ?_⟩⟩
    rw [backupPath_mem_installPluginImpl h]
    exact fun hleft => hleft.1 (hbackup hleft.2)

end

/-! ### A broken update -/

def plainSettings : Settings := ⟨['p'], []⟩

/-- `#VERSION: 2.0`. -/
def newerFile : List UInt8 := [35, 86, 69, 82, 83, 73, 79, 78, 58, 32, 50, 46, 48, 10]

theorem getPluginVersion_newerFile : getPluginVersion newerFile = ⟨2, 0⟩ := by
  have hline : (decodeUtf8 (readLine 16 newerFile).1).toList.filter (fun c => c ≠ ' ') =
      ['#', 'V', 'E', 'R', 'S', 'I', 'O', 'N', ':', '2', '.', '0', Char.ofNat 10] := by
    have hread : (readLine 16 newerFile).1 = newerFile := by decide
    have hascii : newerFile.all isAscii = true := by decide
    rw [hread, decodeUtf8_of_ascii (all_eq_true.1 hascii), fromLatin1, String.toList_ofList]
    decide
  have hversion : PluginVersion.fromString ['2', '.', '0', Char.ofNat 10] = ⟨2, 0⟩ := by
    decide +kernel
  rw [getPluginVersion, dif_neg (by decide), hline]
  exact (if_pos (by decide +kernel)).trans (by rw [drop]; exact hversion)

/-- The plugin `a` of version 1.0. -/
def oldPlugin : PluginInfo := ⟨['a'], ⟨1, 0⟩, [], [], [], none, true⟩

/-- The old plugin is installed and a newer file is at `n`. -/
def beforeUpdate : SearchPluginManager where
  plugins := (∅ : Dict (List Char) PluginInfo).insert ['a'] oldPlugin
  files := ((∅ : Dict (List Char) (List UInt8)).insert ['n'] newerFile).insert
    (pluginPath plainSettings ['a']) [10]

theorem isUpdate_beforeUpdate : IsUpdate beforeUpdate ['a'] ['n'] oldPlugin newerFile where
  installed := lookup_insert _
  newFile := (lookup_insert_of_ne _ (by decide)).trans (lookup_insert _)
  newer := by
    rw [getPluginVersion_newerFile]
    decide

/-- The output of an engine that knows `a`. -/
def capabilitiesOfA : Xml := .element "capabilities".toList [.element ['a'] []]

theorem right_listed_update :
    Right plainSettings (some capabilitiesOfA) beforeUpdate ['a'] newerFile
      (installPluginImpl plainSettings beforeUpdate ['a'] ['n'] (some capabilitiesOfA) none) ↔
    Listed (some capabilitiesOfA) ['a'] ∧ ['n'] ≠ pluginPath plainSettings ['a'] ∧
      (backupPath plainSettings ['a'] ∈ beforeUpdate.files →
        pluginPath plainSettings ['a'] ∈ beforeUpdate.files) :=
  right_iff_listed isUpdate_beforeUpdate

/-- A new file that is not listed stays, and no failure is told. -/
theorem broken_update_kept :
    ¬ Right plainSettings none beforeUpdate ['a'] newerFile
      (installPluginImpl plainSettings beforeUpdate ['a'] ['n'] none none) := by
  rintro ⟨hbroken, -⟩
  have hnot : ¬ Listed none ['a'] := by
    rintro ⟨node, hnode, -⟩
    exact not_mem_nil hnode
  obtain ⟨-, -, reason, hreason⟩ := hbroken hnot
  rw [installPluginImpl_signals isUpdate_beforeUpdate] at hreason
  exact not_mem_nil hreason

end SearchPluginManager

end QBittorrent
