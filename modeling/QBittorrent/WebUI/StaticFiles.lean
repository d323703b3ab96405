import QBittorrent.Base.Path

/-!
# The files of the web interface

The path of a request is put behind the folder of the interface and the folder for those who have
logged in, or for everybody.  Files of an alternative interface have to be regular, and the
directories above them are looked at, one after the other up to the root folder, for symbolic links.

* `localPath_eq` : the names of the file;
* `safe_iff_sound` : when no link leads out of the folder.
-/

namespace QBittorrent.StaticFiles

open PathText QBittorrent.Path QtDir List Option

/-- What is asked of the file system.  Names that stand for a root, or for no directory in
particular, are no links. -/
structure FileSystem where
  /-- `QFileInfo::exists` -/
  fileExists : QString → Bool
  /-- `std::filesystem::is_regular_file` -/
  isRegularFile : QString → Bool
  /-- `QFileInfo::isSymLink` -/
  isSymLink : QString → Bool
  isSymLink_of_end : ∀ file ∈ [[], ['/'], ['.'], [':'], [':', '/']], isSymLink file = false

inductive HTTPError where
  | badRequest
  | internalServerError (message : String)
  deriving DecidableEq

/-- `QFileInfo::path`: the directory of a file, which may be a resource. -/
def infoPath (file : QString) : QString :=
  if file = [] then []
  else if file.head? = some ':' then
    if '/' ∉ file then [':']
    else if (beforeLast '/' file).length ≤ 1 then [':', '/'] else beforeLast '/' file
  else if '/' ∉ file then ['.']
  else if beforeLast '/' file = [] then ['/'] else beforeLast '/' file

/-- Those members of `WebApplication` that say where the files are. -/
structure WebApplication where
  rootFolder : Path
  isAltUIUsed : Bool

/-- `PRIVATE_FOLDER` -/
def privateFolder : QString := "/private".toList

/-- `PUBLIC_FOLDER` -/
def publicFolder : QString := "/public".toList

section Source

variable (Q : QtDir) (fs : FileSystem)

def FileSystem.existsPath (path : Path) : Bool := !path.isEmpty && fs.fileExists path.pathStr

/-- The loop over the parents: whether it meets a link, if the given number of rounds is enough. -/
def meetsLink (rootFolder : QString) : ℕ → QString → Option Bool
  | 0, _ => none
  | rounds + 1, file =>
    if infoPath file = rootFolder then some false
    else if fs.isSymLink file then some true
    else meetsLink rootFolder rounds (infoPath file)

def isRefused (path : QString) : Bool :=
  decide ('\\' ∈ path) || (QtDir.parts path).any fun item =>
    decide (item = ['.']) || decide (item = ['.', '.'])

/-- The path of the request, or of the first page. -/
def pagePath (path : QString) : QString := if path ≠ ['/'] then path else "/index.html".toList

variable (app : WebApplication) (hasSession : Bool) (path : QString)

/-- A path below one of the two folders. -/
def pathIn (folder : QString) : Path :=
  div Q (div Q app.rootFolder (ofString Q folder)) (ofString Q (pagePath path))

/-- The folder that is chosen: that for everybody, if there is no private file. -/
def chosenFolder : QString :=
  if hasSession then if fs.existsPath (pathIn Q app path privateFolder) then privateFolder else publicFolder
  else publicFolder

def localPath : Path := pathIn Q app path (chosenFolder Q fs app hasSession path)

/-- `sendWebUIFile`: the path that is handed to `sendFile`, unless the rounds of the loop are not
enough. -/
def sendWebUIFile (rounds : ℕ) : Option (Except HTTPError Path) :=
  if isRefused path then some (.error .badRequest)
  else
    let localPath := localPath Q fs app hasSession path
    if app.isAltUIUsed then
      if !fs.isRegularFile localPath.pathStr then
        some (.error (.internalServerError "Unacceptable file type, only regular file is allowed."))
      else (meetsLink fs app.rootFolder.pathStr rounds localPath.parentPath.pathStr).map fun isLink =>
        if isLink then
          .error (.internalServerError "Symlinks inside alternative UI folder are forbidden.")
        else .ok localPath
    else some (.ok localPath)

/-! ### What is asked of it -/

/-- One of the two folders. -/
def folderPath (folder : QString) : Path := div Q app.rootFolder (ofString Q folder)

def OnTheWay (folder file directory : Path) : Prop :=
  (directory = folder ∨ directory.hasAncestor folder = true) ∧ file.hasAncestor directory = true

/-- The file is where it should be. -/
structure Contained (file : Path) : Prop where
  below : file.hasAncestor (folderPath Q app publicFolder) = true ∨
    (hasSession = true ∧ file.hasAncestor (folderPath Q app privateFolder) = true)
  isRegularFile : app.isAltUIUsed = true → fs.isRegularFile file.pathStr = true
  isSymLink : app.isAltUIUsed = true → ∀ folder ∈ [privateFolder, publicFolder], ∀ directory,
    OnTheWay (folderPath Q app folder) file directory → fs.isSymLink directory.pathStr = false

/-- The loop ends, and the file that is sent is where it should be. -/
structure Safe : Prop where
  ends : ∃ rounds, (sendWebUIFile Q fs app hasSession path rounds).isSome
  contained : ∀ rounds file, sendWebUIFile Q fs app hasSession path rounds = some (.ok file) →
    Contained Q fs app hasSession file

/-- What makes it safe: the path is refused, or the file is not regular, or the search meets a link where
it has to, or it has nothing to find. -/
def Sound : Prop :=
  isRefused path = true ∨
    if app.isAltUIUsed then
      fs.isRegularFile (localPath Q fs app hasSession path).pathStr = false ∨
        if QtDir.parts (pagePath path) = [] then
          ∃ directory, (directory = app.rootFolder ∨ app.rootFolder.hasAncestor directory = true) ∧
            fs.isSymLink directory.pathStr = true
        else if app.rootFolder.pathStr = [] ∨ app.rootFolder.pathStr = [':'] then
          ∃ directory, (localPath Q fs app hasSession path).hasAncestor directory = true ∧
            fs.isSymLink directory.pathStr = true
        else
          let folder := folderPath Q app (chosenFolder Q fs app hasSession path)
          fs.isSymLink folder.pathStr = false ∨ ∃ directory, directory ≠ folder ∧
            OnTheWay folder (localPath Q fs app hasSession path) directory ∧
              fs.isSymLink directory.pathStr = true
    else QtDir.parts (pagePath path) ≠ []

end Source

variable {Q : QtDir} {fs : FileSystem} {app : WebApplication} {hasSession b : Bool} {path : QString}
  {absolute keep : Bool} {l items : List QString} {name f root file s : QString} {p d : Path}

/-! ### The names of the file -/

theorem foldl_push_filter (keep : Bool) (l stack : List QString) :
    l.foldl (push '.' keep) stack =
      (l.filter fun part => decide (part ≠ [])).foldl (push '.' keep) stack := by
  induction l generalizing stack with
  | nil => rfl
  | cons name l ih =>
    by_cases hname : name = []
    · rw [filter_cons_of_neg (by simp [hname]), foldl_cons, push_skip (.inl hname), ih]
    · rw [filter_cons_of_pos (by simp [hname]), foldl_cons, foldl_cons, ih]

theorem div_ofString (hl : IsNormal '/' '.' (keeps Q.dropsAboveRoot absolute) l)
    (hs : ∀ name ∈ QtDir.parts s, IsName '/' '.' name) :
    div Q (ofNames absolute l) (ofString Q s) = ofNames absolute (l ++ QtDir.parts s) := by
  have hlText : (ofNames absolute l).isEmpty = false := by
    simp [Path.isEmpty, pathStr_ofNames_ne_nil hl]
  rw [ofString_eq, QtDir.cleanPath, clean]
  split_ifs with hnil
  · rw [hnil]
    exact (if_pos rfl).trans (by rw [show parts [] = [] from rfl, append_nil])
  · have hnames : PathText.names '/' '.' Q.dropsAboveRoot s = parts s := by
      rw [PathText.names, PathText.normalize, foldl_push_filter]
      exact (foldl_push_names hs).trans (nil_append _)
    have hnormal : ∀ keep, IsNormal '/' '.' keep (parts s) :=
      fun _ => ⟨0, parts s, rfl, hs, fun _ => rfl⟩
    have hrhs : (ofNames (isAbsolute '/' s) (parts s)).isEmpty = false := by
      simp [Path.isEmpty, pathStr_ofNames_ne_nil (hnormal true)]
    have hsegments : ((segments '/' (ofNames (isAbsolute '/' s) (parts s)).pathStr).foldl
        (push '.' (keeps Q.dropsAboveRoot absolute)) l) = l ++ parts s := by
      rw [segments_ofNames (hnormal true)]
      by_cases hparts : parts s = []
      · rw [hparts, append_nil, if_pos rfl, if_pos rfl]
        split_ifs
        · rw [foldl_cons, foldl_cons, push_skip (.inl rfl), push_skip (.inl rfl),
            foldl_nil]
        · rw [foldl_cons, push_skip (.inr rfl), foldl_nil]
      · split_ifs
        · rw [foldl_cons, push_skip (.inl rfl), foldl_push_names hs]
        · rw [foldl_push_names hs]
    rw [hnames]
    change div Q (ofNames absolute l) (ofNames (isAbsolute '/' s) (parts s)) = _
    rw [div, if_neg (by simp [hrhs]), if_neg (by simp [hlText]), ofString_eq, ← hsegments]
    exact congrArg mk (clean_append dot_ne_slash hl _)

theorem isName_of_mem_parts (h : isRefused path = false) (hname : name ∈ QtDir.parts path) :
    IsName '/' '.' name := by
  rw [isRefused, Bool.or_eq_false_iff, List.any_eq_false] at h
  obtain ⟨hsegment, hnil⟩ := mem_filter.1 hname
  have hdots := h.2 name hname
  rw [Bool.or_eq_true, decide_eq_true_eq, decide_eq_true_eq, not_or] at hdots
  exact ⟨notMem_of_mem_segments hsegment, of_decide_eq_true hnil, hdots⟩

theorem isName_of_mem_pagePath (h : isRefused path = false)
    (hname : name ∈ QtDir.parts (pagePath path)) : IsName '/' '.' name := by
  rw [pagePath] at hname
  split_ifs at hname
  · exact isName_of_mem_parts h hname
  · have hindex : isRefused "/index.html".toList = false := by decide
    exact isName_of_mem_parts hindex hname

def RootNames (Q : QtDir) (rootFolder : Path) (absolute : Bool) (l : List QString) : Prop :=
  IsNormal '/' '.' (keeps Q.dropsAboveRoot absolute) l ∧
    (rootFolder = ofNames absolute l ∨ (rootFolder = empty ∧ absolute = true ∧ l = []))

theorem exists_rootNames (h : ∃ pathStr, app.rootFolder = ofString Q pathStr) :
    ∃ absolute l, RootNames Q app.rootFolder absolute l := by
  obtain ⟨s, hs⟩ := h
  by_cases hnil : s = []
  · exact ⟨true, [], isNormal_nil, .inr ⟨by rw [hs, hnil]; rfl, rfl, rfl⟩⟩
  · obtain ⟨absolute, l, hl, hroot⟩ := IsClean.eq_ofNames (Q := Q) (p := ofString Q s)
      (by rw [ofString_eq]; exact isPath_clean hnil)
    exact ⟨absolute, l, hl, .inl (hs.trans hroot)⟩

/-- One of the two folders is meant. -/
def IsFolder (folder : QString) : Prop := folder = privateFolder ∨ folder = publicFolder

theorem mem_folders_iff : f ∈ [privateFolder, publicFolder] ↔ IsFolder f := by
  rw [mem_cons, mem_singleton, IsFolder]

theorem IsFolder.exists_name (h : IsFolder f) : ∃ name, QtDir.parts f = [name] ∧
    IsName '/' '.' name ∧ name.head? ≠ some ':' ∧ f = (ofNames true [name]).pathStr := by
  have hrefused : isRefused f = false := by obtain rfl | rfl := h <;> decide
  have hparts : ∃ name, parts f = [name] ∧ name.head? ≠ some ':' ∧
      f = (ofNames true [name]).pathStr := by
    obtain rfl | rfl := h
    · exact ⟨"private".toList, by decide, by decide, by decide⟩
    · exact ⟨"public".toList, by decide, by decide, by decide⟩
  obtain ⟨name, hparts, hhead, htext⟩ := hparts
  exact ⟨name, hparts, isName_of_mem_parts hrefused (hparts ▸ mem_singleton_self name), hhead,
    htext⟩

theorem isFolder_chosenFolder : IsFolder (chosenFolder Q fs app hasSession path) := by
  rw [chosenFolder]
  split_ifs
  · exact .inl rfl
  · exact .inr rfl
  · exact .inr rfl

theorem folderPath_eq (hroot : RootNames Q app.rootFolder absolute l) (hf : IsFolder f)
    (hname : QtDir.parts f = [name]) : folderPath Q app f = ofNames absolute (l ++ [name]) := by
  obtain ⟨name', hname', hisName, -, htext⟩ := hf.exists_name
  obtain rfl : name' = name := singleton_injective (hname'.symm.trans hname)
  obtain ⟨hl, hroot | ⟨hroot, rfl, rfl⟩⟩ := hroot
  · rw [folderPath, hroot, div_ofString hl (by rw [hname]; simpa using hisName), hname]
  · have hnormal : IsNormal '/' '.' (keeps Q.dropsAboveRoot true) [name'] :=
      hl.append (by simpa using hisName)
    have hof : ofString Q f = ofNames true [name'] := by
      rw [ofString_eq, htext, cleanPath_ofNames hnormal]
    rw [folderPath, hroot, hof]
    rfl

theorem localPath_eq (hroot : RootNames Q app.rootFolder absolute l) (hpath : isRefused path = false)
    (hname : QtDir.parts (chosenFolder Q fs app hasSession path) = [name]) :
    localPath Q fs app hasSession path =
      ofNames absolute (l ++ name :: QtDir.parts (pagePath path)) := by
  have hchosen : IsFolder (chosenFolder Q fs app hasSession path) := isFolder_chosenFolder
  obtain ⟨name', hname', hisName, -, -⟩ := hchosen.exists_name
  obtain rfl : name' = name := singleton_injective (hname'.symm.trans hname)
  have hfolder := folderPath_eq hroot hchosen hname
  change div Q (folderPath Q app _) _ = _
  rw [hfolder, div_ofString (hroot.1.append (by simpa using hisName)) fun name hname' =>
    isName_of_mem_pagePath hpath hname', append_assoc, singleton_append]

/-! ### Ancestors -/

theorem isNormal_of_isPrefix {m : List QString} (h : IsNormal '/' '.' keep l) (hm : m <+: l) :
    IsNormal '/' '.' keep m :=
  prefix_iff_eq_take.1 hm ▸ h.take m.length

theorem append_cons_isPrefix (l : List QString) (name : QString) {r : List QString} (hr : r <+: items) :
    l ++ name :: r <+: l ++ name :: items :=
  (prefix_append_right_inj l).2 (cons_prefix_cons.2 ⟨rfl, hr⟩)

theorem hasAncestor_eq_false (h : p.pathStr.length ≤ 1) : p.hasAncestor d = false := by
  refine Bool.eq_false_iff.2 fun hd => ?_
  obtain ⟨hne, hpre⟩ := hasAncestor_iff_isPrefix.1 hd
  have hlength := hpre.length_le
  have := length_pos_of_ne_nil hne
  rw [length_append, length_singleton] at hlength
  omega

theorem exists_names_of_hasAncestor (hl : IsNormal '/' '.' keep l)
    (h : (ofNames absolute l).hasAncestor d = true) :
    ∃ m, m <+: l ∧ m ≠ [] ∧ m ≠ l ∧ d = ofNames absolute m := by
  have hnil : l ≠ [] := by
    rintro rfl
    have hfalse : (ofNames absolute []).hasAncestor d = false :=
      hasAncestor_eq_false (by cases absolute <;> decide)
    rw [hfalse] at h
    cases h
  obtain ⟨hne, hpre, hself⟩ := hasAncestor_iff_segments.1 h
  rw [segments_ofNames hl, if_neg hnil, if_neg hnil] at hpre
  have hd : d = ⟨join '/' (segments '/' d.pathStr)⟩ := by rw [join_segments]
  have hsegments : segments '/' d.pathStr ≠ [] := segments_ne_nil _
  generalize segments '/' d.pathStr = t at hpre hd hsegments
  cases absolute with
  | true =>
    obtain ⟨first, m, rfl⟩ := exists_cons_of_ne_nil hsegments
    rw [if_pos rfl, cons_prefix_cons] at hpre
    obtain ⟨rfl, hm⟩ := hpre
    have hmnil : m ≠ [] := fun hm => hne (by rw [hd, hm]; rfl)
    have hd' : d = ofNames true m := by rw [hd, join_cons [] hmnil]; rfl
    exact ⟨m, hm, hmnil, fun heq => hself (heq ▸ hd'), hd'⟩
  | false =>
    have hd' : d = ofNames false t := by rw [hd, ofNames_false hsegments]
    exact ⟨t, hpre, hsegments, fun heq => hself (heq ▸ hd'), hd'⟩

theorem onTheWay_iff (h : IsNormal '/' '.' (keeps Q.dropsAboveRoot absolute) (l ++ name :: items)) :
    OnTheWay (ofNames absolute (l ++ [name])) (ofNames absolute (l ++ name :: items)) d ↔
      ∃ r, r <+: items ∧ r ≠ items ∧ d = ofNames absolute (l ++ name :: r) := by
  have hnormal {r : List QString} (hr : r <+: items) :
      IsNormal '/' '.' (keeps Q.dropsAboveRoot absolute) (l ++ name :: r) :=
    isNormal_of_isPrefix h (append_cons_isPrefix l name hr)
  have hfolder := hnormal nil_prefix
  constructor
  · rintro ⟨hd, hfile⟩
    obtain ⟨m, hm, hmnil, hself, rfl⟩ := exists_names_of_hasAncestor h hfile
    have hmnormal : IsNormal '/' '.' (keeps Q.dropsAboveRoot absolute) m := isNormal_of_isPrefix h hm
    have hpre : l ++ [name] <+: m := by
      obtain heq | hbelow := hd
      · rw [(ofNames_injective hmnormal hfolder heq).2]
      · exact ((hasAncestor_ofNames_iff hmnormal hfolder).1 hbelow).2.1
    obtain ⟨r, rfl⟩ := hpre
    rw [append_assoc, singleton_append] at hm hself ⊢
    rw [prefix_append_right_inj, cons_prefix_cons] at hm
    exact ⟨r, hm.2, fun heq => hself (heq ▸ rfl), rfl⟩
  · rintro ⟨r, hr, hself, rfl⟩
    constructor
    · by_cases hnil : r = []
      · exact .inl (by rw [hnil])
      · exact .inr ((hasAncestor_ofNames_iff (hnormal hr) hfolder).2
          ⟨rfl, append_cons_isPrefix l name nil_prefix, by simp, by simpa using Ne.symm hnil⟩)
    · exact (hasAncestor_ofNames_iff h (hnormal hr)).2
        ⟨rfl, append_cons_isPrefix l name hr, by simp, by simpa using hself⟩

/-! ### The loop -/

theorem meetsLink_succ (rounds : ℕ) : meetsLink fs root (rounds + 1) file =
    if infoPath file = root then some false
    else if fs.isSymLink file then some true
    else meetsLink fs root rounds (infoPath file) := rfl

theorem meetsLink_of_le {n m : ℕ} (h : meetsLink fs root n file = some b) (hle : n ≤ m) :
    meetsLink fs root m file = some b := by
  induction n generalizing m file with
  | zero => cases h
  | succ n ih =>
    obtain ⟨m, rfl⟩ := Nat.exists_eq_add_of_le' (Nat.lt_of_lt_of_le (Nat.succ_pos n) hle)
    rw [meetsLink_succ] at h ⊢
    split_ifs at h ⊢
    · exact h
    · exact h
    · exact ih h (by omega)

theorem meetsLink_unique {n m : ℕ} {c : Bool} (hn : meetsLink fs root n file = some b)
    (hm : meetsLink fs root m file = some c) : b = c := by
  have hn' := meetsLink_of_le hn (Nat.le_max_left n m)
  rw [meetsLink_of_le hm (Nat.le_max_right n m)] at hn'
  exact (some_injective _ hn').symm

theorem pathStr_ofNames_concat (hl : l ≠ []) (name : QString) :
    (ofNames absolute (l ++ [name])).pathStr = (ofNames absolute l).pathStr ++ '/' :: name := by
  have happend := join_append '/' hl (cons_ne_nil name [])
  rw [join_singleton] at happend
  cases absolute with
  | true => rw [ofNames_true, ofNames_true, happend, cons_append]
  | false => rw [ofNames_false (by simp), ofNames_false hl, happend]

theorem infoPath_ofNames_concat (h : IsNormal '/' '.' keep (l ++ [name]))
    (hresource : (ofNames absolute (l ++ [name])).pathStr.head? = some ':' → l ≠ [] ∧ l ≠ [[':']]) :
    infoPath (ofNames absolute (l ++ [name])).pathStr = (ofNames absolute l).pathStr := by
  obtain ⟨hslash, hname, -⟩ := h.notMem dot_ne_slash name (by simp)
  by_cases hl : l = []
  · subst hl
    rw [nil_append] at hresource ⊢
    cases absolute with
    | true =>
      have htext : (ofNames true [name]).pathStr = [] ++ '/' :: name := by simp [ofNames_true]
      rw [htext, infoPath, if_neg (by simp), if_neg (by simp), if_neg (by simp),
        beforeLast_append hslash, if_pos rfl]
      rfl
    | false =>
      have htext : (ofNames false [name]).pathStr = name := by simp [ofNames_false]
      rw [htext] at hresource ⊢
      rw [infoPath, if_neg hname, if_neg fun hhead => (hresource hhead).1 rfl, if_pos hslash]
      rfl
  · have hlnormal : IsNormal '/' '.' keep l := isNormal_of_isPrefix h (prefix_append ..)
    have hb : (ofNames absolute l).pathStr ≠ [] := pathStr_ofNames_ne_nil hlnormal
    rw [pathStr_ofNames_concat hl] at hresource ⊢
    have hmem : '/' ∈ (ofNames absolute l).pathStr ++ '/' :: name := by simp
    rw [infoPath, if_neg (by simp), beforeLast_append hslash, if_neg hb]
    split_ifs with hhead hlength
    · exfalso
      obtain ⟨c, t, htext⟩ := exists_cons_of_ne_nil hb
      have ht : t = [] := by
        rw [htext] at hlength
        exact length_eq_zero_iff.1 (by simpa using hlength)
      have hcolon : (ofNames absolute l).pathStr = [':'] := by
        rw [htext] at hhead
        rw [htext, ht, some_injective _ hhead]
      cases absolute with
      | true => cases hcolon
      | false =>
        have hsegments : segments '/' (ofNames false l).pathStr = _ := segments_ofNames hlnormal
        rw [hcolon, if_neg Bool.false_ne_true, if_neg hl] at hsegments
        exact (hresource (by rw [hcolon]; rfl)).2 hsegments.symm
    · rfl
    · rfl

variable (fs) in
theorem meetsLink_below (h : IsNormal '/' '.' (keeps Q.dropsAboveRoot absolute) (l ++ name :: items))
    (hresource : (ofNames absolute (l ++ name :: items)).pathStr.head? = some ':' →
      l ≠ [] ∧ l ≠ [[':']]) :
    ∃ rounds isLink,
      meetsLink fs (ofNames absolute l).pathStr rounds (ofNames absolute (l ++ name :: items)).pathStr =
        some isLink ∧
      (isLink = true ↔ ∃ r, r <+: items ∧ r ≠ [] ∧
        fs.isSymLink (ofNames absolute (l ++ name :: r)).pathStr = true) := by
  induction items using reverseRecOn with
  | nil =>
    refine ⟨1, false, ?_, iff_of_false Bool.false_ne_true ?_⟩
    · rw [meetsLink_succ, if_pos (infoPath_ofNames_concat h hresource)]
    · rintro ⟨r, hr, hnil, -⟩
      exact hnil (prefix_nil.1 hr)
  | append_singleton items last ih =>
    rw [← cons_append, ← append_assoc] at h hresource ⊢
    have hresource' : (ofNames absolute (l ++ name :: items)).pathStr.head? = some ':' →
        l ≠ [] ∧ l ≠ [[':']] := fun hhead => hresource (by
      rw [pathStr_ofNames_concat (by simp), head?_append, hhead]
      rfl)
    have hnormal := isNormal_of_isPrefix h (prefix_append ..)
    have hparent : infoPath (ofNames absolute (l ++ name :: items ++ [last])).pathStr =
        (ofNames absolute (l ++ name :: items)).pathStr :=
      infoPath_ofNames_concat h fun hhead => ⟨by simp, fun heq => by
        have hlength := congrArg length heq
        have hl := length_pos_of_ne_nil (hresource hhead).1
        rw [length_append, length_cons, length_singleton] at hlength
        omega⟩
    have hne : (ofNames absolute (l ++ name :: items)).pathStr ≠ (ofNames absolute l).pathStr := by
      intro heq
      have hl := isNormal_of_isPrefix hnormal (prefix_append ..)
      have := (ofNames_injective hnormal hl (congrArg mk heq)).2
      simp at this
    obtain ⟨rounds, isLink, hrun, hiff⟩ := ih hnormal hresource'
    have hinitial (r : List QString) : r <+: items ++ [last] ↔ r <+: items ∨ r = items ++ [last] :=
      prefix_concat_iff.trans or_comm
    cases hlink : fs.isSymLink (ofNames absolute (l ++ name :: items ++ [last])).pathStr with
    | true =>
      refine ⟨1, true, ?_, iff_of_true rfl ⟨items ++ [last], prefix_rfl, by simp, ?_⟩⟩
      · rw [meetsLink_succ, hparent, if_neg hne, if_pos hlink]
      · rw [← cons_append, ← append_assoc, hlink]
    | false =>
      refine ⟨rounds + 1, isLink, ?_, hiff.trans ⟨?_, ?_⟩⟩
      · rw [meetsLink_succ, hparent, if_neg hne, if_neg (Bool.eq_false_iff.1 hlink), hrun]
      · rintro ⟨r, hr, hnil, hr'⟩
        exact ⟨r, (hinitial r).2 (.inl hr), hnil, hr'⟩
      · rintro ⟨r, hr, hnil, hr'⟩
        obtain hr | rfl := (hinitial r).1 hr
        · exact ⟨r, hr, hnil, hr'⟩
        · rw [← cons_append, ← append_assoc, hlink] at hr'
          cases hr'

variable (fs) in
theorem meetsLink_of_ne (hne : ∀ k, infoPath^[k] (infoPath file) ≠ root) :
    ((∃ k, fs.isSymLink (infoPath^[k] file) = true) →
        ∃ rounds, meetsLink fs root rounds file = some true) ∧
      ((∀ k, fs.isSymLink (infoPath^[k] file) = false) →
        ∀ rounds, meetsLink fs root rounds file = none) := by
  constructor
  · rintro ⟨k, hk⟩
    induction k generalizing file with
    | zero =>
      have hfirst : infoPath file ≠ root := hne 0
      have hlink : fs.isSymLink file = true := hk
      exact ⟨1, by rw [meetsLink_succ, if_neg hfirst, if_pos hlink]⟩
    | succ k ih =>
      have hfirst : infoPath file ≠ root := hne 0
      by_cases hlink : fs.isSymLink file = true
      · exact ⟨1, by rw [meetsLink_succ, if_neg hfirst, if_pos hlink]⟩
      · obtain ⟨rounds, hrounds⟩ := ih (fun k => hne (k + 1)) hk
        exact ⟨rounds + 1, by rw [meetsLink_succ, if_neg hfirst, if_neg hlink, hrounds]⟩
  · intro hlink rounds
    induction rounds generalizing file with
    | zero => rfl
    | succ rounds ih =>
      have hfirst : infoPath file ≠ root := hne 0
      have hfile : fs.isSymLink file = false := hlink 0
      rw [meetsLink_succ, if_neg hfirst, if_neg (Bool.eq_false_iff.1 hfile)]
      exact ih (fun k => hne (k + 1)) fun k => hlink (k + 1)

/-! ### Loops that do not meet the root folder -/

/-- The texts that are their own directories. -/
def ends : List QString := [[], ['/'], ['.'], [':'], [':', '/']]

theorem infoPath_of_mem_ends (h : file ∈ ends) : infoPath file = file := by
  simp only [ends, mem_cons, not_mem_nil, or_false] at h
  obtain rfl | rfl | rfl | rfl | rfl := h <;> decide

theorem iterate_infoPath_of_mem_ends (h : file ∈ ends) (k : ℕ) : infoPath^[k] file = file :=
  Function.iterate_fixed (infoPath_of_mem_ends h) k

theorem infoPath_of_notMem (h : '/' ∉ file) : infoPath file ∈ ends := by
  rw [infoPath]
  split_ifs <;> decide

theorem infoPath_append {b : QString} (h : '/' ∉ name) :
    infoPath (b ++ '/' :: name) = b ∨ (b ∈ ends ∧ infoPath (b ++ '/' :: name) ∈ ends) := by
  have hmem : '/' ∈ b ++ '/' :: name := by simp
  rw [infoPath, if_neg (by simp), beforeLast_append h]
  split_ifs with hhead hlength hb
  · cases b with
    | nil => decide
    | cons c b =>
      cases some_injective _ hhead
      cases b with
      | nil => decide
      | cons c b => simp at hlength
  · exact .inl rfl
  · rw [hb]
    exact .inr ⟨by decide, by decide⟩
  · exact .inl rfl

theorem hasAncestor_append {b : QString} (h : '/' ∉ name) :
    (⟨b ++ '/' :: name⟩ : Path).hasAncestor d = true ↔
      d.pathStr ≠ [] ∧ (d = ⟨b⟩ ∨ (⟨b⟩ : Path).hasAncestor d = true) := by
  obtain ⟨t⟩ := d
  rw [hasAncestor_iff_isPrefix, hasAncestor_iff_isPrefix]
  refine and_congr_right fun ht => ?_
  rw [Path.mk.injEq, and_iff_right ht]
  constructor
  · rintro ⟨rest, hrest⟩
    rw [append_assoc, singleton_append, append_eq_append_iff] at hrest
    obtain ⟨c, rfl, hc⟩ | ⟨c, rfl, hc⟩ := hrest
    · cases c with
      | nil => exact .inl (append_nil t).symm
      | cons x c =>
        cases (cons.inj hc).1
        exact .inr ⟨c, by simp⟩
    · cases c with
      | nil => exact .inl (append_nil b)
      | cons x c =>
        refine absurd ?_ h
        rw [(cons.inj hc).2]
        simp
  · rintro (rfl | hpre)
    · exact ⟨name, by simp⟩
    · exact hpre.trans (prefix_append ..)

theorem isSymLink_of_mem_ends (h : file ∈ ends)
    (hd : d = ⟨file⟩ ∨ (⟨file⟩ : Path).hasAncestor d = true) : fs.isSymLink d.pathStr = false := by
  obtain rfl | hd := hd
  · exact fs.isSymLink_of_end file h
  · simp only [ends, mem_cons, not_mem_nil, or_false] at h
    have hfalse (hlength : file.length ≤ 1) : fs.isSymLink d.pathStr = false := by
      rw [hasAncestor_eq_false (p := ⟨file⟩) hlength] at hd
      cases hd
    obtain rfl | rfl | rfl | rfl | rfl := h
    · exact hfalse (by decide)
    · exact hfalse (by decide)
    · exact hfalse (by decide)
    · exact hfalse (by decide)
    · obtain ⟨-, rfl | hd⟩ := (hasAncestor_append (b := [':']) not_mem_nil).1 hd
      · exact fs.isSymLink_of_end _ (by decide)
      · rw [hasAncestor_eq_false (p := ⟨[':']⟩) (by decide)] at hd
        cases hd

theorem exists_link_named_iff {above : Path → Prop} :
    (∃ d : Path, above d ∧ fs.isSymLink d.pathStr = true) ↔
      ∃ d : Path, (d.pathStr ≠ [] ∧ above d) ∧ fs.isSymLink d.pathStr = true := by
  constructor
  · rintro ⟨d, hd, hlink⟩
    refine ⟨d, ⟨fun hnil => ?_, hd⟩, hlink⟩
    rw [hnil, fs.isSymLink_of_end [] (by decide)] at hlink
    cases hlink
  · rintro ⟨d, ⟨-, hd⟩, hlink⟩
    exact ⟨d, hd, hlink⟩

theorem exists_link_iff (file : QString) : (∃ k, fs.isSymLink (infoPath^[k] file) = true) ↔
    ∃ d : Path, (d = ⟨file⟩ ∨ (⟨file⟩ : Path).hasAncestor d = true) ∧
      fs.isSymLink d.pathStr = true := by
  induction hn : file.length using Nat.strong_induction_on generalizing file with
  | _ n ih =>
    have hfirst : (∃ k, fs.isSymLink (infoPath^[k] file) = true) ↔ fs.isSymLink file = true ∨
        ∃ k, fs.isSymLink (infoPath^[k] (infoPath file)) = true := by
      constructor
      · rintro ⟨k, hk⟩
        cases k with
        | zero => exact .inl hk
        | succ k => exact .inr ⟨k, hk⟩
      · rintro (h | ⟨k, hk⟩)
        · exact ⟨0, h⟩
        · exact ⟨k + 1, hk⟩
    have hend (h : infoPath file ∈ ends) :
        ¬ ∃ k, fs.isSymLink (infoPath^[k] (infoPath file)) = true := by
      rintro ⟨k, hk⟩
      rw [iterate_infoPath_of_mem_ends h, fs.isSymLink_of_end _ h] at hk
      cases hk
    have hself : (∃ d : Path, (d = ⟨file⟩ ∨ (⟨file⟩ : Path).hasAncestor d = true) ∧
        fs.isSymLink d.pathStr = true) ↔ fs.isSymLink file = true ∨
          ∃ d : Path, (⟨file⟩ : Path).hasAncestor d = true ∧ fs.isSymLink d.pathStr = true := by
      constructor
      · rintro ⟨d, rfl | hd, hlink⟩
        · exact .inl hlink
        · exact .inr ⟨d, hd, hlink⟩
      · rintro (hlink | ⟨d, hd, hlink⟩)
        · exact ⟨⟨file⟩, .inl rfl, hlink⟩
        · exact ⟨d, .inr hd, hlink⟩
    rw [hfirst, hself]
    refine or_congr_right ?_
    by_cases hmem : '/' ∈ file
    · have hfile := beforeLast_append_afterLast hmem
      have hname : '/' ∉ afterLast '/' file := notMem_afterLast file
      generalize beforeLast '/' file = b at hfile
      generalize afterLast '/' file = name at hfile hname
      subst hfile
      simp only [hasAncestor_append hname]
      obtain heq | ⟨hb, hinfo⟩ := infoPath_append (b := b) hname
      · rw [heq, ih b.length (by simp at hn; omega) b rfl]
        exact exists_link_named_iff
      · refine iff_of_false (hend hinfo) ?_
        rintro ⟨d, ⟨-, hd⟩, hlink⟩
        rw [isSymLink_of_mem_ends hb hd] at hlink
        cases hlink
    · refine iff_of_false (hend (infoPath_of_notMem hmem)) ?_
      rintro ⟨d, hd, -⟩
      have hpre := (hasAncestor_iff_isPrefix.1 hd).2
      exact hmem (hpre.subset (by simp))

theorem infoPath_ne_nil (h : file ≠ []) : infoPath file ≠ [] := by
  rw [infoPath, if_neg h]
  by_cases hmem : '/' ∈ file
  · split_ifs with hhead hlength hnil
    · decide
    · exact fun hnil => hlength (by rw [hnil]; exact Nat.zero_le _)
    · decide
    · exact hnil
  · split_ifs <;> decide

theorem exists_infoPath_eq (h : ∃ t, file = ':' :: '/' :: t) : ∃ t, infoPath file = ':' :: '/' :: t := by
  obtain ⟨t, rfl⟩ := h
  have hmem : '/' ∈ ':' :: '/' :: t := by simp
  have hpre := beforeLast_isPrefix hmem
  have hhead : (':' :: '/' :: t).head? = some ':' := rfl
  rw [infoPath, if_neg (cons_ne_nil _ _), if_pos hhead, if_neg (not_not.2 hmem)]
  split_ifs with hlength
  · exact ⟨[], rfl⟩
  · obtain ⟨rest, hrest⟩ := hpre
    match hb : beforeLast '/' (':' :: '/' :: t) with
    | [] => simp [hb] at hlength
    | [c] => simp [hb] at hlength
    | c :: c' :: b =>
      rw [hb] at hrest
      obtain ⟨rfl, rfl, -⟩ := hrest
      exact ⟨b, rfl⟩

theorem iterate_infoPath_ne (h : file ∉ ends) (k : ℕ) : infoPath^[k] (infoPath file) ≠ file := by
  have hshorter (s : QString) : infoPath s ∈ ends ∨ (infoPath s).length < s.length := by
    by_cases hmem : '/' ∈ s
    · have hs := beforeLast_append_afterLast hmem
      have hname : '/' ∉ afterLast '/' s := notMem_afterLast s
      obtain heq | ⟨-, hinfo⟩ := infoPath_append (b := beforeLast '/' s) hname
      · rw [hs] at heq
        exact .inr (heq ▸ length_beforeLast_lt (ne_nil_of_mem hmem))
      · exact .inl (hs ▸ hinfo)
    · exact .inl (infoPath_of_notMem hmem)
  have hiterate : infoPath^[k] (infoPath file) ∈ ends ∨
      (infoPath^[k] (infoPath file)).length < file.length := by
    refine Function.Iterate.rec (fun s => s ∈ ends ∨ s.length < file.length) (hshorter file) ?_ k
    rintro s (hs | hs)
    · exact .inl ((infoPath_of_mem_ends hs).symm ▸ hs)
    · exact (hshorter s).imp_right fun hlt => hlt.trans hs
  intro heq
  rw [heq] at hiterate
  exact hiterate.elim h (Nat.lt_irrefl _)

variable (fs) in
theorem exists_meetsLink_iff (hne : ∀ k, infoPath^[k] (infoPath file) ≠ root) :
    ((∃ rounds isLink, meetsLink fs root rounds file = some isLink) ↔
      ∃ d : Path, (d = ⟨file⟩ ∨ (⟨file⟩ : Path).hasAncestor d = true) ∧
        fs.isSymLink d.pathStr = true) ∧
    ∀ rounds, meetsLink fs root rounds file ≠ some false := by
  obtain ⟨hlink, hnot⟩ := meetsLink_of_ne fs hne
  rw [← exists_link_iff]
  by_cases h : ∃ k, fs.isSymLink (infoPath^[k] file) = true
  · obtain ⟨rounds, hrounds⟩ := hlink h
    exact ⟨iff_of_true ⟨rounds, true, hrounds⟩ h, fun _ hfalse =>
      Bool.noConfusion (meetsLink_unique hrounds hfalse)⟩
  · have hnone := hnot fun k => Bool.eq_false_iff.2 fun hk => h ⟨k, hk⟩
    refine ⟨iff_of_false ?_ h, fun rounds hfalse => ?_⟩
    · rintro ⟨rounds, isLink, hrounds⟩
      rw [hnone] at hrounds
      cases hrounds
    · rw [hnone] at hfalse
      cases hfalse

theorem exists_meetsLink_iff_of_start (h : file = root ∨ (file ∈ ends ∧ root ∈ ends)) :
    ((∃ rounds isLink, meetsLink fs root rounds file = some isLink) ∧
        ∀ rounds, meetsLink fs root rounds file ≠ some false) ↔
      ∃ d : Path, (d = ⟨root⟩ ∨ (⟨root⟩ : Path).hasAncestor d = true) ∧
        fs.isSymLink d.pathStr = true := by
  by_cases hroot : root ∈ ends
  · have hfile : file ∈ ends := h.elim (fun heq => heq ▸ hroot) And.left
    have hnot {s : QString} (hs : s ∈ ends) :
        ¬ ∃ d : Path, (d = ⟨s⟩ ∨ (⟨s⟩ : Path).hasAncestor d = true) ∧
          fs.isSymLink d.pathStr = true := by
      rintro ⟨d, hd, hlink⟩
      rw [isSymLink_of_mem_ends hs hd] at hlink
      cases hlink
    refine iff_of_false ?_ (hnot hroot)
    rintro ⟨hends, hnever⟩
    by_cases heq : file = root
    · exact hnever 1 (by rw [meetsLink_succ, infoPath_of_mem_ends hfile, if_pos heq])
    · have hne (k : ℕ) : infoPath^[k] (infoPath file) ≠ root := by
        rw [infoPath_of_mem_ends hfile, iterate_infoPath_of_mem_ends hfile]
        exact heq
      exact hnot hfile ((exists_meetsLink_iff fs hne).1.1 hends)
  · obtain rfl : file = root := h.resolve_right fun hends => hroot hends.2
    obtain ⟨hiff, hnever⟩ := exists_meetsLink_iff fs (iterate_infoPath_ne hroot)
    rw [and_iff_left hnever, hiff]

/-! ### What is served -/

variable (Q fs app hasSession path) in
/-- The search for links above the file ends. -/
def Ends : Prop := ∃ rounds isLink, meetsLink fs app.rootFolder.pathStr rounds
  (localPath Q fs app hasSession path).parentPath.pathStr = some isLink

theorem safe_of_isRefused (h : isRefused path = true) : Safe Q fs app hasSession path := by
  have hrun (rounds : ℕ) : sendWebUIFile Q fs app hasSession path rounds = some (.error .badRequest) :=
    if_pos h
  refine ⟨⟨0, by rw [hrun]; rfl⟩, fun rounds file hfile => ?_⟩
  rw [hrun] at hfile
  cases hfile

theorem safe_iff_of_builtIn (h : isRefused path = false) (happ : app.isAltUIUsed = false) :
    Safe Q fs app hasSession path ↔
      Contained Q fs app hasSession (localPath Q fs app hasSession path) := by
  have hrun (rounds : ℕ) : sendWebUIFile Q fs app hasSession path rounds =
      some (.ok (localPath Q fs app hasSession path)) := by
    rw [sendWebUIFile, if_neg (Bool.eq_false_iff.1 h), if_neg (Bool.eq_false_iff.1 happ)]
  constructor
  · intro hsafe
    exact hsafe.contained 0 _ (hrun 0)
  · intro hcontained
    refine ⟨⟨0, by rw [hrun]; rfl⟩, fun rounds file hfile => ?_⟩
    rw [hrun] at hfile
    cases hfile
    exact hcontained

theorem safe_of_not_isRegularFile (h : isRefused path = false) (happ : app.isAltUIUsed = true)
    (hfile : fs.isRegularFile (localPath Q fs app hasSession path).pathStr = false) :
    Safe Q fs app hasSession path := by
  have hrun (rounds : ℕ) : sendWebUIFile Q fs app hasSession path rounds = some (.error
      (.internalServerError "Unacceptable file type, only regular file is allowed.")) := by
    rw [sendWebUIFile, if_neg (Bool.eq_false_iff.1 h), if_pos happ, if_pos (by rw [hfile]; rfl)]
  refine ⟨⟨0, by rw [hrun]; rfl⟩, fun rounds file hfile => ?_⟩
  rw [hrun] at hfile
  cases hfile

theorem safe_iff_of_isRegularFile (h : isRefused path = false) (happ : app.isAltUIUsed = true)
    (hfile : fs.isRegularFile (localPath Q fs app hasSession path).pathStr = true) :
    Safe Q fs app hasSession path ↔ Ends Q fs app hasSession path ∧
      ∀ rounds, meetsLink fs app.rootFolder.pathStr rounds
        (localPath Q fs app hasSession path).parentPath.pathStr = some false →
          Contained Q fs app hasSession (localPath Q fs app hasSession path) := by
  have hrun (rounds : ℕ) : sendWebUIFile Q fs app hasSession path rounds =
      (meetsLink fs app.rootFolder.pathStr rounds
        (localPath Q fs app hasSession path).parentPath.pathStr).map fun isLink =>
          if isLink then
            .error (.internalServerError "Symlinks inside alternative UI folder are forbidden.")
          else .ok (localPath Q fs app hasSession path) := by
    rw [sendWebUIFile, if_neg (Bool.eq_false_iff.1 h), if_pos happ,
      if_neg (by rw [hfile]; exact Bool.false_ne_true)]
  constructor
  · rintro ⟨⟨rounds, hends⟩, hcontained⟩
    constructor
    · rw [hrun, isSome_map] at hends
      obtain ⟨isLink, hisLink⟩ := isSome_iff_exists.1 hends
      exact ⟨rounds, isLink, hisLink⟩
    · intro rounds hfalse
      exact hcontained rounds _ (by rw [hrun, hfalse]; rfl)
  · rintro ⟨⟨rounds, isLink, hends⟩, hcontained⟩
    constructor
    · exact ⟨rounds, by rw [hrun, hends]; rfl⟩
    · intro rounds file hsent
      rw [hrun] at hsent
      obtain ⟨isLink, hisLink, hresult⟩ := map_eq_some_iff.1 hsent
      cases isLink with
      | true => cases hresult
      | false =>
        cases hresult
        exact hcontained rounds hisLink

section Names

variable (hroot : RootNames Q app.rootFolder absolute l) (hpath : isRefused path = false)
  (hname : QtDir.parts (chosenFolder Q fs app hasSession path) = [name])
include hroot hpath hname

theorem isNormal_localPath : IsNormal '/' '.' (keeps Q.dropsAboveRoot absolute)
    (l ++ name :: QtDir.parts (pagePath path)) := by
  have hchosen : IsFolder (chosenFolder Q fs app hasSession path) := isFolder_chosenFolder
  obtain ⟨name', hname', hisName, -, -⟩ := hchosen.exists_name
  obtain rfl : name' = name := singleton_injective (hname'.symm.trans hname)
  refine hroot.1.append fun n hn => ?_
  obtain rfl | hn := mem_cons.1 hn
  · exact hisName
  · exact isName_of_mem_pagePath hpath hn

theorem hasAncestor_folderPath_iff (hf : IsFolder f) :
    (localPath Q fs app hasSession path).hasAncestor (folderPath Q app f) = true ↔
      f = chosenFolder Q fs app hasSession path ∧ QtDir.parts (pagePath path) ≠ [] := by
  obtain ⟨other, hother, hisName, -, htext⟩ := hf.exists_name
  have hchosen : IsFolder (chosenFolder Q fs app hasSession path) := isFolder_chosenFolder
  obtain ⟨name', hname', -, -, htext'⟩ := hchosen.exists_name
  obtain rfl : name' = name := singleton_injective (hname'.symm.trans hname)
  have hnormal := isNormal_localPath hroot hpath hname
  have hfolder : IsNormal '/' '.' (keeps Q.dropsAboveRoot absolute) (l ++ [other]) :=
    hroot.1.append (by simpa using hisName)
  rw [localPath_eq hroot hpath hname, folderPath_eq hroot hf hother,
    hasAncestor_ofNames_iff hnormal hfolder, prefix_append_right_inj, cons_prefix_cons]
  constructor
  · rintro ⟨-, ⟨rfl, -⟩, -, hself⟩
    exact ⟨htext.trans htext'.symm, fun hnil => hself (by rw [hnil])⟩
  · rintro ⟨rfl, hparts⟩
    obtain rfl : name' = other := singleton_injective (hname'.symm.trans hother)
    exact ⟨rfl, ⟨rfl, nil_prefix⟩, by simp, by simpa using hparts.symm⟩

theorem contained_iff : Contained Q fs app hasSession (localPath Q fs app hasSession path) ↔
    QtDir.parts (pagePath path) ≠ [] ∧ (app.isAltUIUsed = true →
      fs.isRegularFile (localPath Q fs app hasSession path).pathStr = true ∧
      ∀ directory, OnTheWay (folderPath Q app (chosenFolder Q fs app hasSession path))
        (localPath Q fs app hasSession path) directory → fs.isSymLink directory.pathStr = false) := by
  have hbelow {f : QString} (hf : IsFolder f) := hasAncestor_folderPath_iff hroot hpath hname hf
  have hchosen : IsFolder (chosenFolder Q fs app hasSession path) := isFolder_chosenFolder
  constructor
  · rintro ⟨hpublic | ⟨-, hprivate⟩, hregular, hlink⟩
    · exact ⟨((hbelow (.inr rfl)).1 hpublic).2, fun happ => ⟨hregular happ, hlink happ _
        (mem_folders_iff.2 hchosen)⟩⟩
    · exact ⟨((hbelow (.inl rfl)).1 hprivate).2, fun happ => ⟨hregular happ, hlink happ _
        (mem_folders_iff.2 hchosen)⟩⟩
  · rintro ⟨hparts, hrest⟩
    refine ⟨?_, fun happ => (hrest happ).1, fun happ folder hfolder directory hway => ?_⟩
    · obtain hprivate | hpublic := hchosen
      · refine .inr ⟨?_, (hbelow (.inl rfl)).2 ⟨hprivate.symm, hparts⟩⟩
        rw [chosenFolder] at hprivate
        split_ifs at hprivate with hsession
        · exact hsession
        · exact absurd hprivate (by decide)
        · exact absurd hprivate (by decide)
      · exact .inl ((hbelow (.inr rfl)).2 ⟨hpublic.symm, hparts⟩)
    · have hf : IsFolder folder := mem_folders_iff.1 hfolder
      have hancestor : (localPath Q fs app hasSession path).hasAncestor (folderPath Q app folder) = true := by
        obtain ⟨rfl | habove, hfile⟩ := hway
        · exact hfile
        · rw [hasAncestor_iff_isPrefix] at habove hfile ⊢
          exact ⟨habove.1, habove.2.trans ((prefix_append ..).trans hfile.2)⟩
      obtain ⟨rfl, -⟩ := (hbelow hf).1 hancestor
      exact (hrest happ).2 directory hway

theorem ends_iff_of_parts_eq_nil (hparts : QtDir.parts (pagePath path) = []) :
    (Ends Q fs app hasSession path ∧ ∀ rounds, meetsLink fs app.rootFolder.pathStr rounds
        (localPath Q fs app hasSession path).parentPath.pathStr ≠ some false) ↔
      ∃ directory, (directory = app.rootFolder ∨ app.rootFolder.hasAncestor directory = true) ∧
        fs.isSymLink directory.pathStr = true := by
  have hnormal := isNormal_localPath hroot hpath hname
  have hfile := localPath_eq hroot hpath hname
  rw [hparts] at hnormal hfile
  refine exists_meetsLink_iff_of_start ?_
  rw [hfile, parentPath_ofNames_concat hnormal]
  obtain ⟨-, hroot | ⟨hroot, rfl, rfl⟩⟩ := hroot
  · rw [hroot]
    split_ifs with hnil
    · obtain ⟨rfl, rfl⟩ := hnil
      exact .inr ⟨by decide, by decide⟩
    · exact .inl rfl
  · rw [hroot, if_neg (by simp)]
    exact .inr ⟨by decide, by decide⟩

omit hroot hpath hname in
theorem exists_parentPath (h : IsNormal '/' '.' keep (l ++ name :: items)) (hitems : items ≠ []) :
    ∃ init last, items = init ++ [last] ∧ '/' ∉ last ∧
      (ofNames absolute (l ++ name :: items)).parentPath = ofNames absolute (l ++ name :: init) ∧
      ofNames absolute (l ++ name :: items) =
        ⟨(ofNames absolute (l ++ name :: init)).pathStr ++ '/' :: last⟩ := by
  obtain ⟨init, last, heq⟩ := (eq_nil_or_concat items).resolve_left hitems
  rw [concat_eq_append] at heq
  subst heq
  have happend : l ++ name :: (init ++ [last]) = l ++ name :: init ++ [last] := by simp
  rw [happend] at h ⊢
  refine ⟨init, last, rfl, (h.notMem dot_ne_slash last (by simp)).1, ?_, ?_⟩
  · rw [parentPath_ofNames_concat h, if_neg (by simp)]
  · exact congrArg mk (pathStr_ofNames_concat (by simp) last)

theorem ends_iff_of_root (hparts : QtDir.parts (pagePath path) ≠ [])
    (happ : app.rootFolder.pathStr = [] ∨ app.rootFolder.pathStr = [':']) :
    (Ends Q fs app hasSession path ↔
      ∃ directory, (localPath Q fs app hasSession path).hasAncestor directory = true ∧
        fs.isSymLink directory.pathStr = true) ∧
    ∀ rounds, meetsLink fs app.rootFolder.pathStr rounds
      (localPath Q fs app hasSession path).parentPath.pathStr ≠ some false := by
  have hnormal := isNormal_localPath hroot hpath hname
  obtain ⟨init, last, hitems, hlast, hparent, hfile⟩ := exists_parentPath hnormal hparts
  rw [← localPath_eq hroot hpath hname] at hparent hfile
  have hstartNormal : IsNormal '/' '.' (keeps Q.dropsAboveRoot absolute) (l ++ name :: init) :=
    isNormal_of_isPrefix hnormal (hitems ▸ append_cons_isPrefix l name (prefix_append ..))
  have hne : ∀ k, infoPath^[k] (infoPath (localPath Q fs app hasSession path).parentPath.pathStr) ≠
      app.rootFolder.pathStr := by
    rw [hparent]
    obtain hnil | hcolon := happ
    · have hstart : (ofNames absolute (l ++ name :: init)).pathStr ≠ [] :=
        pathStr_ofNames_ne_nil (hstartNormal)
      rw [hnil]
      exact Function.Iterate.rec (fun s => s ≠ []) (infoPath_ne_nil hstart) fun s => infoPath_ne_nil
    · have hstart : ∃ t, (ofNames absolute (l ++ name :: init)).pathStr = ':' :: '/' :: t := by
        obtain ⟨hl, hroot | ⟨hroot, -, -⟩⟩ := hroot
        · rw [hroot] at hcolon
          cases absolute with
          | true => cases hcolon
          | false =>
            have hnormal' : IsNormal '/' '.' (keeps Q.dropsAboveRoot false) [[':']] :=
              ⟨0, [[':']], rfl, by simp [IsName], fun _ => rfl⟩
            have hl' : l = [[':']] := (ofNames_injective hl hnormal' (congrArg mk hcolon)).2
            rw [hl', ofNames_false (by simp), singleton_append, join_cons _ (by simp)]
            exact ⟨_, rfl⟩
        · rw [hroot] at hcolon
          cases hcolon
      intro k
      have hk : ∃ t, infoPath^[k] (infoPath (ofNames absolute (l ++ name :: init)).pathStr) =
          ':' :: '/' :: t :=
        Function.Iterate.rec (fun s => ∃ t, s = ':' :: '/' :: t) (exists_infoPath_eq hstart)
          (fun s => exists_infoPath_eq) k
      obtain ⟨t, ht⟩ := hk
      rw [ht, hcolon]
      simp
  obtain ⟨hiff, hnever⟩ := exists_meetsLink_iff fs hne
  refine ⟨hiff.trans ?_, hnever⟩
  rw [hparent, hfile]
  simp only [hasAncestor_append hlast]
  exact exists_link_named_iff

variable (fs) in
theorem exists_meetsLink_localPath (hparts : QtDir.parts (pagePath path) ≠ [])
    (happ : ¬ (app.rootFolder.pathStr = [] ∨ app.rootFolder.pathStr = [':'])) :
    ∃ rounds isLink, meetsLink fs app.rootFolder.pathStr rounds
        (localPath Q fs app hasSession path).parentPath.pathStr = some isLink ∧
      (isLink = true ↔ ∃ directory,
        directory ≠ folderPath Q app (chosenFolder Q fs app hasSession path) ∧
          OnTheWay (folderPath Q app (chosenFolder Q fs app hasSession path))
            (localPath Q fs app hasSession path) directory ∧
          fs.isSymLink directory.pathStr = true) := by
  have hnormal := isNormal_localPath hroot hpath hname
  obtain ⟨init, last, hitems, -, hparent, -⟩ := exists_parentPath hnormal hparts
  have hfolder := folderPath_eq hroot isFolder_chosenFolder hname
  rw [← localPath_eq hroot hpath hname] at hparent
  have hinit : IsNormal '/' '.' (keeps Q.dropsAboveRoot absolute) (l ++ name :: init) :=
    isNormal_of_isPrefix hnormal (hitems ▸ append_cons_isPrefix l name (prefix_append ..))
  have hrootText : app.rootFolder = ofNames absolute l :=
    hroot.2.resolve_right fun h => happ (.inl (by rw [h.1]; rfl))
  have hresource : (ofNames absolute (l ++ name :: init)).pathStr.head? = some ':' →
      l ≠ [] ∧ l ≠ [[':']] := by
    intro hhead
    cases absolute with
    | true => simp [ofNames_true] at hhead
    | false =>
      have hchosen : IsFolder (chosenFolder Q fs app hasSession path) := isFolder_chosenFolder
      obtain ⟨name', hname', hisName, hcolon, -⟩ := hchosen.exists_name
      obtain rfl : name' = name := singleton_injective (hname'.symm.trans hname)
      constructor
      · rintro rfl
        refine hcolon ?_
        obtain ⟨c, t, rfl⟩ := exists_cons_of_ne_nil hisName.2.1
        rw [ofNames_false (by simp), nil_append] at hhead
        by_cases hnil : init = []
        · rw [hnil, join_singleton] at hhead
          exact hhead
        · rw [join_cons _ hnil] at hhead
          exact hhead
      · rintro rfl
        exact happ (.inr (by rw [hrootText]; rfl))
  obtain ⟨rounds, isLink, hrun, hiff⟩ := meetsLink_below fs hinit hresource
  refine ⟨rounds, isLink, by rw [hparent, hrootText, hrun], hiff.trans ?_⟩
  rw [hfolder, localPath_eq hroot hpath hname]
  simp only [onTheWay_iff hnormal]
  rw [hitems]
  constructor
  · rintro ⟨r, hr, hnil, hlink⟩
    refine ⟨_, fun heq => ?_, ⟨r, hr.trans (prefix_append ..), fun heq => ?_, rfl⟩, hlink⟩
    · have hinitial := append_cons_isPrefix l name hr
      have hfirst : l ++ [name] <+: l ++ name :: init := append_cons_isPrefix l name nil_prefix
      have hnames := (ofNames_injective (isNormal_of_isPrefix hinit hinitial)
        (isNormal_of_isPrefix hinit hfirst) heq).2
      exact hnil (by simpa using hnames)
    · have hlength := hr.length_le
      rw [heq, length_append, length_singleton] at hlength
      omega
  · rintro ⟨d, hself, ⟨r, hr, hne, rfl⟩, hlink⟩
    exact ⟨r, (prefix_concat_iff.1 hr).resolve_left hne, fun hnil => hself (by rw [hnil]), hlink⟩

end Names

/-- **What is served is safe** exactly if the first directory is not a link, or one below it on the way
is, where there is a part of the path and the root folder is found. -/
theorem safe_iff_sound (hroot : ∃ pathStr, app.rootFolder = ofString Q pathStr) :
    Safe Q fs app hasSession path ↔ Sound Q fs app hasSession path := by
  obtain ⟨absolute, l, hroot⟩ := exists_rootNames hroot
  by_cases hpath : isRefused path = true
  · exact iff_of_true (safe_of_isRefused hpath) (.inl hpath)
  have hrefused : isRefused path = false := Bool.eq_false_iff.2 hpath
  have hchosen : IsFolder (chosenFolder Q fs app hasSession path) := isFolder_chosenFolder
  obtain ⟨name, hname, -, -, -⟩ := hchosen.exists_name
  have hcontained := contained_iff (Q := Q) hroot hrefused hname
  rw [Sound, or_iff_right hpath]
  by_cases happ : app.isAltUIUsed = true
  · rw [if_pos happ]
    by_cases hfile : fs.isRegularFile (localPath Q fs app hasSession path).pathStr = true
    · rw [safe_iff_of_isRegularFile hrefused happ hfile,
        or_iff_right (by rw [hfile]; exact Bool.noConfusion)]
      split_ifs with hparts hends
      · rw [← ends_iff_of_parts_eq_nil hroot hrefused hname hparts]
        refine and_congr_right fun _ => forall_congr' fun rounds => ?_
        exact ⟨fun h hfalse => ((hcontained.1 (h hfalse)).1 hparts).elim, fun h hfalse => (h hfalse).elim⟩
      · obtain ⟨hiff, hnever⟩ := ends_iff_of_root hroot hrefused hname hparts hends
        rw [← hiff]
        exact and_iff_left fun rounds hfalse => (hnever rounds hfalse).elim
      · obtain ⟨rounds, isLink, hrun, hiff⟩ :=
          exists_meetsLink_localPath fs hroot hrefused hname hparts hends
        have hends' : Ends Q fs app hasSession path := ⟨rounds, isLink, hrun⟩
        cases isLink with
        | true =>
          exact iff_of_true ⟨hends', fun n hfalse => Bool.noConfusion (meetsLink_unique hrun hfalse)⟩
            (.inr (hiff.1 rfl))
        | false =>
          have hnot := fun h => Bool.false_ne_true (hiff.2 h)
          rw [or_iff_left hnot]
          constructor
          · rintro ⟨-, h⟩
            refine ((hcontained.1 (h rounds hrun)).2 happ).2 _ ⟨.inl rfl, ?_⟩
            exact (hasAncestor_folderPath_iff hroot hrefused hname hchosen).2 ⟨rfl, hparts⟩
          · intro hlink
            refine ⟨hends', fun _ _ => hcontained.2 ⟨hparts, fun _ => ⟨hfile, fun d hway => ?_⟩⟩⟩
            by_cases hself : d = folderPath Q app (chosenFolder Q fs app hasSession path)
            · exact hself ▸ hlink
            · exact Bool.eq_false_iff.2 fun hd => hnot ⟨d, hself, hway, hd⟩
    · exact iff_of_true (safe_of_not_isRegularFile hrefused happ (Bool.eq_false_iff.2 hfile))
        (.inl (Bool.eq_false_iff.2 hfile))
  · rw [if_neg happ, safe_iff_of_builtIn hrefused (Bool.eq_false_iff.2 happ), hcontained]
    exact and_iff_left fun h => absurd h happ

/-- An alternative interface in `/ui` with a style sheet, and a file that comes from a directory
behind a link. -/
def linkedImages : FileSystem where
  fileExists _ := true
  isRegularFile _ := true
  isSymLink file := decide (file = "/ui/public/images".toList)
  isSymLink_of_end := by decide

theorem safe_linkedImages :
    Safe Path.userDir linkedImages ⟨⟨"/ui".toList⟩, true⟩ false "/images/logo.png".toList ∧
      Safe Path.userDir linkedImages ⟨⟨"/ui".toList⟩, true⟩ false "/css/style.css".toList := by
  have hroot : ∃ pathStr, (⟨"/ui".toList⟩ : Path) = ofString userDir pathStr :=
    ⟨"/ui".toList, by decide⟩
  constructor
  · refine (safe_iff_sound hroot).2 (.inr ?_)
    exact .inr (.inl (by decide))
  · refine (safe_iff_sound hroot).2 (.inr ?_)
    exact .inr (.inl (by decide))

/-- The first directory is itself a link. -/
def linkedFolder : FileSystem where
  fileExists _ := true
  isRegularFile _ := true
  isSymLink file := decide (file = "/ui/public".toList)
  isSymLink_of_end := by decide

theorem not_safe_linkedFolder :
    ¬ ∀ (Q : QtDir) (fs : FileSystem) (app : WebApplication) (hasSession : Bool) (path : QString),
      (∃ pathStr, app.rootFolder = ofString Q pathStr) → Safe Q fs app hasSession path := by
  intro h
  have hsafe := h userDir linkedFolder ⟨⟨"/ui".toList⟩, true⟩ false "/passwords.txt".toList
    ⟨"/ui".toList, by decide⟩
  have hsent := hsafe.contained 1 ⟨"/ui/public/passwords.txt".toList⟩ (by decide)
  have hlink := hsent.isSymLink rfl publicFolder (mem_folders_iff.2 (.inr rfl)) ⟨"/ui/public".toList⟩
    ⟨.inl (by decide), by decide⟩
  revert hlink
  decide

end QBittorrent.StaticFiles
