import QBittorrent.Session.Category

/-!
# Changes of the default paths and of the paths of a category

A torrent in automatic mode is where the paths of its category say.  When the default save path, the
default download path or the options of a category change, the session either takes the torrents
that this would move out of automatic mode, or tells them of the change; which ones these are it
finds without computing a path.

* `DiffersAt.categorySavePath`, `DiffersAt.categoryDownloadPath`: where a category is follows the
  ancestor that changes, along the parts between the two
* `pathsKept_iff`: when each of the three setters finds the right torrents
-/

namespace QBittorrent

open Option Finmap

namespace SessionImpl

variable (Q : PathSettings) (s : SessionImpl)

/-- The session with another default save path. -/
def withSavePath (path : String) : SessionImpl := { s with savePath := path }

/-- The session with another default download path. -/
def withDownloadPath (path : String) : SessionImpl := { s with downloadPath := path }

/-- `setSavePath` takes a relative path from the standard directory. -/
def resolveSavePath (path : String) : String :=
  if isAbsolutePath path then path else Q.join Q.downloads path

/-- The default category and those with a relative save path. -/
def affectedBySavePath (categoryName : String) : Prop :=
  categoryName = "" ∨ ∃ options, s.categories.lookup categoryName = some options ∧
    ¬ isAbsolutePath options.savePath = true

instance (categoryName : String) : Decidable (s.affectedBySavePath categoryName) :=
  match h : s.categories.lookup categoryName with
  | none => decidable_of_iff (categoryName = "") (by simp [affectedBySavePath, h])
  | some options => decidable_of_iff (categoryName = "" ∨ ¬ isAbsolutePath options.savePath = true)
    (by simp [affectedBySavePath, h])

/-- Every torrent is told of the change. -/
def notifyAll (r : Outcome) (s' : SessionImpl) : Outcome where
  session := s'
  handled := s'.torrents.keys
  moves := r.moves ∪ s'.torrents.filterMap fun _ t => t.handleCategoryOptionsChanged Q s'

def setSavePath (path : String) : Outcome :=
  let newPath := resolveSavePath Q path
  if newPath = s.savePath then { session := s } else
    let r := s.disableAffected Q s.isDisableAutoTMMWhenDefaultSavePathChanged s.affectedBySavePath
    notifyAll Q r (r.session.withSavePath newPath)

/-- `setDownloadPath` takes a relative path from a directory in the default one. -/
def resolveDownloadPath (path : String) : String :=
  if isAbsolutePath path then path else Q.join (Q.join s.savePath "temp") path

/-- The default category and those with a relative download path; the default download path stands
for that of a category without one of its own. -/
def affectedByDownloadPath (categoryName : String) : Prop :=
  categoryName = "" ∨ ∃ options, s.categories.lookup categoryName = some options ∧
    (options.downloadPath.getD ⟨s.isDownloadPathEnabled, s.downloadPath⟩).enabled = true ∧
    ¬ isAbsolutePath (options.downloadPath.getD ⟨s.isDownloadPathEnabled, s.downloadPath⟩).path = true

instance (categoryName : String) : Decidable (s.affectedByDownloadPath categoryName) :=
  match h : s.categories.lookup categoryName with
  | none => decidable_of_iff (categoryName = "") (by simp [affectedByDownloadPath, h])
  | some options => decidable_of_iff (categoryName = "" ∨
      (options.downloadPath.getD ⟨s.isDownloadPathEnabled, s.downloadPath⟩).enabled = true ∧
      ¬ isAbsolutePath (options.downloadPath.getD ⟨s.isDownloadPathEnabled, s.downloadPath⟩).path =
        true)
    (by simp [affectedByDownloadPath, h])

def setDownloadPath (path : String) : Outcome :=
  let newPath := s.resolveDownloadPath Q path
  if newPath = s.downloadPath then { session := s } else
    let r := s.disableAffected Q s.isDisableAutoTMMWhenDefaultSavePathChanged
      s.affectedByDownloadPath
    notifyAll Q r (r.session.withDownloadPath newPath)

end SessionImpl

/-! ### What a category takes over -/

/-- Paths appended one after the other. -/
def PathSettings.joinAll (Q : PathSettings) (base : String) (parts : List String) : String :=
  parts.foldl Q.join base

/-- `QDir::cleanPath` leaves something of a path. -/
def PathSettings.KeepsNonempty (Q : PathSettings) : Prop :=
  ∀ path, path ≠ "" → Q.cleanPath path ≠ ""

namespace SessionImpl

variable (Q : PathSettings) (s : SessionImpl)

/-- The path below that of its parent which a category has without one of its own. -/
def implicitPath (category : String) : String :=
  Q.toValidPath (if s.isSubcategoriesEnabled then subcategoryName category else category)

/-- The parts that lead from the save path of `top` to that of the category, unless this is taken
from elsewhere.  The default save path is that of the category `""`. -/
def savePathParts (top category : String) : Option (List String) :=
  if category = top then some [] else if _h : category = "" then none else
    let own := (s.categoryOptions category).savePath
    if own ≠ "" then
      -- a relative path of its own starts from the default one
      if isAbsolutePath own ∨ top ≠ "" then none else some [own]
    else if isAbsolutePath (s.implicitPath Q category) then none
    else (savePathParts top (s.optionParent category)).map (· ++ [s.implicitPath Q category])
termination_by category.toList.length
decreasing_by exact s.length_optionParent_lt _h

/-- The option that the category has or takes over. -/
def downloadPathOption (category : String) : DownloadPathOption :=
  s.resolveCategoryDownloadPathOption category (s.categoryOptions category).downloadPath

/-- The category takes over the option of `top`. -/
def inheritsOption (top category : String) : Bool :=
  if category = top then true else if _h : category = "" then false else
    (s.categoryOptions category).downloadPath.isNone && inheritsOption top (s.optionParent category)
termination_by category.toList.length
decreasing_by exact s.length_optionParent_lt _h

/-- Where the download paths of its children are, as if its own were enabled. -/
def downloadPlaceWith (category : String) (options : CategoryOptions) : String :=
  let path := s.categoryDownloadPathWith Q category (withDownloadPathEnabled options)
  if path = "" then s.downloadPath else path

def downloadPlace (category : String) : String :=
  s.downloadPlaceWith Q category (s.categoryOptions category)

/-- The text of an option, or the implicit path. -/
def pathOf (category path : String) : String :=
  if path ≠ "" then path else s.implicitPath Q category

def enabledPath (options : CategoryOptions) : String :=
  match options.downloadPath with
  | some ⟨true, path⟩ => path
  | _ => ""

/-- The parts that lead from the place of `top` to that of the category. -/
def downloadPlaceParts (top category : String) : Option (List String) :=
  if category = top then some [] else if _h : category = "" then none else
    let path := s.pathOf Q category (enabledPath (s.categoryOptions category))
    if isAbsolutePath path then none
    else (downloadPlaceParts top (s.optionParent category)).map (· ++ [path])
termination_by category.toList.length
decreasing_by exact s.length_optionParent_lt _h

/-- The parts that lead from the place of `top` to the download path of a category with `option`. -/
def downloadPathParts (top category : String) (option : DownloadPathOption) :
    Option (List String) :=
  let path := s.pathOf Q category option.path
  if option.enabled ∧ ¬ isAbsolutePath path = true then
    (s.downloadPlaceParts Q top (s.optionParent category)).map (· ++ [path])
  else none

/-- The download path of a category with `option`, the place of `top` being `place`. -/
def downloadPathFrom (top category : String) (option : DownloadPathOption) (place : String) :
    String :=
  (s.downloadPathParts Q top category option).elim
    (s.categoryDownloadPathWith Q category { downloadPath := some option }) (Q.joinAll place)

end SessionImpl

namespace SessionImpl

variable {Q : PathSettings} {s s' : SessionImpl} {top c : String} {option : DownloadPathOption}

theorem category_induction {P : String → Prop} (s : SessionImpl)
    (h : ∀ c, (c ≠ "" → P (s.optionParent c)) → P c) (c : String) : P c := by
  induction hn : c.toList.length using Nat.strong_induction_on generalizing c with
  | _ n ih =>
    subst hn
    exact h c fun hc => ih _ (s.length_optionParent_lt hc) _ rfl

theorem joinAll_append (base : String) (parts : List String) (path : String) :
    Q.joinAll base (parts ++ [path]) = Q.join (Q.joinAll base parts) path := by
  rw [PathSettings.joinAll, List.foldl_append]
  rfl

theorem elim_map_append (o : Option (List String)) (rest base path : String) :
    (o.map (· ++ [path])).elim (Q.join rest path) (Q.joinAll base) =
      Q.join (o.elim rest (Q.joinAll base)) path := by
  cases o with
  | none => rfl
  | some parts => exact joinAll_append base parts path

theorem path_ne_empty (hQ : Q.KeepsNonempty) {path : String} (h : path ≠ "") :
    Q.path path ≠ "" := by
  rw [PathSettings.path]
  split_ifs
  · exact hQ path h
  · exact h

theorem join_ne_empty (hQ : Q.KeepsNonempty) {lhs : String} (rhs : String) (h : lhs ≠ "") :
    Q.join lhs rhs ≠ "" := by
  rw [PathSettings.join, if_neg h]
  split_ifs
  · exact h
  · refine path_ne_empty hQ fun hnil => ?_
    have hlength := congrArg String.length hnil
    rw [String.length_append, String.length_append] at hlength
    have hslash : ("/" : String).length = 1 := rfl
    have hempty : ("" : String).length = 0 := rfl
    omega

/-! ### The paths from their parts -/

theorem categorySavePath_empty : s.categorySavePath Q "" = s.savePath := by
  rw [categorySavePath, categorySavePathWith.eq_def, dif_pos rfl]

theorem categorySavePathWith_of_ne (hc : c ≠ "") (options : CategoryOptions) :
    s.categorySavePathWith Q c options =
      if options.savePath ≠ "" then
        if isAbsolutePath options.savePath then options.savePath else Q.join s.savePath options.savePath
      else if isAbsolutePath (s.implicitPath Q c) then s.implicitPath Q c
      else Q.join (s.categorySavePath Q (s.optionParent c)) (s.implicitPath Q c) := by
  rw [categorySavePathWith.eq_def, dif_neg hc, implicitPath, optionParent]
  by_cases hs : s.isSubcategoriesEnabled = true
  · simp only [if_pos hs, categorySavePath]
  · simp only [if_neg hs, categorySavePath_empty]

theorem categoryDownloadPathWith_empty (options : CategoryOptions) :
    s.categoryDownloadPathWith Q "" options =
      if s.isDownloadPathEnabled then s.downloadPath else "" := by
  rw [categoryDownloadPathWith.eq_def, resolveCategoryDownloadPathOption.eq_def, dif_pos rfl]
  cases s.isDownloadPathEnabled <;> simp

theorem categoryDownloadPathWith_of_ne (hc : c ≠ "") (options : CategoryOptions)
    (hoption : s.resolveCategoryDownloadPathOption c options.downloadPath = option) :
    s.categoryDownloadPathWith Q c options =
      if option.enabled then
        if isAbsolutePath (s.pathOf Q c option.path) then s.pathOf Q c option.path
        else Q.join (s.downloadPlace Q (s.optionParent c)) (s.pathOf Q c option.path)
      else "" := by
  rw [categoryDownloadPathWith.eq_def, hoption]
  simp only [dif_neg hc]
  cases option.enabled with
  | true => rfl
  | false => rfl

theorem resolveCategoryDownloadPathOption_some (hc : c ≠ "") (option : DownloadPathOption) :
    s.resolveCategoryDownloadPathOption c (some option) = option := by
  rw [resolveCategoryDownloadPathOption.eq_def, dif_neg hc]

theorem withDownloadPathEnabled_downloadPath (options : CategoryOptions) :
    (withDownloadPathEnabled options).downloadPath = some ⟨true, enabledPath options⟩ := by
  obtain ⟨_, _ | ⟨_ | _, _⟩⟩ := options <;> rfl

theorem downloadPlaceWith_empty (options : CategoryOptions) :
    s.downloadPlaceWith Q "" options = s.downloadPath := by
  rw [downloadPlaceWith, categoryDownloadPathWith_empty]
  split_ifs <;> simp_all

theorem downloadPlace_empty : s.downloadPlace Q "" = s.downloadPath := downloadPlaceWith_empty _

theorem downloadPath_eq_empty (h : s.downloadPlace Q c = "") : s.downloadPath = "" := by
  rw [downloadPlace, downloadPlaceWith] at h
  split_ifs at h with hpath
  · exact h
  · exact absurd h hpath

theorem downloadPlaceWith_of_ne (hQ : Q.KeepsNonempty) (hc : c ≠ "") (options : CategoryOptions) :
    s.downloadPlaceWith Q c options =
      if isAbsolutePath (s.pathOf Q c (enabledPath options)) then s.pathOf Q c (enabledPath options)
      else Q.join (s.downloadPlace Q (s.optionParent c)) (s.pathOf Q c (enabledPath options)) := by
  rw [downloadPlaceWith, categoryDownloadPathWith_of_ne hc _
    (by rw [withDownloadPathEnabled_downloadPath, resolveCategoryDownloadPathOption_some hc]),
    if_pos rfl]
  set path := s.pathOf Q c (enabledPath options)
  by_cases habs : isAbsolutePath path = true
  · rw [if_pos habs, if_neg fun hnil => absurd (hnil ▸ habs) (by decide)]
  · rw [if_neg habs]
    split_ifs with hnil
    · -- then there is no default path either
      rw [hnil]
      by_contra hne
      exact join_ne_empty hQ path (fun h => hne (downloadPath_eq_empty h)) hnil
    · rfl

/-! ### Sessions that differ in one category -/

/-- The sessions differ in the options of `top` alone, or in the default paths, which are those of
the category `""`. -/
structure DiffersAt (s s' : SessionImpl) (top : String) : Prop where
  options : ∀ c, c ≠ top → s'.categoryOptions c = s.categoryOptions c
  subcategories : s'.isSubcategoriesEnabled = s.isSubcategoriesEnabled
  enabled : s'.isDownloadPathEnabled = s.isDownloadPathEnabled
  savePath : top ≠ "" → s'.savePath = s.savePath
  downloadPath : top ≠ "" → s'.downloadPath = s.downloadPath

namespace DiffersAt

theorem refl (s : SessionImpl) (top : String) : DiffersAt s s top :=
  ⟨fun _ _ => rfl, rfl, rfl, fun _ => rfl, fun _ => rfl⟩

variable (h : DiffersAt s s' top) {c : String}

include h

theorem implicitPath (c : String) : s'.implicitPath Q c = s.implicitPath Q c := by
  rw [SessionImpl.implicitPath, SessionImpl.implicitPath, h.subcategories]

theorem optionParent (c : String) : s'.optionParent c = s.optionParent c := by
  rw [SessionImpl.optionParent, SessionImpl.optionParent, h.subcategories]

theorem pathOf (c path : String) : s'.pathOf Q c path = s.pathOf Q c path := by
  rw [SessionImpl.pathOf, SessionImpl.pathOf, h.implicitPath]

/-- The save path follows that of `top`. -/
theorem categorySavePath (c : String) :
    s'.categorySavePath Q c =
      (s.savePathParts Q top c).elim (s.categorySavePath Q c)
        (Q.joinAll (s'.categorySavePath Q top)) := by
  induction c using category_induction s with
  | h c ih =>
    rw [savePathParts]
    by_cases htop : c = top
    · rw [if_pos htop, htop]
      rfl
    · rw [if_neg htop]
      by_cases hc : c = ""
      · subst hc
        rw [dif_pos rfl, categorySavePath_empty, h.savePath (Ne.symm htop)]
        exact categorySavePath_empty.symm
      · rw [dif_neg hc, SessionImpl.categorySavePath, SessionImpl.categorySavePath,
          h.options c htop, categorySavePathWith_of_ne hc, categorySavePathWith_of_ne hc,
          h.implicitPath, h.optionParent, ih hc]
        by_cases hown : (s.categoryOptions c).savePath = ""
        · simp only [hown, ne_eq, not_true_eq_false, if_false]
          split_ifs
          · rfl
          · exact (elim_map_append _ _ _ _).symm
        · simp only [hown, ne_eq, not_false_eq_true, if_true]
          by_cases habs : isAbsolutePath (s.categoryOptions c).savePath = true
          · rw [if_pos habs, if_pos habs, if_pos (.inl habs)]
            rfl
          · rw [if_neg habs, if_neg habs]
            by_cases htop' : top = ""
            · subst htop'
              rw [if_neg (by simp [habs]), categorySavePath_empty]
              rfl
            · rw [h.savePath htop', if_pos (.inr htop')]
              rfl

theorem categorySavePath_iff (c : String) :
    s'.categorySavePath Q c = s.categorySavePath Q c ↔
      ∀ parts ∈ s.savePathParts Q top c,
        Q.joinAll (s'.categorySavePath Q top) parts = Q.joinAll (s.categorySavePath Q top) parts := by
  rw [h.categorySavePath, (refl s top).categorySavePath c]
  cases s.savePathParts Q top c <;> simp

theorem downloadPathOption (c : String) : s'.downloadPathOption c =
    if s.inheritsOption top c then s'.downloadPathOption top else s.downloadPathOption c := by
  induction c using category_induction s with
  | h c ih =>
    rw [inheritsOption]
    by_cases htop : c = top
    · simp [htop]
    · rw [if_neg htop]
      simp only [SessionImpl.downloadPathOption, h.options c htop] at ih ⊢
      rw [resolveCategoryDownloadPathOption.eq_def s', resolveCategoryDownloadPathOption.eq_def s c]
      by_cases hc : c = ""
      · simp [hc, h.enabled]
      · rw [dif_neg hc, dif_neg hc, dif_neg hc]
        cases (s.categoryOptions c).downloadPath with
        | some option => simp
        | none =>
          rw [h.optionParent]
          simpa using ih hc

/-- Where download paths start follows that of `top`. -/
theorem downloadPlace (hQ : Q.KeepsNonempty) (c : String) :
    s'.downloadPlace Q c =
      (s.downloadPlaceParts Q top c).elim (s.downloadPlace Q c)
        (Q.joinAll (s'.downloadPlace Q top)) := by
  induction c using category_induction s with
  | h c ih =>
    rw [downloadPlaceParts]
    by_cases htop : c = top
    · rw [if_pos htop, htop]
      rfl
    · rw [if_neg htop]
      by_cases hc : c = ""
      · subst hc
        rw [dif_pos rfl, downloadPlace_empty, h.downloadPath (Ne.symm htop)]
        exact downloadPlace_empty.symm
      · rw [dif_neg hc, SessionImpl.downloadPlace, SessionImpl.downloadPlace, h.options c htop,
          downloadPlaceWith_of_ne hQ hc, downloadPlaceWith_of_ne hQ hc, h.pathOf, h.optionParent,
          ih hc]
        dsimp only
        split_ifs
        · rfl
        · exact (elim_map_append _ _ _ _).symm

theorem categoryDownloadPath (hQ : Q.KeepsNonempty) (hc : c ≠ "") :
    s'.categoryDownloadPath Q c =
      s.downloadPathFrom Q top c
        (if s.inheritsOption top c then s'.downloadPathOption top else s.downloadPathOption c)
        (s'.downloadPlace Q top) := by
  rw [downloadPathFrom, downloadPathParts,
    categoryDownloadPathWith_of_ne hc _ (resolveCategoryDownloadPathOption_some hc _),
    SessionImpl.categoryDownloadPath,
    categoryDownloadPathWith_of_ne hc (s'.categoryOptions c) (h.downloadPathOption c),
    h.pathOf, h.optionParent, h.downloadPlace hQ]
  set option := if s.inheritsOption top c then s'.downloadPathOption top else s.downloadPathOption c
  set path := s.pathOf Q c option.path
  by_cases hbelow : option.enabled = true ∧ ¬ isAbsolutePath path = true
  · rw [if_pos hbelow.1, if_neg hbelow.2, if_pos hbelow, if_pos hbelow.1, if_neg hbelow.2,
      elim_map_append]
  · rw [if_neg hbelow]
    split_ifs with henabled habs
    · rfl
    · exact absurd ⟨henabled, habs⟩ hbelow
    · rfl

theorem categoryDownloadPath_iff (hQ : Q.KeepsNonempty) (hc : c ≠ "") :
    s'.categoryDownloadPath Q c = s.categoryDownloadPath Q c ↔
      s.downloadPathFrom Q top c
          (if s.inheritsOption top c then s'.downloadPathOption top else s.downloadPathOption c)
          (s'.downloadPlace Q top) =
        s.downloadPathFrom Q top c (s.downloadPathOption c) (s.downloadPlace Q top) := by
  rw [h.categoryDownloadPath hQ hc, (refl s top).categoryDownloadPath hQ hc,
    ← (refl s top).downloadPathOption c]

end DiffersAt

variable (Q) {disable : Bool} {affected : String → Prop}

/-! ### The default paths -/

/-- Torrents still in automatic mode have the paths of before if `disable` is on; if it is off, the
automatic torrents with a new path are told of the change. -/
def PathsKept (s : SessionImpl) (disable : Bool) (r : Outcome) : Prop :=
  (disable = true → ∀ id t, r.session.torrents.lookup id = some t → t.useAutoTMM = true →
    r.session.categorySavePath Q t.category = s.categorySavePath Q t.category ∧
      r.session.categoryDownloadPath Q t.category = s.categoryDownloadPath Q t.category) ∧
  (disable = false → ∀ id t t', s.torrents.lookup id = some t →
    r.session.torrents.lookup id = some t' → t.useAutoTMM = true →
    (t'.effectiveSavePath Q r.session ≠ t.effectiveSavePath Q s ∨
      t'.effectiveDownloadPath Q r.session ≠ t.effectiveDownloadPath Q s) → id ∈ r.handled)

theorem pathsKept_refl (s : SessionImpl) (disable : Bool) :
    PathsKept Q s disable { session := s } := by
  refine ⟨fun _ _ _ _ _ => ⟨rfl, rfl⟩, fun _ id t t' ht ht' _ hne => ?_⟩
  obtain rfl := some.inj (ht.symm.trans ht')
  obtain hne | hne := hne <;> exact absurd rfl hne

theorem disableAutoTMM_useAutoTMM (t : TorrentImpl) : (t.disableAutoTMM Q s).1.useAutoTMM = false := by
  rw [TorrentImpl.disableAutoTMM]
  split_ifs with h
  · rfl
  · exact Bool.eq_false_iff.2 h

theorem lookup_disableAffected [DecidablePred affected] (id : TorrentID) :
    (s.disableAffected Q disable affected).session.torrents.lookup id =
      (s.torrents.lookup id).map fun t =>
        if disable = true ∧ affected t.category then (t.disableAutoTMM Q s).1 else t := by
  rw [disableAffected]
  cases disable with
  | false => simp
  | true =>
    refine (Dict.lookup_filterMap _ _ _).trans ?_
    cases s.torrents.lookup id with
    | none => rfl
    | some t =>
      simp only [bind_some, map_some, true_and]
      split_ifs <;> rfl

theorem disableAffected_session (disable : Bool) (affected : String → Prop)
    [DecidablePred affected] : ∃ torrents,
      (s.disableAffected Q disable affected).session = { s with torrents := torrents } := by
  rw [disableAffected]
  split_ifs
  · exact ⟨_, rfl⟩
  · exact ⟨s.torrents, rfl⟩

theorem pathsKept_notifyAll_iff [DecidablePred affected] {r : Outcome}
    (htorrents : s'.torrents = (s.disableAffected Q disable affected).session.torrents) :
    PathsKept Q s disable (notifyAll Q r s') ↔
      (disable = true → ∀ id t, s.torrents.lookup id = some t → t.useAutoTMM = true →
        ¬ affected t.category →
        s'.categorySavePath Q t.category = s.categorySavePath Q t.category ∧
          s'.categoryDownloadPath Q t.category = s.categoryDownloadPath Q t.category) := by
  have hlookup := fun id => congrArg (lookup id) htorrents
  simp only [lookup_disableAffected] at hlookup
  constructor
  · rintro ⟨hon, -⟩ hdisable id t ht hauto hnot
    refine hon hdisable id t ?_ hauto
    refine (hlookup id).trans ?_
    rw [ht, map_some, if_neg fun h => hnot h.2]
  · intro h
    refine ⟨fun hdisable id t ht hauto => ?_, fun _ id t t' _ ht' _ _ => ?_⟩
    · -- a torrent still in automatic mode is not affected
      obtain ⟨t₀, ht₀, heq⟩ := map_eq_some_iff.1 ((hlookup id).symm.trans ht)
      by_cases haffected : affected t₀.category
      · rw [if_pos ⟨hdisable, haffected⟩] at heq
        rw [← heq, disableAutoTMM_useAutoTMM] at hauto
        cases hauto
      · rw [if_neg fun h => haffected h.2] at heq
        subst heq
        exact h hdisable id t₀ ht₀ hauto haffected
    · exact mem_keys.2 (mem_of_lookup_eq_some ht')

/-- The new default path, and the old one, lead to the same save path of every automatic torrent whose
category is not in the list. -/
def KeepsSavePaths (s : SessionImpl) (path : String) : Prop :=
  s.isDisableAutoTMMWhenDefaultSavePathChanged = true →
    ∀ id t, s.torrents.lookup id = some t → t.useAutoTMM = true → t.category ≠ "" →
      t.category ∉ s.categories →
      ∀ parts ∈ s.savePathParts Q "" t.category, Q.joinAll path parts = Q.joinAll s.savePath parts

/-- The new default path, and the old one, lead to the same download path of every automatic torrent
whose category has no option of its own, unless the default path is enabled and relative. -/
def KeepsDownloadPaths (s : SessionImpl) (path : String) : Prop :=
  s.isDisableAutoTMMWhenDefaultSavePathChanged = true →
    ∀ id t, s.torrents.lookup id = some t → t.useAutoTMM = true → t.category ≠ "" →
      (s.categoryOptions t.category).downloadPath = none →
      (t.category ∈ s.categories → s.isDownloadPathEnabled = true →
        isAbsolutePath s.downloadPath = true) →
      ∀ parts ∈ s.downloadPathParts Q "" t.category (s.downloadPathOption t.category),
        Q.joinAll path parts = Q.joinAll s.downloadPath parts

variable {Q}

theorem savePathParts_of_absolute (hc : c ≠ "") (hne : c ≠ top)
    (habs : isAbsolutePath (s.categoryOptions c).savePath = true) :
    s.savePathParts Q top c = none := by
  have hown : (s.categoryOptions c).savePath ≠ "" := fun hnil => absurd (hnil ▸ habs) (by decide)
  rw [savePathParts, if_neg hne, dif_neg hc]
  simp only [if_pos hown, if_pos (Or.inl habs)]

theorem downloadPathParts_of_option (hc : c ≠ "")
    (hoption : (s.categoryOptions c).downloadPath = some option)
    (h : option.enabled = true → isAbsolutePath option.path = true) :
    s.downloadPathParts Q top c (s.downloadPathOption c) = none := by
  rw [downloadPathParts, downloadPathOption, hoption, resolveCategoryDownloadPathOption_some hc]
  refine if_neg fun hrelative => hrelative.2 ?_
  have habs := h hrelative.1
  rwa [pathOf, if_pos fun hnil => absurd (hnil ▸ habs) (by decide)]

theorem downloadPathOption_empty : s.downloadPathOption "" = ⟨s.isDownloadPathEnabled, ""⟩ := by
  rw [downloadPathOption, resolveCategoryDownloadPathOption.eq_def, dif_pos rfl]

namespace DiffersAt

/-- Download paths follow the default one. -/
theorem categoryDownloadPath_default_iff (h : DiffersAt s s' "") (hQ : Q.KeepsNonempty)
    (hc : c ≠ "") :
    s'.categoryDownloadPath Q c = s.categoryDownloadPath Q c ↔
      ∀ parts ∈ s.downloadPathParts Q "" c (s.downloadPathOption c),
        Q.joinAll s'.downloadPath parts = Q.joinAll s.downloadPath parts := by
  rw [h.categoryDownloadPath_iff hQ hc, downloadPathOption_empty, h.enabled,
    ← downloadPathOption_empty, ← (refl s "").downloadPathOption c, downloadPlace_empty,
    downloadPlace_empty, downloadPathFrom, downloadPathFrom]
  cases s.downloadPathParts Q "" c (s.downloadPathOption c) <;> simp

end DiffersAt

theorem setSavePath_kept_iff (hQ : Q.KeepsNonempty) (s : SessionImpl) (path : String) :
    PathsKept Q s s.isDisableAutoTMMWhenDefaultSavePathChanged (s.setSavePath Q path) ↔
      KeepsSavePaths Q s (resolveSavePath Q path) := by
  rw [setSavePath]
  split_ifs with hsame
  · exact iff_of_true (pathsKept_refl Q s _) fun _ id t _ _ _ _ parts _ => by rw [hsame]
  · refine Iff.trans (pathsKept_notifyAll_iff Q rfl) ?_
    obtain ⟨torrents, hr⟩ := s.disableAffected_session Q
      s.isDisableAutoTMMWhenDefaultSavePathChanged s.affectedBySavePath
    rw [hr]
    set s' := ({ s with torrents := torrents } : SessionImpl).withSavePath (resolveSavePath Q path)
    have h : DiffersAt s s' "" := ⟨fun _ _ => rfl, rfl, rfl, absurd rfl, absurd rfl⟩
    have hsave : ∀ c, s'.categorySavePath Q c = s.categorySavePath Q c ↔
        ∀ parts ∈ s.savePathParts Q "" c,
          Q.joinAll (resolveSavePath Q path) parts = Q.joinAll s.savePath parts := by
      intro c
      rw [h.categorySavePath_iff, categorySavePath_empty, categorySavePath_empty]
      rfl
    constructor
    · intro hkept hdisable id t ht hauto hne hnotMem
      refine (hsave _).1 (hkept hdisable id t ht hauto ?_).1
      rintro (hempty | ⟨options, hlookup, -⟩)
      · exact hne hempty
      · exact hnotMem (mem_of_lookup_eq_some hlookup)
    · intro hkeeps hdisable id t ht hauto hnot
      rw [affectedBySavePath, not_or] at hnot
      refine ⟨(hsave _).2 ?_, (h.categoryDownloadPath_default_iff hQ hnot.1).2 fun _ _ => rfl⟩
      cases hlookup : s.categories.lookup t.category with
      | none => exact hkeeps hdisable id t ht hauto hnot.1 (lookup_eq_none.1 hlookup)
      | some options =>
        have habs : isAbsolutePath (s.categoryOptions t.category).savePath = true := by
          by_contra hrelative
          refine hnot.2 ⟨options, hlookup, ?_⟩
          rwa [categoryOptions, hlookup] at hrelative
        rw [savePathParts_of_absolute hnot.1 hnot.1 habs]
        simp

theorem setDownloadPath_kept_iff (hQ : Q.KeepsNonempty) (s : SessionImpl) (path : String) :
    PathsKept Q s s.isDisableAutoTMMWhenDefaultSavePathChanged (s.setDownloadPath Q path) ↔
      KeepsDownloadPaths Q s (s.resolveDownloadPath Q path) := by
  rw [setDownloadPath]
  split_ifs with hsame
  · exact iff_of_true (pathsKept_refl Q s _) fun _ id t _ _ _ _ _ parts _ => by rw [hsame]
  · refine Iff.trans (pathsKept_notifyAll_iff Q rfl) ?_
    obtain ⟨torrents, hr⟩ := s.disableAffected_session Q
      s.isDisableAutoTMMWhenDefaultSavePathChanged s.affectedByDownloadPath
    rw [hr]
    set s' := ({ s with torrents := torrents } : SessionImpl).withDownloadPath
      (s.resolveDownloadPath Q path)
    have h : DiffersAt s s' "" := ⟨fun _ _ => rfl, rfl, rfl, absurd rfl, absurd rfl⟩
    constructor
    · intro hkept hdisable id t ht hauto hne hnone hdefault
      refine (h.categoryDownloadPath_default_iff hQ hne).1 (hkept hdisable id t ht hauto ?_).2
      rintro (hempty | ⟨options, hlookup, henabled, hrelative⟩)
      · exact hne hempty
      · -- the default download path stands for that of the category
        rw [categoryOptions, hlookup, getD_some] at hnone
        rw [hnone, getD_none] at henabled hrelative
        exact hrelative (hdefault (mem_of_lookup_eq_some hlookup) henabled)
    · intro hkeeps hdisable id t ht hauto hnot
      rw [affectedByDownloadPath, not_or] at hnot
      have hsave : s'.categorySavePath Q "" = s.categorySavePath Q "" :=
        categorySavePath_empty.trans (Eq.symm (categorySavePath_empty (s := s)))
      refine ⟨(h.categorySavePath_iff _).2 fun _ _ => by rw [hsave],
        (h.categoryDownloadPath_default_iff hQ hnot.1).2 ?_⟩
      cases hoption : (s.categoryOptions t.category).downloadPath with
      | none =>
        refine hkeeps hdisable id t ht hauto hnot.1 hoption fun hmem henabled => ?_
        obtain ⟨options, hlookup⟩ := mem_iff.1 hmem
        by_contra hrelative
        rw [categoryOptions, hlookup, getD_some] at hoption
        refine hnot.2 ⟨options, hlookup, ?_⟩
        rw [hoption, getD_none]
        exact ⟨henabled, hrelative⟩
      | some option =>
        have habs : option.enabled = true → isAbsolutePath option.path = true := by
          intro henabled
          by_contra hrelative
          cases hlookup : s.categories.lookup t.category with
          | none =>
            rw [categoryOptions, hlookup] at hoption
            cases hoption
          | some options =>
            rw [categoryOptions, hlookup, getD_some] at hoption
            refine hnot.2 ⟨options, hlookup, ?_⟩
            rw [hoption, getD_some]
            exact ⟨henabled, hrelative⟩
        rw [downloadPathParts_of_option hnot.1 hoption habs]
        simp

/-! ### The paths of a category -/

theorem withOptions_categoryOptions {name : String} (options : CategoryOptions) {c : String}
    (hc : c ≠ name) : (s.withOptions name options).categoryOptions c = s.categoryOptions c := by
  rw [categoryOptions, categoryOptions]
  show ((s.categories.insert name options).lookup c).getD _ = _
  rw [Dict.lookup_insert_eq, if_neg hc]

section

variable (h : c.toList.length < top.toList.length)

include h

theorem savePathParts_of_lt : s.savePathParts Q top c = none := by
  induction c using category_induction s with
  | h c ih =>
    rw [savePathParts, if_neg fun htop => absurd (htop ▸ h) (lt_irrefl _)]
    by_cases hc : c = ""
    · rw [dif_pos hc]
    · have hne : top ≠ "" := fun htop => by simp [htop] at h
      simp [hne, ih hc ((s.length_optionParent_lt hc).trans h)]

theorem inheritsOption_of_lt : s.inheritsOption top c = false := by
  induction c using category_induction s with
  | h c ih =>
    rw [inheritsOption, if_neg fun htop => absurd (htop ▸ h) (lt_irrefl _)]
    split_ifs with hc
    · rfl
    · rw [ih hc ((s.length_optionParent_lt hc).trans h), Bool.and_false]

theorem downloadPlaceParts_of_lt : s.downloadPlaceParts Q top c = none := by
  induction c using category_induction s with
  | h c ih =>
    rw [downloadPlaceParts, if_neg fun htop => absurd (htop ▸ h) (lt_irrefl _)]
    split_ifs with hc
    · rfl
    · rw [ih hc ((s.length_optionParent_lt hc).trans h)]
      simp

end

namespace DiffersAt

variable (h : DiffersAt s s' top)

include h

/-! What `top` itself takes from its parents is the same. -/

theorem categorySavePath_top (hsave : s'.savePath = s.savePath) :
    s'.categorySavePath Q top = s.categorySavePathWith Q top (s'.categoryOptions top) := by
  by_cases hc : top = ""
  · rw [SessionImpl.categorySavePath, categorySavePathWith.eq_def, categorySavePathWith.eq_def Q s,
      dif_pos hc, dif_pos hc, hsave]
  · have hparent : s'.categorySavePath Q (s.optionParent top) =
        s.categorySavePath Q (s.optionParent top) := by
      rw [h.categorySavePath, savePathParts_of_lt (s.length_optionParent_lt hc)]
      rfl
    rw [SessionImpl.categorySavePath, categorySavePathWith_of_ne hc, categorySavePathWith_of_ne hc,
      h.implicitPath, h.optionParent, hsave, hparent]

theorem downloadPathOption_top : s'.downloadPathOption top =
    s.resolveCategoryDownloadPathOption top (s'.categoryOptions top).downloadPath := by
  rw [SessionImpl.downloadPathOption, resolveCategoryDownloadPathOption.eq_def s',
    resolveCategoryDownloadPathOption.eq_def s]
  by_cases hc : top = ""
  · rw [dif_pos hc, dif_pos hc, h.enabled]
  · rw [dif_neg hc, dif_neg hc]
    cases (s'.categoryOptions top).downloadPath with
    | some option => rfl
    | none =>
      have hparent := h.downloadPathOption (s.optionParent top)
      rw [inheritsOption_of_lt (s.length_optionParent_lt hc)] at hparent
      rw [h.optionParent]
      exact hparent

theorem downloadPlace_top (hQ : Q.KeepsNonempty) (hdownload : s'.downloadPath = s.downloadPath) :
    s'.downloadPlace Q top = s.downloadPlaceWith Q top (s'.categoryOptions top) := by
  by_cases hc : top = ""
  · rw [SessionImpl.downloadPlace, hc, downloadPlaceWith_empty, downloadPlaceWith_empty, hdownload]
  · rw [SessionImpl.downloadPlace, downloadPlaceWith_of_ne hQ hc, downloadPlaceWith_of_ne hQ hc,
      h.pathOf, h.optionParent, h.downloadPlace hQ (s.optionParent top),
      downloadPlaceParts_of_lt (s.length_optionParent_lt hc)]
    rfl

end DiffersAt

variable (Q)

/-- The new options of `name`, and the old ones, lead to the same paths of the category.  One that
takes over the download path option of `name` has another option then. -/
def KeepsPathsBelow (s : SessionImpl) (name : String) (options : CategoryOptions)
    (category : String) : Prop :=
  (∀ parts ∈ s.savePathParts Q name category,
    Q.joinAll (s.categorySavePathWith Q name options) parts =
      Q.joinAll (s.categorySavePath Q name) parts) ∧
  (category ≠ "" →
    s.downloadPathFrom Q name category
        (if s.inheritsOption name category then
          s.resolveCategoryDownloadPathOption name options.downloadPath
        else s.downloadPathOption category)
        (s.downloadPlaceWith Q name options) =
      s.downloadPathFrom Q name category (s.downloadPathOption category) (s.downloadPlace Q name))

/-- The edit keeps the paths of every automatic torrent of another category. -/
def KeepsCategoryPaths (s : SessionImpl) (name : String) (options : CategoryOptions) : Prop :=
  name ∈ s.categories → ∀ id t, s.torrents.lookup id = some t → t.useAutoTMM = true →
    t.category ≠ name → KeepsPathsBelow Q s name options t.category

variable {Q} {options : CategoryOptions}

theorem paths_iff (hQ : Q.KeepsNonempty) {name : String} (h : DiffersAt s s' name)
    (hoptions : s'.categoryOptions name = options) (hsave : s'.savePath = s.savePath)
    (hdownload : s'.downloadPath = s.downloadPath) (c : String) :
    (s'.categorySavePath Q c = s.categorySavePath Q c ∧
        s'.categoryDownloadPath Q c = s.categoryDownloadPath Q c) ↔
      KeepsPathsBelow Q s name options c := by
  subst hoptions
  refine and_congr ?_ ?_
  · rw [h.categorySavePath_iff, h.categorySavePath_top hsave]
  · by_cases hc : c = ""
    · subst hc
      refine iff_of_true ?_ fun hne => absurd rfl hne
      rw [categoryDownloadPath, categoryDownloadPath, categoryDownloadPathWith_empty,
        categoryDownloadPathWith_empty, h.enabled, hdownload]
    · rw [h.categoryDownloadPath_iff hQ hc, h.downloadPathOption_top,
        h.downloadPlace_top hQ hdownload]
      exact ⟨fun heq _ => heq, fun himp => himp hc⟩

theorem editCategory_kept_iff (hQ : Q.KeepsNonempty) (s : SessionImpl) (name : String)
    (options : CategoryOptions) :
    PathsKept Q s s.isDisableAutoTMMWhenCategorySavePathChanged
        ((s.editCategory Q name options).getD { session := s }) ↔
      KeepsCategoryPaths Q s name options := by
  rw [editCategory]
  cases hname : s.categories.lookup name with
  | none =>
    refine iff_of_true (pathsKept_refl Q s _) fun hmem => ?_
    exact absurd hmem (lookup_eq_none.1 hname)
  | some currentOptions =>
    have hmem : name ∈ s.categories := mem_of_lookup_eq_some hname
    simp only
    split_ifs with hsame
    · -- nothing is edited
      have hoptions : s.categoryOptions name = options := by rw [categoryOptions, hname, hsame]; rfl
      exact iff_of_true (pathsKept_refl Q s _) fun _ _ _ _ _ _ =>
        (paths_iff hQ (.refl s name) hoptions rfl rfl _).1 ⟨rfl, rfl⟩
    · rw [getD_some]
      set r := s.disableAffected Q s.isDisableAutoTMMWhenCategorySavePathChanged (· = name) with hr
      set s₂ := r.session.withOptions name options with hs₂
      have hpaths : ∀ c, (s₂.categorySavePath Q c = s.categorySavePath Q c ∧
          s₂.categoryDownloadPath Q c = s.categoryDownloadPath Q c) ↔
            KeepsPathsBelow Q s name options c := by
        obtain ⟨torrents, hsession⟩ :=
          s.disableAffected_session Q s.isDisableAutoTMMWhenCategorySavePathChanged (· = name)
        rw [hs₂, hr, hsession]
        refine paths_iff hQ ⟨fun _ => withOptions_categoryOptions options, rfl, rfl,
          fun _ => rfl, fun _ => rfl⟩ ?_ rfl rfl
        rw [categoryOptions]
        show ((s.categories.insert name options).lookup name).getD _ = _
        rw [lookup_insert]
        rfl
      have hlookup : ∀ id, s₂.torrents.lookup id = (s.torrents.lookup id).map fun t =>
          if s.isDisableAutoTMMWhenCategorySavePathChanged = true ∧ t.category = name then
            (t.disableAutoTMM Q s).1 else t := fun id => lookup_disableAffected Q id
      have hkeep : ∀ id t, s.torrents.lookup id = some t →
          t.category ≠ name → s₂.torrents.lookup id = some t := by
        intro id t ht hne
        rw [hlookup, ht, map_some, if_neg fun h => hne h.2]
      constructor
      · rintro ⟨hon, hoff⟩ _ id t ht hauto hne
        refine (hpaths t.category).1 ?_
        cases hdisable : s.isDisableAutoTMMWhenCategorySavePathChanged with
        | true => exact hon hdisable id t (hkeep id t ht hne) hauto
        | false =>
          -- it is not told of the change, so there is none
          by_contra hchanged
          have hin := hoff hdisable id t t ht (hkeep id t ht hne) hauto (by
            simp only [TorrentImpl.effectiveSavePath, TorrentImpl.effectiveDownloadPath, hauto,
              if_true]
            exact not_and_or.1 hchanged)
          obtain ⟨t', ht'⟩ := mem_iff.1 (mem_keys.1 hin)
          rw [Dict.lookup_filter, hkeep id t ht hne] at ht'
          simp [Option.filter, hne] at ht'
      · intro hkeeps
        refine ⟨fun hdisable id t' ht' hauto => ?_, fun hdisable id t t' ht ht' hauto hchanged => ?_⟩
        · obtain ⟨t, ht, heq⟩ := map_eq_some_iff.1 ((hlookup id).symm.trans ht')
          by_cases hne : t.category = name
          · rw [if_pos ⟨hdisable, hne⟩] at heq
            rw [← heq, disableAutoTMM_useAutoTMM] at hauto
            cases hauto
          · rw [if_neg fun h => hne h.2] at heq
            subst heq
            exact (hpaths _).2 (hkeeps hmem id t ht hauto hne)
        · have heq : t' = t := by
            have := (hlookup id).symm.trans ht'
            rw [ht, map_some, if_neg fun h => by rw [hdisable] at h; cases h.1] at this
            exact (some.inj this).symm
          subst heq
          by_contra hnotMem
          have hne : t'.category ≠ name := by
            rintro hcategory
            refine hnotMem (mem_keys.2 (mem_iff.2 ⟨t', ?_⟩))
            rw [Dict.lookup_filter, ht']
            simp [Option.filter, hcategory]
          obtain ⟨h₁, h₂⟩ := (hpaths _).2 (hkeeps hmem id t' ht hauto hne)
          simp only [TorrentImpl.effectiveSavePath, TorrentImpl.effectiveDownloadPath, hauto,
            if_true] at hchanged
          obtain hchanged | hchanged := hchanged
          · exact hchanged h₁
          · exact hchanged h₂

/-- **Changes of paths.**  Each setter keeps the paths of the torrents in automatic mode, or tells
those whose paths are new, exactly when the old paths and the new ones lead to the same paths of the
torrents that it overlooks. -/
theorem pathsKept_iff (hQ : Q.KeepsNonempty) (s : SessionImpl) :
    (∀ path, PathsKept Q s s.isDisableAutoTMMWhenDefaultSavePathChanged (s.setSavePath Q path) ↔
      KeepsSavePaths Q s (resolveSavePath Q path)) ∧
    (∀ path, PathsKept Q s s.isDisableAutoTMMWhenDefaultSavePathChanged (s.setDownloadPath Q path) ↔
      KeepsDownloadPaths Q s (s.resolveDownloadPath Q path)) ∧
    (∀ name options, PathsKept Q s s.isDisableAutoTMMWhenCategorySavePathChanged
        ((s.editCategory Q name options).getD { session := s }) ↔
      KeepsCategoryPaths Q s name options) :=
  ⟨setSavePath_kept_iff hQ s, setDownloadPath_kept_iff hQ s, editCategory_kept_iff hQ s⟩

/-- Paths that are clean. -/
def plainPaths : PathSettings := ⟨id, "/home/user/Downloads"⟩

/-- A session with the category `films` and one torrent of it. -/
def filmsSession (options : CategoryOptions) : SessionImpl :=
  let t : TorrentImpl := ⟨⟨"films", ∅, true, "", ""⟩, true, false, false, false, "/tmp/films"⟩
  { SessionImpl.initial plainPaths with
    categories := (∅ : Dict String CategoryOptions).insert "films" options
    torrents := (∅ : Dict TorrentID TorrentImpl).insert "8a19577fb5f690970ca43a57ff1011ae202244b8" t
    downloadPath := "/tmp"
    isDownloadPathEnabled := true }

theorem filmsSession_category {id : TorrentID} {t : TorrentImpl}
    (ht : (filmsSession options).torrents.lookup id = some t) : t.category = "films" := by
  simp only [filmsSession, Dict.lookup_insert_eq] at ht
  split_ifs at ht with hid
  · obtain rfl := some.inj ht
    rfl
  · cases ht

/-- A category with its own paths keeps them. -/
theorem pathsKept_films :
    PathsKept plainPaths (filmsSession ⟨"/films", some ⟨true, "/tmp/films"⟩⟩) true
        ((filmsSession ⟨"/films", some ⟨true, "/tmp/films"⟩⟩).setSavePath plainPaths "/data") ∧
      PathsKept plainPaths (filmsSession ⟨"/films", some ⟨true, "/tmp/films"⟩⟩) true
        ((filmsSession ⟨"/films", some ⟨true, "/tmp/films"⟩⟩).setDownloadPath plainPaths
          "/var/tmp") := by
  have hQ : plainPaths.KeepsNonempty := fun _ h => h
  obtain ⟨hsave, hdownload, -⟩ := pathsKept_iff hQ (filmsSession ⟨"/films", some ⟨true, "/tmp/films"⟩⟩)
  refine ⟨(hsave _).2 fun _ id t ht _ _ hnot => ?_, (hdownload _).2 fun _ id t ht _ _ hnone => ?_⟩
  · rw [filmsSession_category ht] at hnot
    exact absurd (mem_of_lookup_eq_some (show lookup "films" _ = some _ from rfl)) hnot
  · rw [filmsSession_category ht] at hnone
    cases hnone

/-- A category without an option of its own is below the default download path, which changes. -/
theorem setDownloadPath_moves_inheriting :
    ¬ ∀ (Q : PathSettings) (s : SessionImpl),
      (∀ path, PathsKept Q s s.isDisableAutoTMMWhenDefaultSavePathChanged (s.setSavePath Q path)) ∧
      (∀ path, PathsKept Q s s.isDisableAutoTMMWhenDefaultSavePathChanged
        (s.setDownloadPath Q path)) ∧
      (∀ name options, PathsKept Q s s.isDisableAutoTMMWhenCategorySavePathChanged
        ((s.editCategory Q name options).getD { session := s })) := by
  intro h
  have hoption : (filmsSession {}).downloadPathOption "films" = ⟨true, ""⟩ := by
    rw [downloadPathOption, resolveCategoryDownloadPathOption.eq_def, dif_neg (by decide)]
    exact downloadPathOption_empty
  have hparts : (filmsSession {}).downloadPathParts plainPaths "" "films" ⟨true, ""⟩ =
      some ["films"] := by
    rw [downloadPathParts, downloadPlaceParts]
    rfl
  have hkept := (setDownloadPath_kept_iff (fun _ h => h) _ "/var/tmp").1
    ((h plainPaths (filmsSession {})).2.1 "/var/tmp") rfl
    "8a19577fb5f690970ca43a57ff1011ae202244b8" _ rfl rfl (by decide) rfl (fun _ _ => by decide)
  rw [show (_ : TorrentImpl).category = "films" from rfl, hoption, hparts] at hkept
  exact absurd (hkept _ rfl) (by decide)

end SessionImpl

end QBittorrent
