import QBittorrent.Gui.ContentTree

/-!
# The tree that is built of the files

`populate` keeps the folder of the last file and a map of the folders that it has made.  An item is
found by the names on the way down to it.

* `Sound.addFile` : one pass of the loop;
* `SameTree` : updates of priorities, progress and availability keep the items;
* `built_populate` : exactly the tree of the paths of the files is built.
-/

namespace QBittorrent.TorrentContent

open List LeafTree TorrentContentModel

/-- The names on the way down to a place. -/
def itemPath (root : Item) : List ℕ → Option (List QString)
  | [] => some []
  | i :: parent => (itemPath root parent).bind fun path =>
      (root.look (i :: parent)).map fun seen => path ++ [seen.label.name]

def IsFolder (root : Item) (place : List ℕ) : Prop :=
  ∃ seen, root.look place = some seen ∧ seen.index? = none

/-- The size of the files below a folder with the given names. -/
def sizeBelow (path : List QString) (files : List ContentFile) : ℕ :=
  ((files.filter fun file => path.isPrefixOf (pathFolders file)).map ContentFile.fileSize).sum

/-- The folders that the files are below, the root item among them. -/
def foldersOf (files : List ContentFile) (path : List QString) : Prop :=
  path = [] ∨ ∃ file ∈ files, path <+: pathFolders file

/-- The tree has one folder for each of the folders, the item of every file below that of its folder,
and no other items; the size of a folder is that of all files below it. -/
structure Built (folders : List QString → Prop) (files : List ContentFile) (root : Item)
    (filesIndex : List (List ℕ)) : Prop where
  folder_iff : ∀ path, (∃ place, IsFolder root place ∧ itemPath root place = some path) ↔ folders path
  folder_unique : ∀ place place' path, IsFolder root place → IsFolder root place' →
    itemPath root place = some path → itemPath root place' = some path → place = place'
  length_filesIndex : filesIndex.length = files.length
  item_of_file : ∀ i file, files[i]? = some file → ∃ place seen, filesIndex[i]? = some place ∧
    root.look place = some seen ∧ seen.index? = some i ∧ seen.label.size = file.fileSize ∧
    itemPath root place = some (pathParts file)
  file_of_item : ∀ place seen i, root.look place = some seen → seen.index? = some i →
    filesIndex[i]? = some place
  folder_size : ∀ place seen path, place ≠ [] → root.look place = some seen →
    seen.index? = none → itemPath root place = some path →
    seen.label.size = sizeBelow path files % 2 ^ 64

variable {root root' : Item} {place parent l : List ℕ} {path : List QString} {i delta : ℕ}
  {fields : Fields} {seen : LeafTree.Seen ℕ Fields} {files : List ContentFile} {b : Builder}
  {index? : Option ℕ} {grow : Fields → Fields}

/-! ### Names on the way -/

theorem itemPath_cons_eq_some_iff : itemPath root (i :: parent) = some path ↔
    ∃ front seen, itemPath root parent = some front ∧ root.look (i :: parent) = some seen ∧
      path = front ++ [seen.label.name] := by
  rw [itemPath, Option.bind_eq_some_iff]
  constructor
  · rintro ⟨front, hfront, h⟩
    obtain ⟨seen, hseen, rfl⟩ := Option.map_eq_some_iff.1 h
    exact ⟨front, seen, hfront, hseen, rfl⟩
  · rintro ⟨front, seen, hfront, hseen, rfl⟩
    exact ⟨front, hfront, by rw [hseen, Option.map_some]⟩

theorem look_parent (h : (root.look (i :: parent)).isSome) : ∃ seen, root.look parent = some seen ∧
    seen.index? = none ∧ i < seen.count := by
  obtain ⟨seen, hseen, hi⟩ := look_cons_isSome_iff.1 h
  exact ⟨seen, hseen, index?_eq_none_of_look hseen hi, hi⟩

theorem look_of_isSuffix (h : (root.look place).isSome) (hl : l <:+ place) : (root.look l).isSome := by
  induction place with
  | nil => rwa [suffix_nil.1 hl]
  | cons i parent ih =>
    obtain rfl | hl := suffix_cons_iff.1 hl
    · exact h
    · obtain ⟨seen, hseen, -⟩ := look_parent h
      exact ih (by rw [hseen]; rfl) hl

theorem exists_look_of_isSuffix (h : (root.look place).isSome) (hl : l <:+ place) (hne : l ≠ place) :
    ∃ seen, root.look l = some seen ∧ seen.index? = none ∧ 0 < seen.count := by
  induction place with
  | nil => exact absurd (suffix_nil.1 hl) hne
  | cons i parent ih =>
    obtain rfl | hl := suffix_cons_iff.1 hl
    · exact absurd rfl hne
    · obtain ⟨seen, hseen, hnode, hi⟩ := look_parent h
      by_cases hparent : l = parent
      · exact hparent ▸ ⟨seen, hseen, hnode, Nat.zero_lt_of_lt hi⟩
      · exact ih (by rw [hseen]; rfl) hl hparent

variable (root) in
theorem isFolder_of_isSuffix (h : (root.look place).isSome) (hl : l <:+ place) (hne : l ≠ place) :
    IsFolder root l := by
  obtain ⟨seen, hseen, hnode, -⟩ := exists_look_of_isSuffix h hl hne
  exact ⟨seen, hseen, hnode⟩

theorem itemPath_isSome_iff : (itemPath root place).isSome ↔ (root.look place).isSome := by
  induction place with
  | nil => exact iff_of_true rfl rfl
  | cons i parent ih =>
    constructor
    · intro h
      obtain ⟨path, hpath⟩ := Option.isSome_iff_exists.1 h
      obtain ⟨-, seen, -, hseen, -⟩ := itemPath_cons_eq_some_iff.1 hpath
      rw [hseen]
      rfl
    · intro h
      obtain ⟨front, hfront⟩ := Option.isSome_iff_exists.1
        (ih.2 (look_of_isSuffix h (suffix_cons ..)))
      obtain ⟨seen, hseen⟩ := Option.isSome_iff_exists.1 h
      rw [itemPath_cons_eq_some_iff.2 ⟨front, seen, hfront, hseen, rfl⟩]
      rfl

theorem length_of_itemPath (h : itemPath root place = some path) : path.length = place.length := by
  induction place generalizing path with
  | nil =>
    obtain rfl := Option.some.inj h
    rfl
  | cons i parent ih =>
    obtain ⟨front, seen, hfront, -, rfl⟩ := itemPath_cons_eq_some_iff.1 h
    rw [length_append, ih hfront, length_singleton, length_cons]

theorem itemPath_congr (h : ∀ l, l <:+ place → (root.look l).map (fun seen => seen.label.name) =
    (root'.look l).map fun seen => seen.label.name) : itemPath root place = itemPath root' place := by
  induction place with
  | nil => rfl
  | cons i parent ih =>
    have hparent := ih fun l hl => h l (hl.trans (suffix_cons ..))
    have hplace := h (i :: parent) suffix_rfl
    rw [itemPath, itemPath, hparent]
    congr 1
    funext front
    have hcomp : ∀ o : Option (LeafTree.Seen ℕ Fields),
        o.map (fun seen => front ++ [seen.label.name]) =
          (o.map fun seen => seen.label.name).map fun name => front ++ [name] := fun o => by
      rw [Option.map_map]
      rfl
    rw [hcomp, hcomp, hplace]

theorem itemPath_of_isSuffix (h : itemPath root place = some path) (hl : l <:+ place) :
    itemPath root l = some (path.take l.length) := by
  induction place generalizing path with
  | nil =>
    rw [suffix_nil.1 hl, length_nil, take_zero]
    rfl
  | cons i parent ih =>
    obtain rfl | hl := suffix_cons_iff.1 hl
    · rw [← length_of_itemPath h, take_length, h]
    · obtain ⟨front, seen, hfront, -, rfl⟩ := itemPath_cons_eq_some_iff.1 h
      rw [ih hfront hl, take_append_of_le_length]
      rw [length_of_itemPath hfront]
      exact hl.length_le

/-! ### Sizes -/

theorem look_increaseSize (place l : List ℕ) (root : Item) : (increaseSize delta place root).look l =
    if l ≠ [] ∧ l <:+ place then (root.look l).map fun seen =>
      { seen with label := { seen.label with size := (seen.label.size + delta) % 2 ^ 64 } }
    else root.look l := by
  induction place generalizing root with
  | nil =>
    rw [increaseSize, if_neg]
    rintro ⟨hne, hsuffix⟩
    exact hne (suffix_nil.1 hsuffix)
  | cons i parent ih =>
    rw [increaseSize, ih, look_relabel]
    by_cases hl : l = i :: parent
    · subst hl
      have hnot : ¬ (i :: parent ≠ [] ∧ i :: parent <:+ parent) := fun h => by
        have := h.2.length_le
        rw [length_cons] at this
        omega
      rw [if_neg hnot, if_pos rfl, if_pos ⟨cons_ne_nil _ _, suffix_rfl⟩]
    · have hiff : l <:+ i :: parent ↔ l <:+ parent := by
        rw [suffix_cons_iff, or_iff_right hl]
      rw [if_neg hl]
      simp only [hiff]

/-! ### One item more -/

/-- There is one item more at a place, and the folders above it have grown. -/
structure Grown (root root' : Item) (index? : Option ℕ) (fields : Fields) (grow : Fields → Fields)
    (place : List ℕ) : Prop where
  absent : root.look place = none
  item : root'.look place = some ⟨index?, fields, 0⟩
  name : ∀ fields, (grow fields).name = fields.name
  priority : ∀ fields, (grow fields).priority = fields.priority
  others : ∀ l, l ≠ place → (root'.look l).map (fun seen => (seen.index?, seen.label)) =
    (root.look l).map fun seen =>
      (seen.index?, if l ≠ [] ∧ l <:+ place then grow seen.label else seen.label)

/-- The size of a file is added to that of a folder. -/
def growBy (delta : ℕ) (fields : Fields) : Fields :=
  { fields with size := (fields.size + delta) % 2 ^ 64 }

theorem look_next (h : root.look parent = some seen) : root.look (seen.count :: parent) = none := by
  rw [← Option.not_isSome_iff_eq_none, look_cons_isSome_iff]
  rintro ⟨seen', hseen', hlt⟩
  rw [h] at hseen'
  obtain rfl := Option.some.inj hseen'
  exact Nat.lt_irrefl _ hlt

variable (fields) in
theorem grown_folder (h : root.look parent = some seen) (hnode : seen.index? = none) :
    Grown root (appendChild (.node fields []) parent root) none fields id (seen.count :: parent) := by
  have hlook := look_addChild (.node fields []) h hnode rfl
  refine ⟨look_next h, ?_, fun _ => rfl, fun _ => rfl, fun l hl => ?_⟩
  · rw [appendChild, hlook, if_pos rfl]
    rfl
  · rw [appendChild, hlook, if_neg hl]
    simp only [id, ite_self]
    split_ifs with heq
    · rw [heq, h]
      rfl
    · rfl

variable (i fields) in
theorem grown_file (h : root.look parent = some seen) (hnode : seen.index? = none) :
    Grown root (appendChild (.leaf i fields) parent root) (some i) fields (growBy fields.size)
      (seen.count :: parent) := by
  have hlook := look_addChild (.leaf i fields) h hnode rfl
  have hnew : ¬ seen.count :: parent <:+ parent := fun hsuffix => by
    have := hsuffix.length_le
    rw [length_cons] at this
    omega
  refine ⟨look_next h, ?_, fun _ => rfl, fun _ => rfl, fun l hl => ?_⟩
  · rw [appendChild, look_increaseSize, if_neg fun hand => hnew hand.2, hlook, if_pos rfl]
    rfl
  · have hsuffix : l <:+ seen.count :: parent ↔ l <:+ parent := by
      rw [suffix_cons_iff, or_iff_right hl]
    rw [appendChild, look_increaseSize, hlook, if_neg hl]
    simp only [hsuffix]
    by_cases heq : l = parent
    · subst heq
      rw [if_pos rfl, h]
      split_ifs <;> rfl
    · split_ifs
      · cases root.look l <;> rfl
      · rfl

namespace Grown

variable (h : Grown root root' index? fields grow place) {label : Fields}
include h

theorem look_iff (hl : l ≠ place) {index?' : Option ℕ} :
    (∃ seen, root'.look l = some seen ∧ seen.index? = index?' ∧ seen.label = label) ↔
      ∃ seen, root.look l = some seen ∧ seen.index? = index?' ∧
        label = if l ≠ [] ∧ l <:+ place then grow seen.label else seen.label := by
  have hothers := h.others l hl
  constructor
  · rintro ⟨seen, hseen, rfl, rfl⟩
    rw [hseen, Option.map_some] at hothers
    obtain ⟨old, hold, heq⟩ := Option.map_eq_some_iff.1 hothers.symm
    exact ⟨old, hold, congrArg Prod.fst heq, (congrArg Prod.snd heq).symm⟩
  · rintro ⟨seen, hseen, rfl, rfl⟩
    rw [hseen, Option.map_some] at hothers
    obtain ⟨new, hnew, heq⟩ := Option.map_eq_some_iff.1 hothers
    exact ⟨new, hnew, congrArg Prod.fst heq, congrArg Prod.snd heq⟩

theorem leaf_iff (hl : l ≠ place) :
    (∃ seen, root'.look l = some seen ∧ seen.index? = some i ∧ seen.label = label) ↔
      ∃ seen, root.look l = some seen ∧ seen.index? = some i ∧ label = seen.label := by
  rw [h.look_iff hl]
  by_cases hsuffix : l ≠ [] ∧ l <:+ place
  · have hfolder : IsFolder root l := by
      obtain ⟨seen, hseen, hnode⟩ :=
        isFolder_of_isSuffix root' (by rw [h.item]; rfl) hsuffix.2 hl
      obtain ⟨old, hold, hold', -⟩ := (h.look_iff hl).1 ⟨seen, hseen, hnode, rfl⟩
      exact ⟨old, hold, hold'⟩
    obtain ⟨folder, hfolder, hnode⟩ := hfolder
    have hnone : ∀ seen, root.look l = some seen → seen.index? ≠ some i := by
      intro seen hseen
      rw [hfolder] at hseen
      obtain rfl := Option.some.inj hseen
      rw [hnode]
      exact fun heq => by cases heq
    exact iff_of_false (fun ⟨seen, hseen, hindex, _⟩ => hnone seen hseen hindex)
      fun ⟨seen, hseen, hindex, _⟩ => hnone seen hseen hindex
  · simp only [if_neg hsuffix]

theorem folder_iff (hl : l ≠ place) {name : QString} :
    (∃ seen, root'.look l = some seen ∧ seen.index? = none ∧ seen.label.name = name) ↔
      ∃ seen, root.look l = some seen ∧ seen.index? = none ∧ seen.label.name = name := by
  have hname : ∀ label : Fields, (if l ≠ [] ∧ l <:+ place then grow label else label).name =
      label.name := by
    intro label
    split_ifs
    · exact h.name label
    · rfl
  constructor
  · rintro ⟨seen, hseen, hnone, rfl⟩
    obtain ⟨old, hold, hnone', hlabel⟩ := (h.look_iff hl).1 ⟨seen, hseen, hnone, rfl⟩
    exact ⟨old, hold, hnone', by rw [hlabel, hname]⟩
  · rintro ⟨seen, hseen, hnone, rfl⟩
    obtain ⟨new, hnew, hnone', hlabel⟩ := (h.look_iff hl).2 ⟨seen, hseen, hnone, rfl⟩
    exact ⟨new, hnew, hnone', by rw [hlabel, hname]⟩

theorem ne_of_isSome (hl : (root.look l).isSome) : l ≠ place := by
  rintro rfl
  rw [h.absent] at hl
  cases hl

theorem itemPath_old (hl : (root.look l).isSome) : itemPath root' l = itemPath root l := by
  refine itemPath_congr fun l' hl' => ?_
  have hne := h.ne_of_isSome (look_of_isSuffix hl hl')
  have hothers := congrArg (Option.map fun entry => entry.2.name) (h.others l' hne)
  rw [Option.map_map, Option.map_map] at hothers
  rw [show (fun seen : LeafTree.Seen ℕ Fields => seen.label.name) =
    (fun entry : Option ℕ × Fields => entry.2.name) ∘ fun seen => (seen.index?, seen.label) from rfl,
    hothers]
  cases root.look l' with
  | none => rfl
  | some seen =>
    simp only [Option.map_some, Function.comp]
    split_ifs
    · rw [h.name]
    · rfl

theorem isFolder_iff : IsFolder root' l ↔ IsFolder root l ∨ (l = place ∧ index? = none) := by
  by_cases hl : l = place
  · subst hl
    constructor
    · rintro ⟨seen, hseen, hnone⟩
      rw [h.item] at hseen
      obtain rfl := Option.some.inj hseen
      exact .inr ⟨rfl, hnone⟩
    · rintro (⟨seen, hseen, -⟩ | ⟨-, hnone⟩)
      · rw [h.absent] at hseen
        cases hseen
      · exact ⟨_, h.item, hnone⟩
  · rw [or_iff_left fun hand => hl hand.1]
    constructor
    · rintro ⟨seen, hseen, hnone⟩
      obtain ⟨old, hold, hold', -⟩ := (h.look_iff hl).1 ⟨seen, hseen, hnone, rfl⟩
      exact ⟨old, hold, hold'⟩
    · rintro ⟨seen, hseen, hnone⟩
      obtain ⟨new, hnew, hnew', -⟩ := (h.look_iff hl).2 ⟨seen, hseen, hnone, rfl⟩
      exact ⟨new, hnew, hnew'⟩

theorem unset (hroot : ∀ place seen, root.look place = some seen → seen.label.priority = .normal)
    (hfields : fields.priority = .normal) (l : List ℕ) (seen : LeafTree.Seen ℕ Fields)
    (hseen : root'.look l = some seen) : seen.label.priority = .normal := by
  by_cases hl : l = place
  · rw [hl, h.item] at hseen
    obtain rfl := Option.some.inj hseen
    exact hfields
  · obtain ⟨old, hold, -, hlabel⟩ := (h.look_iff hl).1 ⟨seen, hseen, rfl, rfl⟩
    rw [hlabel, ← hroot l old hold]
    split_ifs
    · exact h.priority _
    · rfl

theorem itemPath_new {i : ℕ} (hplace : place = i :: parent) (hparent : itemPath root parent = some path) :
    itemPath root' place = some (path ++ [fields.name]) := by
  have hsome : (root.look parent).isSome := itemPath_isSome_iff.1 (by rw [hparent]; rfl)
  subst hplace
  exact itemPath_cons_eq_some_iff.2
    ⟨path, _, (h.itemPath_old hsome).trans hparent, h.item, rfl⟩

end Grown

theorem sizeBelow_concat (path : List QString) (files : List ContentFile) (file : ContentFile) :
    sizeBelow path (files ++ [file]) = sizeBelow path files +
      if path.isPrefixOf (pathFolders file) then file.fileSize else 0 := by
  rw [sizeBelow, sizeBelow, filter_append, map_append, sum_append, filter_cons]
  split_ifs
  · rw [filter_nil, map_singleton, sum_singleton]
  · rw [filter_nil, map_nil, sum_nil]

theorem Built.isSuffix_iff {folders : List QString → Prop} {filesIndex : List (List ℕ)}
    {place place' : List ℕ} {path path' : List QString} (h : Built folders files root filesIndex)
    (hfolder : IsFolder root place) (hpath : itemPath root place = some path)
    (hfolder' : IsFolder root place') (hpath' : itemPath root place' = some path') :
    place <:+ place' ↔ path <+: path' := by
  constructor
  · intro hsuffix
    have htake := itemPath_of_isSuffix hpath' hsuffix
    rw [hpath] at htake
    exact Option.some.inj htake ▸ take_prefix ..
  · intro hprefix
    obtain ⟨l, hl, hlength⟩ : ∃ l, l <:+ place' ∧ l.length = path.length := by
      refine ⟨place'.drop (place'.length - path.length), drop_suffix .., ?_⟩
      have := hprefix.length_le
      rw [length_of_itemPath hpath'] at this
      rw [length_drop]
      omega
    have hl' : itemPath root l = some path := by
      rw [itemPath_of_isSuffix hpath' hl, hlength, ← prefix_iff_eq_take.1 hprefix]
    have hfolder'' : IsFolder root l := by
      by_cases heq : l = place'
      · exact heq ▸ hfolder'
      · exact isFolder_of_isSuffix _ (itemPath_isSome_iff.1 (by rw [hpath']; rfl)) hl heq
    rwa [h.folder_unique _ _ _ hfolder hfolder'' hpath hl']

/-! ### The state of the loop -/

/-- What the variables of the loop are for the files before, where the tree has the given folders. -/
structure Sound (folders : List QString → Prop) (files : List ContentFile) (b : Builder) : Prop where
  built : Built folders files b.rootItem b.filesIndex
  folderMap : ∀ parent name place, b.folderMap.lookup (parent, name) = some place ↔
    (∃ i, place = i :: parent) ∧ ∃ seen, b.rootItem.look place = some seen ∧ seen.index? = none ∧
      seen.label.name = name
  isFolder_lastParent : IsFolder b.rootItem b.lastParent
  itemPath_lastParent : itemPath b.rootItem b.lastParent = some b.lastParentPath
  covers : ∀ file ∈ files, ∀ path, path <+: pathFolders file → folders path
  unset : ∀ place seen, b.rootItem.look place = some seen → seen.label.priority = .normal

theorem folder_unique_of_map {map : List ((List ℕ × QString) × List ℕ)}
    (hmap : ∀ parent name place, map.lookup (parent, name) = some place ↔
      (∃ i, place = i :: parent) ∧ ∃ seen, root.look place = some seen ∧ seen.index? = none ∧
        seen.label.name = name) :
    ∀ place place' path, IsFolder root place → IsFolder root place' →
      itemPath root place = some path → itemPath root place' = some path → place = place' := by
  intro place
  induction place with
  | nil =>
    intro place' path _ _ hpath hpath'
    have hlength := length_of_itemPath hpath
    rw [length_of_itemPath hpath'] at hlength
    exact (length_eq_zero_iff.1 hlength).symm
  | cons i parent ih =>
    rintro (⟨⟩ | ⟨j, parent'⟩) path hfolder hfolder' hpath hpath'
    · have hlength := length_of_itemPath hpath
      rw [length_of_itemPath hpath'] at hlength
      cases hlength
    · obtain ⟨front, seen, hfront, hseen, rfl⟩ := itemPath_cons_eq_some_iff.1 hpath
      obtain ⟨front', seen', hfront', hseen', heq⟩ := itemPath_cons_eq_some_iff.1 hpath'
      obtain ⟨rfl, hname⟩ := append_inj' heq rfl
      have hparents : parent = parent' := by
        obtain ⟨up, hup, hnode, -⟩ := look_parent (by rw [hseen]; rfl)
        obtain ⟨up', hup', hnode', -⟩ := look_parent (by rw [hseen']; rfl)
        exact ih parent' front ⟨up, hup, hnode⟩ ⟨up', hup', hnode'⟩ hfront hfront'
      subst hparents
      obtain ⟨folder, hfolder, hnode⟩ := hfolder
      obtain ⟨folder', hfolder', hnode'⟩ := hfolder'
      rw [hseen] at hfolder
      rw [hseen'] at hfolder'
      obtain rfl := Option.some.inj hfolder
      obtain rfl := Option.some.inj hfolder'
      have hone := (hmap parent seen.label.name (i :: parent)).2 ⟨⟨i, rfl⟩, seen, hseen, hnode, rfl⟩
      have hother := (hmap parent seen.label.name (j :: parent)).2
        ⟨⟨j, rfl⟩, seen', hseen', hnode', (cons.inj hname).1.symm⟩
      exact Option.some.inj (hone.symm.trans hother)

namespace Sound

variable {folders : List QString → Prop} {name : QString}

theorem childCount_lastParent (h : Sound folders files b) : ∃ seen,
    b.rootItem.look b.lastParent = some seen ∧ seen.index? = none ∧
      b.childCount b.lastParent = seen.count := by
  obtain ⟨seen, hseen, hnode⟩ := h.isFolder_lastParent
  refine ⟨seen, hseen, hnode, ?_⟩
  obtain ⟨s, hs, rfl⟩ := Option.map_eq_some_iff.1 hseen
  rw [Builder.childCount, hs]
  rfl

theorem folderMap_insert (h : Sound folders files b)
    (hgrown : Grown b.rootItem root' none fields grow place) (hfind : b.folderMap.lookup (b.lastParent, fields.name) = none)
    (hplace : place = i :: b.lastParent) (parent : List ℕ) (name : QString) (folder : List ℕ) :
    (((b.lastParent, fields.name), place) :: b.folderMap).lookup (parent, name) = some folder ↔
      (∃ i, folder = i :: parent) ∧ ∃ seen, root'.look folder = some seen ∧ seen.index? = none ∧
        seen.label.name = name := by
  have hlookup : (((b.lastParent, fields.name), place) :: b.folderMap).lookup (parent, name) =
      if (parent, name) = (b.lastParent, fields.name) then some place
      else b.folderMap.lookup (parent, name) := by
    rw [lookup_cons]
    by_cases hkey : (parent, name) = (b.lastParent, fields.name)
    · rw [if_pos hkey, beq_iff_eq.2 hkey]
    · rw [if_neg hkey, beq_eq_false_iff_ne.2 hkey]
  rw [hlookup]
  by_cases hfolder : folder = place
  · subst hfolder
    have hseen : (∃ seen, root'.look folder = some seen ∧ seen.index? = none ∧
        seen.label.name = name) ↔ fields.name = name := by
      rw [hgrown.item]
      constructor
      · rintro ⟨seen, hseen, -, hname⟩
        obtain rfl := Option.some.inj hseen
        exact hname
      · exact fun hname => ⟨_, rfl, rfl, hname⟩
    rw [hseen]
    split_ifs with hkey
    · obtain ⟨rfl, rfl⟩ := Prod.mk.inj hkey
      exact iff_of_true rfl ⟨⟨i, hplace⟩, rfl⟩
    · refine iff_of_false (fun hold => ?_) ?_
      · obtain ⟨-, seen, hseen, -⟩ := (h.folderMap ..).1 hold
        rw [hgrown.absent] at hseen
        cases hseen
      · rintro ⟨⟨j, hj⟩, rfl⟩
        rw [hplace] at hj
        exact hkey (by rw [(cons.inj hj).2])
  · rw [hgrown.folder_iff hfolder, ← h.folderMap]
    split_ifs with hkey
    · rw [hkey, hfind]
      exact iff_of_false (fun heq => hfolder (Option.some.inj heq).symm) (fun heq => by cases heq)
    · exact Iff.rfl

theorem enterFolder (h : Sound folders files b) (name : QString) :
    Sound (fun path => folders path ∨ path = b.lastParentPath ++ [name]) files
      (b.enterFolder name) := by
  rw [Builder.enterFolder]
  cases hfind : b.folderMap.lookup (b.lastParent, name) with
  | some newParent =>
    obtain ⟨⟨i, rfl⟩, seen, hseen, hnode, rfl⟩ := (h.folderMap ..).1 hfind
    have hpath : itemPath b.rootItem (i :: b.lastParent) = some (b.lastParentPath ++ [seen.label.name]) :=
      itemPath_cons_eq_some_iff.2 ⟨_, seen, h.itemPath_lastParent, hseen, rfl⟩
    have hold : folders (b.lastParentPath ++ [seen.label.name]) :=
      (h.built.folder_iff _).1 ⟨_, ⟨seen, hseen, hnode⟩, hpath⟩
    have hsame : (fun path => folders path ∨ path = b.lastParentPath ++ [seen.label.name]) = folders := by
      funext path
      exact propext (or_iff_left_of_imp fun heq => heq ▸ hold)
    rw [hsame]
    exact ⟨h.built, h.folderMap, ⟨seen, hseen, hnode⟩, hpath, h.covers, h.unset⟩
  | none =>
    obtain ⟨up, hup, hnode, hcount⟩ := h.childCount_lastParent
    simp only [hcount]
    have hgrown := grown_folder (.ofName name 0) hup hnode
    have hnew := hgrown.itemPath_new rfl h.itemPath_lastParent
    have hmap := h.folderMap_insert hgrown hfind rfl
    have habsent : ¬ folders (b.lastParentPath ++ [name]) := by
      intro hfolder
      obtain ⟨place, hplace, hpath⟩ := (h.built.folder_iff _).2 hfolder
      obtain _ | ⟨i, parent⟩ := place
      · have := length_of_itemPath hpath
        rw [length_append] at this
        cases this
      · obtain ⟨front, seen, hfront, hseen, heq⟩ := itemPath_cons_eq_some_iff.1 hpath
        obtain ⟨rfl, hname⟩ := append_inj' heq rfl
        obtain ⟨above, habove, hnode', -⟩ := look_parent (by rw [hseen]; rfl)
        obtain rfl := h.built.folder_unique _ _ _ ⟨above, habove, hnode'⟩ h.isFolder_lastParent
          hfront h.itemPath_lastParent
        obtain ⟨folder, hfolder, hnode''⟩ := hplace
        rw [hseen] at hfolder
        obtain rfl := Option.some.inj hfolder
        have hfound := (h.folderMap b.lastParent name (i :: b.lastParent)).2
          ⟨⟨i, rfl⟩, seen, hseen, hnode'', (cons.inj hname).1.symm⟩
        rw [hfind] at hfound
        cases hfound
    have hold : ∀ {place}, IsFolder b.rootItem place → (b.rootItem.look place).isSome :=
      fun ⟨seen, hseen, _⟩ => by rw [hseen]; rfl
    refine ⟨⟨fun path => ?_, folder_unique_of_map hmap, h.built.length_filesIndex,
      fun i file hfile => ?_, fun place seen i hseen hindex => ?_,
      fun place seen path hne hseen hnone hpath => ?_⟩, hmap,
      ⟨_, hgrown.item, rfl⟩, hnew, fun file hfile path hpath => .inl (h.covers file hfile path hpath),
      hgrown.unset h.unset rfl⟩
    · rw [← h.built.folder_iff]
      constructor
      · rintro ⟨place, hplace, hpath⟩
        obtain hplace | ⟨rfl, -⟩ := hgrown.isFolder_iff.1 hplace
        · rw [hgrown.itemPath_old (hold hplace)] at hpath
          exact .inl ⟨place, hplace, hpath⟩
        · rw [hnew] at hpath
          exact .inr (Option.some.inj hpath).symm
      · rintro (⟨place, hplace, hpath⟩ | rfl)
        · exact ⟨place, hgrown.isFolder_iff.2 (.inl hplace),
            (hgrown.itemPath_old (hold hplace)).trans hpath⟩
        · exact ⟨_, hgrown.isFolder_iff.2 (.inr ⟨rfl, rfl⟩), hnew⟩
    · obtain ⟨place, seen, hplace, hseen, hindex, hsize, hpath⟩ := h.built.item_of_file i file hfile
      have hsome : (b.rootItem.look place).isSome := by rw [hseen]; rfl
      obtain ⟨seen', hseen', hindex', hlabel'⟩ :=
        (hgrown.leaf_iff (hgrown.ne_of_isSome hsome)).2 ⟨seen, hseen, hindex, rfl⟩
      exact ⟨place, seen', hplace, hseen', hindex', hlabel' ▸ hsize,
        (hgrown.itemPath_old hsome).trans hpath⟩
    · have hne : place ≠ up.count :: b.lastParent := by
        rintro rfl
        rw [hgrown.item] at hseen
        obtain rfl := Option.some.inj hseen
        cases hindex
      obtain ⟨old, hold, hindex', -⟩ := (hgrown.leaf_iff hne).1 ⟨seen, hseen, hindex, rfl⟩
      exact h.built.file_of_item place old i hold hindex'
    · by_cases hplace : place = up.count :: b.lastParent
      · subst hplace
        rw [hgrown.item] at hseen
        obtain rfl := Option.some.inj hseen
        rw [hnew] at hpath
        obtain rfl := Option.some.inj hpath
        have hnone : files.filter (fun file =>
            (b.lastParentPath ++ [name]).isPrefixOf (pathFolders file)) = [] := by
          refine filter_eq_nil_iff.2 fun file hfile hprefix => habsent ?_
          exact h.covers file hfile _ (List.isPrefixOf_iff_prefix.1 hprefix)
        rw [sizeBelow, show (Fields.ofName name 0).name = name from rfl, hnone]
        rfl
      · obtain ⟨old, hold, hnone', hlabel⟩ := (hgrown.look_iff hplace).1 ⟨seen, hseen, hnone, rfl⟩
        rw [hgrown.itemPath_old (by rw [hold]; rfl)] at hpath
        have hsize := h.built.folder_size place old path hne hold hnone' hpath
        rw [← hsize, hlabel]
        split_ifs <;> rfl

theorem lastParentPath_enterFolder (b : Builder) (name : QString) :
    (b.enterFolder name).lastParentPath = b.lastParentPath ++ [name] := by
  rw [Builder.enterFolder]
  split <;> rfl

theorem filesIndex_enterFolder (b : Builder) (name : QString) :
    (b.enterFolder name).filesIndex = b.filesIndex := by
  rw [Builder.enterFolder]
  split <;> rfl

theorem foldl_enterFolder (h : Sound folders files b) (names : List QString) :
    Sound (fun path => folders path ∨ ∃ q, q ≠ [] ∧ q <+: names ∧ path = b.lastParentPath ++ q) files
      (names.foldl Builder.enterFolder b) ∧
    (names.foldl Builder.enterFolder b).lastParentPath = b.lastParentPath ++ names := by
  induction names generalizing folders b with
  | nil =>
    have hsame : (fun path => folders path ∨ ∃ q, q ≠ [] ∧ q <+: [] ∧ path = b.lastParentPath ++ q) =
        folders := by
      funext path
      refine propext (or_iff_left ?_)
      rintro ⟨q, hq, hnil, -⟩
      exact hq (prefix_nil.1 hnil)
    rw [hsame, append_nil]
    exact ⟨h, rfl⟩
  | cons name names ih =>
    obtain ⟨hsound, hlast⟩ := ih (h.enterFolder name)
    rw [lastParentPath_enterFolder] at hsound hlast
    refine ⟨?_, by rw [foldl_cons, hlast, append_assoc, singleton_append]⟩
    have hsame : (fun path => folders path ∨
        ∃ q, q ≠ [] ∧ q <+: name :: names ∧ path = b.lastParentPath ++ q) =
        fun path => (folders path ∨ path = b.lastParentPath ++ [name]) ∨
          ∃ q, q ≠ [] ∧ q <+: names ∧ path = b.lastParentPath ++ [name] ++ q := by
      funext path
      rw [or_assoc]
      congr 1
      refine propext ⟨?_, ?_⟩
      · rintro ⟨q, hq, hprefix, rfl⟩
        obtain ⟨c, q, rfl⟩ := exists_cons_of_ne_nil hq
        obtain ⟨rfl, hrest⟩ := cons_prefix_cons.1 hprefix
        by_cases hnil : q = []
        · rw [hnil]
          exact .inl rfl
        · exact .inr ⟨q, hnil, hrest, by rw [append_assoc, singleton_append]⟩
      · rintro (rfl | ⟨q, hq, hprefix, rfl⟩)
        · exact ⟨[name], cons_ne_nil _ _, cons_prefix_cons.2 ⟨rfl, nil_prefix⟩, rfl⟩
        · exact ⟨name :: q, cons_ne_nil _ _, cons_prefix_cons.2 ⟨rfl, hprefix⟩,
            by rw [append_assoc, singleton_append]⟩
    rw [hsame]
    exact hsound

theorem filesIndex_findFolder (b : Builder) (names : List QString) :
    (b.findFolder names).filesIndex = b.filesIndex := by
  have hfold : ∀ (names : List QString) (b : Builder),
      (names.foldl Builder.enterFolder b).filesIndex = b.filesIndex := by
    intro names
    induction names with
    | nil => exact fun b => rfl
    | cons name names ih =>
      intro b
      rw [foldl_cons, ih, filesIndex_enterFolder]
  rw [Builder.findFolder]
  split_ifs
  · rfl
  · rw [hfold]

theorem findFolder (h : Sound (foldersOf files) files b) (names : List QString) :
    Sound (fun path => foldersOf files path ∨ path <+: names) files (b.findFolder names) ∧
      (b.findFolder names).lastParentPath = names := by
  rw [Builder.findFolder]
  split_ifs with hnames
  · have hlast : foldersOf files b.lastParentPath :=
      (h.built.folder_iff _).1 ⟨_, h.isFolder_lastParent, h.itemPath_lastParent⟩
    have hsame : (fun path => foldersOf files path ∨ path <+: names) = foldersOf files := by
      funext path
      refine propext (or_iff_left_of_imp fun hprefix => ?_)
      rw [← hnames] at hprefix
      obtain hnil | ⟨file, hfile, hfolders⟩ := hlast
      · rw [hnil, prefix_nil] at hprefix
        exact .inl hprefix
      · exact .inr ⟨file, hfile, hprefix.trans hfolders⟩
    rw [hsame]
    exact ⟨h, hnames⟩
  · have hroot : Sound (foldersOf files) files { b with lastParentPath := [], lastParent := [] } := by
      obtain ⟨place, hplace, hpath⟩ := (h.built.folder_iff []).2 (.inl rfl)
      obtain rfl := length_eq_zero_iff.1 (length_of_itemPath hpath).symm
      exact ⟨h.built, h.folderMap, hplace, rfl, h.covers, h.unset⟩
    obtain ⟨hsound, hlast⟩ := hroot.foldl_enterFolder names
    refine ⟨?_, hlast⟩
    have hsame : (fun path => foldersOf files path ∨ path <+: names) = fun path =>
        foldersOf files path ∨ ∃ q, q ≠ [] ∧ q <+: names ∧ path = [] ++ q := by
      funext path
      refine propext ⟨?_, ?_⟩
      · rintro (hold | hprefix)
        · exact .inl hold
        · by_cases hnil : path = []
          · exact .inl (.inl hnil)
          · exact .inr ⟨path, hnil, hprefix, rfl⟩
      · rintro (hold | ⟨q, -, hprefix, rfl⟩)
        · exact .inl hold
        · exact .inr hprefix
    rw [hsame]
    exact hsound

theorem appendFile {file : ContentFile}
    (h : Sound (fun path => foldersOf files path ∨ path <+: pathFolders file) files b)
    (hlast : b.lastParentPath = pathFolders file)
    (hparts : pathFolders file ++ [fileName file] = pathParts file) :
    Sound (foldersOf (files ++ [file])) (files ++ [file])
      (b.appendFile (fileName file) file.fileSize b.filesIndex.length) := by
  obtain ⟨up, hup, hnode, hcount⟩ := h.childCount_lastParent
  rw [Builder.appendFile, hcount]
  have hgrown := grown_file b.filesIndex.length
    (.ofName (fileName file) file.fileSize) hup hnode
  have hnew := hgrown.itemPath_new rfl h.itemPath_lastParent
  rw [hlast, show (Fields.ofName (fileName file) file.fileSize).name = fileName file from rfl,
    hparts] at hnew
  generalize appendChild (.leaf b.filesIndex.length (.ofName (fileName file) file.fileSize))
    b.lastParent b.rootItem = root' at hgrown hnew ⊢
  have hold : ∀ {place}, IsFolder b.rootItem place → (b.rootItem.look place).isSome :=
    fun ⟨seen, hseen, _⟩ => by rw [hseen]; rfl
  have hfolder : ∀ {place}, IsFolder root' place ↔ IsFolder b.rootItem place := by
    intro place
    rw [hgrown.isFolder_iff]
    exact or_iff_left fun hand => by cases hand.2
  have hpaths : ∀ {place}, IsFolder b.rootItem place →
      itemPath root' place = itemPath b.rootItem place :=
    fun hplace => hgrown.itemPath_old (hold hplace)
  have hfolders : ∀ path, foldersOf (files ++ [file]) path ↔
      foldersOf files path ∨ path <+: pathFolders file := by
    intro path
    rw [foldersOf, foldersOf, or_assoc]
    simp only [mem_append, mem_singleton, or_and_right, exists_or, exists_eq_left]
  have hmap : ∀ parent name place, b.folderMap.lookup (parent, name) = some place ↔
      (∃ i, place = i :: parent) ∧ ∃ seen, root'.look place = some seen ∧
          seen.index? = none ∧ seen.label.name = name := by
    intro parent name place
    rw [h.folderMap]
    by_cases hplace : place = up.count :: b.lastParent
    · rw [hplace, hgrown.absent, hgrown.item]
      refine and_congr_right fun _ => iff_of_false ?_ ?_
      · rintro ⟨seen, hseen, -⟩
        cases hseen
      · rintro ⟨seen, hseen, hnone, -⟩
        obtain rfl := Option.some.inj hseen
        cases hnone
    · rw [hgrown.folder_iff hplace]
  refine ⟨⟨fun path => ?_, folder_unique_of_map hmap, ?_, fun i f hf => ?_,
    fun place seen i hseen hindex => ?_, fun place seen path hne hseen hnone hpath => ?_⟩, hmap,
    hfolder.2 h.isFolder_lastParent, (hpaths h.isFolder_lastParent).trans h.itemPath_lastParent,
    fun f hf path hpath => ?_, hgrown.unset h.unset rfl⟩
  · rw [hfolders, ← h.built.folder_iff]
    refine exists_congr fun place => ?_
    rw [hfolder]
    exact and_congr_right fun hplace => by rw [hpaths hplace]
  · rw [length_append, length_append, h.built.length_filesIndex, length_singleton,
      length_singleton]
  · obtain hi | rfl | hi := Nat.lt_trichotomy i files.length
    · rw [getElem?_append_left hi] at hf
      obtain ⟨place, seen, hplace, hseen, hindex, hsize, hpath⟩ := h.built.item_of_file i f hf
      have hsome : (b.rootItem.look place).isSome := by rw [hseen]; rfl
      obtain ⟨seen', hseen', hindex', hlabel'⟩ :=
        (hgrown.leaf_iff (hgrown.ne_of_isSome hsome)).2 ⟨seen, hseen, hindex, rfl⟩
      refine ⟨place, seen', ?_, hseen', hindex', hlabel' ▸ hsize,
        (hgrown.itemPath_old hsome).trans hpath⟩
      rw [getElem?_append_left (by rwa [h.built.length_filesIndex]), hplace]
    · rw [getElem?_concat_length] at hf
      obtain rfl := Option.some.inj hf
      refine ⟨_, _, ?_, hgrown.item, by rw [h.built.length_filesIndex], rfl, hnew⟩
      rw [← h.built.length_filesIndex, getElem?_concat_length]
    · rw [getElem?_eq_none (by rw [length_append]; exact hi)] at hf
      cases hf
  · by_cases hplace : place = up.count :: b.lastParent
    · subst hplace
      rw [hgrown.item] at hseen
      obtain rfl := Option.some.inj hseen
      obtain rfl := Option.some.inj hindex
      rw [getElem?_concat_length]
    · obtain ⟨old, hold', hindex', -⟩ := (hgrown.leaf_iff hplace).1 ⟨seen, hseen, hindex, rfl⟩
      have hfile := h.built.file_of_item place old i hold' hindex'
      rw [getElem?_append_left (List.getElem?_eq_some_iff.1 hfile).1, hfile]
  · have hplace : place ≠ up.count :: b.lastParent := by
      rintro rfl
      rw [hgrown.item] at hseen
      obtain rfl := Option.some.inj hseen
      cases hnone
    obtain ⟨old, hold', hnone', hlabel⟩ := (hgrown.look_iff hplace).1 ⟨seen, hseen, hnone, rfl⟩
    rw [hgrown.itemPath_old (by rw [hold']; rfl)] at hpath
    have hsize := h.built.folder_size place old path hne hold' hnone' hpath
    have hbelow : place <:+ up.count :: b.lastParent ↔ path <+: pathFolders file := by
      rw [suffix_cons_iff, or_iff_right hplace, ← hlast]
      exact h.built.isSuffix_iff ⟨old, hold', hnone'⟩ hpath h.isFolder_lastParent
        h.itemPath_lastParent
    rw [hlabel, sizeBelow_concat]
    by_cases hprefix : path <+: pathFolders file
    · rw [if_pos ⟨hne, hbelow.2 hprefix⟩, if_pos (List.isPrefixOf_iff_prefix.2 hprefix), growBy,
        hsize]
      exact Nat.mod_add_mod ..
    · rw [if_neg fun hand => hprefix (hbelow.1 hand.2),
        if_neg fun hand => hprefix (List.isPrefixOf_iff_prefix.1 hand), hsize, Nat.add_zero]
  · obtain hf | hf := mem_append.1 hf
    · exact (hfolders path).2 (h.covers f hf path hpath)
    · rw [mem_singleton.1 hf] at hpath
      exact (hfolders path).2 (.inr hpath)

end Sound

variable {file : ContentFile}

theorem pathParts_eq (h : pathParts file ≠ []) :
    pathFolders file ++ [fileName file] = pathParts file := by
  rw [pathFolders, fileName, getLastD_eq_getLast?, getLast?_eq_getLast_of_ne_nil h]
  exact dropLast_concat_getLast h

theorem sound_empty : Sound (foldersOf []) [] ⟨emptyRoot, [], [], [], []⟩ := by
  have hlook : ∀ place seen, emptyRoot.look place = some seen →
      place = [] ∧ seen = ⟨none, .ofName [] 0, 0⟩ := by
    intro place seen hseen
    cases place using reverseRecOn with
    | nil => exact ⟨rfl, (Option.some.inj hseen).symm⟩
    | append_singleton r i =>
      rw [look_concat] at hseen
      cases hseen
  have hroot : ∀ place, IsFolder emptyRoot place ↔ place = [] := fun place =>
    ⟨fun ⟨seen, hseen, _⟩ => (hlook place seen hseen).1, fun hnil => hnil ▸ ⟨_, rfl, rfl⟩⟩
  refine ⟨⟨fun path => ?_, fun place place' path hplace hplace' _ _ => ?_, rfl, fun i file hfile => ?_,
    fun place seen i hseen hindex => ?_, fun place seen path hne hseen _ _ => ?_⟩,
    fun parent name place => iff_of_false ?_ ?_, ⟨_, rfl, rfl⟩, rfl, fun file hfile => ?_,
    fun place seen hseen => by rw [(hlook place seen hseen).2]; rfl⟩
  · constructor
    · rintro ⟨place, hplace, hpath⟩
      rw [(hroot place).1 hplace] at hpath
      exact .inl (Option.some.inj hpath).symm
    · rintro (rfl | ⟨file, hfile, -⟩)
      · exact ⟨[], (hroot []).2 rfl, rfl⟩
      · cases hfile
  · rw [(hroot place).1 hplace, (hroot place').1 hplace']
  · cases hfile
  · rw [(hlook place seen hseen).2] at hindex
    cases hindex
  · exact absurd (hlook place seen hseen).1 hne
  · exact fun hnone => by cases hnone
  · rintro ⟨⟨i, rfl⟩, seen, hseen, -⟩
    cases (hlook _ seen hseen).1
  · cases hfile

theorem Sound.addFile (h : Sound (foldersOf files) files b) (hfile : pathParts file ≠ []) :
    Sound (foldersOf (files ++ [file])) (files ++ [file]) (TorrentContent.addFile b file) := by
  obtain ⟨hsound, hlast⟩ := h.findFolder (pathFolders file)
  rw [TorrentContent.addFile, ← Sound.filesIndex_findFolder b (pathFolders file)]
  exact hsound.appendFile hlast (pathParts_eq hfile)

theorem sound_build (h : ∀ file ∈ files, pathParts file ≠ []) :
    Sound (foldersOf files) files (build files) := by
  induction files using reverseRecOn with
  | nil => exact sound_empty
  | append_singleton files file ih =>
    rw [build, foldl_append]
    exact (ih fun f hf => h f (mem_append_left _ hf)).addFile (h file (by simp))

/-! ### What the updates keep -/

def SameItem (fields fields' : Fields) : Prop := fields.name = fields'.name ∧ fields.size = fields'.size

theorem SameItem.refl (fields : Fields) : SameItem fields fields := ⟨rfl, rfl⟩

theorem SameItem.trans (a b c : Fields) (h : SameItem a b) (h' : SameItem b c) : SameItem a c :=
  ⟨h.1.trans h'.1, h.2.trans h'.2⟩

theorem sameItem_withPriority (priority : DownloadPriority) (fields : Fields) :
    SameItem fields (fields.withPriority priority) := ⟨rfl, rfl⟩

theorem sameItem_setProgress (progress : ℚ) (fields : Fields) :
    SameItem fields (fields.setProgress progress) := ⟨rfl, rfl⟩

theorem sameItem_setAvailability (availability : ℚ) (fields : Fields) :
    SameItem fields (fields.setAvailability availability) := ⟨rfl, rfl⟩

/-- The items are the same, but for what is shown of the download. -/
abbrev SameTree (root root' : Item) : Prop := LeafTree.Alike SameItem root root'

theorem SameTree.refl (root : Item) : SameTree root root := LeafTree.Alike.refl SameItem.refl root

theorem SameTree.trans {root root' root'' : Item} (h : SameTree root root')
    (h' : SameTree root' root'') : SameTree root root'' := LeafTree.Alike.trans SameItem.trans h h'

theorem setPrioritiesBelow_eq_map (newPriority : DownloadPriority) (children : List Item) :
    setPrioritiesBelow newPriority children = children.map (setPriorityBelow newPriority) := by
  induction children with
  | nil => rfl
  | cons child children ih => rw [setPrioritiesBelow, ih, map_cons]

theorem recalculateProgressOf_eq_map (children : List Item) : recalculateProgressOf children =
    children.map fun child =>
      if child.label.priority = .ignored then child else recalculateProgress child := by
  induction children with
  | nil => rfl
  | cons child children ih => rw [recalculateProgressOf, ih, map_cons]

theorem recalculateAvailabilityOf_eq_map (children : List Item) :
    recalculateAvailabilityOf children = children.map fun child =>
      if child.label.priority = .ignored then child else recalculateAvailability child := by
  induction children with
  | nil => rfl
  | cons child children ih => rw [recalculateAvailabilityOf, ih, map_cons]

theorem sameTree_setPriorityBelow (newPriority : DownloadPriority) (item : Item) :
    SameTree item (setPriorityBelow newPriority item) := by
  induction item using induction with
  | leaf index fields => exact alike_leaf index ⟨rfl, rfl⟩
  | node fields children ih =>
    rw [setPriorityBelow]
    split_ifs
    · exact SameTree.refl _
    · exact alike_node ⟨rfl, rfl⟩ (forall₂_same.2 fun child _ => SameTree.refl child)
    · rw [setPrioritiesBelow_eq_map]
      exact alike_node ⟨rfl, rfl⟩ (forall₂_map_self ih)

theorem sameTree_updateChildren (item : Item) : SameTree item (updateChildren item) := by
  cases item with
  | leaf index fields => exact SameTree.refl _
  | node fields children =>
    rw [updateChildren]
    split_ifs
    · exact SameTree.refl _
    · rw [setPrioritiesBelow_eq_map]
      exact alike_node ⟨rfl, rfl⟩
        (forall₂_map_self fun child _ => sameTree_setPriorityBelow _ child)

theorem sameTree_relabel {g : Fields → Fields} (hg : ∀ fields, SameItem fields (g fields))
    (item : Item) : SameTree item (item.relabel g) := alike_relabel SameItem.refl hg item

theorem SameTree.modify {f : Item → Item} (hf : ∀ item, SameTree item (f item)) (place : List ℕ)
    (root : Item) : SameTree root (root.modify f place) :=
  LeafTree.Alike.modify SameItem.refl place fun item _ => hf item

theorem sameTree_updatePriorityBy {set : DownloadPriority → Item → Item}
    (h : ∀ prio root, SameTree root (set prio root)) (place : List ℕ) (root : Item) :
    SameTree root (updatePriorityBy set place root) := by
  rw [updatePriorityBy]
  split_ifs
  · exact SameTree.refl root
  · cases root.at? place with
    | none => exact SameTree.refl root
    | some folder => exact h _ root

theorem sameTree_setPriority (place : List ℕ) (newPriority : DownloadPriority) (root : Item) :
    SameTree root (setPriority place newPriority root) := by
  induction place generalizing newPriority root with
  | nil => exact SameTree.refl root
  | cons i parent ih =>
    rw [setPriority]
    cases root.at? (i :: parent) with
    | none => exact SameTree.refl root
    | some item =>
      simp only
      split_ifs
      · exact SameTree.refl root
      · have hup := sameTree_updatePriorityBy ih parent
        have hset : SameTree root (root.modify
            (.relabel fun fields => fields.withPriority newPriority) (i :: parent)) :=
          SameTree.modify (sameTree_relabel (sameItem_withPriority newPriority)) _ root
        exact (hset.trans (hup _)).trans (SameTree.modify sameTree_updateChildren _ _)

section Recalculate

variable {rel : Fields → Fields → Prop} (hrefl : ∀ fields, rel fields fields)
include hrefl

theorem alike_recalculateProgress (htake : ∀ fields sums, rel fields (fields.takeProgress sums))
    (item : Item) : LeafTree.Alike rel item (recalculateProgress item) := by
  induction item using induction with
  | leaf index fields => exact LeafTree.Alike.refl hrefl _
  | node fields children ih =>
    rw [recalculateProgress, recalculateProgressOf_eq_map]
    refine alike_node (htake _ _) (forall₂_map_self fun child hchild => ?_)
    split_ifs
    · exact LeafTree.Alike.refl hrefl child
    · exact ih child hchild

theorem alike_recalculateAvailability
    (htake : ∀ fields sums, rel fields (fields.takeAvailability sums)) (item : Item) :
    LeafTree.Alike rel item (recalculateAvailability item) := by
  induction item using induction with
  | leaf index fields => exact LeafTree.Alike.refl hrefl _
  | node fields children ih =>
    rw [recalculateAvailability, recalculateAvailabilityOf_eq_map]
    refine alike_node (htake _ _) (forall₂_map_self fun child hchild => ?_)
    split_ifs
    · exact LeafTree.Alike.refl hrefl child
    · exact ih child hchild

theorem alike_recalculateRootProgress (htake : ∀ fields sums, rel fields (fields.takeProgress sums))
    (root : Item) : LeafTree.Alike rel root (recalculateRootProgress root) := by
  rw [recalculateRootProgress, funext recalculateProgressOf_eq_map]
  refine alike_mapChildren hrefl (fun item => ?_) root
  split_ifs
  · exact LeafTree.Alike.refl hrefl item
  · exact alike_recalculateProgress hrefl htake item

theorem alike_recalculateRootAvailability (htrans : ∀ a b c, rel a b → rel b c → rel a c)
    (htake : ∀ fields sums, rel fields (fields.takeAvailability sums))
    (hset : ∀ fields, rel fields (fields.setAvailability (-1))) (root : Item) :
    LeafTree.Alike rel root (recalculateRootAvailability root) := by
  rw [recalculateRootAvailability, funext recalculateAvailabilityOf_eq_map]
  have hchildren : LeafTree.Alike rel root (root.mapChildren fun children => children.map fun child =>
      if child.label.priority = .ignored then child else recalculateAvailability child) := by
    refine alike_mapChildren hrefl (fun item => ?_) root
    split_ifs
    · exact LeafTree.Alike.refl hrefl item
    · exact alike_recalculateAvailability hrefl htake item
  exact hchildren.trans htrans (alike_relabel hrefl hset _)

end Recalculate

theorem sameItem_takeProgress (fields : Fields) (sums : ℚ × ℕ × ℕ) :
    SameItem fields (fields.takeProgress sums) := by
  rw [Fields.takeProgress]
  split_ifs <;> exact ⟨rfl, rfl⟩

theorem sameItem_takeAvailability (fields : Fields) (sums : ℚ × ℕ × Bool) :
    SameItem fields (fields.takeAvailability sums) := ⟨rfl, rfl⟩

namespace TorrentContentModel

variable {m : TorrentContentModel} {α : Type} {change : α → Item → List ℕ → Item}

theorem eachFile_induction {P : Item → Item → Prop} (hrefl : ∀ root, P root root)
    (htrans : ∀ a b c, P a b → P b c → P a c)
    (h : ∀ value root place, P root (change value root place)) (values : List α) :
    P m.rootItem (m.eachFile change values) := by
  rw [eachFile]
  generalize m.filesIndex.zip values = entries
  generalize m.rootItem = root
  induction entries generalizing root with
  | nil => exact hrefl root
  | cons entry entries ih => exact htrans _ _ _ (h entry.2 root entry.1) (ih _)

theorem sameTree_eachFile (h : ∀ value root place, SameTree root (change value root place))
    (values : List α) : SameTree m.rootItem (m.eachFile change values) :=
  eachFile_induction SameTree.refl (fun _ _ _ => SameTree.trans) h values

theorem sameTree_recalculated (root : Item) : SameTree root (m.recalculated root).rootItem :=
  (alike_recalculateRootProgress SameItem.refl sameItem_takeProgress root).trans SameItem.trans
    (alike_recalculateRootAvailability SameItem.refl SameItem.trans sameItem_takeAvailability
      (sameItem_setAvailability (-1)) _)

theorem sameTree_updateFilesProgress (filesProgress : List ℚ) :
    SameTree m.rootItem (m.updateFilesProgress filesProgress).rootItem := by
  rw [updateFilesProgress]
  split_ifs
  · exact SameTree.refl _
  · have hfiles : SameTree m.rootItem (m.eachFile (fun progress root place =>
        root.modify (.relabel fun fields => fields.setProgress progress) place) filesProgress) :=
      sameTree_eachFile (fun progress root place =>
        SameTree.modify (sameTree_relabel (sameItem_setProgress progress)) place root) _
    exact hfiles.trans (sameTree_recalculated _)

theorem sameTree_updateFilesPriorities (fprio : List DownloadPriority) :
    SameTree m.rootItem (m.updateFilesPriorities fprio).rootItem := by
  rw [updateFilesPriorities]
  split_ifs
  · exact SameTree.refl _
  · exact sameTree_eachFile (fun priority root place => sameTree_setPriority place priority root) _

theorem filesIndex_updateFilesProgress (filesProgress : List ℚ) :
    (m.updateFilesProgress filesProgress).filesIndex = m.filesIndex := by
  rw [updateFilesProgress]
  split_ifs <;> rfl

theorem filesIndex_updateFilesPriorities (fprio : List DownloadPriority) :
    (m.updateFilesPriorities fprio).filesIndex = m.filesIndex := by
  rw [updateFilesPriorities]
  split_ifs <;> rfl

end TorrentContentModel

namespace SameTree

variable {root root' : Item} (h : SameTree root root') {place : List ℕ}
include h

theorem symm : SameTree root' root := by
  intro place
  have hplace := h place
  generalize root.look place = a at hplace
  generalize root'.look place = b at hplace
  cases hplace with
  | none => exact .none
  | some hseen => exact .some ⟨hseen.1.symm, ⟨hseen.2.1.1.symm, hseen.2.1.2.symm⟩, hseen.2.2.symm⟩

theorem exists_look {seen : LeafTree.Seen ℕ Fields} (hseen : root.look place = some seen) :
    ∃ seen', root'.look place = some seen' ∧
      seen'.index? = seen.index? ∧ seen'.label.name = seen.label.name ∧
        seen'.label.size = seen.label.size := by
  have hplace := h place
  rw [hseen] at hplace
  generalize root'.look place = b at hplace
  cases hplace with
  | some hsame => exact ⟨_, rfl, hsame.1.symm, hsame.2.1.1.symm, hsame.2.1.2.symm⟩

theorem isFolder (hplace : IsFolder root place) : IsFolder root' place := by
  obtain ⟨seen, hseen, hnode⟩ := hplace
  obtain ⟨seen', hseen', hindex, -⟩ := h.exists_look hseen
  exact ⟨seen', hseen', hindex.trans hnode⟩

theorem itemPath_eq (place : List ℕ) : itemPath root' place = itemPath root place := by
  refine itemPath_congr fun l _ => ?_
  have hl := h l
  generalize root.look l = a at hl
  generalize root'.look l = b at hl
  cases hl with
  | none => rfl
  | some hsame => exact congrArg some hsame.2.1.1.symm

theorem built {folders : List QString → Prop} {files : List ContentFile}
    {filesIndex : List (List ℕ)} (hbuilt : Built folders files root filesIndex) :
    Built folders files root' filesIndex := by
  refine ⟨fun path => ?_, fun place place' path hplace hplace' hpath hpath' => ?_,
    hbuilt.length_filesIndex, fun i file hfile => ?_, fun place seen i hseen hindex => ?_,
    fun place seen path hne hseen hnone hpath => ?_⟩
  · rw [← hbuilt.folder_iff]
    refine exists_congr fun place => ?_
    rw [h.itemPath_eq]
    exact and_congr_left fun _ => ⟨h.symm.isFolder, h.isFolder⟩
  · rw [h.itemPath_eq] at hpath hpath'
    exact hbuilt.folder_unique _ _ _ (h.symm.isFolder hplace) (h.symm.isFolder hplace') hpath hpath'
  · obtain ⟨place, seen, hplace, hseen, hindex, hsize, hpath⟩ := hbuilt.item_of_file i file hfile
    obtain ⟨seen', hseen', hindex', -, hsize'⟩ := h.exists_look hseen
    exact ⟨place, seen', hplace, hseen', hindex'.trans hindex, hsize'.trans hsize,
      (h.itemPath_eq place).trans hpath⟩
  · obtain ⟨old, hold, hindex', -⟩ := h.symm.exists_look hseen
    exact hbuilt.file_of_item place old i hold (hindex'.trans hindex)
  · obtain ⟨old, hold, hindex', -, hsize'⟩ := h.symm.exists_look hseen
    rw [h.itemPath_eq] at hpath
    rw [← hsize']
    exact hbuilt.folder_size place old path hne hold (hindex'.trans hnone) hpath

end SameTree

/-- **`populate` builds exactly the tree of the paths of the files.** -/
theorem built_populate (content : TorrentContentModel.Content)
    (h : ∀ file ∈ content.files, pathParts file ≠ []) :
    Built (foldersOf content.files) content.files (TorrentContentModel.populate content).rootItem
      (TorrentContentModel.populate content).filesIndex := by
  rw [TorrentContentModel.populate, filesIndex_updateFilesPriorities,
    filesIndex_updateFilesProgress]
  exact SameTree.built ((sameTree_updateFilesProgress _).trans
    (sameTree_updateFilesPriorities _)) (sound_build h).built

/-- Two files in nested folders, the inner one with the name of the outer one. -/
def nestedFolders : TorrentContentModel.Content :=
  ⟨[⟨"a/a/b".toList, 5⟩, ⟨"a/c".toList, 7⟩], [0, 1], [.normal, .high]⟩

theorem built_nestedFolders : Built (foldersOf nestedFolders.files) nestedFolders.files
    (TorrentContentModel.populate nestedFolders).rootItem
    (TorrentContentModel.populate nestedFolders).filesIndex :=
  built_populate nestedFolders (by decide)

end QBittorrent.TorrentContent
