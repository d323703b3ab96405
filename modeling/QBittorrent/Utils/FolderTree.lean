import QBittorrent.Lib.FileTree
import Mathlib.Data.List.Sort

/-!
# Removal of empty folder trees

`smartRemoveEmptyFolderTree` lists the directories below a path and goes through them from the
deepest one on.  A directory without subdirectories whose files are all left behind by the system is
cleared and removed.  The three listings do not see the same: that of the directories and that of
subdirectories leave out what is hidden and take links for directories.

* `right_smartRemoveEmptyFolderTree_iff` : when only junk is removed.
-/

namespace QBittorrent

open List Finmap Dict

namespace FolderTree

open FileTree

abbrev Name := List Char

abbrev Place := List Name

abbrev Files := FileTree Name

/-- The names of files that are removed. -/
def deleteFilesList : List Name :=
  ["Thumbs.db".toList, "desktop.ini".toList, ".directory".toList, ".DS_Store".toList]

/-- A name is that of a file that may be removed; `fold` makes letters of different case equal. -/
def isJunk (fold : Char → Char) : Place → Bool
  | [] => false
  | name :: _ => decide (name.getLast? = some '~') ||
      deleteFilesList.any fun other => decide (other.map fold = name.map fold)

/-- The name does not begin with a dot. -/
def isVisible : Place → Bool
  | [] => true
  | name :: _ => decide (name.head? ≠ some '.')

/-- The files of a directory, hidden ones included: `entryList` with `Files | Hidden`. -/
def filesOf (t : Files) (d : Place) : Finset Place :=
  t.keys.filter fun q => IsChild d q ∧ t.lookup q = some .file

/-- There is a directory, or a link to one, that is not hidden: `isEmpty` with `Dirs` fails. -/
def HasVisibleDir (t : Files) (d : Place) : Prop :=
  ∃ q ∈ t.keys, IsChild d q ∧ isVisible q = true ∧ isDir t q = true
  deriving Decidable

/-- What the iterator finds below `path`: directories and links to them that are not hidden.  Links
are not followed; hidden directories are entered or not. -/
def Found (entersHidden : Bool) (t : Files) (path p : Place) : Prop :=
  path <:+ p ∧ p ≠ path ∧ isVisible p = true ∧ isDir t p = true ∧
    (entersHidden = true ∨ ∀ a, path <:+ a → a ≠ path → a <:+ p → isVisible a = true)

/-- `dirList`, sorted: the path and what the iterator finds below it, the deepest ones first, in any
order otherwise. -/
structure DirList (entersHidden : Bool) (t : Files) (path : Place) where
  toList : List Place
  nodup : toList.Nodup
  mem_iff : ∀ p, p ∈ toList ↔ p = path ∨ Found entersHidden t path p
  sorted : toList.Pairwise fun l r => r.length ≤ l.length

/-- The body of the loop.  A path that ends with a link is one into the directory that the link
leads to; the link itself is no directory for `rmdir`. -/
def processDir (fold : Char → Char) (t : Files) (p : Place) : Files :=
  let dir := resolve t p
  if HasVisibleDir t dir then t
  else if ∃ f ∈ filesOf t dir, isJunk fold f = false then t
  else rmdir (Dict.eraseAll (filesOf t dir) t) p

/-- The files afterwards and the result. -/
def smartRemoveEmptyFolderTree (fold : Char → Char) {entersHidden : Bool} {t : Files} {path : Place}
    (dirList : DirList entersHidden t path) : Files × Bool :=
  if path ∈ t then
    let after := dirList.toList.foldl (processDir fold) t
    (after, decide (path ∈ after))
  else (t, true)

/-! ### What is meant -/

variable (fold : Char → Char) (t : Files) (path : Place)

/-- A directory that holds nothing but junk, and directories that do so. -/
def OnlyJunk (d : Place) : Prop :=
  t.lookup d = some .dir ∧ ∀ q, d <:+ q → q ≠ d → ∀ e, t.lookup q = some e →
    e = .dir ∨ e = .file ∧ isJunk fold q = true

/-- A directory that is to be removed. -/
def Doomed (d : Place) : Prop := path <:+ d ∧ OnlyJunk fold t d

/-- Entries that are to be removed: such directories with what they hold. -/
def Removed (q : Place) : Prop := ∃ d, Doomed fold t path d ∧ d <:+ q

/-- Exactly the directories below the path with nothing but junk are gone. -/
def Right (after : Files) : Prop :=
  ∀ q, (Removed fold t path q → after.lookup q = none) ∧
    (¬ Removed fold t path q → after.lookup q = t.lookup q)

/-- A directory looks like one to clear, once the directories `before` have had their turn: there
are files, all of them junk, and all directories that can be seen are gone. -/
def LooksEmpty (before : List Place) (d : Place) : Prop :=
  (filesOf t d).Nonempty ∧ (∀ f ∈ filesOf t d, isJunk fold f = true) ∧
    ∀ q, IsChild d q → isVisible q = true → isDir t q = true →
      Doomed fold t path (resolve t q) ∧ resolve t q ∈ before

/-- Only a directory that is to be removed looks like one. -/
def Safe (before : List Place) (p : Place) : Prop :=
  LooksEmpty fold t path before (resolve t p) → Doomed fold t path (resolve t p)

variable {fold t path} {before l : List Place} {u : Files} {p d c q : Place}

/-! ### What is to be removed -/

theorem OnlyJunk.of_suffix (h : OnlyJunk fold t d) (hsuffix : d <:+ c)
    (hdir : t.lookup c = some .dir) : OnlyJunk fold t c := by
  refine ⟨hdir, fun q hq hne e he => h.2 q (hsuffix.trans hq) (fun heq => hne ?_) e he⟩
  rw [heq] at hq ⊢
  exact hsuffix.eq_of_length_le hq.length_le

theorem Doomed.dir (h : Doomed fold t path d) : t.lookup d = some .dir := h.2.1

theorem Doomed.removed (h : Doomed fold t path d) : Removed fold t path d :=
  ⟨d, h, suffix_refl d⟩

theorem doomed_of_removed (h : Removed fold t path d) (hdir : t.lookup d = some .dir) :
    Doomed fold t path d := by
  obtain ⟨c, hc, hsuffix⟩ := h
  exact ⟨hc.1.trans hsuffix, hc.2.of_suffix hsuffix hdir⟩

theorem Removed.entry (h : Removed fold t path q) {e : FileEntry Name}
    (he : t.lookup q = some e) : e = .dir ∨ e = .file ∧ isJunk fold q = true := by
  obtain ⟨d, hd, hsuffix⟩ := h
  by_cases heq : q = d
  · rw [heq, hd.dir, Option.some.injEq] at he
    exact .inl he.symm
  · exact hd.2.2 q hsuffix heq e he

theorem not_removed_of_link {target : Place} (h : t.lookup q = some (.link target)) :
    ¬ Removed fold t path q := by
  intro hremoved
  rcases hremoved.entry h with he | ⟨he, -⟩ <;> cases he

theorem doomed_of_isChild (hchild : IsChild d q) (hd : ¬ Removed fold t path d)
    (hq : Removed fold t path q) : Doomed fold t path q := by
  obtain ⟨c, hc, hsuffix⟩ := hq
  rcases eq_of_suffix_isChild hchild hsuffix with heq | hd'
  · rwa [← heq]
  · exact absurd ⟨c, hc, hd'⟩ hd

theorem dir_resolve {entersHidden : Bool} (hpath : t.lookup path = some .dir)
    (h : p = path ∨ Found entersHidden t path p) : t.lookup (resolve t p) = some .dir := by
  rcases h with rfl | h
  · rw [resolve_of_dir hpath, hpath]
  · exact isDir_iff.1 h.2.2.2.1

theorem not_removed_of_listed (hdir : t.lookup (resolve t p) = some .dir)
    (h : ¬ Doomed fold t path p) : ¬ Removed fold t path p := by
  by_cases heq : resolve t p = p
  · rw [heq] at hdir
    exact fun hremoved => h (doomed_of_removed hremoved hdir)
  · exact not_removed_of_link (lookup_of_resolve_ne heq)

theorem mem_filesOf : q ∈ filesOf u d ↔ IsChild d q ∧ u.lookup q = some .file := by
  rw [filesOf, Finset.mem_filter, Finmap.mem_keys, and_iff_right_iff_imp]
  exact fun h => mem_of_lookup h.2

theorem hasVisibleDir_iff : HasVisibleDir u d ↔
    ∃ q, IsChild d q ∧ isVisible q = true ∧ isDir u q = true := by
  constructor
  · rintro ⟨q, -, h⟩
    exact ⟨q, h⟩
  · rintro ⟨q, hchild, hvisible, hdir⟩
    refine ⟨q, mem_keys.2 ?_, hchild, hvisible, hdir⟩
    by_contra hmem
    rw [isDir, lookup_eq_none.2 hmem] at hdir
    cases hdir

/-! ### One directory -/

theorem processDir_eq : processDir fold u p =
    if HasVisibleDir u (resolve u p) ∨ ∃ f ∈ filesOf u (resolve u p), isJunk fold f = false then u
    else rmdir (Dict.eraseAll (filesOf u (resolve u p)) u) p := by
  rw [processDir]
  by_cases hdir : HasVisibleDir u (resolve u p)
  · rw [if_pos hdir, if_pos (.inl hdir)]
  · by_cases hother : ∃ f ∈ filesOf u (resolve u p), isJunk fold f = false
    · rw [if_neg hdir, if_pos hother, if_pos (.inr hother)]
    · rw [if_neg hdir, if_neg hother, if_neg (not_or.2 ⟨hdir, hother⟩)]

theorem closed_eraseAll_filesOf (h : Closed u) : Closed (Dict.eraseAll (filesOf u d) u) :=
  h.eraseAll fun _ hf => (mem_filesOf.1 hf).2

theorem closed_processDir (h : Closed u) (p : Place) : Closed (processDir fold u p) := by
  rw [processDir_eq]
  split_ifs
  · exact h
  · exact (closed_eraseAll_filesOf h).rmdir p

theorem lookup_processDir (fold : Char → Char) (u : Files) (p q : Place) :
    (processDir fold u p).lookup q = none ∨ (processDir fold u p).lookup q = u.lookup q := by
  rw [processDir_eq]
  split_ifs
  · exact .inr rfl
  · by_cases hq : q ∈ filesOf u (resolve u p)
    · left
      rw [rmdir]
      have hnone : (eraseAll (filesOf u (resolve u p)) u).lookup q = none := by
        rw [lookup_eraseAll, if_pos hq]
      split_ifs
      · rw [lookup_erase_eq, hnone, ite_self]
      · exact hnone
    · have hsame : (eraseAll (filesOf u (resolve u p)) u).lookup q = u.lookup q := by
        rw [lookup_eraseAll, if_neg hq]
      rw [rmdir]
      split_ifs
      · rw [lookup_erase_eq, hsame]
        split_ifs
        · exact .inl rfl
        · exact .inr rfl
      · exact .inr hsame

theorem lookup_processDir_of_dir (h : u.lookup d = some .dir) (hne : d ≠ p) :
    (processDir fold u p).lookup d = some .dir := by
  rw [processDir_eq]
  split_ifs
  · exact h
  · rw [lookup_rmdir_of_ne hne, lookup_eraseAll, if_neg, h]
    intro hd
    rw [(mem_filesOf.1 hd).2] at h
    cases h

theorem lookup_foldl_processDir_of_dir (h : u.lookup d = some .dir) (hd : d ∉ l) :
    (l.foldl (processDir fold) u).lookup d = some .dir := by
  induction l generalizing u with
  | nil => exact h
  | cons p l ih =>
    rw [mem_cons, not_or] at hd
    exact ih (lookup_processDir_of_dir h hd.1) hd.2

theorem lookup_foldl_processDir_of_none (h : u.lookup q = none) :
    (l.foldl (processDir fold) u).lookup q = none := by
  induction l generalizing u with
  | nil => exact h
  | cons p l ih =>
    refine ih ?_
    rcases lookup_processDir fold u p q with hnone | hsame
    · exact hnone
    · rw [hsame, h]

/-! ### Where nothing goes wrong -/

/-- What holds when the directories `before` have had their turn and nothing was lost. -/
structure Kept (fold : Char → Char) (t : Files) (path : Place) (before : List Place) (u : Files) :
    Prop where
  sub : ∀ q, u.lookup q = none ∨ u.lookup q = t.lookup q
  kept : ∀ q, ¬ Removed fold t path q → u.lookup q = t.lookup q
  gone : ∀ d, Doomed fold t path d → (d ∈ u ↔ d ∉ before)
  closed : Closed u

section

variable (h : Kept fold t path before u)

include h

theorem Kept.lookup_of_mem (hq : q ∈ u) : u.lookup q = t.lookup q :=
  (h.sub q).resolve_left fun hnone => lookup_eq_none.1 hnone hq

theorem Kept.file_of_mem (hq : q ∈ filesOf u d) : q ∈ filesOf t d := by
  rw [mem_filesOf] at hq ⊢
  rw [← h.lookup_of_mem (mem_of_lookup hq.2)]
  exact hq

theorem Kept.dir_iff (hdir : t.lookup d = some .dir) :
    u.lookup d = some .dir ↔ ¬ (Doomed fold t path d ∧ d ∈ before) := by
  by_cases hd : Doomed fold t path d
  · rw [← hdir]
    constructor
    · rintro hlookup ⟨-, hbefore⟩
      rw [hdir] at hlookup
      exact (h.gone d hd).1 (mem_of_lookup hlookup) hbefore
    · intro hnot
      exact h.lookup_of_mem ((h.gone d hd).2 fun hbefore => hnot ⟨hd, hbefore⟩)
  · rw [h.kept d fun hremoved => hd (doomed_of_removed hremoved hdir)]
    exact iff_of_true hdir fun hboth => hd hboth.1

theorem Kept.filesOf_eq (hd : ¬ Removed fold t path d) : filesOf u d = filesOf t d := by
  ext q
  refine ⟨h.file_of_mem, fun hq => ?_⟩
  have hfile := mem_filesOf.1 hq
  rw [mem_filesOf, h.kept q, and_iff_right hfile.1, hfile.2]
  intro hremoved
  rw [(doomed_of_isChild hfile.1 hd hremoved).dir] at hfile
  cases hfile.2

theorem Kept.hasVisibleDir_iff (hd : ¬ Removed fold t path d) :
    HasVisibleDir u d ↔ ∃ q, IsChild d q ∧ isVisible q = true ∧ isDir t q = true ∧
      ¬ (Doomed fold t path (resolve t q) ∧ resolve t q ∈ before) := by
  rw [FolderTree.hasVisibleDir_iff]
  refine exists_congr fun q => and_congr_right fun hchild => and_congr_right fun _ => ?_
  constructor
  · intro hdir
    have hq : u.lookup q = t.lookup q := by
      refine h.lookup_of_mem ?_
      by_contra hmem
      rw [isDir, lookup_eq_none.2 hmem] at hdir
      cases hdir
    rw [isDir_iff, resolve_congr hq] at hdir
    have hdir₀ : t.lookup (resolve t q) = some .dir := by
      rw [← h.lookup_of_mem (mem_of_lookup hdir), hdir]
    exact ⟨isDir_iff.2 hdir₀, (h.dir_iff hdir₀).1 hdir⟩
  · rintro ⟨hdir, hnot⟩
    have hdir₀ := isDir_iff.1 hdir
    have hu := (h.dir_iff hdir₀).2 hnot
    have hq : u.lookup q = t.lookup q := by
      by_cases hremoved : Removed fold t path q
      · have hdoomed := doomed_of_isChild hchild hd hremoved
        rw [resolve_of_dir hdoomed.dir] at hu
        rw [hu, hdoomed.dir]
      · exact h.kept q hremoved
    rw [isDir_iff, resolve_congr hq, hu]

theorem Kept.clears_iff (hd : ¬ Removed fold t path d) :
    (filesOf t d).Nonempty ∧
      ¬ (HasVisibleDir u d ∨ ∃ f ∈ filesOf u d, isJunk fold f = false) ↔
    LooksEmpty fold t path before d := by
  rw [h.hasVisibleDir_iff hd, h.filesOf_eq hd, LooksEmpty, not_or]
  refine and_congr_right fun _ => ?_
  rw [and_comm]
  refine and_congr ?_ ?_
  · simp only [not_exists, not_and, Bool.not_eq_false]
  · constructor
    · intro hnone q hchild hvisible hdir
      by_contra hstays
      exact hnone ⟨q, hchild, hvisible, hdir, hstays⟩
    · rintro hgone ⟨q, hchild, hvisible, hdir, hstays⟩
      exact hstays (hgone q hchild hvisible hdir)

end

theorem exists_isChild_of_not_onlyJunk (hclosed : Closed t) (hdir : t.lookup d = some .dir)
    (hd : ¬ Removed fold t path d) (hbelow : path <:+ d) :
    ∃ q ∈ t, IsChild d q ∧ ¬ Removed fold t path q := by
  have hnot : ¬ OnlyJunk fold t d := fun h => hd (Doomed.removed ⟨hbelow, h⟩)
  simp only [OnlyJunk, hdir, true_and, not_forall] at hnot
  obtain ⟨q, hsuffix, hne, e, he, hother⟩ := hnot
  obtain ⟨c, hchild, hc⟩ := exists_isChild hsuffix hne
  refine ⟨c, hclosed.mem_of_suffix (mem_of_lookup he) hc, hchild, ?_⟩
  rintro ⟨a, ha, hsuffix'⟩
  exact hother (Removed.entry ⟨a, ha, hsuffix'.trans hc⟩ he)

section Step

variable (h : Kept fold t path before u) (hp : p ∉ before)
include h hp

theorem kept_processDir_of_doomed (hdoomed : Doomed fold t path p)
    (hbelow : ∀ c, Doomed fold t path c → p <:+ c → c ≠ p → c ∈ before) :
    Kept fold t path (before ++ [p]) (processDir fold u p) := by
  have hu : u.lookup p = some .dir := (h.dir_iff hdoomed.dir).2 fun hboth => hp hboth.2
  have hentry : ∀ q, IsChild p q → q ∈ u → u.lookup q = some .file ∧ isJunk fold q = true := by
    intro q hchild hq
    obtain ⟨e, he⟩ := mem_iff.1 hq
    have he' := he
    rw [h.lookup_of_mem hq] at he'
    rcases hdoomed.2.2 q hchild.suffix hchild.ne e he' with rfl | ⟨rfl, hjunk⟩
    · have hq' : Doomed fold t path q :=
        ⟨hdoomed.1.trans hchild.suffix, hdoomed.2.of_suffix hchild.suffix he'⟩
      exact absurd (hbelow q hq' hchild.suffix hchild.ne) ((h.gone q hq').1 hq)
    · exact ⟨he, hjunk⟩
  have hvisible : ¬ HasVisibleDir u p := by
    rw [hasVisibleDir_iff]
    rintro ⟨q, hchild, -, hdir⟩
    by_cases hq : q ∈ u
    · rw [isDir, (hentry q hchild hq).1] at hdir
      cases hdir
    · rw [isDir, lookup_eq_none.2 hq] at hdir
      cases hdir
  have hother : ¬ ∃ f ∈ filesOf u p, isJunk fold f = false := by
    rintro ⟨f, hf, hjunk⟩
    have hfile := mem_filesOf.1 hf
    rw [(hentry f hfile.1 (mem_of_lookup hfile.2)).2] at hjunk
    cases hjunk
  have hmem : p ∉ filesOf u p := fun hf => (mem_filesOf.1 hf).1.ne rfl
  have hempty : ¬ HasChild (eraseAll (filesOf u p) u) p := by
    rw [hasChild_iff]
    rintro ⟨q, hq, hchild⟩
    rw [mem_eraseAll] at hq
    exact hq.2 (mem_filesOf.2 ⟨hchild, (hentry q hchild hq.1).1⟩)
  have hstep : processDir fold u p = (eraseAll (filesOf u p) u).erase p := by
    rw [processDir_eq, resolve_of_dir hu, if_neg (not_or.2 ⟨hvisible, hother⟩), rmdir, if_pos]
    rw [lookup_eraseAll, if_neg hmem]
    exact ⟨hu, hempty⟩
  have hsame : ∀ q, q ≠ p → q ∉ filesOf u p → (processDir fold u p).lookup q = u.lookup q := by
    intro q hne hf
    rw [hstep, lookup_erase_ne hne, lookup_eraseAll, if_neg hf]
  refine ⟨fun q => ?_, fun q hq => ?_, fun d hd => ?_, closed_processDir h.closed p⟩
  · rcases lookup_processDir fold u p q with hnone | hsame
    · exact .inl hnone
    · rw [hsame]
      exact h.sub q
  · rw [hsame q (fun heq => hq (heq ▸ hdoomed.removed)) (fun hf => hq ?_), h.kept q hq]
    exact ⟨p, hdoomed, (mem_filesOf.1 hf).1.suffix⟩
  · rw [mem_append, List.mem_singleton, not_or, ← h.gone d hd]
    by_cases heq : d = p
    · rw [heq, hstep]
      exact iff_of_false notMem_erase_self fun hboth => hboth.2 rfl
    · rw [and_iff_left heq, ← lookup_isSome, hsame d heq, lookup_isSome]
      intro hf
      have hfile := (mem_filesOf.1 (h.file_of_mem hf)).2
      rw [hd.dir] at hfile
      cases hfile

omit hp in
theorem Kept.of_lookup (hdoomed : ¬ Doomed fold t path p)
    (hkept : ∀ q, ¬ Removed fold t path q → (processDir fold u p).lookup q = u.lookup q) :
    Kept fold t path (before ++ [p]) (processDir fold u p) := by
  refine ⟨fun q => ?_, fun q hq => ?_, fun d hd => ?_, closed_processDir h.closed p⟩
  · rcases lookup_processDir fold u p q with hnone | hsame
    · exact .inl hnone
    · rw [hsame]
      exact h.sub q
  · rw [hkept q hq, h.kept q hq]
  · have hne : d ≠ p := fun heq => hdoomed (heq ▸ hd)
    rw [mem_append, List.mem_singleton, not_or, and_iff_left hne, ← h.gone d hd]
    constructor
    · intro hmem
      rcases lookup_processDir fold u p d with hnone | hsame
      · exact absurd hmem (lookup_eq_none.1 hnone)
      · rwa [← lookup_isSome, ← hsame, lookup_isSome]
    · intro hmem
      have hu : u.lookup d = some .dir := by rw [h.lookup_of_mem hmem, hd.dir]
      exact mem_of_lookup (lookup_processDir_of_dir hu hne)

omit hp in
theorem lookup_processDir_of_safe (hclosed : Closed t)
    (hdir : t.lookup (resolve t p) = some .dir) (hbelow : path <:+ p)
    (hdoomed : ¬ Doomed fold t path p) (hsafe : Safe fold t path before p)
    (hq : ¬ Removed fold t path q) : (processDir fold u p).lookup q = u.lookup q := by
  have hp₀ := not_removed_of_listed hdir hdoomed
  have hresolve : resolve u p = resolve t p := resolve_congr (h.kept p hp₀)
  rw [processDir_eq, hresolve]
  split_ifs with hstays
  · rfl
  by_cases hd : Doomed fold t path (resolve t p)
  · -- a link to a directory that is to be removed
    have hne : resolve t p ≠ p := fun heq => hdoomed (heq ▸ hd)
    have hlink : u.lookup p = some (.link (resolve t p)) := by
      rw [h.kept p hp₀, lookup_of_resolve_ne hne]
    have hf : q ∉ filesOf u (resolve t p) := fun hf =>
      hq ⟨resolve t p, hd, (mem_filesOf.1 hf).1.suffix⟩
    rw [rmdir_of_not_dir, lookup_eraseAll, if_neg hf]
    rw [lookup_eraseAll]
    split_ifs
    · exact nofun
    · rw [hlink]
      exact nofun
  · have hr : ¬ Removed fold t path (resolve t p) :=
      fun hremoved => hd (doomed_of_removed hremoved hdir)
    have hempty : filesOf u (resolve t p) = ∅ := by
      rw [h.filesOf_eq hr]
      by_contra hfiles
      exact hd (hsafe ((h.clears_iff hr).1 ⟨Finset.nonempty_iff_ne_empty.2 hfiles, hstays⟩))
    have hsame : eraseAll (filesOf u (resolve t p)) u = u := by
      refine ext_lookup fun q => ?_
      rw [lookup_eraseAll, hempty, if_neg (Finset.notMem_empty q)]
    rw [hsame]
    by_cases heq : resolve t p = p
    · rw [heq] at hdir hr
      obtain ⟨c, hc, hchild, hstay⟩ :=
        exists_isChild_of_not_onlyJunk hclosed hdir hr hbelow
      rw [rmdir_of_hasChild (hasChild_iff.2 ⟨c, ?_, hchild⟩)]
      rwa [← lookup_isSome, h.kept c hstay, lookup_isSome]
    · rw [rmdir_of_not_dir]
      rw [h.kept p hp₀, lookup_of_resolve_ne heq]
      exact nofun

omit hp in
theorem not_right_of_not_safe (hdir : t.lookup (resolve t p) = some .dir)
    (hsafe : ¬ Safe fold t path before p) {l : List Place} :
    ¬ Right fold t path (l.foldl (processDir fold) (processDir fold u p)) := by
  rw [Safe, Classical.not_imp] at hsafe
  obtain ⟨hlooks, hd⟩ := hsafe
  have hr : ¬ Removed fold t path (resolve t p) :=
    fun hremoved => hd (doomed_of_removed hremoved hdir)
  have hdoomed : ¬ Doomed fold t path p := fun hp => by
    rw [resolve_of_dir hp.dir] at hd
    exact hd hp
  have hp₀ := not_removed_of_listed hdir hdoomed
  have hresolve : resolve u p = resolve t p := resolve_congr (h.kept p hp₀)
  obtain ⟨⟨f, hf⟩, hclears⟩ := (h.clears_iff hr).2 hlooks
  have hfile := mem_filesOf.1 hf
  have hstay : ¬ Removed fold t path f := by
    intro hremoved
    rw [(doomed_of_isChild hfile.1 hr hremoved).dir] at hfile
    cases hfile.2
  have hgone : (processDir fold u p).lookup f = none := by
    have hnone : (eraseAll (filesOf u (resolve t p)) u).lookup f = none := by
      rw [lookup_eraseAll, h.filesOf_eq hr, if_pos hf]
    rw [processDir_eq, hresolve, if_neg hclears, rmdir]
    split_ifs
    · rw [lookup_erase_eq, hnone, ite_self]
    · exact hnone
  intro hright
  have hkept := (hright f).2 hstay
  rw [lookup_foldl_processDir_of_none hgone, hfile.2] at hkept
  cases hkept

end Step

/-! ### The whole loop -/

theorem kept_start (hclosed : Closed t) : Kept fold t path [] t where
  sub _ := .inr rfl
  kept _ _ := rfl
  gone _ hd := iff_of_true (mem_of_lookup hd.dir) not_mem_nil
  closed := hclosed

theorem Kept.right (h : Kept fold t path before u)
    (hall : ∀ d, Doomed fold t path d → d ∈ before) : Right fold t path u := by
  refine fun q => ⟨?_, h.kept q⟩
  rintro ⟨d, hd, hsuffix⟩
  refine lookup_eq_none.2 (h.closed.not_mem_of_suffix ?_ hsuffix)
  exact fun hmem => (h.gone d hd).1 hmem (hall d hd)

section

variable {entersHidden : Bool} (hclosed : Closed t) (hpath : t.lookup path = some .dir)
  (D : DirList entersHidden t path)
include hclosed hpath

theorem right_foldl_iff (hall : ∀ d, Doomed fold t path d → d ∈ D.toList) {rest : List Place}
    (hsplit : D.toList = before ++ rest) (h : Kept fold t path before u) :
    Right fold t path (rest.foldl (processDir fold) u) ↔
      ∀ mid p after, rest = mid ++ p :: after → Safe fold t path (before ++ mid) p := by
  induction rest generalizing before u with
  | nil =>
    rw [append_nil] at hsplit
    refine iff_of_true (h.right fun d hd => hsplit ▸ hall d hd) fun mid p after heq => ?_
    exact absurd heq (by simp)
  | cons p rest ih =>
    have hlisted := (D.mem_iff p).1 (by rw [hsplit]; simp)
    have hdir := dir_resolve hpath hlisted
    have hbelow : path <:+ p := by
      rcases hlisted with rfl | hfound
      · exact suffix_refl p
      · exact hfound.1
    rw [foldl_cons]
    by_cases hsafe : Safe fold t path before p
    · have hnext : Kept fold t path (before ++ [p]) (processDir fold u p) := by
        by_cases hdoomed : Doomed fold t path p
        · have hnodup := D.nodup
          rw [hsplit, nodup_append] at hnodup
          refine kept_processDir_of_doomed h
            (fun hp => hnodup.2.2 p hp p mem_cons_self rfl) hdoomed fun c hc hsuffix hne => ?_
          -- what is deeper comes first
          have hmem := hall c hc
          rw [hsplit, mem_append, mem_cons] at hmem
          have hsorted := D.sorted
          rw [hsplit, pairwise_append, pairwise_cons] at hsorted
          rcases hmem with hmem | heq | hmem
          · exact hmem
          · exact absurd heq hne
          · exact absurd (hsuffix.eq_of_length_le (hsorted.2.1.1 c hmem)).symm hne
        · exact h.of_lookup hdoomed fun q hq =>
            lookup_processDir_of_safe h hclosed hdir hbelow hdoomed hsafe hq
      rw [ih (by rw [hsplit]; simp) hnext]
      constructor
      · intro hrest mid q after heq
        cases mid with
        | nil =>
          rw [nil_append, List.cons.injEq] at heq
          rw [append_nil, ← heq.1]
          exact hsafe
        | cons first mid =>
          rw [cons_append, List.cons.injEq] at heq
          have := hrest mid q after heq.2
          rwa [append_assoc, singleton_append, heq.1] at this
      · intro hrest mid q after heq
        have := hrest (p :: mid) q after (by rw [heq, cons_append])
        rwa [append_assoc, singleton_append]
    · refine iff_of_false (not_right_of_not_safe h hdir hsafe) fun hrest => hsafe ?_
      have := hrest [] p rest rfl
      rwa [append_nil] at this

/-- **Removal of empty folders.**  Exactly the directories below the path with nothing but junk are
gone, and nothing else, exactly when all of them are found and no other directory looks empty in a
turn. -/
theorem right_smartRemoveEmptyFolderTree_iff :
    Right fold t path (smartRemoveEmptyFolderTree fold D).1 ↔
    (∀ d, Doomed fold t path d → d = path ∨ Found entersHidden t path d) ∧
      ∀ before p after, D.toList = before ++ p :: after → Safe fold t path before p := by
  rw [smartRemoveEmptyFolderTree, if_pos (mem_of_lookup hpath)]
  simp only [← D.mem_iff]
  by_cases hall : ∀ d, Doomed fold t path d → d ∈ D.toList
  · rw [and_iff_right hall, right_foldl_iff hclosed hpath D hall rfl (kept_start hclosed)]
    simp only [nil_append]
  · refine iff_of_false (fun hright => hall fun d hd => ?_) fun h => hall h.1
    by_contra hmem
    have hgone := (hright d).1 hd.removed
    rw [lookup_foldl_processDir_of_dir hd.dir hmem] at hgone
    cases hgone

end

/-! ### A link out of the tree -/

/-- The directory `d` has a link to the directory `o`, where there is a backup file. -/
def linkedFiles : Files :=
  (((((∅ : Files).insert [] .dir).insert [['d']] .dir).insert [['o']] .dir).insert
    [['a', '~'], ['o']] .file).insert [['l'], ['d']] (.link [['o']])

theorem mem_linkedFiles {q : Place} : q ∈ linkedFiles ↔
    q = [['l'], ['d']] ∨ q = [['a', '~'], ['o']] ∨ q = [['o']] ∨ q = [['d']] ∨ q = [] := by
  simp only [linkedFiles, mem_insert, notMem_empty, or_false]

theorem closed_linkedFiles : Closed linkedFiles := by
  intro n d hmem
  rw [mem_linkedFiles] at hmem
  simp only [List.cons.injEq, reduceCtorEq, or_false] at hmem
  rcases hmem with ⟨-, rfl⟩ | ⟨-, rfl⟩ | ⟨-, rfl⟩ | ⟨-, rfl⟩ <;> decide

/-- The link comes first. -/
def linkedDirs : DirList true linkedFiles [['d']] where
  toList := [[['l'], ['d']], [['d']]]
  nodup := by decide
  mem_iff p := by
    rw [List.mem_cons, List.mem_singleton]
    constructor
    · rintro (rfl | rfl)
      · exact .inr ⟨by decide, by decide, by decide, by decide, .inl rfl⟩
      · exact .inl rfl
    · rintro (rfl | ⟨hsuffix, hne, -, hdir, -⟩)
      · exact .inr rfl
      · have hmem : p ∈ linkedFiles := by
          by_contra hmem
          rw [isDir, Finmap.lookup_eq_none.2 hmem] at hdir
          cases hdir
        rcases mem_linkedFiles.1 hmem with rfl | rfl | rfl | rfl | rfl
        · exact .inl rfl
        · exact absurd hsuffix (by decide)
        · exact absurd hsuffix (by decide)
        · exact absurd rfl hne
        · exact absurd hsuffix (by decide)
  sorted := by decide

theorem right_linkedDirs :
    Right Char.toLower linkedFiles [['d']] (smartRemoveEmptyFolderTree Char.toLower linkedDirs).1 ↔
      (∀ d, Doomed Char.toLower linkedFiles [['d']] d →
        d = [['d']] ∨ Found true linkedFiles [['d']] d) ∧
      ∀ before p after, linkedDirs.toList = before ++ p :: after →
        Safe Char.toLower linkedFiles [['d']] before p :=
  right_smartRemoveEmptyFolderTree_iff closed_linkedFiles (by decide) linkedDirs

/-- The backup file of the other directory is lost. -/
theorem backup_lost : ¬ Right Char.toLower linkedFiles [['d']]
    (smartRemoveEmptyFolderTree Char.toLower linkedDirs).1 := by
  intro hright
  have hstay : ¬ Removed Char.toLower linkedFiles [['d']] [['a', '~'], ['o']] := by
    rintro ⟨d, hd, hsuffix⟩
    exact absurd (hd.1.trans hsuffix) (by decide)
  have hkept := (hright _).2 hstay
  have hgone : (smartRemoveEmptyFolderTree Char.toLower linkedDirs).1.lookup
      [['a', '~'], ['o']] = none := by decide
  have hfile : linkedFiles.lookup [['a', '~'], ['o']] = some .file := by decide
  cases hkept

end FolderTree

end QBittorrent
