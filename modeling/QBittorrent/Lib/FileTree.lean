import QBittorrent.Lib.Dict

/-!
# Trees of files

A file system is a finite map from places to entries.  A place is a list of names from the entry up
to the root, so that the places below `d` are those of which `d` is a suffix.  A link stands for the
directory that it leads to.

* `Closed.eraseAll`, `Closed.rmdir` : files and empty directories can go.
-/

namespace QBittorrent

open List Finmap

inductive FileEntry (N : Type*) where
  | dir
  | file
  | link (target : List N)
  deriving DecidableEq

/-- The entries of a file system. -/
abbrev FileTree (N : Type*) := Dict (List N) (FileEntry N)

namespace FileTree

variable {N : Type*}

/-- `q` is an entry of the directory `d`. -/
def IsChild (d : List N) : List N → Prop
  | [] => False
  | _ :: p => p = d

instance [DecidableEq N] (d : List N) : DecidablePred (IsChild d)
  | [] => inferInstanceAs (Decidable False)
  | _ :: p => inferInstanceAs (Decidable (p = d))

theorem isChild_iff {d q : List N} : IsChild d q ↔ ∃ n, q = n :: d := by
  cases q with
  | nil => simp [IsChild]
  | cons n p => simp [IsChild]

theorem IsChild.suffix {d q : List N} (h : IsChild d q) : d <:+ q := by
  obtain ⟨n, rfl⟩ := isChild_iff.1 h
  exact suffix_cons n d

theorem IsChild.ne {d q : List N} (h : IsChild d q) : q ≠ d := by
  obtain ⟨n, rfl⟩ := isChild_iff.1 h
  exact cons_ne_self n d

theorem exists_isChild {d q : List N} (h : d <:+ q) (hne : q ≠ d) :
    ∃ c, IsChild d c ∧ c <:+ q := by
  induction q with
  | nil => exact absurd (suffix_nil.1 h).symm hne
  | cons n p ih =>
    rcases suffix_cons_iff.1 h with heq | hsuffix
    · exact absurd heq.symm hne
    · by_cases heq : p = d
      · exact ⟨n :: p, isChild_iff.2 ⟨n, by rw [heq]⟩, suffix_refl _⟩
      · obtain ⟨c, hchild, hc⟩ := ih hsuffix heq
        exact ⟨c, hchild, hc.trans (suffix_cons n p)⟩

theorem eq_of_suffix_isChild {d c q : List N} (hq : IsChild d q) (h : c <:+ q) :
    c = q ∨ c <:+ d := by
  obtain ⟨n, rfl⟩ := isChild_iff.1 hq
  exact suffix_cons_iff.1 h

variable [DecidableEq N] {t : FileTree N} {d q : List N}

/-- Every entry is in a directory. -/
def Closed (t : FileTree N) : Prop := ∀ n d, n :: d ∈ t → t.lookup d = some .dir

theorem mem_of_lookup {e : FileEntry N} (h : t.lookup q = some e) : q ∈ t :=
  mem_iff.2 ⟨e, h⟩

theorem Closed.lookup_of_suffix (h : Closed t) (hmem : q ∈ t) (hsuffix : d <:+ q) (hne : q ≠ d) :
    t.lookup d = some .dir := by
  induction q with
  | nil => exact absurd (suffix_nil.1 hsuffix).symm hne
  | cons n p ih =>
    have hp := h n p hmem
    rcases suffix_cons_iff.1 hsuffix with heq | hsuffix
    · exact absurd heq.symm hne
    · by_cases heq : p = d
      · rw [← heq, hp]
      · exact ih (mem_of_lookup hp) hsuffix heq

theorem Closed.mem_of_suffix (h : Closed t) (hmem : q ∈ t) (hsuffix : d <:+ q) : d ∈ t := by
  by_cases heq : q = d
  · rwa [← heq]
  · exact mem_of_lookup (h.lookup_of_suffix hmem hsuffix heq)

theorem Closed.not_mem_of_suffix (h : Closed t) (hd : d ∉ t) (hsuffix : d <:+ q) : q ∉ t :=
  fun hmem => hd (h.mem_of_suffix hmem hsuffix)

theorem Closed.eraseAll (h : Closed t) {files : Finset (List N)}
    (hfiles : ∀ f ∈ files, t.lookup f = some .file) : Closed (Dict.eraseAll files t) := by
  intro n d hmem
  rw [Dict.mem_eraseAll] at hmem
  have hdir := h n d hmem.1
  rw [Dict.lookup_eraseAll, if_neg, hdir]
  intro hd
  rw [hfiles d hd] at hdir
  cases hdir

/-- There are entries in the directory. -/
def HasChild (t : FileTree N) (d : List N) : Prop := ∃ q ∈ t.keys, IsChild d q

instance (t : FileTree N) (d : List N) : Decidable (HasChild t d) :=
  inferInstanceAs (Decidable (∃ q ∈ t.keys, IsChild d q))

omit [DecidableEq N] in
theorem hasChild_iff : HasChild t d ↔ ∃ q ∈ t, IsChild d q := by
  simp only [HasChild, Finmap.mem_keys]

/-- An empty directory is removed. -/
def rmdir (t : FileTree N) (p : List N) : FileTree N :=
  if t.lookup p = some .dir ∧ ¬ HasChild t p then t.erase p else t

theorem rmdir_of_hasChild (h : HasChild t d) : rmdir t d = t := if_neg fun hboth => hboth.2 h

theorem rmdir_of_not_dir (h : t.lookup d ≠ some .dir) : rmdir t d = t :=
  if_neg fun hboth => h hboth.1

theorem lookup_rmdir_of_ne (h : q ≠ d) : (rmdir t d).lookup q = t.lookup q := by
  rw [rmdir]
  split_ifs
  · exact lookup_erase_ne h
  · rfl

theorem Closed.rmdir (h : Closed t) (d : List N) : Closed (rmdir t d) := by
  rw [FileTree.rmdir]
  split_ifs with hempty
  · intro n p hmem
    have hp := h n p (mem_erase.1 hmem).2
    have hne : p ≠ d := fun heq => hempty.2 (hasChild_iff.2
      ⟨n :: p, (mem_erase.1 hmem).2, isChild_iff.2 ⟨n, by rw [heq]⟩⟩)
    rw [lookup_erase_ne hne, hp]
  · exact h

/-- A directory, or a link to one. -/
def isDir (t : FileTree N) (p : List N) : Bool :=
  match t.lookup p with
  | some .dir => true
  | some (.link target) => t.lookup target = some .dir
  | _ => false

/-- The directory at a place, or the one that a link leads to. -/
def resolve (t : FileTree N) (p : List N) : List N :=
  match t.lookup p with
  | some (.link target) => target
  | _ => p

theorem isDir_iff : isDir t q = true ↔ t.lookup (resolve t q) = some .dir := by
  unfold isDir resolve
  cases hq : t.lookup q with
  | none => simp [hq]
  | some e =>
    cases e with
    | dir => simp [hq]
    | file => simp [hq]
    | link target => simp

theorem resolve_of_dir (h : t.lookup q = some .dir) : resolve t q = q := by
  unfold resolve
  rw [h]

theorem resolve_congr {u : FileTree N} (h : t.lookup q = u.lookup q) :
    resolve t q = resolve u q := by
  unfold resolve
  rw [h]

theorem lookup_of_resolve_ne (h : resolve t q ≠ q) : t.lookup q = some (.link (resolve t q)) := by
  unfold resolve at h ⊢
  cases hq : t.lookup q with
  | none => simp [hq] at h
  | some e =>
    cases e with
    | dir => simp [hq] at h
    | file => simp [hq] at h
    | link target => rfl

end FileTree

end QBittorrent
