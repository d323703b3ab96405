import QBittorrent.Lib.PathText

/-!
# `Path`

The functions of `Path` on Unix.  They work on the text of a path: they look for the last separator,
compare prefixes and split the text.

* `Path.ofNames` : the path with given names; every clean path is one;
* `Path.commonPath_ofNames`, `Path.relativePathOf_relative` : the operations by names.
-/

namespace QBittorrent

open PathText List

/-- A text. -/
abbrev QString := List Char

/-- What `QDir` takes from the system and what depends on its version. -/
structure QtDir where
  /-- The names of the directories of `homePath`. -/
  home : List QString
  /-- Those of `currentPath`. -/
  current : List QString
  /-- Whether `cleanPath` drops two dots above the root. -/
  dropsAboveRoot : Bool
  home_isName : ∀ name ∈ home, IsName '/' '.' name

namespace QtDir

variable (Q : QtDir)

/-- A name that begins with a colon is taken for that of a resource. -/
def isAbsolutePath (path : QString) : Bool := decide (path.head? = some '/' ∨ path.head? = some ':')

def cleanPath (path : QString) : QString := clean '/' '.' Q.dropsAboveRoot path

def absoluteFilePath (dir fileName : QString) : QString :=
  if isAbsolutePath fileName then fileName else dir ++ '/' :: fileName

/-- The loops of `relativeFilePath` over the names of the directory and those of the file: equal ones
are skipped, then it goes up for each one that is left of the directory. -/
def relativeNames : List QString → List QString → QString
  | dir :: dirElts, file :: fileElts =>
    if dir = file then relativeNames dirElts fileElts
    else (dir :: dirElts).flatMap (fun _ => ['.', '.', '/']) ++ join '/' (file :: fileElts)
  | dirElts, fileElts => dirElts.flatMap (fun _ => ['.', '.', '/']) ++ join '/' fileElts

/-- The parts that are not empty. -/
def parts (path : QString) : List QString := (segments '/' path).filter fun part => decide (part ≠ [])

def relativeFilePath (dirPath fileName : QString) : QString :=
  let absolute := absoluteFilePath (render '/' '.' true Q.current) dirPath
  let dir := Q.cleanPath absolute
  let file := Q.cleanPath (absoluteFilePath absolute fileName)
  if isAbsolutePath file && isAbsolutePath dir then
    let result := relativeNames (parts dir) (parts file)
    if result = [] then ['.'] else result
  else file

end QtDir

structure Path where
  /-- `m_pathStr`. -/
  pathStr : QString
  deriving DecidableEq

namespace Path

variable (Q : QtDir)

def empty : Path := ⟨[]⟩

/-- The constructor. -/
def ofString (pathStr : QString) : Path :=
  ⟨if pathStr.any (fun c => c == '/' || c == '\\') then Q.cleanPath pathStr else pathStr⟩

def isEmpty (p : Path) : Bool := p.pathStr.isEmpty

/-- Not empty, and without a null character. -/
def isValid (p : Path) : Bool := !p.isEmpty && !p.pathStr.any fun c => c == '\x00'

def isAbsolute (p : Path) : Bool :=
  if p.pathStr.head? = some ':' then false else QtDir.isAbsolutePath p.pathStr

def isRelative (p : Path) : Bool :=
  if p.pathStr.head? = some ':' then true else !QtDir.isAbsolutePath p.pathStr

/-- `lastIndexOf(u'/')`. -/
def lastSlash (s : QString) : Option ℕ := if '/' ∈ s then some (beforeLast '/' s).length else none

def parentPath (p : Path) : Path :=
  match lastSlash p.pathStr with
  | none => empty
  | some 0 => if p.pathStr.length = 1 then empty else ⟨['/']⟩
  | some slashIndex => ⟨p.pathStr.take slashIndex⟩

def filename (p : Path) : QString :=
  match lastSlash p.pathStr with
  | none => p.pathStr
  | some slashIndex => p.pathStr.drop (slashIndex + 1)

def hasAncestor (p other : Path) : Bool :=
  if other.isEmpty || p.pathStr.length ≤ other.pathStr.length then false
  else p.pathStr[other.pathStr.length]? == some '/' && other.pathStr.isPrefixOf p.pathStr

/-- Whether the text ends with it.  Of the letters only those from A to Z are compared without their
case. -/
def hasExtension (p : Path) (ext : QString) : Bool :=
  (ext.map Char.toLower).isSuffixOf (p.pathStr.map Char.toLower)

def removedExtension (p : Path) (ext : QString) : Path :=
  if p.hasExtension ext then ⟨p.pathStr.take (p.pathStr.length - ext.length)⟩ else p

def relativePathOf (p childPath : Path) : Path :=
  if p.isRelative && childPath.isRelative then
    let home := render '/' '.' true Q.home
    ofString Q (Q.relativeFilePath (QtDir.absoluteFilePath home p.pathStr)
      (QtDir.absoluteFilePath home childPath.pathStr))
  else ofString Q (Q.relativeFilePath p.pathStr childPath.pathStr)

/-- The loop of `commonPath`: how many parts are equal, and their size. -/
def commonItems : List QString → List QString → ℕ → ℕ → ℕ × ℕ
  | left :: leftPathItems, right :: rightPathItems, commonItemsCount, commonPathSize =>
    if left ≠ right then (commonItemsCount, commonPathSize)
    else commonItems leftPathItems rightPathItems (commonItemsCount + 1)
      (commonPathSize + left.length)
  | _, _, commonItemsCount, commonPathSize => (commonItemsCount, commonPathSize)

def commonPath (left right : Path) : Path :=
  if left.isEmpty || right.isEmpty then empty else
    let common := commonItems (segments '/' left.pathStr) (segments '/' right.pathStr) 0 0
    let commonPathSize := if 0 < common.1 then common.2 + (common.1 - 1) else common.2
    ⟨left.pathStr.take commonPathSize⟩

/-- `operator/`. -/
def div (lhs rhs : Path) : Path :=
  if rhs.isEmpty then lhs
  else if lhs.isEmpty then rhs
  else ofString Q (lhs.pathStr ++ '/' :: rhs.pathStr)

/-- `operator+`. -/
def append (lhs : Path) (rhs : QString) : Path := ofString Q (lhs.pathStr ++ rhs)

/-- A path that the constructor makes, and that is not empty. -/
def IsClean (p : Path) : Prop := IsPath '/' '.' Q.dropsAboveRoot p.pathStr

variable {Q} {p q : Path}

theorem dot_ne_slash : '.' ≠ '/' := by decide

/-! ### The constructor -/

theorem cleanPath_of_notMem {s : QString} (h : '/' ∉ s) : Q.cleanPath s = s := by
  by_cases hs : s = []
  · subst hs
    rfl
  · have hhead : PathText.isAbsolute '/' s = false := by
      refine decide_eq_false fun hhead => h ?_
      exact mem_of_mem_head? hhead
    have hnames : names '/' '.' Q.dropsAboveRoot s = push '.' true [] s := by
      rw [names, hhead, segments_of_notMem h]
      rfl
    rw [QtDir.cleanPath, clean, if_neg hs, hhead, hnames]
    by_cases hdot : s = ['.']
    · subst hdot
      rfl
    · have hpush : push '.' true [] s = [s] := by simp [push, hs, hdot]
      rw [hpush]
      simp [render]

theorem ofString_eq (s : QString) : ofString Q s = ⟨Q.cleanPath s⟩ := by
  rw [ofString]
  split_ifs with h
  · rfl
  · have hslash : '/' ∉ s := fun hmem => h (any_eq_true.2 ⟨'/', hmem, by simp⟩)
    rw [cleanPath_of_notMem hslash]

/-- The path with the given names. -/
def ofNames (absolute : Bool) (l : List QString) : Path := ⟨render '/' '.' absolute l⟩

theorem ofNames_true (l : List QString) : ofNames true l = ⟨'/' :: join '/' l⟩ := rfl

theorem ofNames_false_nil : ofNames false [] = ⟨['.']⟩ := rfl

theorem ofNames_false {l : List QString} (h : l ≠ []) : ofNames false l = ⟨join '/' l⟩ :=
  congrArg Path.mk (if_neg h)

theorem IsClean.eq_ofNames (h : p.IsClean Q) : ∃ absolute l,
    IsNormal '/' '.' (keeps Q.dropsAboveRoot absolute) l ∧ p = ofNames absolute l := by
  obtain ⟨absolute, l, hl, hp⟩ := h
  exact ⟨absolute, l, hl, congrArg Path.mk hp⟩

section OfNames

variable {keep absolute absolute' : Bool} {l m names file : List QString} {name s ext b x : QString}

theorem ofNames_ne_empty (h : IsNormal '/' '.' keep l) : ofNames absolute l ≠ empty :=
  fun heq => render_ne_nil dot_ne_slash h (congrArg pathStr heq)

theorem pathStr_ofNames_ne_nil (h : IsNormal '/' '.' keep l) : (ofNames absolute l).pathStr ≠ [] :=
  render_ne_nil dot_ne_slash h

theorem segments_ofNames (h : IsNormal '/' '.' keep l) :
    segments '/' (ofNames absolute l).pathStr =
      if absolute then [] :: (if l = [] then [[]] else l) else if l = [] then [['.']] else l :=
  segments_render dot_ne_slash h

theorem ofNames_injective (hl : IsNormal '/' '.' (keeps Q.dropsAboveRoot absolute) l)
    (hm : IsNormal '/' '.' (keeps Q.dropsAboveRoot absolute') m)
    (h : ofNames absolute l = ofNames absolute' m) : absolute = absolute' ∧ l = m :=
  render_injective dot_ne_slash hl hm (congrArg pathStr h)

theorem ofNames_false_injective (hl : IsNormal '/' '.' true l) (hm : IsNormal '/' '.' true m)
    (h : ofNames false l = ofNames false m) : l = m := by
  have hl : IsNormal '/' '.' (keeps false false) l := hl
  have hm : IsNormal '/' '.' (keeps false false) m := hm
  exact (render_injective dot_ne_slash hl hm (congrArg pathStr h)).2

/-! ### The parent -/

theorem lastSlash_append (h : '/' ∉ name) : lastSlash (b ++ '/' :: name) = some b.length := by
  rw [lastSlash, if_pos (by simp), beforeLast_append h]

theorem parentPath_of_notMem (h : '/' ∉ s) : parentPath ⟨s⟩ = empty := by
  have hlast : lastSlash s = none := if_neg h
  simp only [parentPath, hlast]

theorem parentPath_child (h : '/' ∉ name) (hname : name ≠ []) :
    parentPath ⟨'/' :: name⟩ = ⟨['/']⟩ := by
  have hlast : lastSlash ('/' :: name) = some 0 := lastSlash_append (b := []) h
  have hlength : ('/' :: name).length ≠ 1 := by simpa using hname
  simp only [parentPath, hlast, if_neg hlength]

theorem parentPath_append (h : '/' ∉ name) (hb : b ≠ []) : parentPath ⟨b ++ '/' :: name⟩ = ⟨b⟩ := by
  obtain ⟨c, b, rfl⟩ := exists_cons_of_ne_nil hb
  have hlast : lastSlash (c :: b ++ '/' :: name) = some (b.length + 1) := lastSlash_append h
  simp only [parentPath, hlast]
  exact congrArg Path.mk (take_left' rfl)

theorem filename_append (h : '/' ∉ name) : filename ⟨b ++ '/' :: name⟩ = name := by
  simp only [filename, lastSlash_append h]
  have happend : b ++ '/' :: name = (b ++ ['/']) ++ name := by simp
  rw [happend]
  exact drop_left' (by simp)

theorem filename_of_notMem (h : '/' ∉ s) : filename ⟨s⟩ = s := by
  have hlast : lastSlash s = none := if_neg h
  simp only [filename, hlast]

theorem parentPath_ofNames_nil : parentPath (ofNames absolute []) = empty := by
  cases absolute <;> decide

theorem parentPath_ofNames_concat (h : IsNormal '/' '.' keep (l ++ [name])) :
    parentPath (ofNames absolute (l ++ [name])) =
      if absolute = false ∧ l = [] then empty else ofNames absolute l := by
  obtain ⟨hslash, hname, -⟩ := h.notMem dot_ne_slash name (by simp)
  by_cases hl : l = []
  · subst hl
    rw [nil_append]
    cases absolute with
    | true =>
      have htext : ofNames true [name] = ⟨'/' :: name⟩ := by simp [ofNames_true]
      rw [htext, parentPath_child hslash hname]
      rfl
    | false =>
      have htext : ofNames false [name] = ⟨name⟩ := by simp [ofNames_false]
      rw [htext, parentPath_of_notMem hslash, if_pos ⟨rfl, rfl⟩]
  · obtain ⟨first, l, rfl⟩ := exists_cons_of_ne_nil hl
    have hfirst : first ≠ [] := (h.notMem dot_ne_slash first (by simp)).2.1
    have hjoin : join '/' (first :: l) ≠ [] := by
      by_cases hnil : l = []
      · simpa [hnil] using hfirst
      · simp [join_cons _ hnil]
    rw [if_neg fun hempty => hl hempty.2]
    have happend := join_append '/' hl (cons_ne_nil name [])
    rw [join_singleton] at happend
    cases absolute with
    | true =>
      have htext : ofNames true (first :: l ++ [name]) =
          ⟨('/' :: join '/' (first :: l)) ++ '/' :: name⟩ := by
        rw [ofNames_true, happend]
        rfl
      rw [htext, parentPath_append hslash (cons_ne_nil _ _)]
      rfl
    | false =>
      have htext : ofNames false (first :: l ++ [name]) = ⟨join '/' (first :: l) ++ '/' :: name⟩ := by
        rw [ofNames_false (by simp), happend]
      rw [htext, parentPath_append hslash hjoin, ofNames_false hl]

/-! ### The last name -/

/-- The path whose text has the names one behind the other. -/
def ofText (names : List QString) : Path := ⟨join '/' names⟩

theorem ofText_nil : ofText [] = empty := rfl

theorem ofText_singleton (name : QString) : ofText [name] = ⟨name⟩ := by rw [ofText, join_singleton]

theorem ofText_eq_ofNames (h : l ≠ []) : ofText l = ofNames false l := (ofNames_false h).symm

theorem ofText_concat (name : QString) (h : names ≠ []) :
    ofText (names ++ [name]) = ⟨join '/' names ++ '/' :: name⟩ := by
  rw [ofText, join_append '/' h (cons_ne_nil _ _), join_singleton]

theorem parentPath_ofText_concat (hnames : ∀ n ∈ names, n ≠ []) (hname : '/' ∉ name) :
    parentPath (ofText (names ++ [name])) = ofText names := by
  cases names with
  | nil =>
    rw [nil_append, ofText_singleton, parentPath_of_notMem hname]
    rfl
  | cons first names =>
    have hfirst := hnames first mem_cons_self
    have hjoin : join '/' (first :: names) ≠ [] := by
      by_cases hnil : names = []
      · simpa [hnil] using hfirst
      · simp [join_cons _ hnil]
    rw [ofText_concat name (cons_ne_nil _ _), parentPath_append hname hjoin]
    rfl

theorem filename_ofText_concat (hname : '/' ∉ name) :
    filename (ofText (names ++ [name])) = name := by
  cases names with
  | nil => rw [nil_append, ofText_singleton, filename_of_notMem hname]
  | cons first names => rw [ofText_concat name (cons_ne_nil _ _), filename_append hname]

private theorem toLower_eq_slash {c : Char} (h : c.toLower = '/') : c = '/' := by
  delta Char.toLower at h
  split at h
  case isTrue hupper =>
    have hval := congrArg (fun d : Char => d.val.toNat) h
    have hA : 65 ≤ c.toNat := by simpa using UInt32.le_iff_toNat_le.1 hupper.1
    have hZ : c.toNat ≤ 90 := by simpa using UInt32.le_iff_toNat_le.1 hupper.2
    simp at hval
    omega
  case isFalse => exact h

private theorem suffix_append_iff (hext : '/' ∉ ext) : ext <:+ b ++ '/' :: name ↔ ext <:+ name := by
  constructor
  · intro h
    obtain hshort | hlong := suffix_or_suffix_of_suffix h (suffix_append b ('/' :: name))
    · obtain heq | hname := suffix_cons_iff.1 hshort
      · exact absurd (heq ▸ mem_cons_self) hext
      · exact hname
    · exact absurd (hlong.subset mem_cons_self) hext
  · exact fun h => h.trans ((suffix_cons '/' name).trans (suffix_append b ('/' :: name)))

theorem hasExtension_ofText_concat (hext : '/' ∉ ext) :
    (ofText (names ++ [name])).hasExtension ext = hasExtension ⟨name⟩ ext := by
  cases names with
  | nil => rw [nil_append, ofText_singleton]
  | cons first names =>
    have hlower : '/' ∉ ext.map Char.toLower := by
      intro hmem
      obtain ⟨c, hc, hlower⟩ := mem_map.1 hmem
      exact hext (toLower_eq_slash hlower ▸ hc)
    rw [ofText_concat name (cons_ne_nil _ _), hasExtension, hasExtension, Bool.eq_iff_iff,
      isSuffixOf_iff_suffix, isSuffixOf_iff_suffix, map_append, map_cons]
    exact suffix_append_iff hlower

theorem length_le_of_hasExtension (h : hasExtension ⟨name⟩ ext = true) :
    ext.length ≤ name.length := by
  have hlength := (isSuffixOf_iff_suffix.1 h).length_le
  rwa [length_map, length_map] at hlength

theorem removedExtension_ofText_concat (hext : '/' ∉ ext) :
    (ofText (names ++ [name])).removedExtension ext =
      ofText (names ++ [(removedExtension ⟨name⟩ ext).pathStr]) := by
  by_cases hname : hasExtension ⟨name⟩ ext = true
  · have hle := length_le_of_hasExtension hname
    rw [removedExtension, if_pos ((hasExtension_ofText_concat hext).trans hname), removedExtension,
      if_pos hname]
    cases names with
    | nil => rw [nil_append, nil_append, ofText_singleton, ofText_singleton]
    | cons first names =>
      rw [ofText_concat _ (cons_ne_nil _ _), ofText_concat _ (cons_ne_nil _ _)]
      dsimp only
      rw [length_append, length_cons, show (join '/' (first :: names)).length +
        (name.length + 1) - ext.length = (join '/' (first :: names)).length +
          (name.length - ext.length + 1) by omega, take_length_add_append, take_succ_cons]
  · rw [removedExtension, if_neg fun h => hname ((hasExtension_ofText_concat hext).symm.trans h),
      removedExtension, if_neg hname]

/-! ### Ancestors -/

theorem hasAncestor_iff_isPrefix :
    p.hasAncestor q = true ↔ q.pathStr ≠ [] ∧ q.pathStr ++ ['/'] <+: p.pathStr := by
  obtain ⟨s⟩ := p
  obtain ⟨t⟩ := q
  have hunfold : (⟨s⟩ : Path).hasAncestor ⟨t⟩ =
      if t.isEmpty || s.length ≤ t.length then false
      else s[t.length]? == some '/' && t.isPrefixOf s := rfl
  rw [hunfold]
  by_cases ht : t = []
  · simp [ht]
  by_cases hlength : s.length ≤ t.length
  · have hnot : ¬ t ++ ['/'] <+: s := fun hpre => by
      have := hpre.length_le
      rw [length_append, length_singleton] at this
      omega
    simp [hlength, hnot]
  · have hcond : ¬ ((t.isEmpty || decide (s.length ≤ t.length)) = true) := by simp [ht, hlength]
    rw [if_neg hcond, Bool.and_eq_true, beq_iff_eq, isPrefixOf_iff_prefix]
    constructor
    · rintro ⟨hslash, rest, rfl⟩
      obtain ⟨c, rest, rfl⟩ := exists_cons_of_ne_nil (l := rest) (by rintro rfl; simp at hslash)
      have hc : c = '/' := by simpa using hslash
      exact ⟨ht, rest, by simp [hc]⟩
    · rintro ⟨-, rest, rfl⟩
      exact ⟨by simp, by simp⟩

theorem hasAncestor_iff_segments : p.hasAncestor q = true ↔
    q.pathStr ≠ [] ∧ segments '/' q.pathStr <+: segments '/' p.pathStr ∧ q ≠ p := by
  rw [hasAncestor_iff_isPrefix, segments_prefix_iff, mem_expansions_iff]
  refine and_congr_right fun hq => ?_
  obtain ⟨s⟩ := p
  obtain ⟨t⟩ := q
  have hne : (⟨t⟩ : Path) ≠ ⟨s⟩ ↔ t ≠ s := by simp
  rw [hne]
  constructor
  · intro hpre
    refine ⟨.inr hpre, fun heq => ?_⟩
    have := hpre.length_le
    subst heq
    rw [length_append, length_singleton] at this
    omega
  · rintro ⟨heq | hpre, hts⟩
    · exact absurd heq hts
    · exact hpre

private theorem prefix_pad (hl : x ∉ l) (hm : x ∉ m) :
    (if m = [] then [x] else m) <+: (if l = [] then [x] else l) ↔
      (m = [] ∧ l = []) ∨ (m ≠ [] ∧ m <+: l) := by
  by_cases hmnil : m = []
  · subst hmnil
    by_cases hlnil : l = []
    · simp [hlnil]
    · have hnot : ¬ [x] <+: l := fun hpre => hl (hpre.subset (mem_singleton_self x))
      simp [hlnil, hnot]
  · by_cases hlnil : l = []
    · have hnot : ¬ m <+: [x] := fun hpre => by
        obtain ⟨y, m, rfl⟩ := exists_cons_of_ne_nil hmnil
        have hy : y = x := mem_singleton.1 (hpre.subset mem_cons_self)
        exact hm (hy ▸ mem_cons_self)
      simp [hmnil, hlnil, hnot]
    · simp [hmnil, hlnil]

theorem notMem_pads {keep : Bool} (hl : IsNormal '/' '.' keep l) : [] ∉ l ∧ ['.'] ∉ l :=
  ⟨fun hmem => (hl.notMem dot_ne_slash [] hmem).2.1 rfl,
    fun hmem => (hl.notMem dot_ne_slash ['.'] hmem).2.2 rfl⟩

theorem hasAncestor_ofNames_iff (hl : IsNormal '/' '.' (keeps Q.dropsAboveRoot absolute) l)
    (hm : IsNormal '/' '.' (keeps Q.dropsAboveRoot absolute') m) :
    (ofNames absolute l).hasAncestor (ofNames absolute' m) = true ↔
      absolute' = absolute ∧ m <+: l ∧ m ≠ [] ∧ m ≠ l := by
  obtain ⟨hlempty, hldot⟩ := notMem_pads hl
  obtain ⟨hmempty, hmdot⟩ := notMem_pads hm
  have hne : ofNames absolute' m ≠ ofNames absolute l ↔ ¬ (absolute' = absolute ∧ m = l) :=
    not_congr ⟨ofNames_injective hm hl, fun h => by rw [h.1, h.2]⟩
  rw [hasAncestor_iff_segments, hne]
  rw [segments_ofNames hl, segments_ofNames hm]
  have htext : (ofNames absolute' m).pathStr ≠ [] := pathStr_ofNames_ne_nil hm
  have hproper : ((m = [] ∧ l = []) ∨ (m ≠ [] ∧ m <+: l)) ∧ ¬ m = l ↔ m <+: l ∧ m ≠ [] ∧ m ≠ l := by
    constructor
    · rintro ⟨⟨rfl, rfl⟩ | ⟨hmnil, hpre⟩, hml⟩
      · exact absurd rfl hml
      · exact ⟨hpre, hmnil, hml⟩
    · rintro ⟨hpre, hmnil, hml⟩
      exact ⟨.inr ⟨hmnil, hpre⟩, hml⟩
  -- the first name between separators is empty for absolute paths only
  cases absolute <;> cases absolute'
  · simp only [Bool.false_eq_true, if_false, true_and]
    rw [prefix_pad hldot hmdot, hproper, and_iff_right htext]
  · have hnot : ∀ r, ¬ ([] : QString) :: r <+: if l = [] then [['.']] else l := by
      intro r hpre
      have hmem := hpre.subset (mem_cons_self (a := ([] : QString)))
      split_ifs at hmem with hlnil
      · simp at hmem
      · exact hlempty hmem
    simp [hnot]
  · have hnot : ∀ r, ¬ (if m = [] then [['.']] else m) <+: ([] : QString) :: r := by
      intro r hpre
      split_ifs at hpre with hmnil
      · simp at hpre
      · obtain ⟨y, m, rfl⟩ := exists_cons_of_ne_nil hmnil
        exact hmempty ((cons_prefix_cons.1 hpre).1 ▸ mem_cons_self)
    simp [hnot]
  · simp only [if_true, true_and]
    rw [cons_prefix_cons, prefix_pad hlempty hmempty, and_iff_right rfl, hproper,
      and_iff_right htext]

/-! ### The common path -/

theorem commonItems_eq (leftItems rightItems : List QString) (count size : ℕ) :
    commonItems leftItems rightItems count size = (count + common leftItems rightItems,
      size + totalLength (leftItems.take (common leftItems rightItems))) := by
  induction leftItems generalizing rightItems count size with
  | nil => simp [commonItems, totalLength]
  | cons left leftItems ih =>
    cases rightItems with
    | nil => simp [commonItems, totalLength]
    | cons right rightItems =>
      by_cases heq : left = right
      · subst heq
        rw [commonItems, if_neg (by simp), ih, common_cons_self, take_succ_cons, totalLength]
        refine Prod.ext ?_ ?_ <;> dsimp only <;> omega
      · rw [commonItems, if_pos heq, common_cons_of_ne _ _ heq]
        simp [totalLength]

theorem commonPath_eq (hp : p.pathStr ≠ []) (hq : q.pathStr ≠ []) : commonPath p q =
    ⟨join '/' ((segments '/' p.pathStr).take
      (common (segments '/' p.pathStr) (segments '/' q.pathStr)))⟩ := by
  have hnot : ¬ ((p.isEmpty || q.isEmpty) = true) := by simp [isEmpty, hp, hq]
  rw [commonPath, if_neg hnot, commonItems_eq]
  simp only [Nat.zero_add]
  generalize hk : common (segments '/' p.pathStr) (segments '/' q.pathStr) = k
  cases k with
  | zero => simp [totalLength]
  | succ k =>
    have hle : k + 1 ≤ (segments '/' p.pathStr).length := hk ▸ common_le_left _ _
    have htake := take_join '/' (Nat.succ_pos k) hle
    rw [join_segments] at htake
    exact congrArg Path.mk htake

private theorem take_common_pad (hl : x ∉ l) (hm : x ∉ m) :
    (if l = [] then [x] else l).take
        (common (if l = [] then [x] else l) (if m = [] then [x] else m)) =
      if l = [] ∧ m = [] then [x] else l.take (common l m) := by
  by_cases hlnil : l = [] <;> by_cases hmnil : m = []
  · simp [hlnil, hmnil, common]
  · obtain ⟨y, m, rfl⟩ := exists_cons_of_ne_nil hmnil
    have hne : x ≠ y := fun h => hm (h ▸ mem_cons_self)
    simp [hlnil, common_cons_of_ne _ _ hne]
  · obtain ⟨y, l, rfl⟩ := exists_cons_of_ne_nil hlnil
    have hne : y ≠ x := fun h => hl (h ▸ mem_cons_self)
    simp [hmnil, common_cons_of_ne _ _ hne]
  · simp [hlnil, hmnil]

theorem commonPath_ofNames (hl : IsNormal '/' '.' (keeps Q.dropsAboveRoot absolute) l)
    (hm : IsNormal '/' '.' (keeps Q.dropsAboveRoot absolute') m) :
    commonPath (ofNames absolute l) (ofNames absolute' m) =
      if absolute = absolute' ∧ (common l m ≠ 0 ∨ l = m) then ofNames absolute (l.take (common l m))
      else empty := by
  obtain ⟨hlempty, hldot⟩ := notMem_pads hl
  obtain ⟨hmempty, hmdot⟩ := notMem_pads hm
  rw [commonPath_eq (pathStr_ofNames_ne_nil hl) (pathStr_ofNames_ne_nil hm), segments_ofNames hl,
    segments_ofNames hm]
  have hzero : common l m = 0 → ¬ (l = [] ∧ m = []) → l ≠ m := by
    rintro hcommon hnil rfl
    have hself := common_append l [] []
    simp only [append_nil, common_nil_left, Nat.add_zero] at hself
    rw [hcommon] at hself
    exact hnil ⟨length_eq_zero_iff.1 hself.symm, length_eq_zero_iff.1 hself.symm⟩
  have htake : common l m ≠ 0 → l.take (common l m) ≠ [] := fun hne hnil => by
    obtain hzero | hlnil := take_eq_nil_iff.1 hnil
    · exact hne hzero
    · exact hne (by rw [hlnil, common_nil_left])
  have hfirst : ∀ r : List QString, [] ∉ r →
      ∃ y ys, (if r = [] then [['.']] else r) = y :: ys ∧ y ≠ [] := by
    intro r hr
    cases r with
    | nil => exact ⟨['.'], [], rfl, by simp⟩
    | cons y ys => exact ⟨y, ys, rfl, fun hy => hr (hy ▸ mem_cons_self)⟩
  -- the first name between separators is empty for absolute paths only
  cases absolute <;> cases absolute'
  · simp only [Bool.false_eq_true, if_false, true_and]
    rw [take_common_pad hldot hmdot]
    by_cases hnil : l = [] ∧ m = []
    · obtain ⟨rfl, rfl⟩ := hnil
      simp [ofNames_false_nil]
    · rw [if_neg hnil]
      by_cases hcommon : common l m = 0
      · simp [hcommon, hzero hcommon hnil, empty]
      · rw [if_pos (.inl hcommon), ofNames_false (htake hcommon)]
  · obtain ⟨y, ys, hys, hy⟩ := hfirst l hlempty
    simp [hys, common_cons_of_ne _ _ hy, empty]
  · obtain ⟨y, ys, hys, hy⟩ := hfirst m hmempty
    simp [hys, common_cons_of_ne _ _ hy.symm, empty]
  · simp only [if_true, true_and]
    rw [common_cons_self, take_succ_cons, take_common_pad hlempty hmempty]
    by_cases hnil : l = [] ∧ m = []
    · obtain ⟨rfl, rfl⟩ := hnil
      simp [ofNames_true, join, intercalate]
    · rw [if_neg hnil]
      by_cases hcommon : common l m = 0
      · simp [hcommon, hzero hcommon hnil, empty]
      · rw [if_pos (.inl hcommon), ofNames_true, join_cons _ (htake hcommon)]
        rfl

/-! ### Relative paths -/

/-- The way from a directory to a file, both given by their names. -/
def relative (dir file : List QString) : List QString :=
  List.replicate (dir.length - common dir file) ['.', '.'] ++ file.drop (common dir file)

theorem isNormal_relative (dir : List QString) (h : IsNormal '/' '.' keep file) :
    IsNormal '/' '.' true (relative dir file) :=
  (h.drop (common dir file)).ups_append (dir.length - common dir file)

theorem relative_append (l r : List QString) : relative l (l ++ r) = r := by
  have hcommon : common l (l ++ r) = l.length := by
    have := common_append l [] r
    rwa [append_nil, common_nil_left, Nat.add_zero] at this
  rw [relative, hcommon, Nat.sub_self, drop_left' rfl]
  rfl

theorem relativeNames_eq (dir file : List QString) : QtDir.relativeNames dir file =
    (List.replicate (dir.length - common dir file) ['.', '.', '/']).flatten ++
      join '/' (file.drop (common dir file)) := by
  have hflatMap : ∀ l : List QString, l.flatMap (fun _ => ['.', '.', '/']) =
      (replicate l.length ['.', '.', '/']).flatten := by
    intro l
    rw [flatMap, map_const']
  induction dir generalizing file with
  | nil => simp [QtDir.relativeNames]
  | cons d dir ih =>
    cases file with
    | nil =>
      rw [QtDir.relativeNames, hflatMap]
      · simp
      · simp
    | cons f file =>
      by_cases heq : d = f
      · subst heq
        rw [QtDir.relativeNames, if_pos rfl, ih, common_cons_self, length_cons,
          drop_succ_cons, Nat.add_sub_add_right]
      · rw [QtDir.relativeNames, if_neg heq, hflatMap, common_cons_of_ne _ _ heq]
        rfl

private theorem segments_ups (n : ℕ) (t : QString) :
    segments '/' ((List.replicate n ['.', '.', '/']).flatten ++ t) =
      List.replicate n ['.', '.'] ++ segments '/' t := by
  induction n with
  | zero => rfl
  | succ n ih =>
    have hcons : (replicate (n + 1) ['.', '.', '/']).flatten ++ t =
        ['.', '.'] ++ '/' :: ((replicate n ['.', '.', '/']).flatten ++ t) := by
      rfl
    rw [hcons, segments_append, ih, segments_of_notMem (by decide)]
    rfl

private theorem ofString_relativeNames {dir : List QString} (h : IsNormal '/' '.' keep file) :
    ofString Q (if QtDir.relativeNames dir file = [] then ['.'] else QtDir.relativeNames dir file) =
      ofNames false (relative dir file) := by
  rw [relativeNames_eq, relative]
  generalize dir.length - common dir file = n
  have hrest := h.drop (common dir file)
  revert hrest
  generalize file.drop (common dir file) = rest
  intro hrest
  have hnames := hrest.notMem dot_ne_slash
  have hnormal := hrest.ups_append n
  generalize ht : (replicate n ['.', '.', '/']).flatten ++ join '/' rest = t
  have hsegments : segments '/' t =
      replicate n ['.', '.'] ++ (if rest = [] then [[]] else rest) := by
    rw [← ht, segments_ups]
    by_cases hnil : rest = []
    · rw [hnil, if_pos rfl, join_nil, segments_of_notMem not_mem_nil]
    · rw [if_neg hnil, segments_join hnil fun name hname => (hnames name hname).1]
  have hnormalize : normalize '.' true (segments '/' t) = replicate n ['.', '.'] ++ rest := by
    rw [hsegments, ← normalize_of_isNormal hnormal]
    by_cases hnil : rest = []
    · rw [hnil, if_pos rfl, normalize_append, normalize_append]
      rfl
    · rw [if_neg hnil, normalize_of_isNormal hnormal]
  have hhead : PathText.isAbsolute '/' t = false := by
    subst ht
    cases n with
    | succ n => simp [PathText.isAbsolute, replicate_succ]
    | zero =>
      by_cases hnil : rest = []
      · simp [hnil, PathText.isAbsolute]
      · have hrender : render '/' '.' false rest = join '/' rest := if_neg hnil
        rw [replicate_zero, flatten_nil, nil_append, ← hrender]
        exact isAbsolute_render dot_ne_slash hrest
  rw [ofString_eq, QtDir.cleanPath]
  by_cases hempty : t = []
  · subst hempty
    rw [← hnormalize]
    exact congrArg Path.mk (cleanPath_of_notMem (by decide))
  · have hkeeps : keeps Q.dropsAboveRoot false = true := rfl
    rw [if_neg hempty, clean, if_neg hempty, hhead, names, hhead, hkeeps, hnormalize]
    rfl

theorem head?_ofNames_iff (h : IsNormal '/' '.' keep l) :
    (ofNames absolute l).pathStr.head? = some '/' ↔ absolute = true := by
  have hhead : PathText.isAbsolute '/' (ofNames absolute l).pathStr = absolute :=
    isAbsolute_render dot_ne_slash h
  constructor
  · intro hslash
    rw [← hhead]
    exact decide_eq_true hslash
  · rintro rfl
    exact of_decide_eq_true hhead

theorem isAbsolute_ofNames (h : IsNormal '/' '.' keep l) : (ofNames absolute l).isAbsolute = absolute := by
  have hhead : (ofNames absolute l).pathStr.head? = some '/' ↔ absolute = true :=
    head?_ofNames_iff h
  rw [Path.isAbsolute, QtDir.isAbsolutePath]
  by_cases hcolon : (ofNames absolute l).pathStr.head? = some ':'
  · rw [if_pos hcolon]
    rw [hcolon] at hhead
    cases absolute with
    | true => simp at hhead
    | false => rfl
  · rw [if_neg hcolon]
    cases absolute <;> simp_all

theorem isRelative_eq (p : Path) : p.isRelative = !p.isAbsolute := by
  rw [isRelative, isAbsolute]
  split_ifs <;> rfl

def IsResource (p : Path) : Prop := p.pathStr.head? = some ':'

theorem isAbsolutePath_iff (h : IsNormal '/' '.' keep l) :
    QtDir.isAbsolutePath (ofNames absolute l).pathStr = true ↔
      absolute = true ∨ (ofNames absolute l).IsResource := by
  rw [QtDir.isAbsolutePath, decide_eq_true_eq, head?_ofNames_iff h, IsResource]

theorem parts_ofNames (h : IsNormal '/' '.' keep l) (hl : absolute = true ∨ l ≠ []) :
    QtDir.parts (ofNames absolute l).pathStr = l := by
  have hfilter : l.filter (fun part => decide (part ≠ [])) = l :=
    filter_eq_self.2 fun name hname => decide_eq_true (h.notMem dot_ne_slash name hname).2.1
  rw [QtDir.parts, segments_ofNames h]
  cases absolute with
  | true =>
    by_cases hnil : l = []
    · simp [hnil]
    · rw [if_pos rfl, if_neg hnil, filter_cons_of_neg (by simp), hfilter]
  | false =>
    rw [if_neg (by simp), if_neg (hl.resolve_left (by simp)), hfilter]

theorem ofString_relativeFilePath {t : QString}
    (hl : IsNormal '/' '.' (keeps Q.dropsAboveRoot absolute) l)
    (hm : IsNormal '/' '.' (keeps Q.dropsAboveRoot absolute') m)
    (hs : QtDir.isAbsolutePath s = true) (ht : QtDir.isAbsolutePath t = true)
    (hdir : Q.cleanPath s = (ofNames absolute l).pathStr)
    (hfile : Q.cleanPath t = (ofNames absolute' m).pathStr)
    (hl' : absolute = true ∨ (l ≠ [] ∧ (ofNames absolute l).IsResource))
    (hm' : absolute' = true ∨ (m ≠ [] ∧ (ofNames absolute' m).IsResource)) :
    ofString Q (Q.relativeFilePath s t) = ofNames false (relative l m) := by
  have hdirAbsolute := (isAbsolutePath_iff hl).2 (hl'.imp_right And.right)
  have hfileAbsolute := (isAbsolutePath_iff hm).2 (hm'.imp_right And.right)
  have hunfold : Q.relativeFilePath s t =
      if QtDir.relativeNames l m = [] then ['.'] else QtDir.relativeNames l m := by
    simp only [QtDir.relativeFilePath, QtDir.absoluteFilePath, if_pos hs, if_pos ht, hdir, hfile,
      hdirAbsolute, hfileAbsolute, Bool.and_self, if_true]
    rw [parts_ofNames hl (hl'.imp_right And.left), parts_ofNames hm (hm'.imp_right And.left)]
  rw [hunfold, ofString_relativeNames hm]

theorem cleanPath_ofNames (h : IsNormal '/' '.' (keeps Q.dropsAboveRoot absolute) l) :
    Q.cleanPath (ofNames absolute l).pathStr = (ofNames absolute l).pathStr :=
  clean_render dot_ne_slash h

variable (Q) in
/-- The names of a relative path, seen from the home directory. -/
def fromHome (l : List QString) : List QString :=
  l.foldl (push '.' (keeps Q.dropsAboveRoot true)) Q.home

theorem isNormal_home : IsNormal '/' '.' keep Q.home := ⟨0, Q.home, rfl, Q.home_isName, fun _ => rfl⟩

theorem isNormal_fromHome (h : IsNormal '/' '.' keep l) :
    IsNormal '/' '.' (keeps Q.dropsAboveRoot true) (fromHome Q l) :=
  isNormal_foldl_push isNormal_home fun name hname => (h.notMem dot_ne_slash name hname).1

theorem foldl_push_segments {b : Bool} {stack : List QString} (h : IsNormal '/' '.' keep l) :
    (segments '/' (ofNames false l).pathStr).foldl (push '.' b) stack = l.foldl (push '.' b) stack := by
  rw [segments_ofNames h, if_neg (by simp)]
  by_cases hnil : l = []
  · have hskip : push '.' b stack ['.'] = stack := push_skip (.inr rfl)
    rw [if_pos hnil, hnil]
    exact hskip
  · rw [if_neg hnil]

theorem cleanPath_below_home (h : IsNormal '/' '.' keep l) :
    Q.cleanPath (render '/' '.' true Q.home ++ '/' :: (ofNames false l).pathStr) =
      (ofNames true (fromHome Q l)).pathStr := by
  rw [QtDir.cleanPath, clean_append dot_ne_slash isNormal_home, foldl_push_segments h]
  rfl

theorem relativePathOf_absolute (hl : IsNormal '/' '.' (keeps Q.dropsAboveRoot absolute) l)
    (hm : IsNormal '/' '.' (keeps Q.dropsAboveRoot absolute) m)
    (hl' : absolute = true ∨ (l ≠ [] ∧ (ofNames absolute l).IsResource))
    (hm' : absolute = true ∨ (m ≠ [] ∧ (ofNames absolute m).IsResource)) :
    relativePathOf Q (ofNames absolute l) (ofNames absolute m) = ofNames false (relative l m) := by
  have hlText := (isAbsolutePath_iff hl).2 (hl'.imp_right And.right)
  have hmText := (isAbsolutePath_iff hm).2 (hm'.imp_right And.right)
  have hrelative := ofString_relativeFilePath hl hm hlText hmText (cleanPath_ofNames hl)
    (cleanPath_ofNames hm) hl' hm'
  simp only [relativePathOf, QtDir.absoluteFilePath, if_pos hlText, if_pos hmText]
  split_ifs <;> exact hrelative

theorem relativePathOf_relative (hl : IsNormal '/' '.' (keeps Q.dropsAboveRoot false) l)
    (hm : IsNormal '/' '.' (keeps Q.dropsAboveRoot false) m)
    (hl' : ¬ (ofNames false l).IsResource) (hm' : ¬ (ofNames false m).IsResource) :
    relativePathOf Q (ofNames false l) (ofNames false m) =
      ofNames false (relative (fromHome Q l) (fromHome Q m)) := by
  have hlText : ¬ QtDir.isAbsolutePath (ofNames false l).pathStr = true := fun h =>
    ((isAbsolutePath_iff hl).1 h).elim (by simp) hl'
  have hmText : ¬ QtDir.isAbsolutePath (ofNames false m).pathStr = true := fun h =>
    ((isAbsolutePath_iff hm).1 h).elim (by simp) hm'
  have hrelative : ((ofNames false l).isRelative && (ofNames false m).isRelative) = true := by
    rw [isRelative_eq, isRelative_eq, isAbsolute_ofNames hl, isAbsolute_ofNames hm]
    rfl
  simp only [relativePathOf, QtDir.absoluteFilePath, if_pos hrelative, if_neg hlText, if_neg hmText]
  exact ofString_relativeFilePath (isNormal_fromHome hl) (isNormal_fromHome hm) rfl rfl
    (cleanPath_below_home hl) (cleanPath_below_home hm) (.inl rfl) (.inl rfl)

theorem div_ofNames (hl : IsNormal '/' '.' (keeps Q.dropsAboveRoot absolute) l)
    (hm : IsNormal '/' '.' keep m) : div Q (ofNames absolute l) (ofNames false m) =
      ofNames absolute (m.foldl (push '.' (keeps Q.dropsAboveRoot absolute)) l) := by
  have hlText : (ofNames absolute l).isEmpty = false := by
    simp [isEmpty, pathStr_ofNames_ne_nil hl]
  have hmText : (ofNames false m).isEmpty = false := by simp [isEmpty, pathStr_ofNames_ne_nil hm]
  rw [div, if_neg (by simp [hmText]), if_neg (by simp [hlText]), ofString_eq, ← foldl_push_segments hm]
  exact congrArg Path.mk (clean_append dot_ne_slash hl _)

/-- The home directory of a user. -/
def userDir : QtDir where
  home := [['h', 'o', 'm', 'e'], ['u']]
  current := []
  dropsAboveRoot := true
  home_isName := by simp [IsName]

theorem isClean_ofNames (h : ∀ name ∈ names, IsName '/' '.' name) :
    (ofNames absolute names).IsClean Q := ⟨absolute, names, ⟨0, names, rfl, h, fun _ => rfl⟩, rfl⟩

end OfNames

end Path

end QBittorrent
