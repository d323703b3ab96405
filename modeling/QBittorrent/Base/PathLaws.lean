import QBittorrent.Base.Path

/-!
# The laws of ancestors

`parentPath`, `hasAncestor`, `commonPath` and `relativePathOf` are written separately on the text of a
path.

* `Path.laws_iff` : the laws hold, but for the root and for ways up through the home directory.
-/

namespace QBittorrent.Path

open PathText List

/-- `q` is a parent of `p`, or a parent of its parent, and so on. -/
def InChain (p q : Path) : Prop := q ≠ empty ∧ ∃ n, q = parentPath^[n + 1] p

/-- `r` is equal to or an ancestor of both. -/
def IsCommon (p q r : Path) : Prop := r ≠ empty ∧ (r = p ∨ InChain p r) ∧ (r = q ∨ InChain q r)

variable (Q : QtDir)

/-- What holds of two paths. -/
structure Laws (p q : Path) : Prop where
  hasAncestor : p.hasAncestor q = true ↔ InChain p q
  ends : ∃ n, parentPath^[n] p = empty
  commonPath : (∃ r, IsCommon p q r) → IsCommon p q (commonPath p q) ∧
    ∀ r, IsCommon p q r → r.pathStr.length ≤ (commonPath p q).pathStr.length
  relativePathOf : q = p ∨ q.hasAncestor p = true → div Q p (relativePathOf Q p q) = q

def names (p : Path) : List QString := PathText.names '/' '.' Q.dropsAboveRoot p.pathStr

/-- How often a path goes up. -/
def ups (p : Path) : ℕ := ((p.names Q).takeWhile fun name => decide (name = ['.', '.'])).length

/-- The names behind that. -/
def below (p : Path) : List QString := (p.names Q).dropWhile fun name => decide (name = ['.', '.'])

/-- Seen from the home directory, a path does not go above the root, unless the dots stay there, and
does not come back to where it left. -/
def LeavesHome (p : Path) : Prop :=
  (Q.dropsAboveRoot = true → p.ups Q ≤ Q.home.length) ∧
    (p.ups Q ≤ Q.home.length → ∀ name ∈ (p.below Q).head?, Q.home[Q.home.length - p.ups Q]? ≠ some name)

/-- The paths for which the laws hold. -/
structure Regular (p q : Path) : Prop where
  head : p.isAbsolute = true → q.isAbsolute = true → (p.names Q).head? = (q.names Q).head?
  leavesHome : p.isRelative = true → q.hasAncestor p = true →
    (q.names Q)[(p.names Q).length]? = some ['.', '.'] → q.LeavesHome Q

variable {Q} {p q r : Path} {keep absolute absolute' : Bool} {l m : List QString}

/-! ### The chain of parents -/

theorem inChain_iff : InChain p q ↔ q ≠ empty ∧ (q = p.parentPath ∨ InChain p.parentPath q) := by
  constructor
  · rintro ⟨hq, n, hn⟩
    refine ⟨hq, ?_⟩
    cases n with
    | zero => exact .inl hn
    | succ n => exact .inr ⟨hq, n, hn⟩
  · rintro ⟨hq, hparent | ⟨-, n, hn⟩⟩
    · exact ⟨hq, 0, hparent⟩
    · exact ⟨hq, n + 1, hn⟩

theorem iterate_parentPath_empty (n : ℕ) : parentPath^[n] empty = empty := by
  induction n with
  | zero => rfl
  | succ n ih => exact ih

theorem not_inChain_empty : ¬ InChain empty q := fun ⟨hq, n, hn⟩ =>
  hq (hn.trans (iterate_parentPath_empty (n + 1)))

theorem inChain_ofNames_iff (h : IsNormal '/' '.' keep l) : InChain (ofNames absolute l) q ↔
    ∃ i < l.length, (absolute = false → i ≠ 0) ∧ q = ofNames absolute (l.take i) := by
  induction l using reverseRecOn with
  | nil =>
    rw [inChain_iff, parentPath_ofNames_nil]
    simp only [length_nil, Nat.not_lt_zero, false_and, exists_false, iff_false]
    rintro ⟨hq, hempty | hchain⟩
    · exact hq hempty
    · exact not_inChain_empty hchain
  | append_singleton l name ih =>
    have hl : IsNormal '/' '.' keep l := by simpa using h.take l.length
    rw [inChain_iff, parentPath_ofNames_concat h]
    by_cases hnone : absolute = false ∧ l = []
    · obtain ⟨rfl, rfl⟩ := hnone
      constructor
      · rintro ⟨hq, hempty | hchain⟩
        · exact absurd hempty hq
        · exact absurd hchain not_inChain_empty
      · rintro ⟨i, hi, hne, -⟩
        have hne := hne rfl
        simp only [nil_append, length_singleton] at hi
        omega
    · rw [if_neg hnone, ih hl]
      constructor
      · rintro ⟨-, rfl | ⟨i, hi, hne, rfl⟩⟩
        · refine ⟨l.length, by simp, fun ha hlength => hnone ⟨ha, length_eq_zero_iff.1 hlength⟩, ?_⟩
          rw [take_left' rfl]
        · refine ⟨i, ?_, hne, ?_⟩
          · rw [length_append]
            omega
          · rw [take_append_of_le_length hi.le]
      · rintro ⟨i, hi, hne, rfl⟩
        rw [length_append, length_singleton] at hi
        have hle : i ≤ l.length := by omega
        rw [take_append_of_le_length hle]
        refine ⟨ofNames_ne_empty (hl.take i), ?_⟩
        obtain hlt | heq := Nat.lt_or_eq_of_le hle
        · exact .inr ⟨i, hlt, hne, rfl⟩
        · exact .inl (by rw [heq, take_length])

theorem exists_iterate_parentPath (h : IsNormal '/' '.' keep l) :
    ∃ n, parentPath^[n] (ofNames absolute l) = empty := by
  induction l using reverseRecOn with
  | nil => exact ⟨1, parentPath_ofNames_nil⟩
  | append_singleton l name ih =>
    by_cases hnone : absolute = false ∧ l = []
    · refine ⟨1, ?_⟩
      rw [Function.iterate_one, parentPath_ofNames_concat h, if_pos hnone]
    · obtain ⟨n, hn⟩ := ih (by simpa using h.take l.length)
      refine ⟨n + 1, ?_⟩
      rw [Function.iterate_succ_apply, parentPath_ofNames_concat h, if_neg hnone, hn]

theorem eq_or_inChain_iff (h : IsNormal '/' '.' keep l) :
    (q = ofNames absolute l ∨ InChain (ofNames absolute l) q) ↔
      ∃ i ≤ l.length, (absolute = false → i = 0 → l = []) ∧ q = ofNames absolute (l.take i) := by
  rw [inChain_ofNames_iff h]
  constructor
  · rintro (rfl | ⟨i, hi, hne, rfl⟩)
    · exact ⟨l.length, Nat.le_refl _, fun _ => length_eq_zero_iff.1, by rw [take_length]⟩
    · exact ⟨i, hi.le, fun ha hzero => absurd hzero (hne ha), rfl⟩
  · rintro ⟨i, hi, hne, rfl⟩
    obtain hlt | rfl := Nat.lt_or_eq_of_le hi
    · refine .inr ⟨i, hlt, fun ha hzero => ?_, rfl⟩
      rw [hne ha hzero, length_nil] at hlt
      omega
    · exact .inl (by rw [take_length])

/-! ### Ancestors -/

variable (hl : IsNormal '/' '.' (keeps Q.dropsAboveRoot absolute) l)
  (hm : IsNormal '/' '.' (keeps Q.dropsAboveRoot absolute') m)
include hl hm

theorem hasAncestor_iff_inChain (hroot : ¬ (absolute = true ∧ absolute' = true ∧ m = [] ∧ l ≠ [])) :
    (ofNames absolute l).hasAncestor (ofNames absolute' m) = true ↔
      InChain (ofNames absolute l) (ofNames absolute' m) := by
  rw [hasAncestor_ofNames_iff hl hm, inChain_ofNames_iff hl]
  constructor
  · rintro ⟨rfl, hpre, hmnil, hml⟩
    have hlt : m.length < l.length :=
      Nat.lt_of_le_of_ne hpre.length_le fun hlength => hml (hpre.eq_of_length hlength)
    refine ⟨m.length, hlt, fun _ hzero => hmnil (length_eq_zero_iff.1 hzero), ?_⟩
    rw [← prefix_iff_eq_take.1 hpre]
  · rintro ⟨i, hi, hne, heq⟩
    obtain ⟨rfl, rfl⟩ := ofNames_injective hm (hl.take i) heq
    have hlnil : l ≠ [] := by
      rintro rfl
      simp at hi
    refine ⟨rfl, take_prefix i l, fun hnil => ?_, fun heq => ?_⟩
    · cases absolute' with
      | true => exact hroot ⟨rfl, rfl, hnil, hlnil⟩
      | false =>
        obtain hzero | hnil := take_eq_nil_iff.1 hnil
        · exact hne rfl hzero
        · exact hlnil hnil
    · have hlength := congrArg length heq
      rw [length_take, Nat.min_eq_left hi.le] at hlength
      omega

theorem isCommon_iff : IsCommon (ofNames absolute l) (ofNames absolute' m) r ↔
    absolute = absolute' ∧ ∃ i ≤ common l m, (absolute = false → i = 0 → l = [] ∧ m = []) ∧
      r = ofNames absolute (l.take i) := by
  rw [IsCommon, eq_or_inChain_iff hl, eq_or_inChain_iff hm]
  constructor
  · rintro ⟨-, ⟨i, hi, hlnil, rfl⟩, j, hj, hmnil, heq⟩
    obtain ⟨rfl, htake⟩ := ofNames_injective (hl.take i) (hm.take j) heq
    have hlength := congrArg length htake
    rw [length_take, length_take, Nat.min_eq_left hi, Nat.min_eq_left hj] at hlength
    subst hlength
    exact ⟨rfl, i, le_common_iff.2 ⟨hi, hj, htake⟩, fun ha hzero => ⟨hlnil ha hzero, hmnil ha hzero⟩,
      rfl⟩
  · rintro ⟨rfl, i, hi, hnil, rfl⟩
    obtain ⟨hil, him, htake⟩ := le_common_iff.1 hi
    exact ⟨ofNames_ne_empty (hl.take i), ⟨i, hil, fun ha hzero => (hnil ha hzero).1, rfl⟩,
      i, him, fun ha hzero => (hnil ha hzero).2, by rw [htake]⟩

omit hl hm in
theorem length_ofNames_le {i j : ℕ} (hij : i ≤ j) (hne : absolute = false → i = 0 → l = []) :
    (ofNames absolute (l.take i)).pathStr.length ≤ (ofNames absolute (l.take j)).pathStr.length := by
  have hjoin := (join_isPrefix '/' (take_prefix_take_left (l := l) hij)).length_le
  cases absolute with
  | true =>
    rw [ofNames_true, ofNames_true]
    simpa using hjoin
  | false =>
    by_cases hlnil : l = []
    · simp [hlnil]
    · have hi : l.take i ≠ [] := fun hnil =>
        (take_eq_nil_iff.1 hnil).elim (fun hzero => hlnil (hne rfl hzero)) hlnil
      have hj : l.take j ≠ [] := fun hnil =>
        (take_eq_nil_iff.1 hnil).elim (fun hzero => hi (by simp [show i = 0 by omega]))
          hlnil
      rw [ofNames_false hi, ofNames_false hj]
      exact hjoin

theorem isCommon_commonPath_iff :
    ((∃ r, IsCommon (ofNames absolute l) (ofNames absolute' m) r) →
      IsCommon (ofNames absolute l) (ofNames absolute' m)
          (commonPath (ofNames absolute l) (ofNames absolute' m)) ∧
        ∀ r, IsCommon (ofNames absolute l) (ofNames absolute' m) r →
          r.pathStr.length ≤ (commonPath (ofNames absolute l) (ofNames absolute' m)).pathStr.length) ↔
      (absolute = true → absolute' = true → l.head? = m.head?) := by
  rw [commonPath_ofNames hl hm]
  constructor
  · rintro h rfl rfl
    have hroot : IsCommon (ofNames true l) (ofNames true m) (ofNames true (l.take 0)) :=
      (isCommon_iff hl hm).2 ⟨rfl, 0, Nat.zero_le _, (fun h => by cases h), rfl⟩
    obtain ⟨⟨hne, -⟩, -⟩ := h ⟨_, hroot⟩
    have hcond : common l m ≠ 0 ∨ l = m := by
      by_contra hcond
      rw [if_neg fun h => hcond h.2] at hne
      exact hne rfl
    obtain hcommon | rfl := hcond
    · rw [Ne, common_eq_zero_iff] at hcommon
      push Not at hcommon
      obtain ⟨b, hb, hlb⟩ := hcommon
      rw [hlb, hb]
    · rfl
  · rintro hhead ⟨r, hr⟩
    obtain ⟨rfl, i, hi, hnil, rfl⟩ := (isCommon_iff hl hm).1 hr
    have hcond : common l m ≠ 0 ∨ l = m := by
      by_cases hzero : common l m = 0
      · right
        cases absolute with
        | true =>
          have hhead := hhead rfl rfl
          rw [common_eq_zero_iff, hhead] at hzero
          cases m with
          | nil => exact head?_eq_none_iff.1 hhead
          | cons b m => exact absurd rfl (hzero b rfl)
        | false =>
          obtain ⟨rfl, rfl⟩ := hnil rfl (by omega)
          rfl
      · exact .inl hzero
    rw [if_pos ⟨rfl, hcond⟩]
    refine ⟨(isCommon_iff hl hm).2 ⟨rfl, common l m, Nat.le_refl _, fun ha hzero => ?_, rfl⟩,
      fun r hr => ?_⟩
    · exact hnil ha (by omega)
    · obtain ⟨-, j, hj, hjnil, rfl⟩ := (isCommon_iff hl hm).1 hr
      exact length_ofNames_le hj fun ha hzero => (hjnil ha hzero).1

/-! ### The way back -/

omit hl hm

theorem foldl_relative_append {b : Bool} {r : List QString} (h : IsNormal '/' '.' b (l ++ r)) :
    (relative l (l ++ r)).foldl (push '.' b) l = l ++ r := by
  have hl : normalize '.' b l = l :=
    normalize_of_isNormal (by simpa using h.take l.length)
  rw [relative_append]
  conv_lhs => rw [← hl]
  rw [← normalize_append, normalize_of_isNormal h]

theorem fromHome_ups (n : ℕ) : fromHome Q (List.replicate n ['.', '.']) =
    if n ≤ Q.home.length then Q.home.take (Q.home.length - n)
    else if keeps Q.dropsAboveRoot true then List.replicate (n - Q.home.length) ['.', '.'] else [] :=
  foldl_push_ups Q.home_isName n

theorem fromHome_append (l r : List QString) : fromHome Q (l ++ r) =
    r.foldl (push '.' (keeps Q.dropsAboveRoot true)) (fromHome Q l) := foldl_append ..

theorem foldl_relative_ups {dir file rest : List QString} {k u : ℕ}
    (hrelative : relative dir file = List.replicate u ['.', '.'] ++ rest)
    (hrest : ∀ name ∈ rest, IsName '/' '.' name) :
    (relative dir file).foldl (push '.' true) (List.replicate k ['.', '.']) =
      List.replicate (k + u) ['.', '.'] ++ rest := by
  rw [hrelative, foldl_append, foldl_push_up, foldl_push_names hrest]

theorem relative_of_common_eq_zero {dir file : List QString} (h : common dir file = 0) :
    relative dir file = List.replicate dir.length ['.', '.'] ++ file := by
  rw [relative, h, Nat.sub_zero, drop_zero]

theorem relative_append_append (c l m : List QString) : relative (c ++ l) (c ++ m) = relative l m := by
  rw [relative, relative, common_append, length_append, Nat.add_sub_add_left,
    drop_append, drop_eq_nil_of_le (by omega), nil_append, Nat.add_sub_cancel_left]

theorem foldl_relative_fromHome_ups {tail : List QString} (htail : ∀ name ∈ tail, IsName '/' '.' name)
    (k n : ℕ) :
    (relative (fromHome Q (List.replicate k ['.', '.']))
        (fromHome Q (List.replicate (k + (n + 1)) ['.', '.'] ++ tail))).foldl (push '.' true)
          (List.replicate k ['.', '.']) = List.replicate (k + (n + 1)) ['.', '.'] ++ tail ↔
      (Q.dropsAboveRoot = true → k + (n + 1) ≤ Q.home.length) ∧
        (k + (n + 1) ≤ Q.home.length →
          ∀ name ∈ tail.head?, Q.home[Q.home.length - (k + (n + 1))]? ≠ some name) := by
  have hfile : fromHome Q (replicate (k + (n + 1)) ['.', '.'] ++ tail) =
      fromHome Q (replicate (k + (n + 1)) ['.', '.']) ++ tail := by
    rw [fromHome_append, foldl_push_names htail]
  rw [hfile, fromHome_ups, fromHome_ups]
  by_cases hup : k + (n + 1) ≤ Q.home.length
  · -- the file is below a directory above that of `dir`
    obtain ⟨i, hi⟩ : ∃ i, Q.home.length = i + (k + (n + 1)) := ⟨_, (Nat.sub_add_cancel hup).symm⟩
    have hdir : Q.home.take (Q.home.length - k) =
        Q.home.take i ++ (Q.home.drop i).take (n + 1) := by
      rw [← take_add]
      congr 1
      omega
    have hlength : ((Q.home.drop i).take (n + 1)).length = n + 1 := by
      rw [length_take, length_drop]
      omega
    rw [if_pos hup, if_pos (by omega), hdir, show Q.home.length - (k + (n + 1)) = i by omega,
      relative_append_append]
    have hhead : ((Q.home.drop i).take (n + 1)).head? = Q.home[i]? := by
      rw [head?_take, if_neg (by omega), head?_drop]
    generalize (Q.home.drop i).take (n + 1) = dir at hlength hhead
    rw [foldl_relative_ups rfl fun name hname => htail name (mem_of_mem_drop hname), hlength,
      and_iff_right fun _ => hup, forall_prop_of_true hup, ← hhead, ← common_eq_zero_iff]
    constructor
    · intro heq
      have := congrArg length heq
      simp only [length_append, length_replicate, length_drop] at this
      omega
    · intro hzero
      rw [hzero, Nat.sub_zero, drop_zero]
  · rw [if_neg hup]
    have hright : ((Q.dropsAboveRoot = true → k + (n + 1) ≤ Q.home.length) ∧
        (k + (n + 1) ≤ Q.home.length →
          ∀ name ∈ tail.head?, Q.home[Q.home.length - (k + (n + 1))]? ≠ some name)) ↔
        Q.dropsAboveRoot = false := by
      simp [hup]
    rw [hright]
    cases hdrops : Q.dropsAboveRoot with
    | true =>
      -- the dots are dropped, so there are too few of them on the way back
      have hkeeps : keeps true true = false := rfl
      simp only [hkeeps, Bool.false_eq_true, if_false, nil_append]
      generalize hdir : (if k ≤ Q.home.length then Q.home.take (Q.home.length - k) else []) = dir
      have hlength : k + dir.length < k + (n + 1) := by
        rw [← hdir]
        split_ifs <;> simp only [length_take, length_nil] <;> omega
      rw [foldl_relative_ups rfl fun name hname => htail name (mem_of_mem_drop hname)]
      simp only [Bool.true_eq_false, iff_false]
      intro heq
      have := congrArg length heq
      simp only [length_append, length_replicate, length_drop] at this
      omega
    | false =>
      have hkeeps : keeps false true = true := rfl
      rw [hkeeps, if_pos rfl, if_pos rfl]
      simp only [iff_true]
      by_cases hk : k ≤ Q.home.length
      · have hcommon : common (Q.home.take (Q.home.length - k))
            (replicate (k + (n + 1) - Q.home.length) ['.', '.'] ++ tail) = 0 := by
          obtain ⟨d, hd⟩ : ∃ d, k + (n + 1) - Q.home.length = d + 1 := ⟨_, (Nat.sub_add_cancel
            (by omega : 1 ≤ k + (n + 1) - Q.home.length)).symm⟩
          rw [common_eq_zero_iff, hd, replicate_succ]
          intro b hb hhead
          obtain rfl : ['.', '.'] = b := by simpa using hb
          have hmem := mem_of_mem_take (mem_of_mem_head? hhead)
          exact (Q.home_isName _ hmem).2.2.2 rfl
        rw [if_pos hk, foldl_relative_ups (u := Q.home.length - k + (k + (n + 1) - Q.home.length)) _
          htail]
        · congr 2
          omega
        · rw [relative_of_common_eq_zero hcommon, ← append_assoc,
            replicate_append_replicate, length_take,
            Nat.min_eq_left (Nat.sub_le _ _)]
      · have hsplit : replicate (k + (n + 1) - Q.home.length) ['.', '.'] ++ tail =
            replicate (k - Q.home.length) ['.', '.'] ++
              (replicate (n + 1) ['.', '.'] ++ tail) := by
          rw [← append_assoc, replicate_append_replicate]
          congr 2
          omega
        rw [if_neg hk, hsplit]
        exact foldl_relative_ups (relative_append _ _) htail

theorem names_ofNames (h : IsNormal '/' '.' (keeps Q.dropsAboveRoot absolute) l) :
    (ofNames absolute l).names Q = l := names_render dot_ne_slash h

theorem ups_ofNames {n : ℕ} {rest : List QString} (hrest : ∀ name ∈ rest, IsName '/' '.' name)
    (h : (ofNames absolute l).names Q = List.replicate n ['.', '.'] ++ rest) :
    (ofNames absolute l).ups Q = n ∧ (ofNames absolute l).below Q = rest := by
  have htake : rest.takeWhile (fun name => decide (name = ['.', '.'])) = [] := by
    cases rest with
    | nil => rfl
    | cons name rest => exact takeWhile_cons_of_neg (by simpa using (hrest name (by simp)).2.2.2)
  have hdrop : rest.dropWhile (fun name => decide (name = ['.', '.'])) = rest := by
    cases rest with
    | nil => rfl
    | cons name rest => exact dropWhile_cons_of_neg (by simpa using (hrest name (by simp)).2.2.2)
  have hall : ∀ name ∈ replicate n ['.', '.'], decide (name = ['.', '.']) = true :=
    fun name hname => decide_eq_true (eq_of_mem_replicate hname)
  rw [ups, below, h, takeWhile_append_of_pos hall, htake, dropWhile_append_of_pos hall,
    hdrop, append_nil, length_replicate]
  exact ⟨rfl, rfl⟩

theorem isResource_append (h : IsNormal '/' '.' keep l) (hl : l ≠ []) (r : List QString) :
    (ofNames false (l ++ r)).IsResource ↔ (ofNames false l).IsResource := by
  have hne : join '/' l ≠ [] := by
    have hne : (ofNames false l).pathStr ≠ [] := pathStr_ofNames_ne_nil h
    rwa [ofNames_false hl] at hne
  obtain ⟨t, ht⟩ := join_isPrefix '/' (prefix_append l r)
  rw [IsResource, IsResource, ofNames_false hl, ofNames_false (by simp [hl]), ← ht,
    head?_append_of_ne_nil _ hne]

theorem not_isResource_ups (k : ℕ) : ¬ (ofNames false (List.replicate k ['.', '.'])).IsResource := by
  cases k with
  | zero =>
    rw [IsResource, replicate_zero, ofNames_false_nil]
    decide
  | succ k =>
    have hnormal : IsNormal '/' '.' true ([['.', '.']] : List QString) :=
      ⟨1, [], rfl, by simp, (fun h => by cases h)⟩
    rw [replicate_succ, ← singleton_append, isResource_append hnormal (by simp), IsResource]
    decide

theorem div_relativePathOf_iff {r : List QString}
    (h : IsNormal '/' '.' (keeps Q.dropsAboveRoot absolute) (l ++ r)) (hlr : l = [] → r = []) :
    div Q (ofNames absolute l) (relativePathOf Q (ofNames absolute l) (ofNames absolute (l ++ r))) =
        ofNames absolute (l ++ r) ↔
      (absolute = false → r.head? = some ['.', '.'] → (ofNames absolute (l ++ r)).LeavesHome Q) := by
  have hl : IsNormal '/' '.' (keeps Q.dropsAboveRoot absolute) l := by simpa using h.take l.length
  have hr : IsNormal '/' '.' (keeps Q.dropsAboveRoot absolute) r := by simpa using h.drop l.length
  have hhead : (∀ name ∈ r, IsName '/' '.' name) → r.head? ≠ some ['.', '.'] := fun hnames hhead =>
    (hnames _ (mem_of_mem_head? hhead)).2.2.2 rfl
  by_cases hlong : absolute = true ∨ (l ≠ [] ∧ (ofNames absolute l).IsResource)
  · -- the names of `r` are found again, and none of them are dots unless the path is absolute
    have hlong' : absolute = true ∨ (l ++ r ≠ [] ∧ (ofNames absolute (l ++ r)).IsResource) := by
      cases absolute with
      | true => exact .inl rfl
      | false =>
        obtain ⟨hlnil, hresource⟩ := hlong.resolve_left (by simp)
        exact .inr ⟨by simp [hlnil], (isResource_append hl hlnil r).2 hresource⟩
    rw [relativePathOf_absolute hl h hlong hlong', relative_append, div_ofNames hl hr]
    have hfold := foldl_relative_append h
    rw [relative_append] at hfold
    rw [hfold]
    refine iff_of_true rfl fun ha hdots => absurd hdots ?_
    subst ha
    obtain ⟨-, hresource⟩ := hlong.resolve_left (by simp)
    obtain hnames | ⟨k, n, rest, rfl, -⟩ := h.names_or_ups
    · exact hhead hnames
    · exact absurd hresource (not_isResource_ups k)
  · rw [not_or, Bool.not_eq_true] at hlong
    obtain ⟨rfl, hresource⟩ := hlong
    have hlText : ¬ (ofNames false l).IsResource := by
      by_cases hnil : l = []
      · exact hnil ▸ not_isResource_ups 0
      · exact fun hres => hresource ⟨hnil, hres⟩
    have hmText : ¬ (ofNames false (l ++ r)).IsResource := by
      by_cases hnil : l = []
      · rw [hlr hnil, append_nil]
        exact hlText
      · rwa [isResource_append hl hnil]
    have hfile : IsNormal '/' '.' (keeps Q.dropsAboveRoot true) (fromHome Q (l ++ r)) :=
      isNormal_fromHome h
    have hrelative := isNormal_relative (fromHome Q l) hfile
    have hnormal := isNormal_foldl_push (l := relative (fromHome Q l) (fromHome Q (l ++ r))) hl
      fun name hname => (hrelative.notMem dot_ne_slash name hname).1
    have heq : ∀ {x : List QString}, IsNormal '/' '.' (keeps Q.dropsAboveRoot false) x →
        (ofNames false x = ofNames false (l ++ r) ↔ x = l ++ r) := fun hx =>
      ⟨fun hx' => (ofNames_injective hx h hx').2, congrArg (ofNames false)⟩
    rw [relativePathOf_relative hl h hlText hmText, div_ofNames hl hrelative, heq hnormal]
    obtain hnames | ⟨k, n, rest, rfl, rfl, hrest⟩ := h.names_or_ups
    · have hpush : fromHome Q (l ++ r) = fromHome Q l ++ r := by
        rw [fromHome_append, foldl_push_names hnames]
      rw [hpush, relative_append, foldl_push_names hnames]
      exact iff_of_true rfl fun _ hdots => absurd hdots (hhead hnames)
    · have hsplit : replicate k ['.', '.'] ++ (replicate (n + 1) ['.', '.'] ++ rest) =
          replicate (k + (n + 1)) ['.', '.'] ++ rest := by
        rw [← append_assoc, replicate_append_replicate]
      rw [hsplit] at h ⊢
      have hkeeps : keeps Q.dropsAboveRoot false = true := rfl
      obtain ⟨hups, hbelow⟩ := ups_ofNames hrest (names_ofNames h)
      rw [hkeeps, foldl_relative_fromHome_ups hrest, LeavesHome, hups, hbelow]
      have hdots : (replicate (n + 1) ['.', '.'] ++ rest).head? = some ['.', '.'] := by
        simp [replicate_succ]
      simp [hdots]

/-! ### The laws -/

section

variable (hl : IsNormal '/' '.' (keeps Q.dropsAboveRoot absolute) l)

include hl

theorem regular_ofNames_iff (hm : IsNormal '/' '.' (keeps Q.dropsAboveRoot absolute') m) :
    Regular Q (ofNames absolute l) (ofNames absolute' m) ↔
      (absolute = true → absolute' = true → l.head? = m.head?) ∧
        (absolute = false → (ofNames absolute' m).hasAncestor (ofNames absolute l) = true →
          m[l.length]? = some ['.', '.'] → (ofNames absolute' m).LeavesHome Q) := by
  have hrelative : (ofNames absolute l).isRelative = true ↔ absolute = false := by
    rw [isRelative_eq, isAbsolute_ofNames hl]
    simp
  have hregular : Regular Q (ofNames absolute l) (ofNames absolute' m) ↔
      ((ofNames absolute l).isAbsolute = true → (ofNames absolute' m).isAbsolute = true →
          ((ofNames absolute l).names Q).head? = ((ofNames absolute' m).names Q).head?) ∧
        ((ofNames absolute l).isRelative = true →
          (ofNames absolute' m).hasAncestor (ofNames absolute l) = true →
          ((ofNames absolute' m).names Q)[((ofNames absolute l).names Q).length]? = some ['.', '.'] →
          (ofNames absolute' m).LeavesHome Q) := ⟨fun h => ⟨h.1, h.2⟩, fun h => ⟨h.1, h.2⟩⟩
  rw [hregular, isAbsolute_ofNames hl, isAbsolute_ofNames hm, names_ofNames hl, names_ofNames hm,
    hrelative]

theorem relativePathOf_law_iff (hm : IsNormal '/' '.' (keeps Q.dropsAboveRoot absolute') m) :
    ((ofNames absolute' m = ofNames absolute l ∨
        (ofNames absolute' m).hasAncestor (ofNames absolute l) = true) →
      div Q (ofNames absolute l) (relativePathOf Q (ofNames absolute l) (ofNames absolute' m)) =
        ofNames absolute' m) ↔
      (absolute = false → (ofNames absolute' m).hasAncestor (ofNames absolute l) = true →
        m[l.length]? = some ['.', '.'] → (ofNames absolute' m).LeavesHome Q) := by
  have hget : ∀ r : List QString, (l ++ r)[l.length]? = r.head? := fun r => by
    rw [getElem?_append_right (Nat.le_refl _), Nat.sub_self, head?_eq_getElem?]
  by_cases hancestor : (ofNames absolute' m).hasAncestor (ofNames absolute l) = true
  · obtain ⟨rfl, ⟨r, rfl⟩, hlnil, -⟩ := (hasAncestor_ofNames_iff hm hl).1 hancestor
    rw [forall_prop_of_true (.inr hancestor), div_relativePathOf_iff hm fun h => absurd h hlnil, hget]
    simp [hancestor]
  · by_cases heq : ofNames absolute' m = ofNames absolute l
    · obtain ⟨rfl, rfl⟩ := ofNames_injective hm hl heq
      have hself := div_relativePathOf_iff (r := []) (by simpa using hm) fun _ => rfl
      rw [append_nil] at hself
      rw [forall_prop_of_true (.inl rfl), hself]
      simp [hancestor]
    · simp [hancestor, heq]

end

/-- **When the laws hold.**  For paths that are both absolute they fail when the root is the only
common ancestor: `hasAncestor` never says that the root is one, and `commonPath` returns nothing
instead of it.  The way back fails for relative paths that go up, when the home directory is not where
the source takes it to be. -/
theorem laws_iff (hp : p.IsClean Q) (hq : q.IsClean Q) : Laws Q p q ↔ Regular Q p q := by
  obtain ⟨absolute, l, hl, rfl⟩ := hp.eq_ofNames
  obtain ⟨absolute', m, hm, rfl⟩ := hq.eq_ofNames
  rw [regular_ofNames_iff hl hm, ← isCommon_commonPath_iff hl hm, ← relativePathOf_law_iff hl hm]
  constructor
  · exact fun h => ⟨h.commonPath, h.relativePathOf⟩
  · rintro ⟨hcommon, hback⟩
    refine ⟨hasAncestor_iff_inChain hl hm ?_, exists_iterate_parentPath hl, hcommon, hback⟩
    rintro ⟨rfl, rfl, rfl, hlnil⟩
    have hhead := (isCommon_commonPath_iff hl hm).1 hcommon rfl rfl
    exact hlnil (head?_eq_none_iff.1 hhead)

/-- A file in a folder. -/
theorem laws_iff_folder : Laws userDir (ofNames false [['a'], ['b']]) (ofNames false [['a']]) :=
  (laws_iff (isClean_ofNames (by simp [IsName])) (isClean_ofNames (by simp [IsName]))).2
    { head := by decide, leavesHome := fun _ h => absurd h (by decide) }

/-- The parent of `/a` is the root, but the root is not its ancestor. -/
theorem root_is_no_ancestor : ¬ ∀ (Q : QtDir) (p q : Path), p.isValid = true → q.isValid = true →
    p.IsClean Q → q.IsClean Q → Laws Q p q := by
  intro h
  have hlaws := h userDir (ofNames true [['a']]) (ofNames true []) (by decide) (by decide)
    (isClean_ofNames (by simp [IsName])) (isClean_ofNames (by simp))
  have hchain : InChain (ofNames true [['a']]) (ofNames true []) := ⟨by decide, 0, by decide⟩
  have hancestor := hlaws.hasAncestor.2 hchain
  exact absurd hancestor (by decide)

end QBittorrent.Path
