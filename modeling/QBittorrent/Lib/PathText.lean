import QBittorrent.Lib.Hierarchy

/-!
# Paths as text

A path is written with a separator between its names, and with one in front if it is absolute.  The
name of one dot is the place itself, that of two dots is the one above.

* `clean_of_isPath`, `isPath_clean`, `clean_append` : **cleaning gives such a text and leaves it
  alone**, and a path below another one is cleaned name by name.
-/

namespace QBittorrent.PathText

open List

variable {α : Type*} [DecidableEq α] (sep dot : α)

/-- Names with a separator between each two. -/
def join (names : List (List α)) : List α := [sep].intercalate names

/-- How long the names are together. -/
def totalLength : List (List α) → ℕ
  | [] => 0
  | name :: names => name.length + totalLength names

/-- One more name. -/
def push (keep : Bool) (stack : List (List α)) (name : List α) : List (List α) :=
  if name = [] ∨ name = [dot] then stack
  else if name = [dot, dot] then
    if stack = [] then if keep then [name] else []
    else if stack.getLast? = some [dot, dot] then stack ++ [name]
    else stack.dropLast
  else stack ++ [name]

def normalize (keep : Bool) (names : List (List α)) : List (List α) := names.foldl (push dot keep) []

def isAbsolute (s : List α) : Bool := decide (s.head? = some sep)

/-- The text of a path with the given names. -/
def render (absolute : Bool) (names : List (List α)) : List α :=
  if absolute then sep :: join sep names else if names = [] then [dot] else join sep names

/-- Two dots that are not resolved stay in a relative path, and in an absolute one unless they are
dropped there. -/
def keeps (drops absolute : Bool) : Bool := !(absolute && drops)

/-- The names of a path. -/
def names (drops : Bool) (s : List α) : List (List α) :=
  normalize dot (keeps drops (isAbsolute sep s)) (segments sep s)

/-- The shortest text. -/
def clean (drops : Bool) (s : List α) : List α :=
  if s = [] then [] else render sep dot (isAbsolute sep s) (names sep dot drops s)

/-- A name that stands for itself. -/
def IsName (name : List α) : Prop :=
  sep ∉ name ∧ name ≠ [] ∧ name ≠ [dot] ∧ name ≠ [dot, dot]

/-- Two dots are in front, if anywhere. -/
def IsNormal (keep : Bool) (names : List (List α)) : Prop :=
  ∃ up rest, names = List.replicate up [dot, dot] ++ rest ∧ (∀ name ∈ rest, IsName sep dot name) ∧
    (keep = false → up = 0)

/-- The texts of paths. -/
def IsPath (drops : Bool) (s : List α) : Prop :=
  ∃ absolute names, IsNormal sep dot (keeps drops absolute) names ∧ s = render sep dot absolute names

variable {sep dot} {keep drops : Bool}

section Common

variable {β : Type*} [DecidableEq β]

/-- How many entries are the same before the first difference. -/
def common : List β → List β → ℕ
  | a :: l, b :: m => if a = b then common l m + 1 else 0
  | _, _ => 0

@[simp] theorem common_nil_left (l : List β) : common [] l = 0 := by cases l <;> rfl

@[simp] theorem common_nil_right (l : List β) : common l [] = 0 := by cases l <;> rfl

theorem common_cons_of_ne {a b : β} (l m : List β) (h : a ≠ b) : common (a :: l) (b :: m) = 0 := by
  rw [common, if_neg h]

theorem common_cons_self (a : β) (l m : List β) : common (a :: l) (a :: m) = common l m + 1 := by
  rw [common, if_pos rfl]

theorem le_common_iff {l m : List β} {i : ℕ} :
    i ≤ common l m ↔ i ≤ l.length ∧ i ≤ m.length ∧ l.take i = m.take i := by
  induction l generalizing m i with
  | nil => simp +contextual
  | cons a l ih =>
    cases m with
    | nil => simp +contextual
    | cons b m =>
      cases i with
      | zero => simp
      | succ i =>
        by_cases hab : a = b
        · subst hab
          rw [common_cons_self, Nat.succ_le_succ_iff, ih]
          simp
        · rw [common_cons_of_ne l m hab]
          simp [hab]

theorem common_le_left (l m : List β) : common l m ≤ l.length :=
  (le_common_iff.1 (Nat.le_refl (common l m))).1

theorem common_append (c l m : List β) : common (c ++ l) (c ++ m) = c.length + common l m := by
  induction c with
  | nil => simp
  | cons a c ih =>
    rw [cons_append, cons_append, common_cons_self, ih, length_cons]
    omega

theorem common_eq_zero_iff {l m : List β} :
    common l m = 0 ↔ ∀ b ∈ m.head?, l.head? ≠ some b := by
  cases l with
  | nil => simp
  | cons a l =>
    cases m with
    | nil => simp
    | cons b m =>
      by_cases hab : a = b
      · simp [hab, common_cons_self]
      · simp [hab, common_cons_of_ne l m hab]

end Common

section Apart

variable {β : Type*} {a b n r : List β}

/-- Neither is on the way to the other. -/
def Apart (a b : List β) : Prop := ¬ a <+: b ∧ ¬ b <+: a

theorem Apart.symm (h : Apart a b) : Apart b a := ⟨h.2, h.1⟩

instance : Std.Symm (@Apart β) := ⟨fun _ _ h => h.symm⟩

theorem apart_append_left_iff (n : List β) : Apart (n ++ a) (n ++ b) ↔ Apart a b := by
  rw [Apart, Apart, prefix_append_right_inj, prefix_append_right_inj]

theorem apart_append_iff (hr : r ≠ []) (hbelow : ¬ (n <+: a ∧ n ≠ a)) :
    Apart a (n ++ r) ↔ ¬ a <+: n := by
  constructor
  · exact fun h hpre => h.1 (hpre.trans (prefix_append n r))
  · intro h
    constructor
    · intro hpre
      obtain hshort | hlong := prefix_or_prefix_of_prefix hpre (prefix_append n r)
      · exact h hshort
      · exact hbelow ⟨hlong, fun heq => h (heq ▸ prefix_rfl)⟩
    · intro hpre
      refine hbelow ⟨(prefix_append n r).trans hpre, ?_⟩
      rintro rfl
      have hle := hpre.length_le
      have hpos := length_pos_of_ne_nil hr
      rw [length_append] at hle
      omega

end Apart

/-! ### Names and texts -/

section

omit [DecidableEq α]

@[simp] theorem join_nil : join sep [] = [] := rfl

@[simp] theorem join_singleton (name : List α) : join sep [name] = name := by
  simp [join, intercalate]

end

variable {l : List (List α)}

section

omit [DecidableEq α]

theorem join_cons (name : List α) (hl : l ≠ []) :
    join sep (name :: l) = name ++ sep :: join sep l := by
  obtain ⟨b, l, rfl⟩ := exists_cons_of_ne_nil hl
  simp [join, intercalate]

variable (sep) in
theorem join_append {m : List (List α)} (hl : l ≠ []) (hm : m ≠ []) :
    join sep (l ++ m) = join sep l ++ sep :: join sep m := by
  induction l with
  | nil => exact absurd rfl hl
  | cons a l ih =>
    by_cases hnil : l = []
    · subst hnil
      rw [singleton_append, join_cons a hm, join_singleton]
    · rw [cons_append, join_cons a (by simp [hnil]), join_cons a hnil, ih hnil]
      simp

variable (sep) in
theorem join_isPrefix {m : List (List α)} (h : l <+: m) : join sep l <+: join sep m := by
  obtain ⟨r, rfl⟩ := h
  by_cases hl : l = []
  · simp [hl]
  by_cases hr : r = []
  · simp [hr]
  · rw [join_append sep hl hr]
    exact prefix_append ..

variable (sep) in
theorem length_join (hl : l ≠ []) : (join sep l).length = totalLength l + (l.length - 1) := by
  induction l with
  | nil => exact absurd rfl hl
  | cons a l ih =>
    by_cases hnil : l = []
    · simp [hnil, totalLength]
    · have hpos := length_pos_of_ne_nil hnil
      rw [join_cons a hnil, length_append, length_cons, ih hnil, totalLength,
        length_cons]
      omega

variable (sep) in
theorem take_join {k : ℕ} (hk : 0 < k) (hl : k ≤ l.length) :
    (join sep l).take (totalLength (l.take k) + (k - 1)) = join sep (l.take k) := by
  have htake : l.take k ≠ [] := fun h => by
    have := congrArg length h
    rw [length_take, length_nil] at this
    omega
  have hlength : totalLength (l.take k) + (k - 1) = (join sep (l.take k)).length := by
    rw [length_join sep htake, length_take, Nat.min_eq_left hl]
  rw [hlength]
  by_cases hdrop : l.drop k = []
  · have hall : l.take k = l := by rw [← take_append_drop k l, hdrop]; simp
    rw [hall, take_length]
  · conv_lhs => rw [← take_append_drop k l]
    rw [join_append sep htake hdrop]
    exact take_left' (by rw [take_append_drop])

end

theorem afterLast_append {b a : List α} (h : sep ∉ a) : afterLast sep (b ++ sep :: a) = a := by
  have hall : ∀ x ∈ a.reverse, decide (x ≠ sep) = true := by
    intro x hx
    have hne : x ≠ sep := fun hxs => h (hxs ▸ mem_reverse.1 hx)
    simpa using hne
  rw [afterLast, reverse_append, reverse_cons, append_assoc,
    takeWhile_append_of_pos hall, singleton_append, takeWhile_cons_of_neg (by simp),
    append_nil, reverse_reverse]

theorem beforeLast_append {b a : List α} (h : sep ∉ a) : beforeLast sep (b ++ sep :: a) = b := by
  have happend : beforeLast sep (b ++ sep :: a) ++ sep :: afterLast sep (b ++ sep :: a) =
      b ++ sep :: a := beforeLast_append_afterLast (by simp)
  rw [afterLast_append h] at happend
  exact append_cancel_right happend

theorem segments_join (hl : l ≠ []) (hsep : ∀ name ∈ l, sep ∉ name) :
    segments sep (join sep l) = l := by
  induction l using reverseRecOn with
  | nil => exact absurd rfl hl
  | append_singleton l name ih =>
    have hname : sep ∉ name := hsep name (by simp)
    by_cases hnil : l = []
    · subst hnil
      rw [nil_append, join_singleton, segments_of_notMem hname]
    · have hrest := ih hnil fun n hn => hsep n (mem_append_left _ hn)
      rw [join_append sep hnil (by simp), join_singleton, segments_of_mem (by simp),
        beforeLast_append hname, afterLast_append hname, hrest]

variable (sep) in
theorem join_segments (s : List α) : join sep (segments sep s) = s := by
  induction hn : s.length using Nat.strong_induction_on generalizing s with
  | _ n ih =>
    by_cases hs : sep ∈ s
    · have hlt : (beforeLast sep s).length < n := hn ▸ length_beforeLast_lt (ne_nil_of_mem hs)
      rw [segments_of_mem hs, join_append sep (segments_ne_nil _) (by simp), join_singleton,
        ih _ hlt _ rfl, beforeLast_append_afterLast hs]
    · rw [segments_of_notMem hs, join_singleton]

theorem notMem_of_mem_segments {s name : List α} (h : name ∈ segments sep s) : sep ∉ name := by
  obtain ⟨p, -, rfl⟩ := mem_map.1 h
  exact notMem_afterLast p

theorem segments_append (s t : List α) :
    segments sep (s ++ sep :: t) = segments sep s ++ segments sep t := by
  conv_lhs => rw [← join_segments sep s, ← join_segments sep t]
  rw [← join_append sep (segments_ne_nil _) (segments_ne_nil _),
    segments_join (by simp [segments_ne_nil])]
  intro name hname
  obtain h | h := mem_append.1 hname <;> exact notMem_of_mem_segments h

/-! ### Normal names -/

theorem push_name {stack : List (List α)} {name : List α} (h : IsName sep dot name) :
    push dot keep stack name = stack ++ [name] := by
  rw [push, if_neg (not_or.2 ⟨h.2.1, h.2.2.1⟩), if_neg h.2.2.2]

theorem foldl_push_names {stack rest : List (List α)} (h : ∀ name ∈ rest, IsName sep dot name) :
    rest.foldl (push dot keep) stack = stack ++ rest := by
  induction rest generalizing stack with
  | nil => simp
  | cons name rest ih =>
    obtain ⟨hname, hrest⟩ := forall_mem_cons.1 h
    rw [foldl_cons, push_name hname, ih hrest, append_assoc, singleton_append]

theorem push_skip {stack : List (List α)} {name : List α} (h : name = [] ∨ name = [dot]) :
    push dot keep stack name = stack := by rw [push, if_pos h]

theorem push_up_name {stack : List (List α)} {name : List α} (h : name ≠ [dot, dot]) :
    push dot keep (stack ++ [name]) [dot, dot] = stack := by
  have hlast : (stack ++ [name]).getLast? = some name := by simp
  rw [push, if_neg (by simp), if_pos rfl, if_neg (by simp), hlast,
    if_neg fun heq => h (Option.some.inj heq), dropLast_concat]

theorem push_up_up (up : ℕ) : push dot true (List.replicate up [dot, dot]) [dot, dot] =
    List.replicate (up + 1) [dot, dot] := by
  rw [push, if_neg (by simp), if_pos rfl]
  cases up with
  | zero => rfl
  | succ up =>
    have hlast : (replicate (up + 1) [dot, dot]).getLast? = some [dot, dot] := by
      rw [replicate_succ', getLast?_concat]
    rw [if_neg (by simp), if_pos hlast, ← replicate_succ']

theorem foldl_push_up (up k : ℕ) :
    (List.replicate k [dot, dot]).foldl (push dot true) (List.replicate up [dot, dot]) =
      List.replicate (up + k) [dot, dot] := by
  induction k generalizing up with
  | zero => rfl
  | succ k ih =>
    rw [replicate_succ, foldl_cons, push_up_up, ih]
    congr 1
    omega

theorem foldl_push_ups (hl : ∀ name ∈ l, IsName sep dot name) (n : ℕ) :
    (List.replicate n [dot, dot]).foldl (push dot keep) l =
      if n ≤ l.length then l.take (l.length - n)
      else if keep then List.replicate (n - l.length) [dot, dot] else [] := by
  induction l using reverseRecOn generalizing n with
  | nil =>
    cases keep with
    | true =>
      rw [show ([] : List (List α)) = replicate 0 [dot, dot] from rfl, foldl_push_up]
      cases n <;> simp
    | false =>
      have hnil : push dot false ([] : List (List α)) [dot, dot] = [] := by simp [push]
      have hfold : (replicate n [dot, dot]).foldl (push dot false) ([] : List (List α)) = [] := by
        induction n with
        | zero => rfl
        | succ n ih => rw [replicate_succ, foldl_cons, hnil, ih]
      rw [hfold]
      cases n <;> simp
  | append_singleton l name ih =>
    cases n with
    | zero => simp
    | succ n =>
      have hname : name ≠ [dot, dot] := (hl name (by simp)).2.2.2
      rw [replicate_succ, foldl_cons, push_up_name hname,
        ih fun b hb => hl b (mem_append_left _ hb)]
      simp only [length_append, length_singleton, Nat.add_le_add_iff_right,
        Nat.add_sub_add_right]
      rw [take_append_of_le_length (Nat.sub_le _ _)]

theorem normalize_append (l m : List (List α)) :
    normalize dot keep (l ++ m) = m.foldl (push dot keep) (normalize dot keep l) := foldl_append ..

theorem normalize_of_isNormal (h : IsNormal sep dot keep l) : normalize dot keep l = l := by
  obtain ⟨up, rest, rfl, hrest, hup⟩ := h
  rw [normalize_append, foldl_push_names hrest]
  congr 1
  cases keep with
  | false =>
    rw [hup rfl]
    rfl
  | true => exact (foldl_push_up 0 up).trans (by rw [Nat.zero_add])

section

omit [DecidableEq α]

theorem isNormal_nil : IsNormal sep dot keep [] := ⟨0, [], rfl, by simp, fun _ => rfl⟩

section

variable (h : IsNormal sep dot keep l)

include h

theorem IsNormal.append {rest : List (List α)} (hrest : ∀ name ∈ rest, IsName sep dot name) : IsNormal sep dot keep (l ++ rest) := by
  obtain ⟨up, names, rfl, hnames, hup⟩ := h
  exact ⟨up, names ++ rest, append_assoc .., fun name hname =>
    (mem_append.1 hname).elim (hnames name) (hrest name), hup⟩

theorem IsNormal.ups_append (n : ℕ) :
    IsNormal sep dot true (List.replicate n [dot, dot] ++ l) := by
  obtain ⟨up, rest, rfl, hrest, -⟩ := h
  refine ⟨n + up, rest, ?_, hrest, (fun h => by cases h)⟩
  rw [← append_assoc, replicate_append_replicate]

theorem IsNormal.drop (n : ℕ) : IsNormal sep dot keep (l.drop n) := by
  obtain ⟨up, rest, rfl, hrest, hup⟩ := h
  refine ⟨up - n, rest.drop (n - up), ?_, fun name hname => hrest name (mem_of_mem_drop hname),
    fun hkeep => by rw [hup hkeep, Nat.zero_sub]⟩
  rw [drop_append, drop_replicate, length_replicate]

theorem IsNormal.take (n : ℕ) : IsNormal sep dot keep (l.take n) := by
  obtain ⟨up, rest, rfl, hrest, hup⟩ := h
  refine ⟨min n up, rest.take (n - up), ?_, fun name hname => hrest name (mem_of_mem_take hname),
    fun hkeep => by rw [hup hkeep, Nat.min_zero]⟩
  rw [take_append, take_replicate, length_replicate]

end

theorem IsNormal.names_or_ups {r : List (List α)} (h : IsNormal sep dot keep (l ++ r)) :
    (∀ name ∈ r, IsName sep dot name) ∨ ∃ k n rest, l = List.replicate k [dot, dot] ∧
      r = List.replicate (n + 1) [dot, dot] ++ rest ∧ ∀ name ∈ rest, IsName sep dot name := by
  obtain ⟨up, rest, heq, hrest, -⟩ := h
  have hl : l = (replicate up [dot, dot] ++ rest).take l.length := by
    rw [← heq, take_left']
    rfl
  have hr : r = (replicate up [dot, dot] ++ rest).drop l.length := by
    rw [← heq, drop_left']
    rfl
  by_cases hlength : up ≤ l.length
  · refine .inl fun name hname => hrest name ?_
    rw [hr, drop_append, drop_eq_nil_of_le (by simpa using hlength), nil_append] at hname
    exact mem_of_mem_drop hname
  · refine .inr ⟨l.length, up - l.length - 1, rest, ?_, ?_, hrest⟩
    · conv_lhs => rw [hl]
      rw [take_append_of_le_length (by simp; omega), take_replicate]
      congr 1
      omega
    · conv_lhs => rw [hr]
      rw [drop_append_of_le_length (by simp; omega), drop_replicate]
      congr 2
      omega

end

section

variable {stack : List (List α)} (h : IsNormal sep dot keep stack)

include h

theorem isNormal_push {name : List α} (hname : sep ∉ name) : IsNormal sep dot keep (push dot keep stack name) := by
  by_cases hskip : name = [] ∨ name = [dot]
  · rwa [push_skip hskip]
  · rw [not_or] at hskip
    by_cases hdots : name = [dot, dot]
    · subst hdots
      obtain ⟨up, rest, rfl, hrest, hup⟩ := h
      cases rest using reverseRecOn with
      | nil =>
        rw [append_nil]
        cases keep with
        | true =>
          exact ⟨up + 1, [], by rw [push_up_up, append_nil], by simp, (fun h => by cases h)⟩
        | false =>
          have hnil : push dot false ([] : List (List α)) [dot, dot] = [] := by simp [push]
          rw [hup rfl, replicate_zero, hnil]
          exact isNormal_nil
      | append_singleton rest last =>
        rw [← append_assoc, push_up_name (hrest last (by simp)).2.2.2]
        exact ⟨up, rest, rfl, fun name hname => hrest name (mem_append_left _ hname), hup⟩
    · have hisName : IsName sep dot name := ⟨hname, hskip.1, hskip.2, hdots⟩
      rw [push_name hisName]
      exact h.append fun n hn => mem_singleton.1 hn ▸ hisName

theorem isNormal_foldl_push (hl : ∀ name ∈ l, sep ∉ name) : IsNormal sep dot keep (l.foldl (push dot keep) stack) := by
  induction l generalizing stack with
  | nil => exact h
  | cons name l ih =>
    obtain ⟨hname, hl⟩ := forall_mem_cons.1 hl
    exact ih (isNormal_push h hname) hl

end

theorem isNormal_normalize (hl : ∀ name ∈ l, sep ∉ name) :
    IsNormal sep dot keep (normalize dot keep l) := isNormal_foldl_push isNormal_nil hl

omit [DecidableEq α] in
theorem IsNormal.notMem (h : IsNormal sep dot keep l) (hne : dot ≠ sep) :
    ∀ name ∈ l, sep ∉ name ∧ name ≠ [] ∧ name ≠ [dot] := by
  obtain ⟨up, rest, rfl, hrest, -⟩ := h
  intro name hname
  obtain hname | hname := mem_append.1 hname
  · rw [eq_of_mem_replicate hname]
    exact ⟨by simp [hne.symm], by simp, by simp⟩
  · exact ⟨(hrest name hname).1, (hrest name hname).2.1, (hrest name hname).2.2.1⟩

section Render

variable (hne : dot ≠ sep) {absolute : Bool} {l : List (List α)}
include hne

section

variable (h : IsNormal sep dot keep l)

include h

theorem isAbsolute_render : isAbsolute sep (render sep dot absolute l) = absolute := by
  cases absolute with
  | true => simp [isAbsolute, render]
  | false =>
    cases l with
    | nil => simp [isAbsolute, render, hne]
    | cons name l =>
      obtain ⟨hsep, hnil, -⟩ := h.notMem hne name mem_cons_self
      obtain ⟨c, name, rfl⟩ := exists_cons_of_ne_nil hnil
      have hc : c ≠ sep := fun hc => hsep (hc ▸ mem_cons_self)
      by_cases hl : l = []
      · simp [isAbsolute, render, hl, hc]
      · simp [isAbsolute, render, join_cons _ hl, hc]

omit [DecidableEq α] in
theorem render_ne_nil : render sep dot absolute l ≠ [] := by
  cases absolute with
  | true => simp [render]
  | false =>
    cases l with
    | nil => simp [render]
    | cons name l =>
      have hname := (h.notMem hne name mem_cons_self).2.1
      by_cases hl : l = []
      · simp [render, hl, hname]
      · simp [render, join_cons _ hl]

theorem segments_render :
    segments sep (render sep dot absolute l) =
      if absolute then [] :: (if l = [] then [[]] else l) else if l = [] then [[dot]] else l := by
  have hsep : ∀ name ∈ l, sep ∉ name := fun name hname => (h.notMem hne name hname).1
  cases absolute with
  | true =>
    have hcons : render sep dot true l = [] ++ sep :: join sep l := rfl
    rw [hcons, segments_append, segments_of_notMem not_mem_nil]
    by_cases hl : l = []
    · subst hl
      rfl
    · rw [segments_join hl hsep]
      simp [hl]
  | false =>
    by_cases hl : l = []
    · subst hl
      have hdot : sep ∉ [dot] := by simpa using hne.symm
      exact segments_of_notMem hdot
    · simp only [render, Bool.false_eq_true, if_false, if_neg hl]
      exact segments_join hl hsep

theorem normalize_segments_render :
    normalize dot keep (segments sep (render sep dot absolute l)) = l := by
  rw [segments_render hne h]
  have hskip : ∀ m : List (List α), normalize dot keep ([] :: m) = normalize dot keep m := fun m => rfl
  cases absolute with
  | true =>
    rw [if_pos rfl, hskip]
    by_cases hl : l = []
    · rw [if_pos hl, hl]
      rfl
    · rw [if_neg hl, normalize_of_isNormal h]
  | false =>
    rw [if_neg (by simp)]
    by_cases hl : l = []
    · rw [if_pos hl, hl]
      exact push_skip (.inr rfl)
    · rw [if_neg hl, normalize_of_isNormal h]

end

section

variable (h : IsNormal sep dot (keeps drops absolute) l)

include h

theorem names_render : names sep dot drops (render sep dot absolute l) = l := by
  rw [names, isAbsolute_render hne h, normalize_segments_render hne h]

theorem render_injective {absolute' : Bool} {l' : List (List α)}
    (h' : IsNormal sep dot (keeps drops absolute') l')
    (heq : render sep dot absolute l = render sep dot absolute' l') :
    absolute = absolute' ∧ l = l' := by
  have habsolute : isAbsolute sep (render sep dot absolute l) = absolute := isAbsolute_render hne h
  have hnames := names_render hne h
  rw [heq, isAbsolute_render hne h'] at habsolute
  rw [heq, names_render hne h'] at hnames
  exact ⟨habsolute.symm, hnames.symm⟩

theorem clean_render :
    clean sep dot drops (render sep dot absolute l) = render sep dot absolute l := by
  rw [clean, if_neg (render_ne_nil hne h), isAbsolute_render hne h, names_render hne h]

end

theorem clean_of_isPath {s : List α} (h : IsPath sep dot drops s) : clean sep dot drops s = s := by
  obtain ⟨absolute, l, hl, rfl⟩ := h
  exact clean_render hne hl

omit hne in
theorem isPath_clean {s : List α} (hs : s ≠ []) : IsPath sep dot drops (clean sep dot drops s) :=
  ⟨isAbsolute sep s, names sep dot drops s, isNormal_normalize fun _ => notMem_of_mem_segments,
    by rw [clean, if_neg hs]⟩

theorem clean_append (h : IsNormal sep dot (keeps drops absolute) l) (t : List α) :
    clean sep dot drops (render sep dot absolute l ++ sep :: t) =
      render sep dot absolute ((segments sep t).foldl (push dot (keeps drops absolute)) l) := by
  have hhead : isAbsolute sep (render sep dot absolute l ++ sep :: t) = absolute := by
    rw [isAbsolute, head?_append_of_ne_nil _ (render_ne_nil hne h)]
    exact isAbsolute_render hne h
  rw [clean, if_neg (by simp), hhead, names, hhead, segments_append, normalize_append,
    normalize_segments_render hne h]

end Render

/-! ### What cleaning takes away -/

omit [DecidableEq α] in
theorem totalLength_append (l m : List (List α)) :
    totalLength (l ++ m) = totalLength l + totalLength m := by
  induction l with
  | nil => rw [nil_append, totalLength, Nat.zero_add]
  | cons name l ih => rw [cons_append, totalLength, totalLength, ih, Nat.add_assoc]

variable (dot) in
theorem push_eq_or (keep : Bool) (stack : List (List α)) (name : List α) :
    (push dot keep stack name) <+: stack ∨ push dot keep stack name = stack ++ [name] := by
  rw [push]
  split_ifs with hskip hdots hnil
  · exact .inl prefix_rfl
  · rw [hnil]
    exact .inr rfl
  · exact .inl (List.nil_prefix)
  · exact .inr rfl
  · exact .inl (List.dropLast_prefix _)
  · exact .inr rfl

omit [DecidableEq α] in
theorem totalLength_of_isPrefix {m : List (List α)} (h : l <+: m) :
    totalLength l + l.length ≤ totalLength m + m.length := by
  obtain ⟨r, rfl⟩ := h
  rw [totalLength_append, length_append]
  omega

variable (dot) in
theorem totalLength_foldl_push (keep : Bool) (l stack : List (List α)) :
    totalLength (l.foldl (push dot keep) stack) + (l.foldl (push dot keep) stack).length ≤
      totalLength stack + stack.length + (totalLength l + l.length) := by
  induction l generalizing stack with
  | nil => exact Nat.le_add_right ..
  | cons name l ih =>
    have hpush : totalLength (push dot keep stack name) + (push dot keep stack name).length ≤
        totalLength stack + stack.length + (name.length + 1) := by
      obtain h | h := push_eq_or dot keep stack name
      · exact (totalLength_of_isPrefix h).trans (Nat.le_add_right ..)
      · rw [h, totalLength_append, length_append, totalLength, totalLength,
          length_singleton]
        omega
    rw [foldl_cons, totalLength, length_cons]
    have := ih (push dot keep stack name)
    omega

theorem length_clean_le (s : List α) : (clean sep dot drops s).length ≤ s.length := by
  rw [clean]
  split_ifs with hs
  · exact Nat.zero_le _
  have hpos := length_pos_of_ne_nil hs
  have hsegments : totalLength (segments sep s) + ((segments sep s).length - 1) = s.length := by
    rw [← length_join sep (segments_ne_nil s), join_segments]
  have hnames := totalLength_foldl_push dot (keeps drops (isAbsolute sep s))
    (segments sep s) []
  rw [← normalize, totalLength, length_nil] at hnames
  rw [render, names]
  generalize hn : normalize dot (keeps drops (isAbsolute sep s)) (segments sep s) = n at hnames ⊢
  by_cases habsolute : isAbsolute sep s = true
  · -- the first segment is empty, and adds no name
    obtain ⟨t, rfl⟩ : ∃ t, s = sep :: t := by
      obtain _ | ⟨a, t⟩ := s
      · exact absurd rfl hs
      · rw [isAbsolute, head?_cons, decide_eq_true_eq, Option.some.injEq] at habsolute
        exact ⟨t, by rw [habsolute]⟩
    have hcons : segments sep (sep :: t) = [] :: segments sep t := by
      rw [← nil_append (sep :: t), segments_append, segments_of_notMem not_mem_nil]
      rfl
    rw [hcons, normalize, foldl_cons, push_skip (.inl rfl)] at hn
    have hrest := totalLength_foldl_push dot (keeps drops (isAbsolute sep (sep :: t)))
      (segments sep t) []
    rw [hn, totalLength, length_nil] at hrest
    rw [hcons, totalLength, length_cons, length_nil] at hsegments
    rw [if_pos habsolute, length_cons]
    by_cases hnil : n = []
    · rw [hnil]
      exact hpos
    · rw [length_join sep hnil]
      have := length_pos_of_ne_nil hnil
      omega
  · split_ifs with hnil
    · exact hpos
    · rw [length_join sep hnil]
      have := length_pos_of_ne_nil hnil
      omega

omit [DecidableEq α] in
theorem mem_join {c : α} (h : c ∈ join sep l) : c = sep ∨ ∃ name ∈ l, c ∈ name := by
  induction l with
  | nil => cases h
  | cons name l ih =>
    by_cases hl : l = []
    · rw [hl, join_singleton] at h
      exact .inr ⟨name, mem_cons_self, h⟩
    · rw [join_cons name hl, mem_append, mem_cons] at h
      obtain h | h | h := h
      · exact .inr ⟨name, mem_cons_self, h⟩
      · exact .inl h
      · obtain h | ⟨n, hn, hc⟩ := ih h
        · exact .inl h
        · exact .inr ⟨n, mem_cons_of_mem _ hn, hc⟩

theorem mem_foldl_push {keep : Bool} {stack : List (List α)} {name : List α}
    (h : name ∈ l.foldl (push dot keep) stack) : name ∈ stack ∨ name ∈ l := by
  induction l generalizing stack with
  | nil => exact .inl h
  | cons n l ih =>
    obtain hmem | hmem := ih h
    · obtain hpush | hpush := push_eq_or dot keep stack n
      · exact .inl (hpush.subset hmem)
      · rw [hpush, mem_append, mem_singleton] at hmem
        exact hmem.imp_right fun heq => by rw [heq]; exact mem_cons_self
    · exact .inr (mem_cons_of_mem _ hmem)

omit [DecidableEq α] in
theorem mem_join_of_mem {c : α} {name : List α} (hname : name ∈ l) (hc : c ∈ name) :
    c ∈ join sep l := by
  obtain ⟨front, back, rfl⟩ := append_of_mem hname
  have hback : c ∈ join sep (name :: back) := by
    by_cases hnil : back = []
    · rwa [hnil, join_singleton]
    · rw [join_cons name hnil]
      exact mem_append_left _ hc
  by_cases hfront : front = []
  · rwa [hfront]
  · rw [join_append sep hfront (cons_ne_nil _ _)]
    exact mem_append_right _ (mem_cons_of_mem _ hback)

theorem mem_clean {c : α} {s : List α} (h : c ∈ clean sep dot drops s) :
    c ∈ s ∨ c = sep ∨ c = dot := by
  have hnames : ∀ name ∈ names sep dot drops s, c ∈ name → c ∈ s := by
    intro name hname hc
    obtain hnil | hsegment := mem_foldl_push hname
    · cases hnil
    · rw [← join_segments sep s]
      exact mem_join_of_mem hsegment hc
  have hjoin : c ∈ join sep (names sep dot drops s) → c ∈ s ∨ c = sep ∨ c = dot := by
    intro hmem
    obtain h | ⟨name, hname, hc⟩ := mem_join hmem
    · exact .inr (.inl h)
    · exact .inl (hnames name hname hc)
  rw [clean] at h
  split_ifs at h with hs
  · cases h
  rw [render] at h
  split_ifs at h
  · obtain h | h := mem_cons.1 h
    · exact .inr (.inl h)
    · exact hjoin h
  · exact .inr (.inr (mem_singleton.1 h))
  · exact hjoin h

end QBittorrent.PathText
