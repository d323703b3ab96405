import Mathlib.Data.List.Basic
import Mathlib.Data.List.TakeWhile

/-!
# Regular expressions with groups

An engine that backtracks tries the ways to match an expression in an order, and takes the first one
after which the text is at its end.  Its groups capture parts of the text.

* `Regex.mem_successes_iff` : **the successes are the matches.**
* `Regex.exec_eq_some` : what is captured, if there is one way only.
-/

namespace QBittorrent

open List

/-- `many` takes as many elements of a class as there are, within bounds. -/
inductive Regex (α : Type*) where
  | many (p : α → Bool) (min : ℕ) (max : Option ℕ)
  | empty
  | seq (r s : Regex α)
  | alt (r s : Regex α)
  | group (r : Regex α)

namespace Regex

variable {α : Type*}

def one (p : α → Bool) : Regex α := many p 1 (some 1)

def plus (p : α → Bool) : Regex α := many p 1 none

def star (p : α → Bool) : Regex α := many p 0 none

def optional (r : Regex α) : Regex α := alt r empty

def concat : List (Regex α) → Regex α
  | [] => empty
  | r :: rs => seq r (concat rs)

/-- The number of groups. -/
def groups : Regex α → ℕ
  | many .. | empty => 0
  | seq r s | alt r s => r.groups + s.groups
  | group r => r.groups + 1

/-- A way to match a beginning of a text. -/
structure Success (α : Type*) where
  text : List α
  captures : List (List α)
  rest : List α

/-- The most elements that `many` takes. -/
def reach (p : α → Bool) (max : Option ℕ) (s : List α) : ℕ :=
  match max with
  | none => (s.takeWhile p).length
  | some n => min (s.takeWhile p).length n

/-- The ways to match a beginning of a text, in the order in which they are tried.  A group that takes no
part captures nothing. -/
def successes : Regex α → List α → List (Success α)
  | many p min max, s =>
    ((List.range (reach p max s + 1)).reverse.filter fun n => min ≤ n).map fun n =>
      ⟨s.take n, [], s.drop n⟩
  | empty, s => [⟨[], [], s⟩]
  | seq r r', s => (r.successes s).flatMap fun m => (r'.successes m.rest).map fun m' =>
      ⟨m.text ++ m'.text, m.captures ++ m'.captures, m'.rest⟩
  | alt r r', s =>
    (r.successes s).map (fun m => ⟨m.text, m.captures ++ List.replicate r'.groups [], m.rest⟩) ++
      (r'.successes s).map fun m => ⟨m.text, List.replicate r.groups [] ++ m.captures, m.rest⟩
  | group r, s => (r.successes s).map fun m => ⟨m.text, m.text :: m.captures, m.rest⟩

/-- The texts that are captured, with all that is matched in front. -/
def exec (r : Regex α) (atEnd : List α → Bool) (s : List α) : Option (List (List α)) :=
  ((r.successes s).find? fun m => atEnd m.rest).map fun m => m.text :: m.captures

/-- The expression matches a text, and its groups capture these parts of it. -/
def Matches : Regex α → List α → List (List α) → Prop
  | many p min max, t, c => c = [] ∧ (∀ a ∈ t, p a = true) ∧ min ≤ t.length ∧ ∀ n ∈ max, t.length ≤ n
  | empty, t, c => t = [] ∧ c = []
  | seq r r', t, c => ∃ t₁ c₁ t₂ c₂, r.Matches t₁ c₁ ∧ r'.Matches t₂ c₂ ∧ t = t₁ ++ t₂ ∧ c = c₁ ++ c₂
  | alt r r', t, c => (∃ c₁, r.Matches t c₁ ∧ c = c₁ ++ List.replicate r'.groups []) ∨
      ∃ c₁, r'.Matches t c₁ ∧ c = List.replicate r.groups [] ++ c₁
  | group r, t, c => ∃ c₁, r.Matches t c₁ ∧ c = t :: c₁

variable {r r' : Regex α} {rs : List (Regex α)} {p : α → Bool} {q : α → Prop} {lo : ℕ} {hi : Option ℕ}
  {s t u t' u' : List α} {c c' : List (List α)} {next next' : List α → Prop} {atEnd : List α → Bool}

/-! ### Successes and matches -/

theorem le_length_takeWhile_iff {n : ℕ} :
    n ≤ (s.takeWhile p).length ↔ n ≤ s.length ∧ ∀ a ∈ s.take n, p a = true := by
  induction s generalizing n with
  | nil => simp
  | cons a s ih =>
    cases n with
    | zero => simp
    | succ n =>
      cases hp : p a with
      | true => simp [hp, ih]
      | false => simp [hp]

theorem le_reach_iff {n : ℕ} :
    n ≤ reach p hi s ↔ (n ≤ s.length ∧ ∀ a ∈ s.take n, p a = true) ∧ ∀ m ∈ hi, n ≤ m := by
  cases hi with
  | none => simp [reach, le_length_takeWhile_iff]
  | some m =>
    have hmin : reach p (some m) s = Nat.min (s.takeWhile p).length m := rfl
    rw [hmin, Nat.le_min, le_length_takeWhile_iff]
    simp

theorem mem_successes_iff {m : Success α} :
    m ∈ r.successes s ↔ r.Matches m.text m.captures ∧ s = m.text ++ m.rest := by
  induction r generalizing s m with
  | many p lo hi =>
    simp only [successes, mem_map, mem_filter, mem_reverse, mem_range,
      Nat.lt_succ_iff, le_reach_iff, decide_eq_true_eq, Matches]
    constructor
    · rintro ⟨n, ⟨⟨⟨hlength, hp⟩, hhi⟩, hlo⟩, rfl⟩
      have htake : (s.take n).length = n := by rw [length_take, Nat.min_eq_left hlength]
      refine ⟨⟨rfl, hp, ?_, fun k hk => ?_⟩, (take_append_drop n s).symm⟩
      · rwa [htake]
      · rw [htake]
        exact hhi k hk
    · rintro ⟨⟨hcaptures, hp, hlo, hhi⟩, rfl⟩
      refine ⟨m.text.length, ⟨⟨⟨?_, ?_⟩, hhi⟩, hlo⟩, ?_⟩
      · rw [length_append]
        exact Nat.le_add_right _ _
      · rwa [take_left]
      · rw [take_left, drop_left, ← hcaptures]
  | empty =>
    simp only [successes, mem_singleton, Matches]
    constructor
    · rintro rfl
      exact ⟨⟨rfl, rfl⟩, rfl⟩
    · rintro ⟨⟨htext, hcaptures⟩, rfl⟩
      rw [htext, nil_append, ← htext, ← hcaptures]
  | seq r r' ih ih' =>
    simp only [successes, mem_flatMap, mem_map, ih, ih', Matches]
    constructor
    · rintro ⟨m₁, ⟨h₁, rfl⟩, m₂, ⟨h₂, hrest⟩, rfl⟩
      refine ⟨⟨_, _, _, _, h₁, h₂, rfl, rfl⟩, ?_⟩
      rw [hrest, append_assoc]
    · rintro ⟨⟨t₁, c₁, t₂, c₂, h₁, h₂, htext, hcaptures⟩, rfl⟩
      refine ⟨⟨t₁, c₁, t₂ ++ m.rest⟩, ⟨h₁, ?_⟩, ⟨t₂, c₂, m.rest⟩, ⟨h₂, rfl⟩, ?_⟩
      · rw [htext, append_assoc]
      · rw [← htext, ← hcaptures]
  | alt r r' ih ih' =>
    simp only [successes, mem_append, mem_map, ih, ih', Matches]
    constructor
    · rintro (⟨m₁, ⟨h, rfl⟩, rfl⟩ | ⟨m₁, ⟨h, rfl⟩, rfl⟩)
      · exact ⟨.inl ⟨_, h, rfl⟩, rfl⟩
      · exact ⟨.inr ⟨_, h, rfl⟩, rfl⟩
    · rintro ⟨⟨c₁, h, hcaptures⟩ | ⟨c₁, h, hcaptures⟩, rfl⟩
      · refine .inl ⟨⟨m.text, c₁, m.rest⟩, ⟨h, rfl⟩, ?_⟩
        rw [← hcaptures]
      · refine .inr ⟨⟨m.text, c₁, m.rest⟩, ⟨h, rfl⟩, ?_⟩
        rw [← hcaptures]
  | group r ih =>
    simp only [successes, mem_map, ih, Matches]
    constructor
    · rintro ⟨m₁, ⟨h, rfl⟩, rfl⟩
      exact ⟨⟨_, h, rfl⟩, rfl⟩
    · rintro ⟨⟨c₁, h, hcaptures⟩, rfl⟩
      refine ⟨⟨m.text, c₁, m.rest⟩, ⟨h, rfl⟩, ?_⟩
      rw [← hcaptures]

theorem matches_one_iff : (one p).Matches t c ↔ (∃ a, t = [a] ∧ p a = true) ∧ c = [] := by
  constructor
  · rintro ⟨rfl, hp, hlo, hhi⟩
    obtain ⟨a, rfl⟩ := length_eq_one_iff.1 (Nat.le_antisymm (hhi 1 rfl) hlo)
    exact ⟨⟨a, rfl, hp a mem_cons_self⟩, rfl⟩
  · rintro ⟨⟨a, rfl, ha⟩, rfl⟩
    exact ⟨rfl, by simpa using ha, Nat.le_refl _, by simp⟩

theorem matches_plus_iff : (plus p).Matches t c ↔ ((∀ a ∈ t, p a = true) ∧ t ≠ []) ∧ c = [] := by
  rw [plus, Matches, ← length_pos_iff]
  constructor
  · rintro ⟨hc, hp, hlo, -⟩
    exact ⟨⟨hp, hlo⟩, hc⟩
  · rintro ⟨⟨hp, hlo⟩, hc⟩
    exact ⟨hc, hp, hlo, fun n hn => by cases hn⟩

theorem matches_star_iff : (star p).Matches t c ↔ (∀ a ∈ t, p a = true) ∧ c = [] := by
  constructor
  · rintro ⟨hc, hp, -, -⟩
    exact ⟨hp, hc⟩
  · rintro ⟨hp, hc⟩
    exact ⟨hc, hp, Nat.zero_le _, fun n hn => by cases hn⟩

theorem matches_group_iff (h : ∀ c, r.Matches t c → c = []) :
    (group r).Matches t c ↔ r.Matches t [] ∧ c = [t] := by
  constructor
  · rintro ⟨c₁, hmatches, rfl⟩
    obtain rfl := h c₁ hmatches
    exact ⟨hmatches, rfl⟩
  · rintro ⟨hmatches, rfl⟩
    exact ⟨[], hmatches, rfl⟩

theorem matches_optional_iff : (optional r).Matches t c ↔
    r.Matches t c ∨ (t = [] ∧ c = List.replicate r.groups []) := by
  constructor
  · rintro (⟨c₁, hmatches, rfl⟩ | ⟨c₁, ⟨rfl, rfl⟩, rfl⟩)
    · exact .inl (by simpa [groups] using hmatches)
    · exact .inr ⟨rfl, append_nil _⟩
  · rintro (hmatches | ⟨rfl, rfl⟩)
    · exact .inl ⟨c, hmatches, (append_nil _).symm⟩
    · exact .inr ⟨[], ⟨rfl, rfl⟩, (append_nil _).symm⟩

theorem exists_matches_of_exec {l : List (List α)} (h : r.exec atEnd s = some l) :
    ∃ t c u, r.Matches t c ∧ atEnd u = true ∧ s = t ++ u ∧ l = t :: c := by
  rw [exec, Option.map_eq_some_iff] at h
  obtain ⟨m, hfind, rfl⟩ := h
  obtain ⟨hmatches, hs⟩ := mem_successes_iff.1 (mem_of_find?_eq_some hfind)
  have hend := List.find?_some hfind
  exact ⟨m.text, m.captures, m.rest, hmatches, hend, hs, rfl⟩

theorem isSome_exec (h : r.Matches t c) (hend : atEnd u = true) : (r.exec atEnd (t ++ u)).isSome := by
  rw [exec, Option.isSome_map, List.find?_isSome]
  exact ⟨⟨t, c, u⟩, mem_successes_iff.2 ⟨h, rfl⟩, hend⟩

/-! ### How a text goes on -/

/-- A text that begins with a certain element. -/
def Begins (q : α → Prop) (u : List α) : Prop := ∃ a v, u = a :: v ∧ q a

theorem Begins.append (h : Begins q t) : Begins q (t ++ u) := by
  obtain ⟨a, v, rfl, ha⟩ := h
  exact ⟨a, v ++ u, rfl, ha⟩

/-- What is matched begins with a certain element. -/
def Starts (r : Regex α) (q : α → Prop) : Prop := ∀ t c, r.Matches t c → Begins q t

theorem starts_many (hlo : 0 < lo) : Starts (many p lo hi) (p · = true) := by
  rintro (_ | ⟨a, t⟩) c ⟨-, hp, hlength, -⟩
  · exact absurd hlength (Nat.not_le.2 hlo)
  · exact ⟨a, t, rfl, hp a mem_cons_self⟩

theorem Starts.group (h : Starts r q) : Starts (group r) q := by
  rintro t c ⟨c₁, hmatches, -⟩
  exact h t c₁ hmatches

theorem Starts.alt {q' : α → Prop} (h : Starts r q) (h' : Starts r' q') :
    Starts (alt r r') fun a => q a ∨ q' a := by
  rintro t c (⟨c₁, hmatches, -⟩ | ⟨c₁, hmatches, -⟩)
  · obtain ⟨a, v, rfl, ha⟩ := h t c₁ hmatches
    exact ⟨a, v, rfl, .inl ha⟩
  · obtain ⟨a, v, rfl, ha⟩ := h' t c₁ hmatches
    exact ⟨a, v, rfl, .inr ha⟩

theorem Starts.concat (h : Starts r q) : Starts (concat (r :: rs)) q := by
  rintro t c ⟨t₁, c₁, t₂, c₂, h₁, -, rfl, -⟩
  exact (h t₁ c₁ h₁).append

/-- A text that goes on as `next` says can be matched in one way only. -/
def Unambiguous (r : Regex α) (next : List α → Prop) : Prop :=
  ∀ ⦃t c u t' c' u'⦄, r.Matches t c → r.Matches t' c' → next u → next u' → t ++ u = t' ++ u' →
    t = t' ∧ c = c'

theorem unambiguous_empty : Unambiguous (empty : Regex α) next := by
  rintro t c u t' c' u' ⟨rfl, rfl⟩ ⟨rfl, rfl⟩ - - -
  exact ⟨rfl, rfl⟩

theorem takeWhile_append_of_begins (hp : ∀ a ∈ t, p a = true) (hu : ∀ a ∈ u.head?, p a = false) :
    (t ++ u).takeWhile p = t := by
  rw [takeWhile_append_of_pos hp]
  cases u with
  | nil => rw [takeWhile_nil, append_nil]
  | cons a v => rw [takeWhile_cons_of_neg (by rw [hu a rfl]; exact Bool.false_ne_true), append_nil]

theorem unambiguous_many (h : ∀ u, next u → ∀ a ∈ u.head?, p a = false) :
    Unambiguous (many p lo hi) next := by
  rintro t c u t' c' u' ⟨rfl, hp, -⟩ ⟨rfl, hp', -⟩ hu hu' heq
  refine ⟨?_, rfl⟩
  rw [← takeWhile_append_of_begins hp (h u hu), heq, takeWhile_append_of_begins hp' (h u' hu')]

theorem unambiguous_many_begins (h : ∀ a, q a → p a = false) : Unambiguous (many p lo hi) (Begins q) := by
  refine unambiguous_many ?_
  rintro u ⟨a, v, rfl, hq⟩ b hb
  cases hb
  exact h a hq

theorem unambiguous_many_fixed {n : ℕ} : Unambiguous (many p n (some n)) next := by
  rintro t c u t' c' u' ⟨rfl, -, hlo, hhi⟩ ⟨rfl, -, hlo', hhi'⟩ - - heq
  have hlength : t.length = t'.length :=
    (Nat.le_antisymm (hhi n rfl) hlo).trans (Nat.le_antisymm hlo' (hhi' n rfl))
  exact ⟨(append_inj heq hlength).1, rfl⟩

theorem Unambiguous.group (h : Unambiguous r next) : Unambiguous (group r) next := by
  rintro t c u t' c' u' ⟨c₁, h₁, rfl⟩ ⟨c₂, h₂, rfl⟩ hu hu' heq
  obtain ⟨rfl, rfl⟩ := h h₁ h₂ hu hu' heq
  exact ⟨rfl, rfl⟩

theorem Unambiguous.seq (h : Unambiguous r next') (h' : Unambiguous r' next)
    (hnext : ∀ t c u, r'.Matches t c → next u → next' (t ++ u)) : Unambiguous (seq r r') next := by
  rintro t c u t' c' u' ⟨t₁, c₁, t₂, c₂, h₁, h₂, rfl, rfl⟩ ⟨t₁', c₁', t₂', c₂', h₁', h₂', rfl, rfl⟩ hu hu' heq
  rw [append_assoc, append_assoc] at heq
  obtain ⟨rfl, rfl⟩ := h h₁ h₁' (hnext _ _ _ h₂ hu) (hnext _ _ _ h₂' hu') heq
  obtain ⟨rfl, rfl⟩ := h' h₂ h₂' hu hu' (append_cancel_left heq)
  exact ⟨rfl, rfl⟩

theorem Unambiguous.concat (h : Unambiguous r (Begins q)) (hrs : Unambiguous (concat rs) next)
    (hnext : Starts (concat rs) q) : Unambiguous (concat (r :: rs)) next :=
  h.seq hrs fun t c _ hmatches _ => (hnext t c hmatches).append

theorem Unambiguous.concat_fixed (h : Unambiguous r fun _ => True) (hrs : Unambiguous (Regex.concat rs) next) :
    Unambiguous (Regex.concat (r :: rs)) next :=
  h.seq hrs fun _ _ _ _ _ => trivial

theorem Unambiguous.concat_singleton (h : Unambiguous r next) : Unambiguous (Regex.concat [r]) next := by
  refine h.seq unambiguous_empty ?_
  rintro t c u ⟨rfl, -⟩ hu
  exact hu

theorem Unambiguous.alt {q' : α → Prop} (h : Unambiguous r next) (h' : Unambiguous r' next)
    (hstarts : Starts r q) (hnext : ∀ t c u, r'.Matches t c → next u → Begins q' (t ++ u))
    (hdisjoint : ∀ a, q a → ¬ q' a) : Unambiguous (alt r r') next := by
  have hne {t c u t' c' u'} (hm : r.Matches t c) (hm' : r'.Matches t' c') (hu' : next u') :
      t ++ u ≠ t' ++ u' := by
    intro heq
    obtain ⟨a, v, ha, hqa⟩ := (hstarts t c hm).append (u := u)
    obtain ⟨b, w, hb, hqb⟩ := hnext t' c' u' hm' hu'
    rw [heq, hb] at ha
    cases ha
    exact hdisjoint _ hqa hqb
  rintro t c u t' c' u' (⟨c₁, h₁, rfl⟩ | ⟨c₁, h₁, rfl⟩) (⟨c₂, h₂, rfl⟩ | ⟨c₂, h₂, rfl⟩) hu hu' heq
  · obtain ⟨rfl, rfl⟩ := h h₁ h₂ hu hu' heq
    exact ⟨rfl, rfl⟩
  · exact absurd heq (hne h₁ h₂ hu')
  · exact absurd heq.symm (hne h₂ h₁ hu)
  · obtain ⟨rfl, rfl⟩ := h' h₁ h₂ hu hu' heq
    exact ⟨rfl, rfl⟩

theorem Unambiguous.optional {q' : α → Prop} (h : Unambiguous r (Begins q')) (hstarts : Starts r q)
    (hdisjoint : ∀ a, q a → ¬ q' a) : Unambiguous (optional r) (Begins q') := by
  refine h.alt unambiguous_empty hstarts ?_ hdisjoint
  rintro t c u ⟨rfl, -⟩ hu
  exact hu

theorem exec_eq_some (h : Unambiguous r (atEnd · = true)) (hmatches : r.Matches t c)
    (hend : atEnd u = true) : r.exec atEnd (t ++ u) = some (t :: c) := by
  obtain ⟨l, hl⟩ := Option.isSome_iff_exists.1 (isSome_exec hmatches hend)
  obtain ⟨t', c', u', hmatches', hend', heq, rfl⟩ := exists_matches_of_exec hl
  obtain ⟨rfl, rfl⟩ := h hmatches hmatches' hend hend' heq
  exact hl

end Regex

end QBittorrent
