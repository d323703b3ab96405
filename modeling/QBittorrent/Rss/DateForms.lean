import Mathlib
import QBittorrent.Rss.ParseDate

/-!
# The forms of dates

The regular expressions match the forms of dates, each of them in one way only.

* `exec_rfcRx_iff`, `exec_asctimeRx_iff` : **what is captured are the parts of the form.**
-/

namespace QBittorrent.RssDate

open List

/-! ### Classes of characters -/

variable {text t u : List Char} {captures : List (List Char)} {c : Char} {lo hi : ℕ}
  {q : Char → Prop} {p : Parts}

theorem isBlank_iff : isBlank c = true ↔
    c ∈ [' ', '\t', '\n', '\x0b', '\x0c', '\r'] := by
  simp [isBlank, or_assoc]

theorem isBlank_eq_false_of_isDigit (h : c.isDigit = true) : isBlank c = false := by
  refine Bool.eq_false_iff.2 fun hblank => ?_
  have hnone : [' ', '\t', '\n', '\x0b', '\x0c', '\r'].any Char.isDigit = false := by decide
  exact any_eq_false.1 hnone c (isBlank_iff.1 hblank) h

theorem isLower_eq_false_of_isBlank (h : isBlank c = true) : c.isLower = false := by
  have hnone : [' ', '\t', '\n', '\x0b', '\x0c', '\r'].any Char.isLower = false := by decide
  exact Bool.eq_false_iff.2 (any_eq_false.1 hnone c (isBlank_iff.1 h))

theorem isDigit_eq_false_of_isUpper (h : c.isUpper = true) : c.isDigit = false := by
  refine Bool.eq_false_iff.2 fun hdigit => ?_
  simp only [Char.isUpper, Char.isDigit, Bool.and_eq_true, decide_eq_true_eq, ge_iff_le,
    UInt32.le_iff_toNat_le] at h hdigit
  have h65 : 'A'.val.toNat = 65 := rfl
  have h57 : '9'.val.toNat = 57 := rfl
  omega

/-! ### The parts of the expressions -/

open Regex

theorem matches_lit_iff : (lit c).Matches t captures ↔ t = [c] ∧ captures = [] := by
  rw [lit, matches_one_iff]
  simp only [beq_iff_eq, exists_eq_right]

theorem matches_digits_iff :
    (digits lo hi).Matches t captures ↔ IsDigits lo hi t ∧ captures = [] := by
  simp only [digits, Matches, IsDigits, Option.mem_def, Option.some.injEq, forall_eq']
  exact and_comm

theorem matches_group_digits_iff :
    (group (digits lo hi)).Matches t captures ↔ IsDigits lo hi t ∧ captures = [t] := by
  rw [matches_group_iff fun c h => (matches_digits_iff.1 h).2, matches_digits_iff, and_iff_left rfl]

theorem matches_group_plus_iff {p : Char → Bool} :
    (group (plus p)).Matches t captures ↔ ((∀ a ∈ t, p a = true) ∧ t ≠ []) ∧ captures = [t] := by
  rw [matches_group_iff fun c h => (matches_plus_iff.1 h).2, matches_plus_iff, and_iff_left rfl]

theorem matches_word_iff : word.Matches t captures ↔ IsWord t ∧ captures = [] := by
  constructor
  · rintro ⟨_, _, _, _, hone, ⟨cs, _, _, _, hplus, ⟨rfl, rfl⟩, rfl, rfl⟩, rfl, rfl⟩
    obtain ⟨⟨a, rfl, ha⟩, rfl⟩ := matches_one_iff.1 hone
    obtain ⟨⟨hlower, hne⟩, rfl⟩ := matches_plus_iff.1 hplus
    exact ⟨⟨a, cs, by simp, ha, hlower, hne⟩, rfl⟩
  · rintro ⟨⟨a, cs, rfl, ha, hlower, hne⟩, rfl⟩
    exact ⟨[a], [], cs, [], matches_one_iff.2 ⟨⟨a, rfl, ha⟩, rfl⟩,
      ⟨cs, [], [], [], matches_plus_iff.2 ⟨⟨hlower, hne⟩, rfl⟩, ⟨rfl, rfl⟩, by simp, rfl⟩, rfl, rfl⟩

theorem matches_group_word_iff : (group word).Matches t captures ↔ IsWord t ∧ captures = [t] := by
  rw [matches_group_iff fun c h => (matches_word_iff.1 h).2, matches_word_iff, and_iff_left rfl]

theorem matches_separator_iff : separator.Matches t captures ↔ IsSeparator t ∧ captures = [t] := by
  constructor
  · rintro ⟨_, ⟨_, h, rfl⟩ | ⟨_, h, rfl⟩, rfl⟩
    · obtain ⟨hblanks, rfl⟩ := matches_plus_iff.1 h
      exact ⟨.inr hblanks, rfl⟩
    · obtain ⟨rfl, rfl⟩ := matches_lit_iff.1 h
      exact ⟨.inl rfl, rfl⟩
  · rintro ⟨rfl | hblanks, rfl⟩
    · exact ⟨[], .inr ⟨[], matches_lit_iff.2 ⟨rfl, rfl⟩, rfl⟩, rfl⟩
    · exact ⟨[], .inl ⟨[], matches_plus_iff.2 ⟨hblanks, rfl⟩, rfl⟩, rfl⟩

theorem matches_front_iff :
    (optional (concat [group word, lit ',', star isBlank])).Matches t captures ↔
      ∃ weekday, IsFront weekday t ∧ captures = [weekday] := by
  rw [matches_optional_iff]
  constructor
  · rintro (⟨weekday, _, _, _, hword, ⟨_, _, _, _, hlit, ⟨gap, _, _, _, hstar, ⟨rfl, rfl⟩, rfl, rfl⟩, rfl,
      rfl⟩, rfl, rfl⟩ | ⟨rfl, rfl⟩)
    · obtain ⟨hweekday, rfl⟩ := matches_group_word_iff.1 hword
      obtain ⟨rfl, rfl⟩ := matches_lit_iff.1 hlit
      obtain ⟨hgap, rfl⟩ := matches_star_iff.1 hstar
      exact ⟨weekday, .inr ⟨hweekday, gap, hgap, by simp⟩, rfl⟩
    · exact ⟨[], .inl ⟨rfl, rfl⟩, rfl⟩
  · rintro ⟨weekday, ⟨rfl, rfl⟩ | ⟨hword, gap, hgap, rfl⟩, rfl⟩
    · exact .inr ⟨rfl, rfl⟩
    · refine .inl ⟨weekday, [weekday], ',' :: gap, [], matches_group_word_iff.2 ⟨hword, rfl⟩, ?_, rfl, rfl⟩
      refine ⟨[','], [], gap, [], matches_lit_iff.2 ⟨rfl, rfl⟩, ?_, rfl, rfl⟩
      exact ⟨gap, [], [], [], matches_star_iff.2 ⟨hgap, rfl⟩, ⟨rfl, rfl⟩, by simp, rfl⟩

theorem matches_seconds_iff :
    (optional (concat [lit ':', group (digits 2 2)])).Matches t captures ↔
      ∃ second, IsSeconds second t ∧ captures = [second] := by
  rw [matches_optional_iff]
  constructor
  · rintro (⟨_, _, _, _, hlit, ⟨second, _, _, _, hdigits, ⟨rfl, rfl⟩, rfl, rfl⟩, rfl, rfl⟩ | ⟨rfl, rfl⟩)
    · obtain ⟨rfl, rfl⟩ := matches_lit_iff.1 hlit
      obtain ⟨hsecond, rfl⟩ := matches_group_digits_iff.1 hdigits
      exact ⟨second, .inr ⟨hsecond, by simp⟩, rfl⟩
    · exact ⟨[], .inl ⟨rfl, rfl⟩, rfl⟩
  · rintro ⟨second, ⟨rfl, rfl⟩ | ⟨hdigits, rfl⟩, rfl⟩
    · exact .inr ⟨rfl, rfl⟩
    · refine .inl ⟨[':'], [], second, [second], matches_lit_iff.2 ⟨rfl, rfl⟩, ?_, rfl, rfl⟩
      exact ⟨second, [second], [], [], matches_group_digits_iff.2 ⟨hdigits, rfl⟩, ⟨rfl, rfl⟩, by simp, rfl⟩

/-- What the groups capture. -/
def captured (p : Parts) (sep sep' : List Char) : List (List Char) :=
  [p.weekday, p.day, sep, p.month, sep', p.year, p.hour, p.minute, p.second, p.zone.getD []]

theorem matches_rfcRx_iff : rfcRx.Matches t captures ↔
    ∃ p sep sep', Layout t p sep sep' ∧ captures = captured p sep sep' := by
  have hmonth {month : List Char} : (∀ c ∈ month, (!(c == '-' || isBlank c)) = true) ↔
      ∀ c ∈ month, c ≠ '-' ∧ isBlank c = false := by simp
  have hzone {zone : List Char} : (∀ c ∈ zone, (!isBlank c) = true) ↔ ∀ c ∈ zone, isBlank c = false := by
    simp
  constructor
  · rintro ⟨front, _, _, _, h₁, ⟨day, _, _, _, h₂, ⟨sep, _, _, _, h₃, ⟨month, _, _, _, h₄, ⟨sep', _, _, _, h₅,
      ⟨year, _, _, _, h₆, ⟨gap, _, _, _, h₇, ⟨hour, _, _, _, h₈, ⟨_, _, _, _, h₉, ⟨minute, _, _, _, h₁₀,
      ⟨tail, _, _, _, h₁₁, ⟨gap', _, _, _, h₁₂, ⟨zone, _, _, _, h₁₃, ⟨rfl, rfl⟩, rfl, rfl⟩, rfl, rfl⟩, rfl,
      rfl⟩, rfl, rfl⟩, rfl, rfl⟩, rfl, rfl⟩, rfl, rfl⟩, rfl, rfl⟩, rfl, rfl⟩, rfl, rfl⟩, rfl, rfl⟩, rfl,
      rfl⟩, rfl, rfl⟩
    obtain ⟨weekday, hfront, rfl⟩ := matches_front_iff.1 h₁
    obtain ⟨hday, rfl⟩ := matches_group_digits_iff.1 h₂
    obtain ⟨hsep, rfl⟩ := matches_separator_iff.1 h₃
    obtain ⟨hmonths, rfl⟩ := matches_group_plus_iff.1 h₄
    obtain ⟨hsep', rfl⟩ := matches_separator_iff.1 h₅
    obtain ⟨hyear, rfl⟩ := matches_group_digits_iff.1 h₆
    obtain ⟨hgap, rfl⟩ := matches_plus_iff.1 h₇
    obtain ⟨hhour, rfl⟩ := matches_group_digits_iff.1 h₈
    obtain ⟨rfl, rfl⟩ := matches_lit_iff.1 h₉
    obtain ⟨hminute, rfl⟩ := matches_group_digits_iff.1 h₁₀
    obtain ⟨second, hsecond, rfl⟩ := matches_seconds_iff.1 h₁₁
    obtain ⟨hgap', rfl⟩ := matches_plus_iff.1 h₁₂
    obtain ⟨hzones, rfl⟩ := matches_group_plus_iff.1 h₁₃
    refine ⟨⟨weekday, day, month, year, hour, minute, second, some zone⟩, sep, sep', ?_, rfl⟩
    rw [append_nil]
    exact .mk hfront hday hsep ⟨hmonth.1 hmonths.1, hmonths.2⟩ hsep' hyear hgap hhour hminute hsecond hgap'
      ⟨hzone.1 hzones.1, hzones.2⟩
  · rintro ⟨_, sep, sep', ⟨hfront, hday, hsep, hmonths, hsep', hyear, hgap, hhour, hminute, hsecond, hgap',
      hzones⟩, rfl⟩
    refine ⟨_, _, _, _, matches_front_iff.2 ⟨_, hfront, rfl⟩, ?_, rfl, rfl⟩
    refine ⟨_, _, _, _, matches_group_digits_iff.2 ⟨hday, rfl⟩, ?_, rfl, rfl⟩
    refine ⟨_, _, _, _, matches_separator_iff.2 ⟨hsep, rfl⟩, ?_, rfl, rfl⟩
    refine ⟨_, _, _, _, matches_group_plus_iff.2 ⟨⟨hmonth.2 hmonths.1, hmonths.2⟩, rfl⟩, ?_, rfl, rfl⟩
    refine ⟨_, _, _, _, matches_separator_iff.2 ⟨hsep', rfl⟩, ?_, rfl, rfl⟩
    refine ⟨_, _, _, _, matches_group_digits_iff.2 ⟨hyear, rfl⟩, ?_, rfl, rfl⟩
    refine ⟨_, _, _, _, matches_plus_iff.2 ⟨hgap, rfl⟩, ?_, rfl, rfl⟩
    refine ⟨_, _, _, _, matches_group_digits_iff.2 ⟨hhour, rfl⟩, ?_, rfl, rfl⟩
    refine ⟨[':'], _, _, _, matches_lit_iff.2 ⟨rfl, rfl⟩, ?_, rfl, rfl⟩
    refine ⟨_, _, _, _, matches_group_digits_iff.2 ⟨hminute, rfl⟩, ?_, rfl, rfl⟩
    refine ⟨_, _, _, _, matches_seconds_iff.2 ⟨_, hsecond, rfl⟩, ?_, rfl, rfl⟩
    refine ⟨_, _, _, _, matches_plus_iff.2 ⟨hgap', rfl⟩, ?_, rfl, rfl⟩
    exact ⟨_, _, [], [], matches_group_plus_iff.2 ⟨⟨hzone.2 hzones.1, hzones.2⟩, rfl⟩, ⟨rfl, rfl⟩,
      (append_nil _).symm, rfl⟩

theorem matches_asctimeRx_iff : asctimeRx.Matches t captures ↔ ∃ p, AsctimeForm t p ∧
    captures = [p.weekday, p.month, p.day, p.hour, p.minute, p.second, p.year] := by
  have hblank {month : List Char} : (∀ c ∈ month, (!isBlank c) = true) ↔ ∀ c ∈ month, isBlank c = false := by
    simp
  constructor
  · rintro ⟨weekday, _, _, _, h₁, ⟨gap, _, _, _, h₂, ⟨month, _, _, _, h₃, ⟨gap₁, _, _, _, h₄, ⟨day, _, _, _, h₅,
      ⟨gap₂, _, _, _, h₆, ⟨hour, _, _, _, h₇, ⟨_, _, _, _, h₈, ⟨minute, _, _, _, h₉, ⟨_, _, _, _, h₁₀,
      ⟨second, _, _, _, h₁₁, ⟨gap₃, _, _, _, h₁₂, ⟨year, _, _, _, h₁₃, ⟨rfl, rfl⟩, rfl, rfl⟩, rfl, rfl⟩, rfl,
      rfl⟩, rfl, rfl⟩, rfl, rfl⟩, rfl, rfl⟩, rfl, rfl⟩, rfl, rfl⟩, rfl, rfl⟩, rfl, rfl⟩, rfl, rfl⟩, rfl,
      rfl⟩, rfl, rfl⟩
    obtain ⟨hweekday, rfl⟩ := matches_group_word_iff.1 h₁
    obtain ⟨hgap, rfl⟩ := matches_plus_iff.1 h₂
    obtain ⟨hmonth, rfl⟩ := matches_group_plus_iff.1 h₃
    obtain ⟨hgap₁, rfl⟩ := matches_plus_iff.1 h₄
    obtain ⟨hday, rfl⟩ := matches_group_digits_iff.1 h₅
    obtain ⟨hgap₂, rfl⟩ := matches_plus_iff.1 h₆
    obtain ⟨hhour, rfl⟩ := matches_group_digits_iff.1 h₇
    obtain ⟨rfl, rfl⟩ := matches_lit_iff.1 h₈
    obtain ⟨hminute, rfl⟩ := matches_group_digits_iff.1 h₉
    obtain ⟨rfl, rfl⟩ := matches_lit_iff.1 h₁₀
    obtain ⟨hsecond, rfl⟩ := matches_group_digits_iff.1 h₁₁
    obtain ⟨hgap₃, rfl⟩ := matches_plus_iff.1 h₁₂
    obtain ⟨hyear, rfl⟩ := matches_group_digits_iff.1 h₁₃
    refine ⟨⟨weekday, day, month, year, hour, minute, second, none⟩, ?_, rfl⟩
    rw [append_nil]
    exact .mk hweekday hgap ⟨hblank.1 hmonth.1, hmonth.2⟩ hgap₁ hday hgap₂ hhour hminute hsecond hgap₃ hyear
  · rintro ⟨_, ⟨hweekday, hgap, hmonth, hgap₁, hday, hgap₂, hhour, hminute, hsecond, hgap₃, hyear⟩, rfl⟩
    refine ⟨_, _, _, _, matches_group_word_iff.2 ⟨hweekday, rfl⟩, ?_, rfl, rfl⟩
    refine ⟨_, _, _, _, matches_plus_iff.2 ⟨hgap, rfl⟩, ?_, rfl, rfl⟩
    refine ⟨_, _, _, _, matches_group_plus_iff.2 ⟨⟨hblank.2 hmonth.1, hmonth.2⟩, rfl⟩, ?_, rfl, rfl⟩
    refine ⟨_, _, _, _, matches_plus_iff.2 ⟨hgap₁, rfl⟩, ?_, rfl, rfl⟩
    refine ⟨_, _, _, _, matches_group_digits_iff.2 ⟨hday, rfl⟩, ?_, rfl, rfl⟩
    refine ⟨_, _, _, _, matches_plus_iff.2 ⟨hgap₂, rfl⟩, ?_, rfl, rfl⟩
    refine ⟨_, _, _, _, matches_group_digits_iff.2 ⟨hhour, rfl⟩, ?_, rfl, rfl⟩
    refine ⟨[':'], _, _, _, matches_lit_iff.2 ⟨rfl, rfl⟩, ?_, rfl, rfl⟩
    refine ⟨_, _, _, _, matches_group_digits_iff.2 ⟨hminute, rfl⟩, ?_, rfl, rfl⟩
    refine ⟨[':'], _, _, _, matches_lit_iff.2 ⟨rfl, rfl⟩, ?_, rfl, rfl⟩
    refine ⟨_, _, _, _, matches_group_digits_iff.2 ⟨hsecond, rfl⟩, ?_, rfl, rfl⟩
    refine ⟨_, _, _, _, matches_plus_iff.2 ⟨hgap₃, rfl⟩, ?_, rfl, rfl⟩
    exact ⟨_, _, [], [], matches_group_digits_iff.2 ⟨hyear, rfl⟩, ⟨rfl, rfl⟩, (append_nil _).symm, rfl⟩

/-! ### One way to match -/

theorem starts_group_digits (hlo : 0 < lo) : Starts (group (digits lo hi)) (·.isDigit = true) :=
  (starts_many hlo).group

theorem starts_lit : Starts (lit c) (· = c) := by
  intro t captures h
  obtain ⟨rfl, -⟩ := matches_lit_iff.1 h
  exact ⟨c, [], rfl, rfl⟩

theorem starts_separator : Starts separator fun c => isBlank c = true ∨ c = '-' :=
  ((starts_many Nat.one_pos).alt starts_lit).group

theorem starts_word : Starts word (·.isUpper = true) := (starts_many Nat.one_pos).concat

theorem unambiguous_blanks {hi : Option ℕ} (h : ∀ c, q c → isBlank c = false) :
    Unambiguous (many isBlank lo hi) (Begins q) := unambiguous_many_begins h

theorem unambiguous_fixed_digits {n : ℕ} {next : List Char → Prop} :
    Unambiguous (group (digits n n)) next := unambiguous_many_fixed.group

theorem unambiguous_word (h : ∀ c, q c → c.isLower = false) : Unambiguous word (Begins q) :=
  unambiguous_many_fixed.concat_fixed (unambiguous_many_begins h).concat_singleton

theorem unambiguous_separator (h : ∀ c, q c → isBlank c = false) :
    Unambiguous separator (Begins q) := by
  have hdash : ∀ t captures u, (lit '-').Matches t captures → Begins q u → Begins (· = '-') (t ++ u) :=
    fun t captures _ hmatches _ => (starts_lit t captures hmatches).append
  refine ((unambiguous_blanks h).alt unambiguous_many_fixed (starts_many Nat.one_pos) hdash ?_).group
  rintro a hblank rfl
  exact absurd hblank (by decide)

theorem atEnd_iff : atEnd u = true ↔ u = [] ∨ u = ['\n'] := by
  rw [atEnd, Bool.or_eq_true, decide_eq_true_eq, decide_eq_true_eq]

theorem unambiguous_zone {hi : Option ℕ} :
    Unambiguous (many (fun c => !isBlank c) lo hi) (atEnd · = true) := by
  refine unambiguous_many ?_
  intro u hu a ha
  obtain rfl | rfl := atEnd_iff.1 hu
  · cases ha
  · cases ha
    decide

theorem not_isBlank {c : Char} (h : (!isBlank c) = true) : isBlank c = false := by rwa [Bool.not_eq_true'] at h

theorem isLower_eq_false_of_eq_comma (h : c = ',') : c.isLower = false := by
  subst h
  decide

theorem isDigit_eq_false_of_separator (h : isBlank c = true ∨ c = '-') : c.isDigit = false := by
  obtain h | rfl := h
  · exact Bool.eq_false_iff.2 fun hdigit =>
      Bool.false_ne_true ((isBlank_eq_false_of_isDigit hdigit).symm.trans h)
  · decide

theorem starts_front : Starts (concat [group word, lit ',', star isBlank]) (·.isUpper = true) :=
  starts_word.group.concat

theorem unambiguous_front : Unambiguous (optional (concat [group word, lit ',', star isBlank]))
    (Begins (·.isDigit = true)) := by
  refine Unambiguous.optional ?_ starts_front fun c hupper => ?_
  · refine (unambiguous_word fun c => isLower_eq_false_of_eq_comma).group.concat ?_ starts_lit.concat
    exact unambiguous_many_fixed.concat_fixed
      (unambiguous_blanks fun c => isBlank_eq_false_of_isDigit).concat_singleton
  · rw [isDigit_eq_false_of_isUpper hupper]
    exact Bool.false_ne_true

theorem unambiguous_seconds : Unambiguous (optional (concat [lit ':', group (digits 2 2)]))
    (Begins (isBlank · = true)) := by
  refine Unambiguous.optional ?_ starts_lit.concat ?_
  · exact unambiguous_many_fixed.concat_fixed unambiguous_fixed_digits.concat_singleton
  · rintro c rfl
    decide

theorem unambiguous_rfcRx : Unambiguous rfcRx (atEnd · = true) := by
  have hmonth {c : Char} (h : (!(c == '-' || isBlank c)) = true) : c ≠ '-' ∧ isBlank c = false := by
    simpa using h
  have hseparator (c : Char) (h : isBlank c = true ∨ c = '-') : (!(c == '-' || isBlank c)) = false := by
    rw [Bool.not_eq_false', Bool.or_eq_true, beq_iff_eq]
    exact h.symm
  refine unambiguous_front.concat ?_ (starts_group_digits Nat.one_pos).concat
  refine (unambiguous_many_begins fun c => isDigit_eq_false_of_separator).group.concat ?_
    starts_separator.concat
  refine (unambiguous_separator fun c h => (hmonth h).2).concat ?_ (starts_many Nat.one_pos).group.concat
  refine (unambiguous_many_begins hseparator).group.concat ?_ starts_separator.concat
  refine (unambiguous_separator fun c => isBlank_eq_false_of_isDigit).concat ?_
    (starts_group_digits Nat.two_pos).concat
  refine (unambiguous_many_begins fun c h => isDigit_eq_false_of_separator (.inl h)).group.concat ?_
    (starts_many Nat.one_pos).concat
  refine (unambiguous_blanks fun c => isBlank_eq_false_of_isDigit).concat ?_
    (starts_group_digits Nat.two_pos).concat
  refine unambiguous_fixed_digits.concat_fixed (unambiguous_many_fixed.concat_fixed ?_)
  refine unambiguous_fixed_digits.concat_fixed ?_
  refine unambiguous_seconds.concat ?_ (starts_many Nat.one_pos).concat
  refine (unambiguous_blanks fun c => not_isBlank).concat ?_ (starts_many Nat.one_pos).group.concat
  exact unambiguous_zone.group.concat_singleton

theorem unambiguous_asctimeRx : Unambiguous asctimeRx (atEnd · = true) := by
  have hblank (c : Char) (h : isBlank c = true) : (!isBlank c) = false := by rw [h]; rfl
  refine (unambiguous_word fun c => isLower_eq_false_of_isBlank).group.concat ?_
    (starts_many Nat.one_pos).concat
  refine (unambiguous_blanks fun c => not_isBlank).concat ?_ (starts_many Nat.one_pos).group.concat
  refine (unambiguous_many_begins hblank).group.concat ?_ (starts_many Nat.one_pos).concat
  refine (unambiguous_blanks fun c => isBlank_eq_false_of_isDigit).concat ?_
    (starts_group_digits Nat.two_pos).concat
  refine unambiguous_fixed_digits.concat_fixed ?_
  refine (unambiguous_blanks fun c => isBlank_eq_false_of_isDigit).concat ?_
    (starts_group_digits Nat.two_pos).concat
  refine unambiguous_fixed_digits.concat_fixed (unambiguous_many_fixed.concat_fixed ?_)
  refine unambiguous_fixed_digits.concat_fixed (unambiguous_many_fixed.concat_fixed ?_)
  refine unambiguous_fixed_digits.concat_fixed ?_
  refine (unambiguous_blanks fun c => isBlank_eq_false_of_isDigit).concat ?_
    (starts_group_digits (Nat.zero_lt_succ 3)).concat
  exact unambiguous_fixed_digits.concat_singleton

theorem not_matches_rfcRx (hform : AsctimeForm (t ++ u) p) : ¬ rfcRx.Matches t captures := by
  intro hmatches
  obtain ⟨p', sep, sep', hlayout, -⟩ := matches_rfcRx_iff.1 hmatches
  generalize htext : t ++ u = text at hform
  obtain ⟨hweekday, hgap, -⟩ := hform
  obtain ⟨hfront, hday, -⟩ := hlayout
  obtain ⟨-, rfl⟩ | ⟨hword, gap, -, rfl⟩ := hfront
  · obtain ⟨a, as, rfl⟩ := exists_cons_of_length_pos hday.2.1
    obtain ⟨c, cs, rfl, hupper, -⟩ := hweekday
    obtain ⟨rfl, -⟩ := cons.inj htext
    have hnot := isDigit_eq_false_of_isUpper hupper
    rw [hday.1 a mem_cons_self] at hnot
    cases hnot
  · rw [append_assoc, append_assoc, cons_append] at htext
    obtain ⟨b, bs, rfl⟩ := exists_cons_of_ne_nil hgap.2
    have hb := hgap.1 b mem_cons_self
    have hunambiguous := unambiguous_word (q := (·.isLower = false)) fun _ h => h
    obtain ⟨rfl, -⟩ := hunambiguous (matches_word_iff.2 ⟨hword, rfl⟩) (matches_word_iff.2 ⟨hweekday, rfl⟩)
      ⟨_, _, rfl, by decide⟩ ⟨_, _, rfl, isLower_eq_false_of_isBlank hb⟩ htext
    obtain ⟨rfl, -⟩ := cons.inj (append_cancel_left htext)
    exact absurd hb (by decide)

/-! ### What is captured -/

section

variable (htrimmed : QString.trimmed text = text) {parts : List (List Char)}

include htrimmed

theorem eq_nil_of_atEnd (h : text = t ++ u) (hend : atEnd u = true) : u = [] := by
  obtain rfl | rfl := atEnd_iff.1 hend
  · rfl
  · have hlast := (QString.trimmed_eq_self_iff.1 htrimmed).2 '\n' (by rw [h, getLast?_concat]; rfl)
    exact absurd hlast (by decide)

theorem exec_rfcRx_iff :
    rfcRx.exec atEnd text = some parts ↔
      ∃ p sep sep', Layout text p sep sep' ∧ parts = text :: captured p sep sep' := by
  constructor
  · intro h
    obtain ⟨t, captures, u, hmatches, hend, heq, rfl⟩ := exists_matches_of_exec h
    obtain rfl := eq_nil_of_atEnd htrimmed heq hend
    rw [append_nil] at heq
    obtain ⟨p, sep, sep', hlayout, rfl⟩ := matches_rfcRx_iff.1 hmatches
    rw [heq]
    exact ⟨p, sep, sep', hlayout, rfl⟩
  · rintro ⟨p, sep, sep', hlayout, rfl⟩
    have hexec := exec_eq_some unambiguous_rfcRx (matches_rfcRx_iff.2 ⟨p, sep, sep', hlayout, rfl⟩)
      (atEnd_iff.2 (.inl rfl))
    rwa [append_nil] at hexec

theorem exec_asctimeRx_iff :
    asctimeRx.exec atEnd text = some parts ↔ ∃ p, AsctimeForm text p ∧
      parts = [text, p.weekday, p.month, p.day, p.hour, p.minute, p.second, p.year] := by
  constructor
  · intro h
    obtain ⟨t, captures, u, hmatches, hend, heq, rfl⟩ := exists_matches_of_exec h
    obtain rfl := eq_nil_of_atEnd htrimmed heq hend
    rw [append_nil] at heq
    obtain ⟨p, hform, rfl⟩ := matches_asctimeRx_iff.1 hmatches
    rw [heq]
    exact ⟨p, hform, rfl⟩
  · rintro ⟨p, hform, rfl⟩
    have hexec := exec_eq_some unambiguous_asctimeRx (matches_asctimeRx_iff.2 ⟨p, hform, rfl⟩)
      (atEnd_iff.2 (.inl rfl))
    rwa [append_nil] at hexec

end

theorem exec_rfcRx_eq_none (hform : AsctimeForm text p) : rfcRx.exec atEnd text = none := by
  refine Option.eq_none_iff_forall_ne_some.2 fun parts h => ?_
  obtain ⟨t, captures, u, hmatches, -, rfl, -⟩ := exists_matches_of_exec h
  exact not_matches_rfcRx hform hmatches

end QBittorrent.RssDate
