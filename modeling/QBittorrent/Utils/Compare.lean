import Mathlib.Data.List.TakeWhile
import QBittorrent.Lib.Comparison

/-!
# Natural comparison of strings

`naturalCompare` goes through two strings at once.  Equal characters are skipped, runs of digits are
compared as a whole, the longer one being greater, and other characters by the locale.  Strings are
shorter than `2 ^ 31` code units, so that positions and results, which are integers here, fit an
`int`.

* `compares_naturalCompare`, `naturalCompare_preorder_iff`: when the comparison is an order
-/

namespace QBittorrent.Utils.Compare

open List Int

/-- A UTF-16 code unit. -/
abbrev QChar := UInt16

def unicode (c : QChar) : ℤ := c.toNat

/-- What is used of characters. -/
structure CharOrder where
  isDigit : QChar → Bool
  toCaseFolded : QChar → QChar
  /-- `QString::localeAwareCompare` of two strings of one character. -/
  localeAwareCompare : QChar → QChar → ℤ
  isDigit_toCaseFolded : ∀ c, isDigit (toCaseFolded c) = isDigit c
  /-- A total order. -/
  compares : Compares (fun _ => True) localeAwareCompare
  eq_of_localeAwareCompare_eq_zero : ∀ c c', localeAwareCompare c c' = 0 → c = c'

inductive CaseSensitivity where
  | caseInsensitive
  | caseSensitive
  deriving DecidableEq

variable (O : CharOrder) (caseSensitivity : CaseSensitivity)

/-- `(caseSensitivity == Qt::CaseSensitive) ? c : c.toCaseFolded()`. -/
def folded (c : QChar) : QChar :=
  if caseSensitivity = .caseSensitive then c else O.toCaseFolded c

/-- The loop over two runs of digits of the same length. -/
def compareDigits : List QChar → List QChar → ℤ
  | numL :: numViewL, numR :: numViewR =>
    if numL ≠ numR then unicode numL - unicode numR else compareDigits numViewL numViewR
  | _, _ => 0

/-- Two runs of digits, of which the longer one is greater. -/
def compareNumbers (numViewL numViewR : List QChar) : ℤ :=
  if numViewL.length ≠ numViewR.length then (numViewL.length : ℤ) - numViewR.length
  else compareDigits numViewL numViewR

variable {O caseSensitivity} in
variable (caseSensitivity) in
theorem isDigit_folded (c : QChar) : O.isDigit (folded O caseSensitivity c) = O.isDigit c := by
  rw [folded]
  split_ifs
  · rfl
  · exact O.isDigit_toCaseFolded c

/-- The loop of `naturalCompare`; the positions are what is left of the strings, and
`sizeDifference` is that of the whole strings. -/
def compareFrom (sizeDifference : ℤ) : List QChar → List QChar → ℤ
  | [], _ => sizeDifference
  | _ :: _, [] => sizeDifference
  | l :: left, r :: right =>
    let leftChar := folded O caseSensitivity l
    let rightChar := folded O caseSensitivity r
    if leftChar = rightChar ∧ ¬ O.isDigit leftChar = true then
      compareFrom sizeDifference left right
    else if O.isDigit leftChar = true ∧ O.isDigit rightChar = true then
      let numbers := compareNumbers (l :: left.takeWhile O.isDigit) (r :: right.takeWhile O.isDigit)
      if numbers ≠ 0 then numbers
      else compareFrom sizeDifference (left.dropWhile O.isDigit) (right.dropWhile O.isDigit)
    else O.localeAwareCompare leftChar rightChar
termination_by left => left.length
decreasing_by
  · exact Nat.lt_succ_self _
  · exact Nat.lt_succ_of_le (List.length_dropWhile_le _ _)

def naturalCompare (left right : List QChar) : ℤ :=
  compareFrom O caseSensitivity (left.length - right.length) left right

/-! ### Tokens -/

/-- A character that is no digit, or a run of digits. -/
inductive Token where
  | char (c : QChar)
  | number (digit : QChar) (digits : List QChar)

/-- The tokens of a string. -/
def tokens : List QChar → List Token
  | [] => []
  | c :: s =>
    if O.isDigit c = true then
      .number c (s.takeWhile O.isDigit) :: tokens (s.dropWhile O.isDigit)
    else .char (folded O caseSensitivity c) :: tokens s
termination_by s => s.length
decreasing_by
  · exact Nat.lt_succ_of_le (List.length_dropWhile_le _ _)
  · exact Nat.lt_succ_self _

/-- Tokens of different kinds are compared by a digit of the number. -/
def compareTokens : Token → Token → ℤ
  | .char c, .char c' => O.localeAwareCompare c c'
  | .char c, .number digit _ => O.localeAwareCompare c (folded O caseSensitivity digit)
  | .number digit _, .char c => O.localeAwareCompare (folded O caseSensitivity digit) c
  | .number digit digits, .number digit' digits' =>
    compareNumbers (digit :: digits) (digit' :: digits')

/-- What a token is made of. -/
def IsToken : Token → Prop
  | .char c => O.isDigit c = false ∧ ∃ c', c = folded O caseSensitivity c'
  | .number digit digits => O.isDigit digit = true ∧ ∀ d ∈ digits, O.isDigit d = true

variable {O caseSensitivity}

theorem isDigit_of_mem_takeWhile (s : List QChar) : ∀ d ∈ s.takeWhile O.isDigit, O.isDigit d = true :=
  all_eq_true.1 (all_takeWhile ..)

theorem isToken_tokens (s : List QChar) :
    ∀ t ∈ tokens O caseSensitivity s, IsToken O caseSensitivity t := by
  induction s using tokens.induct O with
  | case1 =>
    intro t ht
    rw [tokens] at ht
    cases ht
  | case2 c s hdigit ih =>
    rw [tokens, if_pos hdigit, forall_mem_cons]
    exact ⟨⟨hdigit, isDigit_of_mem_takeWhile s⟩, ih⟩
  | case3 c s hdigit ih =>
    rw [tokens, if_neg hdigit, forall_mem_cons]
    exact ⟨⟨(isDigit_folded caseSensitivity c).trans (Bool.eq_false_iff.2 hdigit), c, rfl⟩, ih⟩

/-! ### The order of tokens -/

theorem compares_unicode : Compares (fun _ => True) fun c c' : QChar => unicode c - unicode c' where
  sign_swap a b _ _ := by
    rw [← Int.sign_neg, Int.neg_sub]
  trans a b c _ _ _ hab hbc := by omega

theorem compareDigits_eq {l m : List QChar} (h : l.length = m.length) :
    compareDigits l m = compareLists (fun c c' => unicode c - unicode c') l m := by
  induction l generalizing m with
  | nil =>
    obtain rfl := eq_nil_of_length_eq_zero h.symm
    rfl
  | cons a l ih =>
    cases m with
    | nil => cases h
    | cons b m =>
      have hzero : unicode a - unicode b = 0 ↔ a = b := by
        rw [unicode, unicode, ← UInt16.toNat_inj]
        omega
      rw [compareDigits, compareLists, ih (Nat.succ.inj h)]
      by_cases hab : a = b
      · rw [if_neg (not_not.2 hab), if_pos (hzero.2 hab)]
      · rw [if_pos hab, if_neg (mt hzero.1 hab)]

theorem compares_numbers : Compares (fun _ => True) compareNumbers where
  sign_swap l m _ _ := by
    rw [compareNumbers, compareNumbers]
    by_cases h : l.length = m.length
    · rw [if_neg (not_not.2 h), if_neg (not_not.2 h.symm), compareDigits_eq h,
        compareDigits_eq h.symm]
      exact compares_unicode.lists.sign_swap l m (fun _ _ => trivial) fun _ _ => trivial
    · rw [if_pos h, if_pos (Ne.symm h), ← sign_neg, Int.neg_sub]
  trans l m n _ _ _ hlm hmn := by
    rw [compareNumbers] at hlm hmn ⊢
    by_cases h : l.length = m.length
    · by_cases h' : m.length = n.length
      · rw [if_neg (not_not.2 h), compareDigits_eq h] at hlm
        rw [if_neg (not_not.2 h'), compareDigits_eq h'] at hmn
        rw [if_neg (not_not.2 (h.trans h')), compareDigits_eq (h.trans h')]
        exact compares_unicode.lists.trans l m n (fun _ _ => trivial) (fun _ _ => trivial)
          (fun _ _ => trivial) hlm hmn
      · omega
    · by_cases h' : m.length = n.length
      · omega
      · omega

namespace CharOrder

theorem localeAwareCompare_self (c : QChar) : O.localeAwareCompare c c = 0 := by
  have h := O.compares.swap (a := c) (b := c) trivial trivial
  omega

/-- No character is between two digits, but digits. -/
def NothingBetweenDigits (O : CharOrder) (caseSensitivity : CaseSensitivity) : Prop :=
  ∀ digit c digit' : QChar, O.isDigit digit = true → O.isDigit c = false →
    O.isDigit digit' = true →
    ¬ (O.localeAwareCompare (folded O caseSensitivity digit) (folded O caseSensitivity c) < 0 ∧
      O.localeAwareCompare (folded O caseSensitivity c) (folded O caseSensitivity digit') < 0)

end CharOrder

variable (caseSensitivity) in
theorem localeAwareCompare_ne {c digit : QChar} (hc : O.isDigit c = false)
    (hdigit : O.isDigit digit = true) :
    O.localeAwareCompare c (folded O caseSensitivity digit) ≠ 0 ∧
      O.localeAwareCompare (folded O caseSensitivity digit) c ≠ 0 := by
  have hne : c ≠ folded O caseSensitivity digit := by
    rintro rfl
    rw [isDigit_folded, hdigit] at hc
    cases hc
  exact ⟨fun h => hne (O.eq_of_localeAwareCompare_eq_zero _ _ h),
    fun h => hne (O.eq_of_localeAwareCompare_eq_zero _ _ h).symm⟩

theorem sign_compareTokens_swap (t t' : Token) : (compareTokens O caseSensitivity t t').sign =
    -(compareTokens O caseSensitivity t' t).sign := by
  cases t with
  | char c => cases t' <;> exact O.compares.sign_swap _ _ trivial trivial
  | number digit digits =>
    cases t' with
    | char c' => exact O.compares.sign_swap _ _ trivial trivial
    | number digit' digits' => exact compares_numbers.sign_swap _ _ trivial trivial

theorem compares_tokens (h : O.NothingBetweenDigits caseSensitivity) :
    Compares (IsToken O caseSensitivity) (compareTokens O caseSensitivity) where
  sign_swap t t' _ _ := sign_compareTokens_swap t t'
  trans t t' t'' ht ht' ht'' hle hle' := by
    have hswap := fun c c' => O.compares.swap (a := c) (b := c') trivial trivial
    cases t with
    | char c =>
      cases t' with
      | char c' => cases t'' <;> exact O.compares.trans _ _ _ trivial trivial trivial hle hle'
      | number digit' digits' =>
        cases t'' with
        | char c'' => exact O.compares.trans _ _ _ trivial trivial trivial hle hle'
        | number digit'' digits'' =>
          -- else `c` is between the two digits
          obtain ⟨c₀, rfl⟩ := ht.2
          by_contra hgt
          have hne := localeAwareCompare_ne caseSensitivity ht.1 ht'.1
          have hbetween := h digit'' c₀ digit' ht''.1 ((isDigit_folded caseSensitivity c₀).symm.trans ht.1) ht'.1
          simp only [compareTokens] at hle hgt
          have hswap' := hswap (folded O caseSensitivity digit'') (folded O caseSensitivity c₀)
          omega
    | number digit digits =>
      cases t' with
      | char c' =>
        cases t'' with
        | char c'' => exact O.compares.trans _ _ _ trivial trivial trivial hle hle'
        | number digit'' digits'' =>
          obtain ⟨c₀, rfl⟩ := ht'.2
          have hne := localeAwareCompare_ne caseSensitivity ht'.1 ht.1
          have hne' := localeAwareCompare_ne caseSensitivity ht'.1 ht''.1
          have hbetween := h digit c₀ digit'' ht.1 ((isDigit_folded caseSensitivity c₀).symm.trans ht'.1) ht''.1
          simp only [compareTokens] at hle hle'
          omega
      | number digit' digits' =>
        cases t'' with
        | char c'' =>
          obtain ⟨c₀, rfl⟩ := ht''.2
          by_contra hgt
          have hne := localeAwareCompare_ne caseSensitivity ht''.1 ht'.1
          have hbetween := h digit' c₀ digit ht'.1 ((isDigit_folded caseSensitivity c₀).symm.trans ht''.1) ht.1
          simp only [compareTokens] at hle' hgt
          have hswap' := hswap (folded O caseSensitivity digit) (folded O caseSensitivity c₀)
          omega
        | number digit'' digits'' =>
          exact compares_numbers.trans _ _ _ trivial trivial trivial hle hle'

/-! ### Strings and tokens -/

theorem length_takeWhile_add {α : Type*} (p : α → Bool) (l : List α) :
    (l.takeWhile p).length + (l.dropWhile p).length = l.length := by
  rw [← length_append, takeWhile_append_dropWhile]

theorem length_eq_of_compareNumbers {l m : List QChar} (h : compareNumbers l m = 0) :
    l.length = m.length := by
  by_contra hne
  rw [compareNumbers, if_pos hne] at h
  omega

theorem sign_of_nil (right : List QChar) : (-(right.length : ℤ)).sign =
    (compareLists (compareTokens O caseSensitivity) [] (tokens O caseSensitivity right)).sign := by
  cases right with
  | nil =>
    rw [tokens]
    rfl
  | cons r right =>
    have hlength : -((r :: right).length : ℤ) < 0 := by
      rw [length_cons]
      omega
    rw [sign_eq_neg_one_of_neg hlength, tokens]
    split_ifs <;> rfl

theorem sign_of_nil_right (left : List QChar) : (left.length : ℤ).sign =
    (compareLists (compareTokens O caseSensitivity) (tokens O caseSensitivity left) []).sign := by
  cases left with
  | nil =>
    rw [tokens]
    rfl
  | cons l left =>
    have hlength : 0 < ((l :: left).length : ℤ) := by
      rw [length_cons]
      omega
    rw [sign_eq_one_of_pos hlength, tokens]
    split_ifs <;> rfl

theorem sign_compareFrom (left right : List QChar) (sizeDifference : ℤ)
    (h : sizeDifference = left.length - right.length) :
    (compareFrom O caseSensitivity sizeDifference left right).sign =
      (compareLists (compareTokens O caseSensitivity) (tokens O caseSensitivity left)
        (tokens O caseSensitivity right)).sign := by
  induction hn : left.length using Nat.strongRecOn generalizing left right with
  | ind n ih =>
    subst hn
    cases left with
    | nil =>
      rw [compareFrom, tokens, h, length_nil]
      have hneg : ((0 : ℕ) : ℤ) - right.length = -(right.length : ℤ) := by omega
      rw [hneg]
      exact sign_of_nil right
    | cons l left =>
      cases right with
      | nil =>
        rw [compareFrom, h, length_nil, tokens.eq_1 O caseSensitivity, Int.natCast_zero,
          Int.sub_zero]
        exact sign_of_nil_right (l :: left)
      | cons r right =>
        rw [length_cons, length_cons] at h
        rw [compareFrom]
        simp only [isDigit_folded]
        by_cases hl : O.isDigit l = true
        · by_cases hr : O.isDigit r = true
          · -- two numbers
            rw [if_neg fun h => h.2 hl, if_pos ⟨hl, hr⟩, tokens, if_pos hl, tokens, if_pos hr,
              compareLists, compareTokens]
            by_cases hzero : compareNumbers (l :: left.takeWhile O.isDigit)
                (r :: right.takeWhile O.isDigit) = 0
            · have hlength := length_eq_of_compareNumbers hzero
              have hleft := length_takeWhile_add O.isDigit left
              have hright := length_takeWhile_add O.isDigit right
              rw [length_cons, length_cons] at hlength
              rw [if_neg (not_not.2 hzero), if_pos hzero]
              refine ih _ ?_ _ _ ?_ rfl
              · exact Nat.lt_succ_of_le (length_dropWhile_le _ _)
              · omega
            · rw [if_pos hzero, if_neg hzero]
          · -- a number and a character
            have hne := localeAwareCompare_ne caseSensitivity
              ((isDigit_folded caseSensitivity r).trans
                (Bool.eq_false_iff.2 hr)) hl
            rw [if_neg fun h => h.2 hl, if_neg fun h => hr h.2, tokens, if_pos hl, tokens, if_neg hr,
              compareLists, compareTokens, if_neg hne.2]
        · by_cases hr : O.isDigit r = true
          · have hne := localeAwareCompare_ne caseSensitivity
              ((isDigit_folded caseSensitivity l).trans
                (Bool.eq_false_iff.2 hl)) hr
            rw [if_neg, if_neg fun h => hl h.1, tokens, if_neg hl, tokens, if_pos hr, compareLists,
              compareTokens, if_neg hne.1]
            rintro ⟨heq, -⟩
            exact hne.1 (heq ▸ O.localeAwareCompare_self _)
          · -- two characters
            rw [tokens, if_neg hl, tokens, if_neg hr, compareLists, compareTokens]
            by_cases heq : folded O caseSensitivity l = folded O caseSensitivity r
            · rw [if_pos ⟨heq, hl⟩, heq, if_pos (O.localeAwareCompare_self _)]
              exact ih _ (Nat.lt_succ_self _) _ _ (by omega) rfl
            · rw [if_neg fun h => heq h.1, if_neg fun h => hl h.1,
                if_neg fun hzero => heq (O.eq_of_localeAwareCompare_eq_zero _ _ hzero)]

variable (O caseSensitivity) in
theorem sign_naturalCompare (left right : List QChar) :
    (naturalCompare O caseSensitivity left right).sign =
      (compareLists (compareTokens O caseSensitivity) (tokens O caseSensitivity left)
        (tokens O caseSensitivity right)).sign := sign_compareFrom left right _ rfl

theorem compares_naturalCompare (h : O.NothingBetweenDigits caseSensitivity) :
    Compares (fun _ => True) (naturalCompare O caseSensitivity) :=
  (compares_tokens h).lists.of_sign isToken_tokens (sign_naturalCompare O caseSensitivity)

/-! ### A cycle -/

theorem tokens_singleton (c : QChar) (hc : O.isDigit c = false) :
    tokens O caseSensitivity [c] = [.char (folded O caseSensitivity c)] := by
  rw [tokens, if_neg (Bool.eq_false_iff.1 hc), tokens]

theorem tokens_digits (digit : QChar) (digits : List QChar) (hdigit : O.isDigit digit = true)
    (hdigits : ∀ d ∈ digits, O.isDigit d = true) :
    tokens O caseSensitivity (digit :: digits) = [.number digit digits] := by
  have htake : digits.takeWhile O.isDigit = digits := takeWhile_eq_self_iff.2 hdigits
  have hdrop : digits.dropWhile O.isDigit = [] := dropWhile_eq_nil_iff.2 hdigits
  rw [tokens, if_pos hdigit, htake, hdrop, tokens]

theorem cycle {digit c digit' : QChar} (hdigit : O.isDigit digit = true)
    (hc : O.isDigit c = false) (hdigit' : O.isDigit digit' = true)
    (hless : O.localeAwareCompare (folded O caseSensitivity digit) (folded O caseSensitivity c) < 0)
    (hgreater :
      O.localeAwareCompare (folded O caseSensitivity c) (folded O caseSensitivity digit') < 0) :
    naturalCompare O caseSensitivity [digit'] [digit, digit] < 0 ∧
      naturalCompare O caseSensitivity [digit, digit] [c] < 0 ∧
      naturalCompare O caseSensitivity [c] [digit'] < 0 := by
  have hsign := fun left right => (sign_eq_iff.1 (sign_naturalCompare O caseSensitivity
    left right)).1
  rw [hsign, hsign, hsign, tokens_singleton c hc, tokens_digits digit' [] hdigit' (by simp),
    tokens_digits digit [digit] hdigit (by simpa using hdigit)]
  rw [compareLists_singleton, compareLists_singleton, compareLists_singleton]
  exact ⟨(by decide : (1 : ℤ) - 2 < 0), hless, hgreater⟩

/-- **Natural comparison.**  For any order of the characters, and case sensitive or not, the results
of comparing two strings in both orders have opposite signs; and "not greater" is transitive exactly
when the order has no other character between two digits. -/
theorem naturalCompare_preorder_iff (O : CharOrder) (caseSensitivity : CaseSensitivity) :
    (∀ a b, (naturalCompare O caseSensitivity a b).sign =
      -(naturalCompare O caseSensitivity b a).sign) ∧
    ((∀ a b c, naturalCompare O caseSensitivity a b ≤ 0 → naturalCompare O caseSensitivity b c ≤ 0 →
      naturalCompare O caseSensitivity a c ≤ 0) ↔ O.NothingBetweenDigits caseSensitivity) := by
  have hswap : ∀ a b, (naturalCompare O caseSensitivity a b).sign =
      -(naturalCompare O caseSensitivity b a).sign := by
    intro a b
    rw [sign_naturalCompare, sign_naturalCompare]
    exact sign_compareLists_swap (p := fun _ => True) (fun t t' _ _ => sign_compareTokens_swap t t')
      (fun _ _ => trivial) fun _ _ => trivial
  refine ⟨hswap, ?_, ?_⟩
  · rintro htrans digit c digit' hdigit hc hdigit' ⟨hless, hgreater⟩
    obtain ⟨h₁, h₂, h₃⟩ := cycle hdigit hc hdigit' hless hgreater
    have hle := htrans _ _ _ (le_of_lt h₁) (le_of_lt h₂)
    have hsign := sign_eq_neg_iff.1 (hswap [digit'] [c])
    omega
  · intro h a b c
    exact (compares_naturalCompare h).trans a b c trivial trivial trivial

/-- The order of the code units, with the digits of two scripts. -/
def codeUnits : CharOrder where
  isDigit c :=
    decide ((0x30 ≤ c.toNat ∧ c.toNat ≤ 0x39) ∨ (0x660 ≤ c.toNat ∧ c.toNat ≤ 0x669))
  toCaseFolded := id
  localeAwareCompare c c' := unicode c - unicode c'
  isDigit_toCaseFolded _ := rfl
  compares := compares_unicode
  eq_of_localeAwareCompare_eq_zero c c' h := by
    rw [unicode, unicode] at h
    exact UInt16.toNat_inj.1 (by omega)

/-- The letter `a` is behind the digit `1` and in front of the Arabic-Indic digit zero, so that this
digit is less than `11`, `11` is less than `a`, and `a` is less than the digit. -/
theorem letter_between_digits :
    naturalCompare codeUnits .caseSensitive [.ofNat 0x660] [.ofNat 0x31, .ofNat 0x31] ≤ 0 ∧
      naturalCompare codeUnits .caseSensitive [.ofNat 0x31, .ofNat 0x31] [.ofNat 0x61] ≤ 0 ∧
      ¬ naturalCompare codeUnits .caseSensitive [.ofNat 0x660] [.ofNat 0x61] ≤ 0 := by
  have hsign : ∀ a b, naturalCompare codeUnits .caseSensitive a b ≤ 0 ↔
      compareLists (compareTokens codeUnits .caseSensitive) (tokens codeUnits .caseSensitive a)
        (tokens codeUnits .caseSensitive b) ≤ 0 := by
    intro a b
    have h := sign_eq_iff.1 (sign_naturalCompare codeUnits .caseSensitive a b)
    omega
  rw [hsign, hsign, hsign, tokens_digits (.ofNat 0x660) [] (by decide) (by simp),
    tokens_digits (.ofNat 0x31) [.ofNat 0x31] (by decide) (forall_mem_singleton.2 (by decide)),
    tokens_singleton (.ofNat 0x61) (by decide)]
  decide

end QBittorrent.Utils.Compare
