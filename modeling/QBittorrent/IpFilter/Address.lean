import Mathlib.Data.List.TakeWhile
import Mathlib.Tactic.Common

/-!
# Addresses of IP filter files

The text filter formats give addresses as C strings.  An IPv4 address is read with `strtol` octet by
octet; everything else is left to libtorrent's `make_address`, which is a parameter here.
-/

namespace QBittorrent.IpFilter

open List Option

/-! ### The C library -/

def isspace (c : UInt8) : Bool := c = 32 ∨ (9 ≤ c ∧ c ≤ 13)

def isdigit (c : UInt8) : Bool := 48 ≤ c ∧ c ≤ 57

/-- The sign that `strtol` skips. -/
def signLength (str : List UInt8) : ℕ :=
  if str.head? = some 43 ∨ str.head? = some 45 then 1 else 0

/-- `strtol(str, &endptr, 10)`: the number, and how much of the text it takes.  The numbers here are
not cut off at the bounds of `long`, which are far from those they are compared with. -/
def strtol (str : List UInt8) : ℤ × ℕ :=
  let blanks := str.takeWhile isspace
  let signed := str.dropWhile isspace
  let digits := (signed.drop (signLength signed)).takeWhile isdigit
  if digits = [] then (0, 0)
  else
    let number : ℤ := digits.foldl (fun n c => 10 * n + (c.toNat - 48 : ℕ)) 0
    (if signed.head? = some 45 then -number else number,
      blanks.length + signLength signed + digits.length)

variable {c : UInt8} {p : UInt8 → Bool}

theorem takeWhile_append_stop (hc : p c = false) (s r : List UInt8) :
    (s ++ c :: r).takeWhile p = s.takeWhile p := by
  induction s with
  | nil => simp [hc]
  | cons a s ih => simp [takeWhile_cons, ih]

theorem dropWhile_append_stop (hc : p c = false) (s r : List UInt8) :
    (s ++ c :: r).dropWhile p = s.dropWhile p ++ c :: r := by
  induction s with
  | nil => simp [hc]
  | cons a s ih =>
    simp only [cons_append, dropWhile_cons, ih]
    split_ifs <;> rfl

theorem signLength_le (str : List UInt8) : signLength str ≤ str.length := by
  cases str with
  | nil => simp [signLength]
  | cons c str =>
    simp only [signLength, length_cons]
    split_ifs <;> omega

theorem strtol_append_dot (s r : List UInt8) : strtol (s ++ 46 :: r) = strtol s := by
  have hhead : ∀ d : List UInt8, ∀ c : UInt8, c ≠ 46 →
      ((d ++ 46 :: r).head? = some c ↔ d.head? = some c) := by
    intro d c hc
    cases d with
    | nil => simp [Ne.symm hc]
    | cons a d => simp
  have hsign : ∀ d, signLength (d ++ 46 :: r) = signLength d := by
    intro d
    simp only [signLength, hhead d 43 (by decide), hhead d 45 (by decide)]
  simp only [strtol, takeWhile_append_stop (p := isspace) (c := 46) rfl,
    dropWhile_append_stop (p := isspace) (c := 46) rfl, hsign,
    drop_append_of_le_length (signLength_le _),
    takeWhile_append_stop (p := isdigit) (c := 46) rfl, hhead _ 45 (by decide)]

theorem isdigit_of_strtol {str : List UInt8} (h : (strtol (str ++ [c])).2 = (str ++ [c]).length) :
    isdigit c = true := by
  set blanks := (str ++ [c]).takeWhile isspace with hblanks
  set signed := (str ++ [c]).dropWhile isspace with hsigned
  set digits := (signed.drop (signLength signed)).takeWhile isdigit with hdigits
  have htaken : digits ≠ [] ∧
      blanks.length + signLength signed + digits.length = (str ++ [c]).length := by
    by_cases hnil : digits = []
    · simp [strtol, ← hsigned, ← hdigits, hnil] at h
    · exact ⟨hnil, by simpa [strtol, ← hsigned, ← hdigits, ← hblanks, hnil] using h⟩
  have hsplit : blanks ++ signed = str ++ [c] := takeWhile_append_dropWhile
  have hall : digits = signed.drop (signLength signed) := by
    refine (List.takeWhile_prefix isdigit).eq_of_length ?_
    have := congrArg length hsplit
    rw [length_append] at this
    rw [← hdigits, length_drop]
    omega
  have hlast : digits.getLast? = some c := by
    have hcat : (blanks ++ signed.take (signLength signed)) ++ digits = str ++ [c] := by
      rw [hall, append_assoc, take_append_drop, hsplit]
    have := congrArg getLast? hcat
    rw [getLast?_append, getLast?_concat] at this
    obtain ⟨d, hd⟩ := ne_none_iff_exists'.1
      (fun hnone => htaken.1 (getLast?_eq_none_iff.1 hnone))
    rw [hd, some_or] at this
    rw [hd, this]
  exact mem_takeWhile_imp (mem_of_getLast? hlast)

namespace IPv4Parser

/-- An octet: a number of `n` characters between 0 and 255. -/
def octet (octetStart : List UInt8) (n : ℕ) : Option UInt8 :=
  let extractedNum := strtol octetStart
  if 0 ≤ extractedNum.1 ∧ extractedNum.1 ≤ 255 ∧ extractedNum.2 = n then
    some (UInt8.ofNat extractedNum.1.toNat)
  else none

/-- The loop of `tryParse`: the octets so far, the text from the start of the current octet on, how
far `str` is behind that, and `str`. -/
def tryParseFrom (buf octetStart : List UInt8) (n : ℕ) : List UInt8 → Option (List UInt8)
  | [] =>
    if n = 0 then none
    else
      match octet octetStart n with
      | none => none
      | some o => if buf.length = 3 then some (buf ++ [o]) else none
  | c :: str =>
    if c = 46 then
      match octet octetStart n with
      | none => none
      | some o =>
        if buf.length + 1 = 4 then some (buf ++ [o])
        else tryParseFrom (buf ++ [o]) str 0 str
    else tryParseFrom buf octetStart (n + 1) str

def tryParse (str : List UInt8) : Option (List UInt8) :=
  tryParseFrom [] str 0 str

theorem octet_append_dot (s r : List UInt8) (n : ℕ) : octet (s ++ 46 :: r) n = octet s n := by
  simp only [octet, strtol_append_dot]

variable {c : UInt8} {x w str : List UInt8}

theorem octet_concat_blank (s : List UInt8) (hc : isspace c = true) :
    octet (s ++ [c]) (s ++ [c]).length = none := by
  simp only [octet]
  rw [if_neg]
  rintro ⟨-, -, h⟩
  have := isdigit_of_strtol h
  simp only [isdigit, isspace, decide_eq_true_eq] at this hc
  rcases hc with rfl | ⟨-, hc⟩
  · exact absurd this.1 (by decide)
  · exact absurd (UInt8.le_trans this.1 hc) (by decide)

theorem tryParseFrom_dot (buf octetStart : List UInt8) (n : ℕ) (str : List UInt8) :
    tryParseFrom buf octetStart n (46 :: str) =
      (octet octetStart n).bind fun o =>
        if buf.length + 1 = 4 then some (buf ++ [o])
        else tryParseFrom (buf ++ [o]) str 0 str := by
  rw [tryParseFrom, if_pos rfl]
  cases octet octetStart n <;> rfl

theorem tryParseFrom_cons (buf octetStart : List UInt8) (n : ℕ) (hc : c ≠ 46) (str : List UInt8) :
    tryParseFrom buf octetStart n (c :: str) = tryParseFrom buf octetStart (n + 1) str := by
  rw [tryParseFrom, if_neg hc]

theorem of_tryParseFrom_nil {buf octetStart : List UInt8} {n : ℕ}
    (h : tryParseFrom buf octetStart n [] = some x) :
    buf.length = 3 ∧ (octet octetStart n).isSome := by
  rw [tryParseFrom] at h
  by_cases hn : n = 0
  · rw [if_pos hn] at h
    cases h
  · rw [if_neg hn] at h
    cases ho : octet octetStart n with
    | none =>
      rw [ho] at h
      cases h
    | some o =>
      rw [ho] at h
      by_cases hbuf : buf.length = 3
      · exact ⟨hbuf, rfl⟩
      · dsimp only at h
        rw [if_neg hbuf] at h
        cases h

theorem tryParseFrom_append_of_no_dot (buf octetStart : List UInt8) (hw : 46 ∉ w) (n : ℕ) :
    tryParseFrom buf octetStart n w = tryParseFrom buf octetStart (n + w.length) [] := by
  induction w generalizing n with
  | nil => rfl
  | cons c w ih =>
    rw [mem_cons, not_or] at hw
    rw [tryParseFrom_cons _ _ _ (Ne.symm hw.1), ih hw.2, length_cons]
    congr 1
    omega

theorem not_dot_of_blanks (hw : ∀ c ∈ w, isspace c = true) : 46 ∉ w :=
  fun h => absurd (hw 46 h) (by decide)

theorem tryParseFrom_blanks (buf o : List UInt8) (hne : w ≠ []) (hw : ∀ c ∈ w, isspace c = true) :
    tryParseFrom buf (o ++ w) o.length w = none := by
  rw [tryParseFrom_append_of_no_dot _ _ (not_dot_of_blanks hw)]
  have hoctet := octet_concat_blank (o ++ w.dropLast) (hw _ (getLast_mem hne))
  rw [append_assoc, dropLast_concat_getLast, length_append] at hoctet
  cases h : tryParseFrom buf (o ++ w) (o.length + w.length) [] with
  | none => rfl
  | some x =>
    have := (of_tryParseFrom_nil h).2
    rw [hoctet] at this
    cases this

theorem tryParseFrom_of_append_blanks (hw : ∀ c ∈ w, isspace c = true) (str buf o : List UInt8)
    (h : tryParseFrom buf (o ++ (str ++ w)) o.length (str ++ w) = some x) :
    tryParseFrom buf (o ++ str) o.length str = some x := by
  induction str generalizing buf o with
  | nil =>
    by_cases hne : w = []
    · subst hne
      exact h
    · rw [nil_append, tryParseFrom_blanks _ _ hne hw] at h
      cases h
  | cons c str ih =>
    by_cases hc : c = 46
    · subst hc
      rw [cons_append, tryParseFrom_dot, octet_append_dot] at h
      rw [tryParseFrom_dot, octet_append_dot]
      obtain ⟨v, hv, h⟩ := bind_eq_some_iff.1 h
      rw [hv, bind_some]
      by_cases hfour : buf.length + 1 = 4
      · rw [if_pos hfour] at h ⊢
        exact h
      · rw [if_neg hfour] at h ⊢
        exact ih _ [] h
    · rw [cons_append, tryParseFrom_cons _ _ _ hc] at h
      rw [tryParseFrom_cons _ _ _ hc]
      have := ih buf (o ++ [c])
      simp only [append_assoc, singleton_append, length_append,
        length_singleton] at this
      exact this h

theorem tryParseFrom_append_of_dots (w str buf o : List UInt8)
    (hdots : 4 ≤ buf.length + str.count 46)
    (h : tryParseFrom buf (o ++ str) o.length str = some x) :
    tryParseFrom buf (o ++ (str ++ w)) o.length (str ++ w) = some x := by
  induction str generalizing buf o with
  | nil =>
    have := (of_tryParseFrom_nil h).1
    rw [count_nil] at hdots
    omega
  | cons c str ih =>
    by_cases hc : c = 46
    · subst hc
      rw [tryParseFrom_dot, octet_append_dot] at h
      rw [cons_append, tryParseFrom_dot, octet_append_dot]
      obtain ⟨v, hv, h⟩ := bind_eq_some_iff.1 h
      rw [hv, bind_some]
      rw [count_cons_self] at hdots
      by_cases hfour : buf.length + 1 = 4
      · rw [if_pos hfour] at h ⊢
        exact h
      · rw [if_neg hfour] at h ⊢
        refine ih _ [] ?_ h
        simp only [length_append, length_singleton]
        omega
    · rw [cons_append, tryParseFrom_cons _ _ _ hc]
      rw [tryParseFrom_cons _ _ _ hc] at h
      rw [count_cons_of_ne hc] at hdots
      have := ih buf (o ++ [c]) hdots
      simp only [append_assoc, singleton_append, length_append,
        length_singleton] at this
      exact this h

theorem dots_of_tryParseFrom (str buf o : List UInt8) (hc : isspace c = true)
    (hlast : (o ++ str).getLast? = some c) (h : tryParseFrom buf (o ++ str) o.length str = some x) :
    4 ≤ buf.length + str.count 46 := by
  induction str generalizing buf o with
  | nil =>
    rw [append_nil] at h hlast
    obtain ⟨o, rfl⟩ := getLast?_eq_some_iff.1 hlast
    have := (of_tryParseFrom_nil h).2
    rw [octet_concat_blank o hc] at this
    cases this
  | cons d str ih =>
    by_cases hd : d = 46
    · subst hd
      rw [tryParseFrom_dot] at h
      obtain ⟨v, -, h⟩ := bind_eq_some_iff.1 h
      rw [count_cons_self]
      by_cases hfour : buf.length + 1 = 4
      · omega
      · rw [if_neg hfour] at h
        cases str with
        | nil =>
          rw [getLast?_concat] at hlast
          cases hlast
          exact absurd hc (by decide)
        | cons e str =>
          have hlast' : ([] ++ e :: str).getLast? = some c := by
            rw [← hlast]
            simp [getLast?_append, getLast?_cons]
          have := ih (buf ++ [v]) [] hlast' h
          simp only [length_append, length_singleton] at this
          omega
    · rw [tryParseFrom_cons _ _ _ hd] at h
      rw [count_cons_of_ne hd]
      have := ih buf (o ++ [d])
      simp only [append_assoc, singleton_append, length_append,
        length_singleton] at this
      exact this hlast h

theorem tryParse_of_append_blanks (hw : ∀ c ∈ w, isspace c = true)
    (h : tryParse (str ++ w) = some x) : tryParse str = some x :=
  tryParseFrom_of_append_blanks hw str [] [] h

theorem tryParse_append_of_dots (w : List UInt8) (hdots : 4 ≤ str.count 46)
    (h : tryParse str = some x) : tryParse (str ++ w) = some x :=
  tryParseFrom_append_of_dots w str [] [] (by simpa using hdots) h

theorem dots_of_tryParse (hc : isspace c = true) (hlast : str.getLast? = some c)
    (h : tryParse str = some x) : 4 ≤ str.count 46 := by
  simpa using dots_of_tryParseFrom str [] [] hc hlast h

end IPv4Parser

/-! ### Addresses -/

/-- `lt::address`. -/
inductive Address where
  | v4 (bits : BitVec 32)
  | v6 (bits : BitVec 128)
  deriving DecidableEq

def Address.isV4 : Address → Bool
  | v4 _ => true
  | v6 _ => false

/-- `lt::address_v4` of its bytes. -/
def addressV4 (buf : List UInt8) : Address :=
  .v4 (BitVec.ofNat 32 (buf.foldl (fun n b => 256 * n + b.toNat) 0))

/-- `parseIPAddress`, with libtorrent's `make_address`. -/
def parseIPAddress (makeAddress : List UInt8 → Option Address) (data : List UInt8) :
    Option Address :=
  match IPv4Parser.tryParse data with
  | some buf => some (addressV4 buf)
  | none => makeAddress data

end QBittorrent.IpFilter
