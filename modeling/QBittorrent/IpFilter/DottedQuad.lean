import QBittorrent.IpFilter.Address

/-!
# Dotted quads

`IPv4Parser::tryParse` is meant to read four numbers between 0 and 255 with dots between them.  It
leaves the numbers to `strtol`, which also skips white space and a sign before the digits, and it
compares only where `strtol` stops: a part without characters stops where it starts.

* `tryParse_eq_dottedQuad_iff` : exactly when the parser keeps to dotted quads.
-/

namespace QBittorrent.IpFilter

open List Option

namespace IPv4Parser

/-! ### What is meant -/

/-- The number that a text of digits stands for. -/
def number (digits : List UInt8) : ℕ :=
  digits.foldl (fun n c => 10 * n + (c.toNat - 48)) 0

/-- A decimal number between 0 and 255. -/
def IsOctet (part : List UInt8) : Prop :=
  part ≠ [] ∧ (∀ c ∈ part, isdigit c = true) ∧ number part ≤ 255
  deriving Decidable

/-- The parts between the dots. -/
def partsOf (str : List UInt8) : List (List UInt8) := str.splitOn 46

variable {part x : List UInt8} {c : UInt8} {parts : List (List UInt8)}

theorem partsOf_of_no_dot (h : 46 ∉ part) : partsOf part = [part] :=
  splitOn_eq_singleton h

theorem partsOf_append_dot (h : 46 ∉ part) (str : List UInt8) :
    partsOf (part ++ 46 :: str) = part :: partsOf str :=
  splitOn_append_cons_self_of_not_mem h str

theorem partsOf_ne_nil (str : List UInt8) : partsOf str ≠ [] := splitOn_ne_nil 46 str

/-- The four bytes of a text that is a dotted quad. -/
def dottedQuad (str : List UInt8) : Option (List UInt8) :=
  if (partsOf str).length = 4 ∧ ∀ part ∈ partsOf str, IsOctet part then
    some ((partsOf str).map fun part => UInt8.ofNat (number part))
  else none

/-! ### The parts between the dots -/

/-- The loop of `tryParse` over the parts between the dots.  Behind the fourth part only the end of
the text makes a difference. -/
def readParts (buf : List UInt8) : List (List UInt8) → Option (List UInt8)
  | [] => none
  | [part] =>
    if part = [] then none
    else (octet part part.length).bind fun o =>
      if buf.length = 3 then some (buf ++ [o]) else none
  | part :: next :: parts =>
    (octet part part.length).bind fun o =>
      if buf.length + 1 = 4 then some (buf ++ [o])
      else readParts (buf ++ [o]) (next :: parts)

theorem readParts_singleton (buf part : List UInt8) :
    readParts buf [part] = if part = [] then none
      else (octet part part.length).bind fun o =>
        if buf.length = 3 then some (buf ++ [o]) else none := rfl

theorem readParts_cons (buf part : List UInt8) (hne : parts ≠ []) :
    readParts buf (part :: parts) = (octet part part.length).bind fun o =>
      if buf.length + 1 = 4 then some (buf ++ [o]) else readParts (buf ++ [o]) parts := by
  obtain ⟨next, parts, rfl⟩ := exists_cons_of_ne_nil hne
  rfl

theorem tryParseFrom_nil (buf part : List UInt8) :
    tryParseFrom buf part part.length [] = readParts buf [part] := by
  rw [tryParseFrom, readParts_singleton]
  by_cases hpart : part = []
  · rw [if_pos hpart, if_pos (length_eq_zero_iff.2 hpart)]
  · rw [if_neg hpart, if_neg fun h => hpart (length_eq_zero_iff.1 h)]
    cases octet part part.length <;> rfl

theorem tryParseFrom_eq_readParts (buf part str : List UInt8) (hpart : 46 ∉ part) :
    tryParseFrom buf (part ++ str) part.length str = readParts buf (partsOf (part ++ str)) := by
  induction str generalizing buf part with
  | nil =>
    rw [append_nil, partsOf_of_no_dot hpart]
    exact tryParseFrom_nil buf part
  | cons c str ih =>
    by_cases hc : c = 46
    · subst hc
      rw [tryParseFrom_dot, octet_append_dot, partsOf_append_dot hpart,
        readParts_cons _ _ (partsOf_ne_nil str)]
      congr 1
      funext o
      rw [show tryParseFrom (buf ++ [o]) str 0 str = _ from
        ih (buf ++ [o]) [] not_mem_nil, nil_append]
    · have hpart' : 46 ∉ part ++ [c] := by simp [hpart, Ne.symm hc]
      have := ih buf (part ++ [c]) hpart'
      rw [append_assoc, length_append] at this
      rw [tryParseFrom_cons _ _ _ hc]
      exact this

theorem tryParse_eq_readParts (str : List UInt8) :
    tryParse str = readParts [] (partsOf str) :=
  tryParseFrom_eq_readParts [] [] str not_mem_nil

theorem readParts_of_four {a b c d : List UInt8} {rest : List (List UInt8)} {o₁ o₂ o₃ o₄ : UInt8}
    (ha : octet a a.length = some o₁) (hb : octet b b.length = some o₂)
    (hc : octet c c.length = some o₃) (hd : octet d d.length = some o₄)
    (hlast : rest = [] → d ≠ []) :
    readParts [] (a :: b :: c :: d :: rest) = some [o₁, o₂, o₃, o₄] := by
  rw [readParts_cons _ _ (by simp), ha, bind_some, if_neg (by simp),
    readParts_cons _ _ (by simp), hb, bind_some, if_neg (by simp),
    readParts_cons _ _ (by simp), hc, bind_some, if_neg (by simp)]
  cases rest with
  | nil =>
    rw [readParts_singleton, if_neg (hlast rfl), hd]
    rfl
  | cons e rest =>
    rw [readParts_cons _ _ (by simp), hd]
    rfl

theorem four_of_readParts (h : readParts [] parts = some x) :
    ∃ a b c d rest, parts = a :: b :: c :: d :: rest ∧ (octet a a.length).isSome ∧
      (octet b b.length).isSome ∧ (octet c c.length).isSome ∧ (octet d d.length).isSome ∧
      (rest = [] → d ≠ []) := by
  have hshort : ∀ (buf part : List UInt8), buf.length < 3 → readParts buf [part] ≠ some x := by
    intro buf part hbuf h
    rw [readParts_singleton] at h
    by_cases hpart : part = []
    · rw [if_pos hpart] at h
      cases h
    · rw [if_neg hpart] at h
      obtain ⟨o, -, h⟩ := bind_eq_some_iff.1 h
      rw [if_neg (by omega)] at h
      cases h
  have hnext : ∀ (buf part : List UInt8) (parts : List (List UInt8)), buf.length < 3 →
      readParts buf (part :: parts) = some x → parts ≠ [] ∧ (octet part part.length).isSome ∧
        ∃ o, readParts (buf ++ [o]) parts = some x := by
    intro buf part parts hbuf h
    have hne : parts ≠ [] := by
      rintro rfl
      exact hshort buf part hbuf h
    rw [readParts_cons _ _ hne] at h
    obtain ⟨o, ho, h⟩ := bind_eq_some_iff.1 h
    rw [if_neg (by omega)] at h
    exact ⟨hne, isSome_iff_exists.2 ⟨o, ho⟩, o, h⟩
  obtain _ | ⟨a, parts⟩ := parts
  · cases h
  obtain ⟨hne, ha, o₁, h⟩ := hnext [] a parts (by simp) h
  obtain ⟨b, parts, rfl⟩ := exists_cons_of_ne_nil hne
  obtain ⟨hne, hb, o₂, h⟩ := hnext _ b parts (by simp) h
  obtain ⟨c, parts, rfl⟩ := exists_cons_of_ne_nil hne
  obtain ⟨hne, hc, o₃, h⟩ := hnext _ c parts (by simp) h
  obtain ⟨d, rest, rfl⟩ := exists_cons_of_ne_nil hne
  refine ⟨a, b, c, d, rest, rfl, ha, hb, hc, ?_, ?_⟩
  · cases rest with
    | nil =>
      rw [readParts_singleton] at h
      by_cases hd : d = []
      · rw [if_pos hd] at h
        cases h
      · rw [if_neg hd] at h
        obtain ⟨o, ho, -⟩ := bind_eq_some_iff.1 h
        exact isSome_iff_exists.2 ⟨o, ho⟩
    | cons e rest =>
      obtain ⟨o, ho, -⟩ := bind_eq_some_iff.1 h
      exact isSome_iff_exists.2 ⟨o, ho⟩
  · rintro rfl rfl
    cases h

/-! ### What `strtol` takes for an octet -/

/-- A part that `strtol` reads to its end as a number between 0 and 255: white space and a sign are
skipped before the digits, and there is nothing to read in a part without characters. -/
def IsLaxOctet (part : List UInt8) : Prop :=
  part = [] ∨ ∃ blanks sign digits, part = blanks ++ (sign ++ digits) ∧
    (∀ c ∈ blanks, isspace c = true) ∧ IsOctet digits ∧
    (sign = [] ∨ sign = [43] ∨ sign = [45] ∧ number digits = 0)

theorem isspace_of_isdigit (h : isdigit c = true) : isspace c = false := by
  simp only [isdigit, decide_eq_true_eq] at h
  simp only [isspace, decide_eq_false_iff_not, not_or, not_and]
  refine ⟨?_, fun _ hle => ?_⟩
  · rintro rfl
    exact absurd h.1 (by decide)
  · exact absurd (UInt8.le_trans h.1 hle) (by decide)

theorem ne_of_isdigit (h : isdigit c = true) : c ≠ 43 ∧ c ≠ 45 := by
  constructor <;> rintro rfl <;> exact absurd h (by decide)

theorem strtol_eq {blanks sign digits : List UInt8} (hblanks : ∀ c ∈ blanks, isspace c = true)
    (hsign : sign = [] ∨ sign = [43] ∨ sign = [45]) (hne : digits ≠ [])
    (hdigits : ∀ c ∈ digits, isdigit c = true) :
    strtol (blanks ++ (sign ++ digits)) =
      (if sign = [45] then -(number digits : ℤ) else number digits,
        blanks.length + sign.length + digits.length) := by
  obtain ⟨d, ds, rfl⟩ := exists_cons_of_ne_nil hne
  have hd := hdigits d mem_cons_self
  have hstop : ∃ c cs, sign ++ d :: ds = c :: cs ∧ isspace c = false := by
    rcases hsign with rfl | rfl | rfl
    · exact ⟨d, ds, rfl, isspace_of_isdigit hd⟩
    · exact ⟨43, d :: ds, rfl, rfl⟩
    · exact ⟨45, d :: ds, rfl, rfl⟩
  have htake : (blanks ++ (sign ++ d :: ds)).takeWhile isspace = blanks := by
    obtain ⟨c, cs, hcs, hc⟩ := hstop
    rw [hcs, takeWhile_append_stop hc, takeWhile_eq_self_iff.2 hblanks]
  have hdrop : (blanks ++ (sign ++ d :: ds)).dropWhile isspace = sign ++ d :: ds := by
    obtain ⟨c, cs, hcs, hc⟩ := hstop
    rw [hcs, dropWhile_append_stop hc, dropWhile_eq_nil_iff.2 hblanks, nil_append]
  have hlength : signLength (sign ++ d :: ds) = sign.length := by
    rcases hsign with rfl | rfl | rfl
    · simp [signLength, ne_of_isdigit hd]
    · rfl
    · rfl
  have hhead : (sign ++ d :: ds).head? = some 45 ↔ sign = [45] := by
    rcases hsign with rfl | rfl | rfl
    · simp [(ne_of_isdigit hd).2]
    · simp
    · simp
  have hall : (d :: ds).takeWhile isdigit = d :: ds := takeWhile_eq_self_iff.2 hdigits
  have hvalue : (d :: ds).foldl (fun (n : ℤ) c => 10 * n + (c.toNat - 48 : ℕ)) 0 =
      number (d :: ds) := by
    have : ∀ (l : List UInt8) (n : ℕ),
        l.foldl (fun (n : ℤ) c => 10 * n + (c.toNat - 48 : ℕ)) n =
          (l.foldl (fun n c => 10 * n + (c.toNat - 48)) n : ℕ) := by
      intro l
      induction l with
      | nil => exact fun n => rfl
      | cons c l ih =>
        intro n
        rw [foldl_cons, foldl_cons, ← ih]
        rfl
    exact this _ 0
  simp only [strtol, htake, hdrop, hlength, drop_left, hall, hhead, hvalue]
  rw [if_neg hne]

theorem octet_of_isOctet (h : IsOctet part) :
    octet part part.length = some (UInt8.ofNat (number part)) := by
  have hread : strtol ([] ++ ([] ++ part)) = _ := strtol_eq (by simp) (.inl rfl) h.1 h.2.1
  simp only [nil_append, length_nil, Nat.zero_add] at hread
  rw [if_neg (by simp)] at hread
  simp only [octet, hread]
  rw [if_pos ⟨Int.natCast_nonneg _, Int.ofNat_le.2 h.2.2, trivial⟩, Int.toNat_natCast]

theorem octet_isSome_iff (part : List UInt8) :
    (octet part part.length).isSome ↔ IsLaxOctet part := by
  constructor
  · intro h
    by_cases hpart : part = []
    · exact .inl hpart
    refine .inr ?_
    have hrange : 0 ≤ (strtol part).1 ∧ (strtol part).1 ≤ 255 ∧ (strtol part).2 = part.length := by
      by_contra hnot
      simp only [octet] at h
      rw [if_neg hnot] at h
      cases h
    set blanks := part.takeWhile isspace with hblanks
    set signed := part.dropWhile isspace with hsigned
    set digits := (signed.drop (signLength signed)).takeWhile isdigit with hdigits
    have hsplit : blanks ++ signed = part := takeWhile_append_dropWhile
    have hne : digits ≠ [] := by
      intro hnil
      have : strtol part = (0, 0) := if_pos hnil
      rw [this] at hrange
      exact hpart (length_eq_zero_iff.1 hrange.2.2.symm)
    have htaken : blanks.length + signLength signed + digits.length = part.length := by
      have : (strtol part).2 = blanks.length + signLength signed + digits.length :=
        congrArg Prod.snd (if_neg hne)
      exact this.symm.trans hrange.2.2
    have hrest : digits = signed.drop (signLength signed) := by
      refine (List.takeWhile_prefix isdigit).eq_of_length ?_
      have := congrArg List.length hsplit
      rw [length_append] at this
      rw [← hdigits, length_drop]
      omega
    have hsign : signed.take (signLength signed) = [] ∨ signed.take (signLength signed) = [43] ∨
        signed.take (signLength signed) = [45] := by
      cases hs : signed with
      | nil => exact .inl (by simp)
      | cons c cs =>
        simp only [signLength, List.head?_cons, some.injEq]
        by_cases hc : c = 43 ∨ c = 45
        · rcases hc with rfl | rfl <;> simp
        · rw [if_neg hc]
          exact .inl rfl
    have hdig : ∀ c ∈ digits, isdigit c = true := fun c hc => mem_takeWhile_imp hc
    have hbl : ∀ c ∈ blanks, isspace c = true := fun c hc => mem_takeWhile_imp hc
    have hcat : blanks ++ (signed.take (signLength signed) ++ digits) = part := by
      rw [hrest, take_append_drop, hsplit]
    have hread := strtol_eq hbl hsign hne hdig
    rw [hcat] at hread
    rw [hread] at hrange
    refine ⟨blanks, _, digits, hcat.symm, hbl, ⟨hne, hdig, ?_⟩, ?_⟩
    · split_ifs at * <;> omega
    · rcases hsign with hs | hs | hs
      · exact .inl hs
      · exact .inr (.inl hs)
      · refine .inr (.inr ⟨hs, ?_⟩)
        have := hrange.1
        rw [if_pos hs] at this
        omega
  · rintro (rfl | ⟨blanks, sign, digits, rfl, hblanks, hoctet, hsign⟩)
    · decide
    · have hread := strtol_eq hblanks (hsign.imp id (.imp id And.left)) hoctet.1 hoctet.2.1
      have hle : (number digits : ℤ) ≤ 255 := Int.ofNat_le.2 hoctet.2.2
      simp only [octet, hread]
      rw [if_pos]
      · rfl
      refine ⟨?_, ?_, by simp [Nat.add_assoc]⟩
      · by_cases hminus : sign = [45]
        · have hzero : number digits = 0 := by
            rcases hsign with rfl | rfl | h
            · simp at hminus
            · exact absurd hminus (by decide)
            · exact h.2
          simp [hzero]
        · rw [if_neg hminus]
          exact Int.natCast_nonneg _
      · split_ifs <;> omega

/-! ### The parser against dotted quads -/

/-- The texts that are read though they are no dotted quads: the first four parts are octets for
`strtol` (the fourth is not empty where it ends the text), and there is a fifth part, or one of the
four is empty or does not begin with a digit. -/
def Slips (str : List UInt8) : Prop :=
  4 ≤ (partsOf str).length ∧ (∀ part ∈ (partsOf str).take 4, IsLaxOctet part) ∧
    ((partsOf str).length = 4 → (partsOf str).getLast? ≠ some []) ∧
    (4 < (partsOf str).length ∨
      ∃ part ∈ partsOf str, ∀ c, part.head? = some c → isdigit c = false)

theorem isOctet_of_isLaxOctet (h : IsLaxOctet part) (hc : part.head? = some c)
    (hdigit : isdigit c = true) : IsOctet part := by
  rcases h with rfl | ⟨blanks, sign, digits, rfl, hblanks, hoctet, hsign⟩
  · cases hc
  · cases blanks with
    | cons b blanks =>
      have hb : b = c := by simpa using hc
      have hblank := hblanks b mem_cons_self
      rw [hb, isspace_of_isdigit hdigit] at hblank
      cases hblank
    | nil =>
      rcases hsign with rfl | rfl | ⟨rfl, -⟩
      · exact hoctet
      · cases hc
        exact absurd hdigit (by decide)
      · cases hc
        exact absurd hdigit (by decide)

theorem head_isdigit (h : IsOctet part) : ∃ c, part.head? = some c ∧ isdigit c = true := by
  obtain ⟨c, cs, rfl⟩ := exists_cons_of_ne_nil h.1
  exact ⟨c, rfl, h.2.1 c mem_cons_self⟩

theorem tryParse_of_dottedQuad {str : List UInt8} (h : dottedQuad str = some x) :
    tryParse str = some x := by
  simp only [dottedQuad] at h
  by_cases hquad : (partsOf str).length = 4 ∧ ∀ part ∈ partsOf str, IsOctet part
  · rw [if_pos hquad] at h
    obtain ⟨hlength, hall⟩ := hquad
    rw [tryParse_eq_readParts]
    generalize partsOf str = parts at h hlength hall
    match parts with
    | [] | [_] | [_, _] | [_, _, _] | _ :: _ :: _ :: _ :: _ :: _ => simp at hlength
    | [a, b, c, d] =>
    cases h
    simp only [forall_mem_cons, not_mem_nil, false_imp_iff, implies_true, and_true]
      at hall
    obtain ⟨ha, hb, hc, hd⟩ := hall
    exact readParts_of_four (octet_of_isOctet ha) (octet_of_isOctet hb) (octet_of_isOctet hc)
      (octet_of_isOctet hd) fun _ => hd.1
  · rw [if_neg hquad] at h
    cases h

theorem tryParse_isSome_iff (str : List UInt8) :
    (tryParse str).isSome ↔ 4 ≤ (partsOf str).length ∧
      (∀ part ∈ (partsOf str).take 4, IsLaxOctet part) ∧
      ((partsOf str).length = 4 → (partsOf str).getLast? ≠ some []) := by
  rw [tryParse_eq_readParts]
  constructor
  · intro h
    obtain ⟨x, hx⟩ := isSome_iff_exists.1 h
    obtain ⟨a, b, c, d, rest, hparts, ha, hb, hc, hd, hlast⟩ := four_of_readParts hx
    rw [octet_isSome_iff] at ha hb hc hd
    rw [hparts]
    refine ⟨by simp, by simp [ha, hb, hc, hd], fun hlength => ?_⟩
    have hrest : rest = [] := by simpa using hlength
    simpa [hrest] using hlast hrest
  · rintro ⟨hlength, hlax, hlast⟩
    generalize partsOf str = parts at hlength hlax hlast
    match parts with
    | [] | [_] | [_, _] | [_, _, _] => simp at hlength
    | a :: b :: c :: d :: rest =>
      simp only [take_succ_cons, take_zero, forall_mem_cons, not_mem_nil,
        false_imp_iff, implies_true, and_true, ← octet_isSome_iff,
        isSome_iff_exists] at hlax
      obtain ⟨⟨o₁, ha⟩, ⟨o₂, hb⟩, ⟨o₃, hc⟩, o₄, hd⟩ := hlax
      have hne : rest = [] → d ≠ [] := by
        rintro rfl
        simpa using hlast rfl
      rw [readParts_of_four ha hb hc hd hne]
      rfl

theorem slips_iff (str : List UInt8) :
    Slips str ↔ (tryParse str).isSome ∧ dottedQuad str = none := by
  have hnone : dottedQuad str = none ↔
      ¬ ((partsOf str).length = 4 ∧ ∀ part ∈ partsOf str, IsOctet part) := by
    simp only [dottedQuad, ite_eq_right_iff, reduceCtorEq, imp_false]
  rw [tryParse_isSome_iff, hnone, and_assoc, and_assoc, Slips]
  refine and_congr_right fun hfour => and_congr_right fun hlax => and_congr_right fun _ => ?_
  constructor
  · rintro (hmore | ⟨part, hpart, hhead⟩) ⟨hlength, hall⟩
    · omega
    · obtain ⟨c, hc, hdigit⟩ := head_isdigit (hall part hpart)
      rw [hhead c hc] at hdigit
      cases hdigit
  · intro hquad
    by_cases hmore : 4 < (partsOf str).length
    · exact .inl hmore
    · refine .inr ?_
      by_contra hhead
      push Not at hhead
      have hlength : (partsOf str).length = 4 := by omega
      refine hquad ⟨hlength, fun part hpart => ?_⟩
      obtain ⟨c, hc, hdigit⟩ := hhead part hpart
      rw [← hlength, take_length] at hlax
      exact isOctet_of_isLaxOctet (hlax part hpart) hc (by simpa using hdigit)

/-- **Dotted quads.**  The parser accepts a text exactly when it is a dotted quad, and gives the
four bytes of it, unless the text is one of those that slip through. -/
theorem tryParse_eq_dottedQuad_iff (str : List UInt8) :
    tryParse str = dottedQuad str ↔ ¬ Slips str := by
  rw [slips_iff]
  cases hquad : dottedQuad str with
  | some x => simp [tryParse_of_dottedQuad hquad]
  | none => simp

/-- The text `1..2.3` is an address. -/
theorem tryParse_empty_part :
    tryParse [49, 46, 46, 50, 46, 51] = some [1, 0, 2, 3] ∧
      dottedQuad [49, 46, 46, 50, 46, 51] = none := by
  decide +kernel

end IPv4Parser

end QBittorrent.IpFilter
