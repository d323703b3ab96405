import QBittorrent.Rss.DateForms

/-!
# The instants of dates

What is computed from the parts of a form is the instant that they denote, but for three mistakes: a zone
that is none leads to an invalid date, a time out of range to midnight, and a weekday is not looked at.

* `zoneOffset_iff` : zones;
* `right_iff_inOrder` : exactly the texts in order are parsed right.
-/

namespace QBittorrent.RssDate

open Regex List QString Char UInt8

variable {text part : List Char} {captures : List (List Char)} {c : Char} {lo hi : ℕ} {offset : ℤ}

/-! ### Numbers -/

theorem toNat_of_isDigit (h : c.isDigit = true) : 48 ≤ c.toNat ∧ c.toNat ≤ 57 := by
  rw [isDigit, Bool.and_eq_true, decide_eq_true_eq, decide_eq_true_eq] at h
  exact ⟨UInt32.le_iff_toNat_le.1 h.1, UInt32.le_iff_toNat_le.1 h.2⟩

theorem isSpace_eq_false_of_isDigit (h : c.isDigit = true) : QString.isSpace c = false := by
  obtain ⟨hlo, hhi⟩ := toNat_of_isDigit h
  simp only [isSpace, Bool.or_eq_false_iff, Bool.and_eq_false_iff, decide_eq_false_iff_not]
  omega

theorem trimmed_of_isDigits (h : ∀ c ∈ text, c.isDigit = true) : QString.trimmed text = text := by
  refine trimmed_eq_self_iff.2 ⟨fun c hc => ?_, fun c hc => ?_⟩
  · exact isSpace_eq_false_of_isDigit (h c (mem_of_mem_head? hc))
  · exact isSpace_eq_false_of_isDigit (h c (mem_of_mem_getLast? hc))

theorem cast_foldl (text : List Char) (n : ℕ) :
    text.foldl (fun (n : ℤ) c => 10 * n + (c.toNat - 48 : ℕ)) n =
      ((text.map fun c => c.toNat - 48).foldl (fun n d => 10 * n + d) n : ℕ) := by
  induction text generalizing n with
  | nil => rfl
  | cons c text ih =>
    rw [foldl_cons, map_cons, foldl_cons, ← ih]
    rfl

theorem number_eq_some (h : ∀ c ∈ text, c.isDigit = true) (hne : text ≠ []) :
    QString.number text = some (decimal text : ℤ) := by
  have hsign {sign : Char} (hdigit : sign.isDigit = false) : text.head? ≠ some sign := by
    intro hhead
    rw [h sign (mem_of_mem_head? hhead)] at hdigit
    cases hdigit
  have hminus : text.head? ≠ some '-' := hsign (by decide)
  have hplus : text.head? ≠ some '+' := hsign (by decide)
  rw [number]
  simp only [hminus, hplus, or_false, if_false]
  rw [if_pos ⟨hne, all_eq_true.2 h⟩]
  exact congrArg some (cast_foldl text 0)

theorem decimal_lt (h : IsDigits lo hi text) : decimal text < 10 ^ hi := by
  have hlt : decimal text < 10 ^ (text.map fun c => c.toNat - 48).length := by
    refine Radix.value_lt fun d hd => ?_
    obtain ⟨c, hc, rfl⟩ := mem_map.1 hd
    have := toNat_of_isDigit (h.1 c hc)
    omega
  rw [length_map] at hlt
  exact hlt.trans_le (Nat.pow_le_pow_right (by decide) h.2.2)

theorem toInt_eq_some (h : IsDigits lo hi text) (hlo : 0 < lo) (hhi : hi ≤ 4) :
    QString.toInt text = some (decimal text : ℤ) := by
  have hne : text ≠ [] := length_pos_iff.1 (hlo.trans_le h.2.1)
  have hlt : decimal text < 10 ^ 4 := (decimal_lt h).trans_le (Nat.pow_le_pow_right (by decide) hhi)
  rw [toInt, trimmed_of_isDigits h.1, number_eq_some h.1 hne]
  refine Option.filter_eq_some_iff.2 ⟨rfl, ?_⟩
  rw [decide_eq_true_eq]
  omega

/-! ### Zones -/

theorem matches_offsetRx_iff : offsetRx.Matches text captures ↔
    ∃ sign hours minutes, (sign = '+' ∨ sign = '-') ∧ IsDigits 2 2 hours ∧ IsDigits 2 2 minutes ∧
      text = sign :: (hours ++ minutes) ∧ captures = [[sign], hours, minutes] := by
  constructor
  · rintro ⟨_, _, _, _, ⟨_, hone, rfl⟩, ⟨hours, _, _, _, h₁, ⟨minutes, _, _, _, h₂, ⟨rfl, rfl⟩, rfl, rfl⟩, rfl,
      rfl⟩, rfl, rfl⟩
    obtain ⟨⟨sign, rfl, hsign⟩, rfl⟩ := matches_one_iff.1 hone
    obtain ⟨hhours, rfl⟩ := matches_group_digits_iff.1 h₁
    obtain ⟨hminutes, rfl⟩ := matches_group_digits_iff.1 h₂
    exact ⟨sign, hours, minutes, by simpa using hsign, hhours, hminutes, by simp, rfl⟩
  · rintro ⟨sign, hours, minutes, hsign, hhours, hminutes, rfl, rfl⟩
    refine ⟨[sign], _, _, _, ⟨[], matches_one_iff.2 ⟨⟨sign, rfl, by simpa using hsign⟩, rfl⟩, rfl⟩, ?_, rfl,
      rfl⟩
    refine ⟨_, _, _, _, matches_group_digits_iff.2 ⟨hhours, rfl⟩, ?_, rfl, rfl⟩
    exact ⟨_, _, [], [], matches_group_digits_iff.2 ⟨hminutes, rfl⟩, ⟨rfl, rfl⟩, (append_nil _).symm, rfl⟩

theorem exec_offsetRx_iff (hpart : ∀ c ∈ part, isBlank c = false) {parts : List (List Char)} :
    offsetRx.exec atEnd part = some parts ↔
      ∃ sign hours minutes, (sign = '+' ∨ sign = '-') ∧ IsDigits 2 2 hours ∧ IsDigits 2 2 minutes ∧
        part = sign :: (hours ++ minutes) ∧ parts = [part, [sign], hours, minutes] := by
  have hunambiguous : Unambiguous offsetRx (atEnd · = true) :=
    unambiguous_many_fixed.group.concat_fixed
      (unambiguous_fixed_digits.concat_fixed unambiguous_fixed_digits.concat_singleton)
  constructor
  · intro h
    obtain ⟨t, captures, u, hmatches, hend, rfl, rfl⟩ := exists_matches_of_exec h
    obtain ⟨sign, hours, minutes, hsign, hhours, hminutes, rfl, rfl⟩ := matches_offsetRx_iff.1 hmatches
    obtain rfl | rfl := atEnd_iff.1 hend
    · exact ⟨sign, hours, minutes, hsign, hhours, hminutes, append_nil _, by rw [append_nil]⟩
    · have hblank := hpart '\n' (by simp)
      exact absurd hblank (by decide)
  · rintro ⟨sign, hours, minutes, hsign, hhours, hminutes, rfl, rfl⟩
    have hexec := exec_eq_some hunambiguous (matches_offsetRx_iff.2
      ⟨sign, hours, minutes, hsign, hhours, hminutes, rfl, rfl⟩) (atEnd_iff.2 (.inl rfl))
    rwa [append_nil] at hexec

theorem toNat_of_isAlpha (h : c.isAlpha = true) :
    (65 ≤ c.toNat ∧ c.toNat ≤ 90) ∨ (97 ≤ c.toNat ∧ c.toNat ≤ 122) := by
  simp only [isAlpha, isUpper, isLower, Bool.or_eq_true, Bool.and_eq_true,
    decide_eq_true_eq] at h
  obtain ⟨hlo, hhi⟩ | ⟨hlo, hhi⟩ := h
  · exact .inl ⟨UInt32.le_iff_toNat_le.1 hlo, UInt32.le_iff_toNat_le.1 hhi⟩
  · exact .inr ⟨UInt32.le_iff_toNat_le.1 hlo, UInt32.le_iff_toNat_le.1 hhi⟩

theorem isAlpha_of_toNat (h : (65 ≤ c.toNat ∧ c.toNat ≤ 90) ∨ (97 ≤ c.toNat ∧ c.toNat ≤ 122)) :
    c.isAlpha = true := by
  simp only [isAlpha, isUpper, isLower, Bool.or_eq_true, Bool.and_eq_true,
    decide_eq_true_eq]
  obtain ⟨hlo, hhi⟩ | ⟨hlo, hhi⟩ := h
  · exact .inl ⟨UInt32.le_iff_toNat_le.2 hlo, UInt32.le_iff_toNat_le.2 hhi⟩
  · exact .inr ⟨UInt32.le_iff_toNat_le.2 hlo, UInt32.le_iff_toNat_le.2 hhi⟩

theorem toLatin1_cons (c : Char) (text : List Char) : toLatin1 (c :: text) =
    (if c.toNat < 0x100 then [c.toNat.toUInt8] else if c.toNat < 0x10000 then [63] else [63, 63]) ++
      toLatin1 text := flatMap_cons ..

theorem isalpha_toUInt8 (h : c.toNat < 0x100) : isalpha c.toNat.toUInt8 = c.isAlpha := by
  have htoNat : c.toNat.toUInt8.toNat = c.toNat := by
    exact Nat.mod_eq_of_lt h
  rw [Bool.eq_iff_iff, isalpha, decide_eq_true_eq]
  simp only [le_iff_toNat_le, htoNat]
  exact ⟨isAlpha_of_toNat, toNat_of_isAlpha⟩

theorem any_toLatin1 (part : List Char) :
    (toLatin1 part).any (fun b => !isalpha b) = part.any fun c => !c.isAlpha := by
  have hlarge {c : Char} (h : ¬ c.toNat < 0x100) : c.isAlpha = false := by
    refine Bool.eq_false_iff.2 fun halpha => ?_
    have := toNat_of_isAlpha halpha
    omega
  have h63 : isalpha 63 = false := by decide
  induction part with
  | nil => rfl
  | cons c part ih =>
    rw [toLatin1_cons, any_append, any_cons, ih]
    congr 1
    split_ifs with hsmall hplane
    · rw [any_cons, any_nil, Bool.or_false, isalpha_toUInt8 hsmall]
    · rw [hlarge hsmall, any_cons, h63]
      rfl
    · rw [hlarge hsmall, any_cons, h63]
      rfl

theorem toLatin1_eq_iff {name : List Char} (h : ∀ c ∈ name, c.isAlpha = true) :
    toLatin1 part = toLatin1 name ↔ part = name := by
  refine ⟨fun heq => ?_, fun heq => by rw [heq]⟩
  induction name generalizing part with
  | nil =>
    cases part with
    | nil => rfl
    | cons c part =>
      rw [toLatin1_cons] at heq
      split_ifs at heq <;> cases heq
  | cons n name ih =>
    have hn := toNat_of_isAlpha (h n mem_cons_self)
    rw [toLatin1_cons, if_pos (by omega : n.toNat < 0x100)] at heq
    have h63 : (63 : UInt8) ≠ n.toNat.toUInt8 := by
      intro h63
      have hbyte := congrArg UInt8.toNat h63
      rw [Nat.toUInt8_eq, toNat_ofNat', Nat.mod_eq_of_lt (by omega)] at hbyte
      have h63 : (63 : UInt8).toNat = 63 := rfl
      omega
    cases part with
    | nil => cases heq
    | cons c part =>
      rw [toLatin1_cons] at heq
      split_ifs at heq with hsmall hplane
      · obtain ⟨hbyte, hrest⟩ := cons.inj heq
        have hc := congrArg UInt8.toNat hbyte
        rw [Nat.toUInt8_eq, Nat.toUInt8_eq, toNat_ofNat', toNat_ofNat', Nat.mod_eq_of_lt hsmall,
          Nat.mod_eq_of_lt (by omega)] at hc
        rw [toNat_inj.1 hc, ih (fun c hc => h c (mem_cons_of_mem _ hc)) hrest]
      · exact absurd (cons.inj heq).1 h63
      · exact absurd (cons.inj heq).1 h63

theorem zoneOffset_zones : ∀ zone ∈ zones, zoneOffset zone.1 = some (-zone.2 * 3600) := by decide

theorem isAlpha_of_mem_zones : ∀ zone ∈ zones, ∀ c ∈ zone.1, c.isAlpha = true := by
  have hall : zones.all (fun zone => zone.1.all isAlpha) = true := by decide
  exact fun zone hzone => all_eq_true.1 (all_eq_true.1 hall zone hzone)

theorem zoneOffset_of_notMem (hnone : offsetRx.exec atEnd part = none) (hpart : part ∉ zones.map Prod.fst) :
    zoneOffset part = if part.any fun c => !c.isAlpha then none else some 0 := by
  have hne (zone : List Char) (h : ∃ hours, (zone, hours) ∈ zones) : (toLatin1 part = toLatin1 zone) = False := by
    obtain ⟨hours, h⟩ := h
    refine eq_false fun heq => hpart ?_
    rw [(toLatin1_eq_iff (isAlpha_of_mem_zones _ h)).1 heq]
    exact mem_map_of_mem h
  rw [zoneOffset, hnone]
  simp only [hne "UT".toList ⟨0, by decide⟩, hne "GMT".toList ⟨0, by decide⟩, hne "EDT".toList ⟨4, by decide⟩,
    hne "EST".toList ⟨5, by decide⟩, hne "CDT".toList ⟨5, by decide⟩, hne "CST".toList ⟨6, by decide⟩,
    hne "MDT".toList ⟨6, by decide⟩, hne "MST".toList ⟨7, by decide⟩, hne "PDT".toList ⟨7, by decide⟩,
    hne "PST".toList ⟨8, by decide⟩, or_self, if_false, if_true, any_toLatin1]
  split_ifs with hmilitary hany
  · obtain ⟨hlength, hletter, -⟩ := hmilitary
    obtain ⟨b, hb⟩ := length_eq_one_iff.1 hlength
    have hfalse : (toLatin1 part).any (fun b => !isalpha b) = false := by
      rw [hb] at hletter ⊢
      rw [any_cons, any_nil, Bool.or_false, show isalpha b = true from hletter]
      rfl
    rw [any_toLatin1, hany] at hfalse
    cases hfalse
  · rfl
  · rfl
  · rfl

theorem eq_of_mem_zones : ∀ zone ∈ zones, ∀ zone' ∈ zones, zone.1 = zone'.1 → zone.2 = zone'.2 := by decide

theorem offset_cons_iff {sign : Char} {hours minutes : List Char} (hsign : sign = '+' ∨ sign = '-')
    (hhours : IsDigits 2 2 hours) (hminutes : IsDigits 2 2 minutes) :
    Offset (sign :: (hours ++ minutes)) offset ↔ decimal minutes ≤ 59 ∧
      (if sign = '-' then -(decimal hours * 3600 + decimal minutes * 60 : ℤ)
        else decimal hours * 3600 + decimal minutes * 60) = offset := by
  have hletter : sign.isAlpha = false := by obtain rfl | rfl := hsign <;> decide
  have hinj {hours' minutes' : List Char} (hhours' : IsDigits 2 2 hours')
      (heq : hours' ++ minutes' = hours ++ minutes) : hours' = hours ∧ minutes' = minutes :=
    append_inj heq ((Nat.le_antisymm hhours'.2.2 hhours'.2.1).trans
      (Nat.le_antisymm hhours.2.1 hhours.2.2))
  constructor
  · intro h
    generalize htext : sign :: (hours ++ minutes) = text at h
    cases h with
    | ahead hhours' _ hle =>
      obtain ⟨rfl, heq⟩ := cons.inj htext
      obtain ⟨rfl, rfl⟩ := hinj hhours' heq.symm
      exact ⟨hle, if_neg (by decide)⟩
    | behind hhours' _ hle =>
      obtain ⟨rfl, heq⟩ := cons.inj htext
      obtain ⟨rfl, rfl⟩ := hinj hhours' heq.symm
      exact ⟨hle, if_pos rfl⟩
    | named h =>
      have hsign := isAlpha_of_mem_zones _ h sign (by rw [← htext]; exact mem_cons_self)
      rw [hletter] at hsign
      cases hsign
    | other h =>
      have hsign := h sign (by rw [← htext]; exact mem_cons_self)
      rw [hletter] at hsign
      cases hsign
  · rintro ⟨hle, rfl⟩
    obtain rfl | rfl := hsign
    · exact .ahead hhours hminutes hle
    · exact .behind hhours hminutes hle

theorem zoneOffset_iff (hpart : ∀ c ∈ part, isBlank c = false) :
    zoneOffset part = some offset ↔ Offset part offset := by
  cases hexec : offsetRx.exec atEnd part with
  | some parts =>
    obtain ⟨sign, hours, minutes, hsign, hhours, hminutes, rfl, rfl⟩ := (exec_offsetRx_iff hpart).1 hexec
    rw [zoneOffset, hexec, offset_cons_iff hsign hhours hminutes]
    simp only [getD_cons_zero, getD_cons_succ, toInt_eq_some hhours Nat.two_pos (by decide),
      toInt_eq_some hminutes Nat.two_pos (by decide), cons.injEq, and_true]
    by_cases hle : decimal minutes ≤ 59
    · rw [if_neg (by omega), Option.some.injEq, and_iff_right hle]
    · rw [if_pos (by omega)]
      exact ⟨fun h => (nomatch h), fun h => absurd h.1 hle⟩
  | none =>
    have hsigned {sign hours minutes} (hsign : sign = '+' ∨ sign = '-') (hhours : IsDigits 2 2 hours)
        (hminutes : IsDigits 2 2 minutes) (heq : part = sign :: (hours ++ minutes)) : False := by
      rw [(exec_offsetRx_iff hpart).2 ⟨sign, hours, minutes, hsign, hhours, hminutes, heq, rfl⟩] at hexec
      cases hexec
    by_cases hmem : part ∈ zones.map Prod.fst
    · obtain ⟨zone, hzone, rfl⟩ := mem_map.1 hmem
      rw [zoneOffset_zones zone hzone, Option.some.injEq]
      constructor
      · rintro rfl
        exact .named hzone
      · generalize hname : zone.1 = name
        rintro (⟨hhours, hminutes, -⟩ | ⟨hhours, hminutes, -⟩ | hnamed | ⟨-, hnamed⟩)
        · exact (hsigned (.inl rfl) hhours hminutes hname).elim
        · exact (hsigned (.inr rfl) hhours hminutes hname).elim
        · rw [eq_of_mem_zones _ hzone _ hnamed hname]
        · exact absurd (hname ▸ hmem) hnamed
    · rw [zoneOffset_of_notMem hexec hmem]
      split_ifs with hany
      · obtain ⟨c, hc, hletter⟩ := any_eq_true.1 hany
        refine ⟨fun h => (nomatch h), fun h => ?_⟩
        cases h with
        | ahead hhours hminutes => exact (hsigned (.inl rfl) hhours hminutes rfl).elim
        | behind hhours hminutes => exact (hsigned (.inr rfl) hhours hminutes rfl).elim
        | named hnamed => exact absurd (mem_map_of_mem hnamed) hmem
        | other halpha =>
          rw [halpha c hc] at hletter
          cases hletter
      · have halpha : ∀ c ∈ part, c.isAlpha = true := by simpa using hany
        rw [Option.some.injEq]
        constructor
        · rintro rfl
          exact .other halpha hmem
        · intro h
          cases h with
          | ahead hhours hminutes => exact (hsigned (.inl rfl) hhours hminutes rfl).elim
          | behind hhours hminutes => exact (hsigned (.inr rfl) hhours hminutes rfl).elim
          | named hnamed => exact absurd (mem_map_of_mem hnamed) hmem
          | other => rfl

namespace Parts

variable {p : Parts}

/-- What the parts of a form are written with. -/
structure Regular (p : Parts) : Prop where
  day : IsDigits 1 2 p.day
  year : IsDigits 2 4 p.year
  hour : IsDigits 2 2 p.hour
  minute : IsDigits 2 2 p.minute
  second : p.second = [] ∨ IsDigits 2 2 p.second
  zone : ∀ zone ∈ p.zone, ∀ c ∈ zone, isBlank c = false

theorem Regular.of_form (h : Form text p) : p.Regular := by
  obtain ⟨sep, sep', hlayout, -⟩ | hasctime := h
  · obtain ⟨-, hday, -, -, -, hyear, -, hhour, hminute, hsecond, -, hzone⟩ := hlayout
    refine ⟨hday, hyear, hhour, hminute, hsecond.imp And.left And.left, ?_⟩
    rintro zone ⟨⟩
    exact hzone.1
  · obtain ⟨-, -, -, -, hday, -, hhour, hminute, hsecond, -, hyear⟩ := hasctime
    exact ⟨⟨hday.1, le_trans (by decide) hday.2.1, hday.2.2⟩, ⟨hyear.1, le_trans (by decide) hyear.2.1, hyear.2.2⟩,
      hhour, hminute, .inr hsecond, fun zone hzone => nomatch hzone⟩

instance : Decidable p.TimeInRange := inferInstanceAs (Decidable (_ ∧ _ ∧ _))

theorem dateExists_iff : p.DateExists ↔ p.date.isValid = true := by
  refine ⟨And.right, fun h => ⟨?_, h⟩⟩
  rw [QDate.isValid, decide_eq_true_eq] at h
  have hmonth : (shortMonth.idxOf p.month : ℤ) + 1 ≤ 12 := h.2.2.1
  refine idxOf_lt_length_iff.1 ?_
  have hlength : shortMonth.length = 12 := rfl
  omega

theorem Regular.fullYear_eq (hp : p.Regular) : (if p.year.length < 4 then
    (decimal p.year : ℤ) + if p.year.length = 2 ∧ (decimal p.year : ℤ) < 50 then 2000 else 1900
    else decimal p.year) = p.fullYear := by
  have hlength := hp.year.2
  rw [fullYear]
  split_ifs <;> omega

theorem Regular.second_eq (hp : p.Regular) :
    (if p.second = [] then some 0 else QString.toInt p.second) = some (decimal p.second : ℤ) := by
  obtain hnil | hdigits := hp.second
  · rw [if_pos hnil, hnil]
    rfl
  · have hne : p.second ≠ [] := length_pos_iff.1 (Nat.two_pos.trans_le hdigits.2.1)
    rw [if_neg hne, toInt_eq_some hdigits Nat.two_pos (by decide)]

theorem utc_eq (hdate : p.DateExists) :
    QDateTime.utc p.date ⟨decimal p.hour, decimal p.minute,
      if (decimal p.second : ℤ) = 60 then 59 else decimal p.second⟩ =
      some ((p.date.toJulianDay - 2440588) * 86400 + if p.TimeInRange then p.seconds else 0) := by
  have hvalid : (QTime.isValid ⟨decimal p.hour, decimal p.minute,
      if (decimal p.second : ℤ) = 60 then 59 else decimal p.second⟩ = true) ↔ p.TimeInRange := by
    rw [QTime.isValid, decide_eq_true_eq, TimeInRange]
    dsimp only
    split_ifs <;> omega
  have hseconds : p.seconds = decimal p.hour * 3600 + decimal p.minute * 60 +
      if (decimal p.second : ℤ) = 60 then 59 else (decimal p.second : ℤ) := by
    rw [seconds]
    split_ifs <;> omega
  rw [QDateTime.utc, if_pos hdate.2, hseconds]
  simp only [hvalid]

/-- Where the source gets to, for a date that exists. -/
def reached (p : Parts) (offset : ℤ) : ℤ :=
  (p.date.toJulianDay - 2440588) * 86400 + (if p.TimeInRange then p.seconds else 0) - offset

theorem Denotes.eq_reached {instant : ℤ} (h : p.Denotes instant) :
    ∃ offset, p.HasOffset offset ∧ p.LeapAtEnd offset ∧ p.DateExists ∧ p.TimeInRange ∧ p.WeekdayNamed ∧
      p.reached offset = instant := by
  obtain ⟨hweekday, hdate, htime, hoffset, hleap⟩ := h
  exact ⟨_, hoffset, hleap, hdate, htime, hweekday, by rw [reached, if_pos htime]⟩

end Parts

section Convert

variable {p : Parts} {n : Indexes} {parts : List (List Char)} (fallbackDate : QDateTime)

variable (p n parts) in
/-- The parts stand at the indexes among the captured texts. -/
structure Located : Prop where
  day : parts.getD n.nday [] = p.day
  month : parts.getD n.nmonth [] = p.month
  year : parts.getD n.nyear [] = p.year
  hour : parts.getD n.nhour [] = p.hour
  minute : parts.getD n.nmin [] = p.minute
  second : parts.getD n.nsec [] = p.second
  zone : ∀ offset, (if parts.length > 10 then zoneOffset (parts.getD 10 []) else some 0) = some offset ↔
    p.HasOffset offset

theorem convert_of_hasOffset (hlocated : Located p n parts) (hp : p.Regular) (hoffset : p.HasOffset offset) :
    (p.DateExists ∧ p.LeapAtEnd offset ∧ convert n parts fallbackDate = some (p.reached offset)) ∨
      (¬ (p.DateExists ∧ p.LeapAtEnd offset) ∧ convert n parts fallbackDate = fallbackDate) := by
  have hconvert : convert n parts fallbackDate =
      if !p.date.isValid then fallbackDate
      else if ((QDateTime.utc p.date ⟨decimal p.hour, decimal p.minute,
          if (decimal p.second : ℤ) = 60 then 59 else decimal p.second⟩).addSecs (-offset)).isNone then
        fallbackDate
      else if (decimal p.second : ℤ) = 60 ∧
          ((decimal p.hour : ℤ) * 3600 + decimal p.minute * 60 + 60 - offset + 86400 * 5) % 86400 ≠ 0 then
        fallbackDate
      else (QDateTime.utc p.date ⟨decimal p.hour, decimal p.minute,
          if (decimal p.second : ℤ) = 60 then 59 else decimal p.second⟩).addSecs (-offset) := by
    rw [convert]
    simp only [hlocated.day, hlocated.month, hlocated.year, hlocated.hour, hlocated.minute, hlocated.second,
      (hlocated.zone offset).2 hoffset, toInt_eq_some hp.day Nat.one_pos (by decide),
      toInt_eq_some hp.year Nat.two_pos le_rfl, toInt_eq_some hp.hour Nat.two_pos (by decide),
      toInt_eq_some hp.minute Nat.two_pos (by decide), hp.second_eq, hp.fullYear_eq]
    rfl
  rw [hconvert]
  by_cases hdate : p.DateExists
  · rw [Parts.utc_eq hdate, if_neg (by rw [hdate.2]; exact Bool.false_ne_true), QDateTime.addSecs,
      Option.map_some, if_neg (by exact Bool.false_ne_true)]
    by_cases hleap : p.LeapAtEnd offset
    · refine .inl ⟨hdate, hleap, ?_⟩
      rw [if_neg]
      · rfl
      · rintro ⟨hsixty, hne⟩
        have hmod := hleap (by omega)
        omega
    · refine .inr ⟨fun h => hleap h.2, if_pos ?_⟩
      rw [Parts.LeapAtEnd, not_forall] at hleap
      obtain ⟨hsixty, hne⟩ := hleap
      exact ⟨by omega, by omega⟩
  · refine .inr ⟨fun h => hdate h.1, if_pos ?_⟩
    rw [Parts.dateExists_iff, Bool.not_eq_true] at hdate
    rw [hdate]
    rfl

theorem convert_of_not_hasOffset (hlocated : Located p n parts) (hp : p.Regular)
    (hoffset : ∀ offset, ¬ p.HasOffset offset) : convert n parts fallbackDate = none := by
  have hnone : (if parts.length > 10 then zoneOffset (parts.getD 10 []) else some 0) = none :=
    Option.eq_none_iff_forall_ne_some.2 fun offset h => hoffset offset ((hlocated.zone offset).1 h)
  rw [convert]
  simp only [hlocated.day, hlocated.year, hlocated.hour, hlocated.minute, hlocated.second,
    toInt_eq_some hp.day Nat.one_pos (by decide), toInt_eq_some hp.year Nat.two_pos le_rfl,
    toInt_eq_some hp.hour Nat.two_pos (by decide), toInt_eq_some hp.minute Nat.two_pos (by decide),
    hp.second_eq, hnone]

end Convert

/-! ### The whole text -/

variable {string : List Char} {p p' : Parts} {sep sep' : List Char}

theorem Layout.exists_zone (h : Layout text p sep sep') :
    ∃ zone, p.zone = some zone ∧ (∀ c ∈ zone, isBlank c = false) ∧ zone ≠ [] := by
  obtain ⟨-, -, -, -, -, -, -, -, -, -, -, hzone⟩ := h
  exact ⟨_, rfl, hzone⟩

theorem AsctimeForm.zone_eq (h : AsctimeForm text p) : p.zone = none := by
  obtain ⟨-⟩ := h
  rfl

theorem Layout.located (h : Layout text p sep sep') :
    Located p ⟨6, 4, 2, 7, 8, 9⟩ (text :: captured p sep sep') := by
  refine ⟨rfl, rfl, rfl, rfl, rfl, rfl, fun offset => ?_⟩
  obtain ⟨zone, hzone, hblank, -⟩ := h.exists_zone
  have hpart : (text :: captured p sep sep').getD 10 [] = zone := congrArg (·.getD []) hzone
  have hlength : (text :: captured p sep sep').length > 10 := Nat.lt_succ_self 10
  rw [if_pos hlength, hpart, zoneOffset_iff hblank, Parts.HasOffset, hzone]

theorem AsctimeForm.located (h : AsctimeForm text p) : Located p ⟨7, 2, 3, 4, 5, 6⟩
    [text, p.weekday, p.month, p.day, p.hour, p.minute, p.second, p.year] := by
  refine ⟨rfl, rfl, rfl, rfl, rfl, rfl, fun offset => ?_⟩
  rw [if_neg (by simp), Option.some.injEq, Parts.HasOffset, h.zone_eq]
  exact eq_comm

theorem Layout.ne_nil (h : Layout text p sep sep') : text ≠ [] := by
  obtain ⟨-, -, -, -, -, -, -, -, -, -, -, hzone⟩ := h
  intro hnil
  simp at hnil

theorem AsctimeForm.ne_nil (h : AsctimeForm text p) : text ≠ [] := by
  obtain ⟨-⟩ := h
  intro hnil
  simp at hnil

theorem parseDate_of_form (h : Form (QString.trimmed string) p) :
    ∃ n parts, Located p n parts ∧ ∀ fallbackDate, parseDate string fallbackDate = convert n parts fallbackDate := by
  have htrimmed := trimmed_trimmed string
  obtain ⟨sep, sep', hlayout, hdash⟩ | hasctime := h
  · refine ⟨_, _, hlayout.located, fun fallbackDate => ?_⟩
    have hequal : (([sep].getD 0 [] == ['-']) != ([sep'].getD 0 [] == ['-'])) = false := by
      rw [bne_eq_false_iff_eq, Bool.eq_iff_iff, beq_iff_eq, beq_iff_eq]
      exact hdash
    rw [parseDate, if_neg hlayout.ne_nil, (exec_rfcRx_iff htrimmed).2 ⟨p, sep, sep', hlayout, rfl⟩]
    exact if_neg (by rw [Bool.not_eq_true]; exact hequal)
  · refine ⟨_, _, hasctime.located, fun fallbackDate => ?_⟩
    rw [parseDate, if_neg hasctime.ne_nil, exec_rfcRx_eq_none hasctime,
      (exec_asctimeRx_iff htrimmed).2 ⟨p, hasctime, rfl⟩]

theorem parseDate_of_not_form (h : ∀ p, ¬ Form (QString.trimmed string) p) (fallbackDate : QDateTime) :
    parseDate string fallbackDate = fallbackDate := by
  have htrimmed := trimmed_trimmed string
  rw [parseDate]
  split_ifs with hnil
  · rfl
  · cases hrfc : rfcRx.exec atEnd (trimmed string) with
    | some parts =>
      obtain ⟨p, sep, sep', hlayout, rfl⟩ := (exec_rfcRx_iff htrimmed).1 hrfc
      refine if_pos ?_
      by_contra hequal
      rw [Bool.not_eq_true, bne_eq_false_iff_eq, Bool.eq_iff_iff, beq_iff_eq, beq_iff_eq] at hequal
      exact h p (.inl ⟨sep, sep', hlayout, hequal⟩)
    | none =>
      cases hasctime : asctimeRx.exec atEnd (trimmed string) with
      | some parts =>
        obtain ⟨p, hform, -⟩ := (exec_asctimeRx_iff htrimmed).1 hasctime
        exact absurd (.inr hform) (h p)
      | none => rfl

theorem Form.unique (htrimmed : QString.trimmed text = text) (h : Form text p) (h' : Form text p') : p = p' := by
  obtain ⟨sep, sep', hlayout, -⟩ | hasctime := h <;> obtain ⟨sep₁, sep₁', hlayout', -⟩ | hasctime' := h'
  · have hexec := (exec_rfcRx_iff htrimmed).2 ⟨p, sep, sep', hlayout, rfl⟩
    rw [(exec_rfcRx_iff htrimmed).2 ⟨p', sep₁, sep₁', hlayout', rfl⟩] at hexec
    have hcaptured := (cons.inj (Option.some.inj hexec)).2
    rw [captured, captured] at hcaptured
    simp only [cons.injEq, and_true] at hcaptured
    obtain ⟨hweekday, hday, -, hmonth, -, hyear, hhour, hminute, hsecond, hzone⟩ := hcaptured
    have hzones : p'.zone = p.zone := by
      obtain ⟨zone, hp, -⟩ := hlayout.exists_zone
      obtain ⟨zone', hp', -⟩ := hlayout'.exists_zone
      rw [hp, hp'] at hzone ⊢
      exact congrArg some hzone
    cases p
    cases p'
    simp_all
  · have hnone := exec_rfcRx_eq_none hasctime'
    rw [(exec_rfcRx_iff htrimmed).2 ⟨p, sep, sep', hlayout, rfl⟩] at hnone
    cases hnone
  · have hnone := exec_rfcRx_eq_none hasctime
    rw [(exec_rfcRx_iff htrimmed).2 ⟨p', sep₁, sep₁', hlayout', rfl⟩] at hnone
    cases hnone
  · have hexec := (exec_asctimeRx_iff htrimmed).2 ⟨p, hasctime, rfl⟩
    rw [(exec_asctimeRx_iff htrimmed).2 ⟨p', hasctime', rfl⟩] at hexec
    have hcaptured := Option.some.inj hexec
    simp only [cons.injEq, and_true, true_and] at hcaptured
    have hzones : p'.zone = p.zone := by rw [hasctime.zone_eq, hasctime'.zone_eq]
    cases p
    cases p'
    simp_all

theorem denotes_iff_of_form (h : Form (QString.trimmed string) p) {instant : ℤ} :
    Denotes string instant ↔ p.Denotes instant := by
  constructor
  · rintro ⟨p', h', hdenotes⟩
    rwa [Form.unique (trimmed_trimmed string) h h']
  · intro hdenotes
    exact ⟨p, h, hdenotes⟩

theorem Parts.HasOffset.unique {offset offset' : ℤ} (hp : p.Regular) (h : p.HasOffset offset)
    (h' : p.HasOffset offset') : offset = offset' := by
  rw [HasOffset] at h h'
  cases hzone : p.zone with
  | none =>
    rw [hzone] at h h'
    exact h.trans h'.symm
  | some zone =>
    rw [hzone] at h h'
    have hblank := hp.zone zone hzone
    exact Option.some.inj (((zoneOffset_iff hblank).2 h).symm.trans ((zoneOffset_iff hblank).2 h'))

/-- **A text is parsed right** exactly if what has the form of a date is one: its zone is one, and the time
and the weekday are, unless there is no such date or it is a leap second at another time. -/
theorem right_iff_inOrder (string : List Char) : Right string ↔ InOrder string := by
  constructor
  · intro hright p hform
    obtain ⟨n, parts, hlocated, hparse⟩ := parseDate_of_form hform
    have hp := Parts.Regular.of_form hform
    -- What is returned does not depend on the date to fall back to, which it had to be otherwise.
    have hdenotes {result : QDateTime} (h : ∀ fallback : ℤ, parseDate string (some fallback) = result) :
        ∃ instant, result = some instant ∧ p.Denotes instant := by
      by_cases hexists : ∃ instant, Denotes string instant
      · obtain ⟨instant, hinstant⟩ := hexists
        exact ⟨instant, (h 0).symm.trans ((hright 0).1 instant hinstant),
          (denotes_iff_of_form hform).1 hinstant⟩
      · have hzero := (h 0).symm.trans ((hright 0).2 hexists)
        have hone := (h 1).symm.trans ((hright 1).2 hexists)
        cases hzero.symm.trans hone
    by_cases hoffset : ∃ offset, p.HasOffset offset
    · obtain ⟨offset, hoffset⟩ := hoffset
      refine ⟨offset, hoffset, fun hdate hleap => ?_⟩
      have hreached (fallback : ℤ) : parseDate string (some fallback) = some (p.reached offset) := by
        rw [hparse]
        obtain ⟨-, -, h⟩ | ⟨hnot, -⟩ := convert_of_hasOffset (some fallback) hlocated hp hoffset
        · exact h
        · exact absurd ⟨hdate, hleap⟩ hnot
      obtain ⟨instant, -, hinstant⟩ := hdenotes hreached
      obtain ⟨-, -, -, -, htime, hweekday, -⟩ := hinstant.eq_reached
      exact ⟨htime, hweekday⟩
    · obtain ⟨instant, hnone, -⟩ := hdenotes fun fallback => (hparse (some fallback)).trans
        (convert_of_not_hasOffset (some fallback) hlocated hp (not_exists.1 hoffset))
      cases hnone
  · intro hinOrder fallback
    by_cases hform : ∃ p, Form (trimmed string) p
    · obtain ⟨p, hform⟩ := hform
      obtain ⟨n, parts, hlocated, hparse⟩ := parseDate_of_form hform
      have hp := Parts.Regular.of_form hform
      obtain ⟨offset, hoffset, hinRange⟩ := hinOrder p hform
      rw [hparse]
      obtain ⟨hdate, hleap, hconvert⟩ | ⟨hnot, hconvert⟩ :=
        convert_of_hasOffset (some fallback) hlocated hp hoffset
      · obtain ⟨htime, hweekday⟩ := hinRange hdate hleap
        have hdenotes : p.Denotes (p.reached offset) := by
          rw [Parts.reached, if_pos htime]
          exact .mk hweekday hdate htime hoffset hleap
        refine ⟨fun instant hinstant => ?_, fun hnone => ?_⟩
        · obtain ⟨offset', hoffset', -, -, -, -, rfl⟩ :=
            ((denotes_iff_of_form hform).1 hinstant).eq_reached
          rw [hconvert, hoffset.unique hp hoffset']
        · exact absurd ⟨_, (denotes_iff_of_form hform).2 hdenotes⟩ hnone
      · refine ⟨fun instant hinstant => ?_, fun _ => hconvert⟩
        obtain ⟨offset', hoffset', hleap, hdate, -⟩ := ((denotes_iff_of_form hform).1 hinstant).eq_reached
        rw [hoffset'.unique hp hoffset] at hleap
        exact absurd ⟨hdate, hleap⟩ hnot
    · refine ⟨?_, fun _ => parseDate_of_not_form (not_exists.1 hform) _⟩
      rintro instant ⟨p, h, -⟩
      exact absurd ⟨p, h⟩ hform

/-- An offset of sixty minutes is none: for that zone, what is returned is no date. -/
theorem not_right_sixtyMinutes : ¬ Right "Wed, 01 Jan 2020 00:00:00 +0160".toList := by
  intro h
  have hnone : parseDate "Wed, 01 Jan 2020 00:00:00 +0160".toList (some 0) = none := by decide
  by_cases hexists : ∃ instant, Denotes "Wed, 01 Jan 2020 00:00:00 +0160".toList instant
  · obtain ⟨instant, hinstant⟩ := hexists
    cases hnone.symm.trans ((h 0).1 instant hinstant)
  · cases hnone.symm.trans ((h 0).2 hexists)

end QBittorrent.RssDate
