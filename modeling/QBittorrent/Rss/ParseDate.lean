import QBittorrent.Base.Text
import QBittorrent.Lib.Radix
import QBittorrent.Lib.Regex

/-!
# Dates of articles

The dates of articles are texts that follow the rules for mails, or older ones.  Two regular expressions
tell their parts, from which an instant is computed; where that fails, there is a date to fall back to.

* `parseDate` : the function of the source.
-/

namespace QBittorrent.RssDate

/-! ### Dates and times -/

structure QDate where
  year : ℤ
  month : ℤ
  day : ℤ

namespace QDate

def isLeapYear (year : ℤ) : Bool := year % 4 = 0 ∧ year % 100 ≠ 0 ∨ year % 400 = 0

def daysInMonth (month year : ℤ) : ℤ :=
  if month = 2 then if isLeapYear year then 29 else 28
  else if month = 4 ∨ month = 6 ∨ month = 9 ∨ month = 11 then 30
  else 31

/-- `QDate::isValid`; there is no year 0. -/
def isValid (date : QDate) : Bool :=
  date.year ≠ 0 ∧ 1 ≤ date.month ∧ date.month ≤ 12 ∧ 1 ≤ date.day ∧
    date.day ≤ daysInMonth date.month date.year

def toJulianDay (date : QDate) : ℤ :=
  let a := if date.month < 3 then 1 else 0
  let y := date.year + 4800 - a
  let m := date.month + 12 * a - 3
  date.day + (153 * m + 2) / 5 - 32045 + 365 * y + y / 4 - y / 100 + y / 400

end QDate

structure QTime where
  hour : ℤ
  minute : ℤ
  second : ℤ

def QTime.isValid (time : QTime) : Bool :=
  (0 ≤ time.hour ∧ time.hour < 24) ∧ (0 ≤ time.minute ∧ time.minute < 60) ∧
    0 ≤ time.second ∧ time.second < 60

/-- The seconds since the epoch, if it is valid. -/
abbrev QDateTime := Option ℤ

/-- A valid date at a time in UTC, or at midnight if the time is not valid. -/
def QDateTime.utc (date : QDate) (time : QTime) : QDateTime :=
  if date.isValid then
    some ((date.toJulianDay - 2440588) * 86400 +
      if time.isValid then time.hour * 3600 + time.minute * 60 + time.second else 0)
  else none

def QDateTime.addSecs (dateTime : QDateTime) (secs : ℤ) : QDateTime := dateTime.map (· + secs)

/-! ### The expressions -/

def shortDay : List (List Char) :=
  ["Mon".toList, "Tue".toList, "Wed".toList, "Thu".toList, "Fri".toList, "Sat".toList, "Sun".toList]

def longDay : List (List Char) :=
  ["Monday".toList, "Tuesday".toList, "Wednesday".toList, "Thursday".toList, "Friday".toList,
    "Saturday".toList, "Sunday".toList]

def shortMonth : List (List Char) :=
  ["Jan".toList, "Feb".toList, "Mar".toList, "Apr".toList, "May".toList, "Jun".toList, "Jul".toList,
    "Aug".toList, "Sep".toList, "Oct".toList, "Nov".toList, "Dec".toList]

/-- The class `\s`. -/
def isBlank (c : Char) : Bool :=
  c = ' ' || c = '\t' || c = '\n' || c = '\x0b' || c = '\x0c' || c = '\r'

/-- What `$` stands for. -/
def atEnd (text : List Char) : Bool := text = [] || text = ['\n']

open Regex in
/-- `[A-Z][a-z]+` -/
def word : Regex Char := concat [one Char.isUpper, plus Char.isLower]

open Regex in
def digits (min max : ℕ) : Regex Char := many Char.isDigit min (some max)

open Regex in
def lit (c : Char) : Regex Char := one (· == c)

open Regex in
/-- `(\s+|-)` -/
def separator : Regex Char := group (alt (plus isBlank) (lit '-'))

open Regex in
/-- The forms of mails, and `"Weekday, DD-Mon-YY HH:MM:SS ±hhmm"`. -/
def rfcRx : Regex Char := concat [
  optional (concat [group word, lit ',', star isBlank]),
  group (digits 1 2), separator, group (plus fun c => !(c == '-' || isBlank c)), separator,
  group (digits 2 4), plus isBlank, group (digits 2 2), lit ':', group (digits 2 2),
  optional (concat [lit ':', group (digits 2 2)]), plus isBlank, group (plus fun c => !isBlank c)]

open Regex in
/-- The form `"Wdy Mon DD HH:MM:SS YYYY"`. -/
def asctimeRx : Regex Char := concat [
  group word, plus isBlank, group (plus fun c => !isBlank c), plus isBlank, group (digits 2 2),
  plus isBlank, group (digits 2 2), lit ':', group (digits 2 2), lit ':', group (digits 2 2),
  plus isBlank, group (digits 4 4)]

open Regex in
/-- An offset `±hhmm`. -/
def offsetRx : Regex Char := concat [
  group (one fun c => c == '+' || c == '-'), group (digits 2 2), group (digits 2 2)]

/-! ### The source -/

/-- `toLatin1`; what is not in Latin-1 becomes a question mark for each code unit. -/
def toLatin1 (text : List Char) : List UInt8 :=
  text.flatMap fun c =>
    if c.toNat < 0x100 then [c.toNat.toUInt8] else if c.toNat < 0x10000 then [63] else [63, 63]

/-- `isalpha` of the C locale. -/
def isalpha (b : UInt8) : Bool := (65 ≤ b ∧ b ≤ 90) ∨ (97 ≤ b ∧ b ≤ 122)

def toupper (b : UInt8) : UInt8 := if 97 ≤ b ∧ b ≤ 122 then b - 32 else b

/-- The offset of a zone in seconds; where there is none, the source returns no valid date. -/
def zoneOffset (part : List Char) : Option ℤ :=
  match offsetRx.exec atEnd part with
  | some parts =>
    match QString.toInt (parts.getD 2 []), QString.toInt (parts.getD 3 []) with
    | some hours, some offsetMin =>
      if offsetMin > 59 then none
      else
        let offset := hours * 3600 + offsetMin * 60
        some (if parts.getD 1 [] = ['-'] then -offset else offset)
    | _, _ => none
  | none =>
    let zone := toLatin1 part
    if zone.length = 1 ∧ isalpha (zone.headD 0) ∧ toupper (zone.headD 0) ≠ 74 then some 0
    else if zone = toLatin1 "UT".toList ∨ zone = toLatin1 "GMT".toList then some 0
    else
      let offset : ℤ :=
        if zone = toLatin1 "EDT".toList then -4 * 3600
        else if zone = toLatin1 "EST".toList ∨ zone = toLatin1 "CDT".toList then -5 * 3600
        else if zone = toLatin1 "CST".toList ∨ zone = toLatin1 "MDT".toList then -6 * 3600
        else if zone = toLatin1 "MST".toList ∨ zone = toLatin1 "PDT".toList then -7 * 3600
        else if zone = toLatin1 "PST".toList then -8 * 3600
        else 0
      if offset = 0 then if zone.any fun b => !isalpha b then none else some 0
      else some offset

/-- The indexes within the captured texts. -/
structure Indexes where
  nyear : ℕ
  nmonth : ℕ
  nday : ℕ
  nhour : ℕ
  nmin : ℕ
  nsec : ℕ

/-- What is computed from the captured texts.  The weekday is looked up too, but then it is not used. -/
def convert (n : Indexes) (parts : List (List Char)) (fallbackDate : QDateTime) : QDateTime :=
  match QString.toInt (parts.getD n.nday []), QString.toInt (parts.getD n.nyear []),
    QString.toInt (parts.getD n.nhour []), QString.toInt (parts.getD n.nmin []) with
  | some day, some year, some hour, some minute =>
    match if parts.getD n.nsec [] = [] then some 0 else QString.toInt (parts.getD n.nsec []) with
    | none => fallbackDate
    | some second =>
      let leapSecond := second = 60
      let second := if leapSecond then 59 else second
      let month : ℤ := shortMonth.idxOf (parts.getD n.nmonth [])
      let i := (parts.getD n.nyear []).length
      let year := if i < 4 then year + if i = 2 ∧ year < 50 then 2000 else 1900 else year
      match if parts.length > 10 then zoneOffset (parts.getD 10 []) else some 0 with
      | none => none
      | some offset =>
        let qDate : QDate := ⟨year, month + 1, day⟩
        if !qDate.isValid then fallbackDate
        else
          let result := (QDateTime.utc qDate ⟨hour, minute, second⟩).addSecs (-offset)
          if result.isNone then fallbackDate
          else if leapSecond ∧ (hour * 3600 + minute * 60 + 60 - offset + 86400 * 5) % 86400 ≠ 0 then
            fallbackDate
          else result
  | _, _, _, _ => fallbackDate

def parseDate (string : List Char) (fallbackDate : QDateTime) : QDateTime :=
  let str := QString.trimmed string
  if str = [] then fallbackDate
  else
    match rfcRx.exec atEnd str with
    | some parts =>
      let h1 := parts.getD 3 [] == ['-']
      let h2 := parts.getD 5 [] == ['-']
      if h1 != h2 then fallbackDate
      else convert ⟨6, 4, 2, 7, 8, 9⟩ parts fallbackDate
    | none =>
      match asctimeRx.exec atEnd str with
      | some parts => convert ⟨7, 2, 3, 4, 5, 6⟩ parts fallbackDate
      | none => fallbackDate

/-! ### What is asked of it -/

/-- What the parts of a date are written as; the weekday and the second may be empty. -/
structure Parts where
  weekday : List Char
  day : List Char
  month : List Char
  year : List Char
  hour : List Char
  minute : List Char
  second : List Char
  zone : Option (List Char)

def IsDigits (min max : ℕ) (text : List Char) : Prop :=
  (∀ c ∈ text, c.isDigit = true) ∧ min ≤ text.length ∧ text.length ≤ max

def IsBlanks (text : List Char) : Prop := (∀ c ∈ text, isBlank c = true) ∧ text ≠ []

/-- A capital and small letters. -/
def IsWord (text : List Char) : Prop :=
  ∃ c cs, text = c :: cs ∧ c.isUpper = true ∧ (∀ c ∈ cs, c.isLower = true) ∧ cs ≠ []

def IsFront (weekday front : List Char) : Prop :=
  (weekday = [] ∧ front = []) ∨
    (IsWord weekday ∧ ∃ gap, (∀ c ∈ gap, isBlank c = true) ∧ front = weekday ++ ',' :: gap)

/-- `:SS` -/
def IsSeconds (second tail : List Char) : Prop :=
  (second = [] ∧ tail = []) ∨ (IsDigits 2 2 second ∧ tail = ':' :: second)

def IsSeparator (text : List Char) : Prop := text = ['-'] ∨ IsBlanks text

/-- `Weekday, DD Mon YYYY HH:MM:SS zone`, with these separators between the parts of the date. -/
inductive Layout : List Char → Parts → List Char → List Char → Prop
  | mk {weekday front day sep month sep' year gap hour minute second tail gap' zone}
      (hfront : IsFront weekday front) (hday : IsDigits 1 2 day) (hsep : IsSeparator sep)
      (hmonth : (∀ c ∈ month, c ≠ '-' ∧ isBlank c = false) ∧ month ≠ []) (hsep' : IsSeparator sep')
      (hyear : IsDigits 2 4 year) (hgap : IsBlanks gap) (hhour : IsDigits 2 2 hour)
      (hminute : IsDigits 2 2 minute) (hsecond : IsSeconds second tail) (hgap' : IsBlanks gap')
      (hzone : (∀ c ∈ zone, isBlank c = false) ∧ zone ≠ []) :
      Layout (front ++ (day ++ (sep ++ (month ++ (sep' ++ (year ++ (gap ++ (hour ++ (':' :: (minute ++
        (tail ++ (gap' ++ zone))))))))))))
        ⟨weekday, day, month, year, hour, minute, second, some zone⟩ sep sep'

/-- `Wdy Mon DD HH:MM:SS YYYY` -/
inductive AsctimeForm : List Char → Parts → Prop
  | mk {weekday gap month gap₁ day gap₂ hour minute second gap₃ year}
      (hweekday : IsWord weekday) (hgap : IsBlanks gap)
      (hmonth : (∀ c ∈ month, isBlank c = false) ∧ month ≠ []) (hgap₁ : IsBlanks gap₁)
      (hday : IsDigits 2 2 day) (hgap₂ : IsBlanks gap₂) (hhour : IsDigits 2 2 hour)
      (hminute : IsDigits 2 2 minute) (hsecond : IsDigits 2 2 second) (hgap₃ : IsBlanks gap₃)
      (hyear : IsDigits 4 4 year) :
      AsctimeForm (weekday ++ (gap ++ (month ++ (gap₁ ++ (day ++ (gap₂ ++ (hour ++ (':' :: (minute ++
        (':' :: (second ++ (gap₃ ++ year))))))))))))
        ⟨weekday, day, month, year, hour, minute, second, none⟩

/-- The forms of a date: the separators are both dashes or none is. -/
def Form (text : List Char) (p : Parts) : Prop :=
  (∃ sep sep', Layout text p sep sep' ∧ (sep = ['-'] ↔ sep' = ['-'])) ∨ AsctimeForm text p

/-- The number that digits stand for. -/
def decimal (text : List Char) : ℕ := Radix.value 10 (text.map fun c => c.toNat - 48)

/-- The zones that have names, by the hours that they are behind. -/
def zones : List (List Char × ℤ) :=
  [("UT".toList, 0), ("GMT".toList, 0), ("EDT".toList, 4), ("EST".toList, 5), ("CDT".toList, 5),
    ("CST".toList, 6), ("MDT".toList, 6), ("MST".toList, 7), ("PDT".toList, 7), ("PST".toList, 8)]

/-- The offset of a zone: its hours and minutes, or what its name stands for.  Other names stand for no
offset. -/
inductive Offset : List Char → ℤ → Prop
  | ahead {hours minutes} (hhours : IsDigits 2 2 hours) (hminutes : IsDigits 2 2 minutes)
      (hle : decimal minutes ≤ 59) :
      Offset ('+' :: (hours ++ minutes)) (decimal hours * 3600 + decimal minutes * 60)
  | behind {hours minutes} (hhours : IsDigits 2 2 hours) (hminutes : IsDigits 2 2 minutes)
      (hle : decimal minutes ≤ 59) :
      Offset ('-' :: (hours ++ minutes)) (-(decimal hours * 3600 + decimal minutes * 60))
  | named {zone hours} (h : (zone, hours) ∈ zones) : Offset zone (-hours * 3600)
  | other {zone} (h : ∀ c ∈ zone, c.isAlpha = true) (hnamed : zone ∉ zones.map Prod.fst) : Offset zone 0

namespace Parts

variable (p : Parts)

def HasOffset (offset : ℤ) : Prop :=
  match p.zone with
  | none => offset = 0
  | some zone => Offset zone offset

/-- Years of two digits are from 1950 to 2049, those of three digits from 1900. -/
def fullYear : ℤ :=
  if p.year.length = 2 then if decimal p.year < 50 then 2000 + decimal p.year else 1900 + decimal p.year
  else if p.year.length = 3 then 1900 + decimal p.year
  else decimal p.year

def date : QDate := ⟨p.fullYear, shortMonth.idxOf p.month + 1, decimal p.day⟩

/-- The month has a name, and the day is one of the month. -/
def DateExists : Prop := p.month ∈ shortMonth ∧ p.date.isValid = true

def TimeInRange : Prop := decimal p.hour ≤ 23 ∧ decimal p.minute ≤ 59 ∧ decimal p.second ≤ 60

/-- A leap second is the last second of a day in UTC. -/
def LeapAtEnd (offset : ℤ) : Prop :=
  decimal p.second = 60 → ((decimal p.hour * 3600 + decimal p.minute * 60 + 60 - offset : ℤ)) % 86400 = 0

def WeekdayNamed : Prop := p.weekday = [] ∨ p.weekday ∈ shortDay ∨ p.weekday ∈ longDay

/-- A leap second is no instant of its own. -/
def seconds : ℤ :=
  decimal p.hour * 3600 + decimal p.minute * 60 + if decimal p.second = 60 then 59 else decimal p.second

/-- The instant that the parts denote. -/
inductive Denotes : Parts → ℤ → Prop
  | mk {p offset} (hweekday : p.WeekdayNamed) (hdate : p.DateExists) (htime : p.TimeInRange)
      (hoffset : p.HasOffset offset) (hleap : p.LeapAtEnd offset) :
      Denotes p ((p.date.toJulianDay - 2440588) * 86400 + p.seconds - offset)

/-- The zone is one; and where there is such a date, and no leap second at another time, the time and the
weekday are too. -/
def InOrder : Prop :=
  ∃ offset, p.HasOffset offset ∧ (p.DateExists → p.LeapAtEnd offset → p.TimeInRange ∧ p.WeekdayNamed)

end Parts

/-- A text denotes an instant. -/
def Denotes (string : List Char) (instant : ℤ) : Prop :=
  ∃ p, Form (QString.trimmed string) p ∧ p.Denotes instant

/-- A text is parsed to the instant that it denotes, and every other one to the date to fall back to. -/
def Right (string : List Char) : Prop :=
  ∀ fallback : ℤ, (∀ instant, Denotes string instant → parseDate string (some fallback) = some instant) ∧
    ((¬ ∃ instant, Denotes string instant) → parseDate string (some fallback) = some fallback)

def InOrder (string : List Char) : Prop := ∀ p, Form (QString.trimmed string) p → p.InOrder

end QBittorrent.RssDate
