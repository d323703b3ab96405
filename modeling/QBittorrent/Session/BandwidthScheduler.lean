import QBittorrent.Lib.Machine
import Mathlib.Algebra.Order.Ring.Int

/-!
# The bandwidth scheduler

At `start` and every thirty seconds the scheduler reads the clock and tells, when the answer has
changed, whether the alternative limits apply.  A period that starts later than it ends runs past
midnight; its tail belongs to the day on which it began.

* `isTimeForAlternative_eq_iff` : one reading;
* `follows_schedule_iff` : runs.
-/

namespace QBittorrent

/-- `Scheduler::Days`. -/
inductive Days where
  | everyDay
  | weekday
  | weekend
  | monday
  | tuesday
  | wednesday
  | thursday
  | friday
  | saturday
  | sunday

/-- The number of an enumerator. -/
def Days.toInt : Days → ℤ
  | everyDay => 0
  | weekday => 1
  | weekend => 2
  | monday => 3
  | tuesday => 4
  | wednesday => 5
  | thursday => 6
  | friday => 7
  | saturday => 8
  | sunday => 9

structure SchedulerSettings where
  startTime : ℕ
  endTime : ℕ
  days : Days

/-- The time of the day and the day of the week, from Monday as 1 to Sunday as 7. -/
structure ClockReading where
  now : ℕ
  day : ℤ
  one_le_day : 1 ≤ day
  day_le : day ≤ 7

namespace BandwidthScheduler

variable (settings : SchedulerSettings)

/-- The `switch` over the days: whether the answer is inverted. -/
def inverts (schedulerDays : Days) (day : ℤ) : Bool :=
  match schedulerDays with
  | .everyDay => true
  | .monday | .tuesday | .wednesday | .thursday | .friday | .saturday | .sunday =>
    let offset := Days.monday.toInt - 1
    let dayOfWeek := schedulerDays.toInt - offset
    decide (day = dayOfWeek)
  | .weekday => decide (day ≥ 1 ∧ day ≤ 5)
  | .weekend => decide (day = 6 ∨ day = 7)

def isTimeForAlternative (clock : ClockReading) : Bool :=
  let swapped := decide (settings.startTime > settings.endTime)
  let start := if swapped then settings.endTime else settings.startTime
  let finish := if swapped then settings.startTime else settings.endTime
  let alternative := swapped
  if start ≤ clock.now ∧ finish ≥ clock.now then
    if inverts settings.days clock.day then !alternative else alternative
  else alternative

end BandwidthScheduler

/-- The scheduler, with what it has told so far and the clock when it was last called. -/
structure BandwidthScheduler where
  lastAlternative : Bool := false
  timerActive : Bool := false
  emitted : List Bool := []
  clock : Option ClockReading := none

namespace BandwidthScheduler

variable (settings : SchedulerSettings)

inductive Event where
  | start (clock : ClockReading)
  | timeout (clock : ClockReading)

def Event.clock : Event → ClockReading
  | start clock => clock
  | timeout clock => clock

def start (s : BandwidthScheduler) (clock : ClockReading) : BandwidthScheduler where
  lastAlternative := isTimeForAlternative settings clock
  timerActive := true
  emitted := s.emitted ++ [isTimeForAlternative settings clock]
  clock := some clock

def onTimeout (s : BandwidthScheduler) (clock : ClockReading) : BandwidthScheduler :=
  let alternative := isTimeForAlternative settings clock
  if alternative ≠ s.lastAlternative then
    { s with lastAlternative := alternative, emitted := s.emitted ++ [alternative],
             clock := some clock }
  else { s with clock := some clock }

def next (s : BandwidthScheduler) : Event → BandwidthScheduler
  | .start clock => start settings s clock
  | .timeout clock => onTimeout settings s clock

/-- The timer runs from the first start on. -/
def Possible (s : BandwidthScheduler) : Event → Prop
  | .start _ => True
  | .timeout _ => s.timerActive = true

instance (s : BandwidthScheduler) : DecidablePred s.Possible
  | .start _ => isTrue trivial
  | .timeout _ => inferInstanceAs (Decidable (_ = true))

def machine : Machine BandwidthScheduler Event := Machine.guarded Possible (next settings)

/-! ### The schedule -/

/-- The days that the setting stands for. -/
def Selected : Days → ℤ → Prop
  | .everyDay, _ => True
  | .weekday, day => 1 ≤ day ∧ day ≤ 5
  | .weekend, day => day = 6 ∨ day = 7
  | .monday, day => day = 1
  | .tuesday, day => day = 2
  | .wednesday, day => day = 3
  | .thursday, day => day = 4
  | .friday, day => day = 5
  | .saturday, day => day = 6
  | .sunday, day => day = 7

/-- The day before. -/
def yesterday (day : ℤ) : ℤ := if day = 1 then 7 else day - 1

/-- The meaning of the settings.  A period past midnight has a part before midnight, of this day, and
a tail after it, of the day before. -/
def Scheduled (clock : ClockReading) : Prop :=
  if settings.startTime ≤ settings.endTime then
    settings.startTime ≤ clock.now ∧ clock.now ≤ settings.endTime ∧
      Selected settings.days clock.day
  else
    (settings.startTime ≤ clock.now ∧ Selected settings.days clock.day) ∨
      (clock.now ≤ settings.endTime ∧ Selected settings.days (yesterday clock.day))

/-- The readings that are answered according to the schedule.  A period past midnight is taken to be
on where its day is not selected, and off only between its end and its start on a selected day. -/
def Right (clock : ClockReading) : Prop :=
  settings.startTime ≤ settings.endTime ∨
    (settings.endTime < clock.now ∧ clock.now ≠ settings.startTime ∧
      Selected settings.days clock.day) ∨
    (clock.now < settings.endTime ∧ Selected settings.days (yesterday clock.day)) ∨
    (clock.now = settings.endTime ∧
      (Selected settings.days clock.day ↔ ¬ Selected settings.days (yesterday clock.day)))

/-- What was told last is what the schedule says for the last reading. -/
def Follows (s : BandwidthScheduler) : Prop :=
  ∀ clock, s.clock = some clock →
    ∃ alternative, s.emitted.getLast? = some alternative ∧
      (alternative = true ↔ Scheduled settings clock)

/-! ### One reading -/

theorem inverts_iff (days : Days) (day : ℤ) : inverts days day = true ↔ Selected days day := by
  cases days with
  | everyDay => exact iff_of_true rfl trivial
  | _ => exact decide_eq_true_iff

theorem isTimeForAlternative_of_le {settings : SchedulerSettings}
    (h : settings.startTime ≤ settings.endTime) (clock : ClockReading) :
    isTimeForAlternative settings clock = true ↔
      settings.startTime ≤ clock.now ∧ clock.now ≤ settings.endTime ∧
        Selected settings.days clock.day := by
  have hswap : decide (settings.startTime > settings.endTime) = false :=
    decide_eq_false (not_lt.2 h)
  simp only [isTimeForAlternative, hswap, Bool.false_eq_true, if_false, Bool.not_false]
  rw [← inverts_iff, ← and_assoc]
  by_cases hin : settings.startTime ≤ clock.now ∧ settings.endTime ≥ clock.now
  · rw [if_pos hin]
    exact ⟨fun hinv => ⟨hin, by simpa using hinv⟩, fun hinv => by simp [hinv.2]⟩
  · rw [if_neg hin]
    exact iff_of_false Bool.false_ne_true fun hinv => hin hinv.1

theorem isTimeForAlternative_of_lt {settings : SchedulerSettings}
    (h : settings.endTime < settings.startTime) (clock : ClockReading) :
    isTimeForAlternative settings clock = true ↔
      ¬ (settings.endTime ≤ clock.now ∧ clock.now ≤ settings.startTime ∧
        Selected settings.days clock.day) := by
  have hswap : decide (settings.startTime > settings.endTime) = true := decide_eq_true h
  simp only [isTimeForAlternative, hswap, if_true, Bool.not_true]
  rw [← inverts_iff, ← and_assoc]
  by_cases hin : settings.endTime ≤ clock.now ∧ settings.startTime ≥ clock.now
  · rw [if_pos hin]
    exact ⟨fun hinv hsel => by simp [hsel.2] at hinv, fun hnot => by
      simpa using fun hinv => hnot ⟨hin, hinv⟩⟩
  · rw [if_neg hin]
    exact iff_of_true rfl fun hinv => hin hinv.1

theorem isTimeForAlternative_eq_iff (clock : ClockReading) :
    (isTimeForAlternative settings clock = true ↔ Scheduled settings clock) ↔
      Right settings clock := by
  by_cases hle : settings.startTime ≤ settings.endTime
  · rw [isTimeForAlternative_of_le hle, Scheduled, if_pos hle]
    exact iff_of_true Iff.rfl (.inl hle)
  · have hlt := not_le.1 hle
    rw [isTimeForAlternative_of_lt hlt, Scheduled, if_neg hle, Right, or_iff_right hle]
    generalize Selected settings.days clock.day = today
    generalize Selected settings.days (yesterday clock.day) = before
    -- the four cases of the time: before, at and behind the end, and at the start
    rcases lt_trichotomy clock.now settings.endTime with hend | hend | hend
    · have h₁ : ¬ settings.endTime ≤ clock.now := not_le.2 hend
      have h₂ : ¬ settings.startTime ≤ clock.now := not_le.2 (hend.trans hlt)
      simp [h₁, h₂, hend, hend.le, hend.ne, not_lt.2 hend.le]
    · have h₂ : ¬ settings.startTime ≤ clock.now := not_le.2 (hend ▸ hlt)
      have h₃ : clock.now ≤ settings.startTime := hend ▸ hlt.le
      simp only [hend, le_refl, lt_irrefl, true_and, false_and, false_or]
      rw [hend] at h₂ h₃
      by_cases htoday : today <;> by_cases hbefore : before <;> simp [h₂, h₃, htoday, hbefore]
    · have h₁ : ¬ clock.now ≤ settings.endTime := not_le.2 hend
      have h₂ : ¬ clock.now < settings.endTime := not_lt.2 hend.le
      by_cases hstart : clock.now = settings.startTime
      · simp [hstart, hlt.le, not_le.2 hlt, not_lt.2 hlt.le, hlt.ne']
      · by_cases hafter : settings.startTime ≤ clock.now
        · have h₃ : ¬ clock.now ≤ settings.startTime :=
            fun hle' => hstart (le_antisymm hle' hafter)
          simp [h₁, h₂, h₃, hend, hstart, hafter, hend.ne']
        · simp [h₁, h₂, hend, hend.le, hstart, hafter, (not_le.1 hafter).le, hend.ne']

/-! ### Runs -/

/-- What was told last is remembered, and it is the answer for the last reading. -/
structure Told (s : BandwidthScheduler) : Prop where
  last : s.timerActive = true → s.emitted.getLast? = some s.lastAlternative
  active : ∀ clock, s.clock = some clock → s.timerActive = true
  answer : ∀ clock, s.clock = some clock →
    s.lastAlternative = isTimeForAlternative settings clock

variable {settings} {s : BandwidthScheduler}

theorem told_start (clock : ClockReading) : Told settings (start settings s clock) where
  last _ := List.getLast?_concat
  active _ _ := rfl
  answer clock' h := by
    cases h
    rfl

theorem told_onTimeout (h : Told settings s) (hactive : s.timerActive = true)
    (clock : ClockReading) : Told settings (onTimeout settings s clock) := by
  by_cases hchange : isTimeForAlternative settings clock ≠ s.lastAlternative
  · simp only [onTimeout]
    rw [if_pos hchange]
    exact ⟨fun _ => List.getLast?_concat, fun _ _ => hactive, fun _ hc => by cases hc; rfl⟩
  · simp only [onTimeout]
    rw [if_neg hchange]
    refine ⟨h.last, fun _ _ => hactive, fun _ hc => ?_⟩
    cases hc
    exact (not_not.1 hchange).symm

theorem step_invariant (h : Told settings s) (e : Event) (he : s.Possible e) :
    Told settings (next settings s e) ∧ (next settings s e).clock = some e.clock := by
  cases e with
  | start clock => exact ⟨told_start clock, rfl⟩
  | timeout clock =>
    refine ⟨told_onTimeout h he clock, ?_⟩
    simp only [next, onTimeout]
    split_ifs <;> rfl

theorem Told.follows_iff (h : Told settings s) {clock : ClockReading}
    (hclock : s.clock = some clock) : Follows settings s ↔ Right settings clock := by
  rw [← isTimeForAlternative_eq_iff]
  have hlast := h.last (h.active clock hclock)
  rw [h.answer clock hclock] at hlast
  constructor
  · intro hfollows
    obtain ⟨alternative, hemitted, hiff⟩ := hfollows clock hclock
    rw [hlast, Option.some.injEq] at hemitted
    rw [hemitted]
    exact hiff
  · intro hiff clock' hclock'
    rw [hclock, Option.some.injEq] at hclock'
    subst hclock'
    exact ⟨_, hlast, hiff⟩

theorem told_init : Told settings {} where
  last h := by cases h
  active _ h := by cases h
  answer _ h := by cases h

/-- **The schedule.**  In a run of starts and timeouts what was told last is always what the schedule
says for the last reading, exactly when every reading is one that is answered rightly. -/
theorem follows_schedule_iff {events : List Event}
    (hrun : ((machine settings).run {} events).isSome) :
    (machine settings).Always (Follows settings) {} events ↔
      (machine settings).Meets (fun _ e => Right settings e.clock) {} events := by
  refine Machine.guarded_always_iff_meets
    (I := fun s => Told settings s ∧ Follows settings s) ⟨told_init, nofun⟩
    (fun s hs => hs.2) (fun s e hs he hright => ?_) (fun s e hs he hwrong hfollows => ?_) hrun
  · obtain ⟨htold, hclock⟩ := step_invariant hs.1 e he
    exact ⟨htold, (htold.follows_iff hclock).2 hright⟩
  · obtain ⟨htold, hclock⟩ := step_invariant hs.1 e he
    exact hwrong ((htold.follows_iff hclock).1 hfollows)

/-- From ten in the evening to six in the morning, on Mondays. -/
def mondayNight : SchedulerSettings := ⟨79200000, 21600000, .monday⟩

def wednesdayNoon : ClockReading := ⟨43200000, 3, by decide, by decide⟩

/-- A Monday at eleven in the evening. -/
def mondayEvening : ClockReading := ⟨82800000, 1, by decide, by decide⟩

theorem follows_schedule_night :
    (machine mondayNight).Always (Follows mondayNight) {}
        [.start mondayEvening, .timeout mondayEvening] ↔
      (machine mondayNight).Meets (fun _ e => Right mondayNight e.clock) {}
        [.start mondayEvening, .timeout mondayEvening] :=
  follows_schedule_iff rfl

/-- The limits of Monday night are asked for on a Wednesday at noon. -/
theorem wrong_day : ∃ s, (machine mondayNight).run {} [.start wednesdayNoon] = some s ∧
    s.emitted.getLast? = some true ∧ ¬ Scheduled mondayNight wednesdayNoon := by
  refine ⟨start mondayNight {} wednesdayNoon, rfl, rfl, ?_⟩
  simp [Scheduled, Selected, mondayNight, wednesdayNoon, yesterday]

end BandwidthScheduler

end QBittorrent
