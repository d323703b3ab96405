import QBittorrent.Lib.Dict
import QBittorrent.Lib.Machine
import QBittorrent.Lib.Qreal
import QBittorrent.Resume.Params

/-!
# Share limits and the timer that watches them

A torrent that seeds is stopped or removed when its share ratio, its seeding time or the time since
anybody asked for it reaches a limit: one of its own, or the session's where the torrent asks for
that.  The limits are looked at by a timer, which the session starts and stops with the limits.

* `machine` : the session, from its settings, under everything that adds and removes torrents,
  changes limits or makes torrents reach them.
-/

namespace QBittorrent.ShareLimits

open Dict

/-! ### The values of limits -/

/-- The types of limits, with the comparisons of the source. -/
class LimitValue (V : Type) where
  ofInt : ℤ → V
  less : V → V → Bool
  equal : V → V → Bool
  /-- What is `0` or more is none of the special values, which are negative. -/
  equal_of_neg : ∀ {limit : V} {n : ℤ}, n < 0 →
    (less (ofInt 0) limit || equal (ofInt 0) limit) = true → equal limit (ofInt n) = false

open LimitValue

instance : LimitValue Qreal where
  ofInt n := .ofRat n
  less := Qreal.lt
  equal := Qreal.eq
  equal_of_neg := Qreal.eq_ofRat_of_neg

instance : LimitValue ℤ where
  ofInt n := n
  less a b := decide (a < b)
  equal a b := decide (a = b)
  equal_of_neg hn h := by
    simp only [Bool.or_eq_true, decide_eq_true_eq, decide_eq_false_iff_not] at h ⊢
    omega

section Limits

variable {V : Type} [LimitValue V] {limit : V}

/-- `USE_GLOBAL_RATIO`, `USE_GLOBAL_SEEDING_TIME`, `USE_GLOBAL_INACTIVE_SEEDING_TIME` -/
def useGlobal : V := ofInt (-2)

/-- `NO_RATIO_LIMIT`, `NO_SEEDING_TIME_LIMIT`, `NO_INACTIVE_SEEDING_TIME_LIMIT` -/
def noLimit : V := ofInt (-1)

def atLeast (value limit : V) : Bool := less limit value || equal limit value

def isLimit (limit : V) : Bool := atLeast limit (ofInt 0)

/-- The lambda of `processTorrentShareLimits`. -/
def effectiveLimit (limit globalLimit : V) : V :=
  if equal limit useGlobal then globalLimit else limit

theorem equal_noLimit (h : isLimit limit = true) : equal limit noLimit = false :=
  equal_of_neg (by decide) h

theorem effectiveLimit_of_isLimit (h : isLimit limit = true) (globalLimit : V) :
    effectiveLimit limit globalLimit = limit := by
  rw [effectiveLimit, useGlobal, equal_of_neg (by decide) h]
  rfl

theorem isLimit_or_isLimit {globalLimit : V} (h : isLimit (effectiveLimit limit globalLimit)) :
    isLimit limit ∨ isLimit globalLimit := by
  rw [effectiveLimit] at h
  split_ifs at h with huse
  · exact .inr h
  · exact .inl h

end Limits

/-! ### Torrents -/

/-- What libtorrent and the clock make of a torrent, and what its user asks for. -/
structure Status where
  isFinished : Bool := false
  isForced : Bool := false
  isStopped : Bool := false
  superSeeding : Bool := false
  realRatio : Qreal := .ofRat 0
  /-- In seconds. -/
  finishedTime : ℤ := 0
  /-- In seconds. -/
  timeSinceActivity : ℤ := -1
  error : Option String := none

structure TorrentImpl where
  name : String
  ratioLimit : Qreal := useGlobal
  seedingTimeLimit : ℤ := useGlobal
  inactiveSeedingTimeLimit : ℤ := useGlobal
  shareLimitAction : ShareLimitAction := .default
  status : Status := {}

variable {V : Type} [LimitValue V] {TorrentID : Type} [DecidableEq TorrentID]

/-- What the setters of a torrent's limits store. -/
def cleanLimit (limit : V) : V := if less limit useGlobal then noLimit else limit

namespace TorrentImpl

variable (t : TorrentImpl)

/-- The limits that are set are the torrent's own. -/
def hasOwnLimit : Bool :=
  isLimit t.ratioLimit || isLimit t.seedingTimeLimit || isLimit t.inactiveSeedingTimeLimit

/-- `setRatioLimit`: the torrent, where it changes.  The session is then told of it. -/
def setRatioLimit (limit : Qreal) : Option TorrentImpl :=
  if equal t.ratioLimit (cleanLimit limit) then none
  else some { t with ratioLimit := cleanLimit limit }

def setSeedingTimeLimit (limit : ℤ) : Option TorrentImpl :=
  if equal t.seedingTimeLimit (cleanLimit limit) then none
  else some { t with seedingTimeLimit := cleanLimit limit }

def setInactiveSeedingTimeLimit (limit : ℤ) : Option TorrentImpl :=
  if equal t.inactiveSeedingTimeLimit (cleanLimit limit) then none
  else some { t with inactiveSeedingTimeLimit := cleanLimit limit }

def setShareLimitAction (action : ShareLimitAction) : Option TorrentImpl :=
  if t.shareLimitAction = action then none else some { t with shareLimitAction := action }

def stop : TorrentImpl := { t with status := { t.status with isStopped := true } }

def setSuperSeeding (enable : Bool) : TorrentImpl :=
  { t with status := { t.status with superSeeding := enable } }

end TorrentImpl

/-! ### The session -/

/-- The settings that are read at the start. -/
structure Settings where
  globalMaxRatio : Qreal := noLimit
  globalMaxSeedingMinutes : ℤ := noLimit
  globalMaxInactiveSeedingMinutes : ℤ := noLimit
  shareLimitAction : ShareLimitAction := .stop

structure SessionImpl (TorrentID : Type) where
  globalMaxRatio : Qreal
  globalMaxSeedingMinutes : ℤ
  globalMaxInactiveSeedingMinutes : ℤ
  shareLimitAction : ShareLimitAction
  torrents : Dict TorrentID TorrentImpl := ∅
  isRestored : Bool := false
  /-- `m_seedingLimitTimer->isActive()` -/
  seedingLimitTimerActive : Bool := false
  log : List String := []

/-- Where the share ratio is limited, a negative limit is none. -/
def cleanRatio (ratio : Qreal) : Qreal := if less ratio (ofInt 0) then noLimit else ratio

/-- `std::max(minutes, NO_SEEDING_TIME_LIMIT)`, and `lowerLimited(NO_SEEDING_TIME_LIMIT)` -/
def cleanMinutes (minutes : ℤ) : ℤ := if less minutes noLimit then noLimit else minutes

def cleanAction (action : ShareLimitAction) : ShareLimitAction :=
  if action = .default then .stop else action

namespace SessionImpl

variable (s : SessionImpl TorrentID)

def logMsg (message : String) : SessionImpl TorrentID := { s with log := s.log ++ [message] }

def hasPerTorrent (hasLimit : TorrentImpl → Bool) : Bool := decide (0 < s.torrents.count hasLimit)

def hasPerTorrentRatioLimit : Bool := s.hasPerTorrent fun torrent => isLimit torrent.ratioLimit

def hasPerTorrentSeedingTimeLimit : Bool :=
  s.hasPerTorrent fun torrent => isLimit torrent.seedingTimeLimit

def hasPerTorrentInactiveSeedingTimeLimit : Bool :=
  s.hasPerTorrent fun torrent => isLimit torrent.inactiveSeedingTimeLimit

/-- The condition of `updateSeedingLimitTimer`: there is nothing to watch. -/
def hasNoLimits : Bool :=
  equal s.globalMaxRatio noLimit && !s.hasPerTorrentRatioLimit &&
    (equal s.globalMaxSeedingMinutes noLimit && !s.hasPerTorrentSeedingTimeLimit) &&
    (equal s.globalMaxInactiveSeedingMinutes noLimit && !s.hasPerTorrentInactiveSeedingTimeLimit)

def updateSeedingLimitTimer : SessionImpl TorrentID :=
  { s with seedingLimitTimerActive := !s.hasNoLimits }

def setGlobalMaxRatio (ratio : Qreal) : SessionImpl TorrentID :=
  if equal (cleanRatio ratio) s.globalMaxRatio then s
  else { s with globalMaxRatio := cleanRatio ratio }.updateSeedingLimitTimer

def setGlobalMaxSeedingMinutes (minutes : ℤ) : SessionImpl TorrentID :=
  if equal (cleanMinutes minutes) s.globalMaxSeedingMinutes then s
  else { s with globalMaxSeedingMinutes := cleanMinutes minutes }.updateSeedingLimitTimer

def setGlobalMaxInactiveSeedingMinutes (minutes : ℤ) : SessionImpl TorrentID :=
  if equal (cleanMinutes minutes) s.globalMaxInactiveSeedingMinutes then s
  else { s with globalMaxInactiveSeedingMinutes := cleanMinutes minutes }.updateSeedingLimitTimer

/-- A setter of a torrent, which tells the session where it changes anything
(`handleTorrentShareLimitChanged`). -/
def setForTorrent (id : TorrentID) (set : TorrentImpl → Option TorrentImpl) :
    SessionImpl TorrentID :=
  match (s.torrents.lookup id).bind set with
  | some torrent => { s with torrents := s.torrents.insert id torrent }.updateSeedingLimitTimer
  | none => s

def torrentText (torrent : TorrentImpl) : String := "Torrent: \"" ++ torrent.name ++ "\""

/-- The end of `createTorrent`. -/
def logCreated (torrent : TorrentImpl) : SessionImpl TorrentID :=
  let s := s.logMsg (if s.isRestored then "Added new torrent. " ++ torrentText torrent
    else "Restored torrent. " ++ torrentText torrent)
  match torrent.status.error with
  | some error => s.logMsg ("Torrent errored. " ++ torrentText torrent ++ ". Error: \"" ++ error ++ "\"")
  | none => s

def createTorrent (id : TorrentID) (torrent : TorrentImpl) : SessionImpl TorrentID :=
  let s := { s with torrents := s.torrents.insert id torrent }
  let s := if (isLimit torrent.ratioLimit || isLimit torrent.seedingTimeLimit) &&
      !s.seedingLimitTimerActive then { s with seedingLimitTimerActive := true } else s
  s.logCreated torrent

def removeTorrent (id : TorrentID) : SessionImpl TorrentID :=
  match s.torrents.lookup id with
  | some torrent => { s with torrents := s.torrents.erase id }.logMsg
      ("Torrent removed. " ++ torrentText torrent)
  | none => s

/-- What `processTorrentShareLimits` says of the limit that is reached. -/
def reachedLimit (torrent : TorrentImpl) : Option String :=
  let ratioLimit := effectiveLimit torrent.ratioLimit s.globalMaxRatio
  let seedingTimeLimit := effectiveLimit torrent.seedingTimeLimit s.globalMaxSeedingMinutes
  let inactiveSeedingTimeLimit :=
    effectiveLimit torrent.inactiveSeedingTimeLimit s.globalMaxInactiveSeedingMinutes
  if isLimit ratioLimit && atLeast torrent.status.realRatio ratioLimit then
    some "Torrent reached the share ratio limit."
  else if isLimit seedingTimeLimit &&
      atLeast (torrent.status.finishedTime.tdiv 60) seedingTimeLimit then
    some "Torrent reached the seeding time limit."
  else if isLimit inactiveSeedingTimeLimit &&
      atLeast (torrent.status.timeSinceActivity.tdiv 60) inactiveSeedingTimeLimit then
    some "Torrent reached the inactive seeding time limit."
  else none

/-- The log line of `processTorrentShareLimits`. -/
def logReached (description action : String) (torrent : TorrentImpl) : SessionImpl TorrentID :=
  s.logMsg (description ++ " " ++ action ++ " " ++ torrentText torrent ++ ".")

def effectiveAction (torrent : TorrentImpl) : ShareLimitAction :=
  if torrent.shareLimitAction = .default then s.shareLimitAction else torrent.shareLimitAction

def takeAction (id : TorrentID) (torrent : TorrentImpl) (description : String) :
    ShareLimitAction → SessionImpl TorrentID
  | .remove => (s.logReached description "Removing torrent." torrent).removeTorrent id
  | .removeWithContent =>
    (s.logReached description "Removing torrent and deleting its content." torrent).removeTorrent id
  | .stop =>
    if torrent.status.isStopped then s
    else { s with torrents := s.torrents.insert id torrent.stop }.logReached description
      "Torrent stopped." torrent
  | .enableSuperSeeding =>
    if torrent.status.isStopped || torrent.status.superSeeding then s
    else { s with torrents := s.torrents.insert id (torrent.setSuperSeeding true) }.logReached
      description "Super seeding enabled." torrent
  | .default => s

def processTorrentShareLimits (id : TorrentID) : SessionImpl TorrentID :=
  match s.torrents.lookup id with
  | none => s
  | some torrent =>
    if !torrent.status.isFinished || torrent.status.isForced then s
    else match s.reachedLimit torrent with
      | none => s
      | some description => s.takeAction id torrent description (s.effectiveAction torrent)

/-- `handleTorrentInfoHashChanged`: the torrent goes by another ID. -/
def changeID (prevID currentID : TorrentID) : SessionImpl TorrentID :=
  if currentID = prevID then s
  else match s.torrents.lookup prevID with
    | some torrent => { s with torrents := (s.torrents.erase prevID).insert currentID torrent }
    | none => s

end SessionImpl

/-- The session as it is created. -/
def start (settings : Settings) : SessionImpl TorrentID :=
  SessionImpl.updateSeedingLimitTimer
    { globalMaxRatio := cleanRatio settings.globalMaxRatio
      globalMaxSeedingMinutes := cleanMinutes settings.globalMaxSeedingMinutes
      globalMaxInactiveSeedingMinutes := cleanMinutes settings.globalMaxInactiveSeedingMinutes
      shareLimitAction := cleanAction settings.shareLimitAction }

/-! ### What happens -/

inductive Event (TorrentID : Type) where
  | restored
  /-- A torrent of the last session is loaded, or a new one is added. -/
  | createTorrent (id : TorrentID) (torrent : TorrentImpl)
  | removeTorrent (id : TorrentID)
  | setRatioLimit (id : TorrentID) (limit : Qreal)
  | setSeedingTimeLimit (id : TorrentID) (limit : ℤ)
  | setInactiveSeedingTimeLimit (id : TorrentID) (limit : ℤ)
  | setTorrentShareLimitAction (id : TorrentID) (action : ShareLimitAction)
  | setGlobalMaxRatio (ratio : Qreal)
  | setGlobalMaxSeedingMinutes (minutes : ℤ)
  | setGlobalMaxInactiveSeedingMinutes (minutes : ℤ)
  | setShareLimitAction (action : ShareLimitAction)
  | statusUpdated (id : TorrentID) (status : Status)
  | infoHashChanged (prevID currentID : TorrentID)
  /-- The downloads of some torrents are over. -/
  | finished (ids : List TorrentID)
  /-- The timer runs out.  A hash table is read in any order. -/
  | timeout (ids : List TorrentID)

def Possible (s : SessionImpl TorrentID) : Event TorrentID → Prop
  | .timeout ids => s.seedingLimitTimerActive = true ∧ ids.Nodup ∧ ids.toFinset = s.torrents.keys
  | _ => True

instance (s : SessionImpl TorrentID) : DecidablePred (Possible s) := fun e => by
  cases e <;> unfold Possible <;> infer_instance

def next (s : SessionImpl TorrentID) : Event TorrentID → SessionImpl TorrentID
  | .restored => { s with isRestored := true }
  | .createTorrent id torrent => s.createTorrent id torrent
  | .removeTorrent id => s.removeTorrent id
  | .setRatioLimit id limit => s.setForTorrent id fun torrent => torrent.setRatioLimit limit
  | .setSeedingTimeLimit id limit =>
    s.setForTorrent id fun torrent => torrent.setSeedingTimeLimit limit
  | .setInactiveSeedingTimeLimit id limit =>
    s.setForTorrent id fun torrent => torrent.setInactiveSeedingTimeLimit limit
  | .setTorrentShareLimitAction id action =>
    s.setForTorrent id fun torrent => torrent.setShareLimitAction action
  | .setGlobalMaxRatio ratio => s.setGlobalMaxRatio ratio
  | .setGlobalMaxSeedingMinutes minutes => s.setGlobalMaxSeedingMinutes minutes
  | .setGlobalMaxInactiveSeedingMinutes minutes => s.setGlobalMaxInactiveSeedingMinutes minutes
  | .setShareLimitAction action => { s with shareLimitAction := action }
  | .statusUpdated id status =>
    match s.torrents.lookup id with
    | some torrent => { s with torrents := s.torrents.insert id { torrent with status := status } }
    | none => s
  | .infoHashChanged prevID currentID => s.changeID prevID currentID
  | .finished ids => ids.foldl SessionImpl.processTorrentShareLimits s
  | .timeout ids => ids.foldl SessionImpl.processTorrentShareLimits s

def machine : Machine (SessionImpl TorrentID) (Event TorrentID) := .guarded Possible next

/-! ### What has to be watched -/

/-- A limit applies to the torrent, its own or the session's. -/
def SessionImpl.Limits (s : SessionImpl TorrentID) (torrent : TorrentImpl) : Prop :=
  isLimit (effectiveLimit torrent.ratioLimit s.globalMaxRatio) = true ∨
    isLimit (effectiveLimit torrent.seedingTimeLimit s.globalMaxSeedingMinutes) = true ∨
    isLimit (effectiveLimit torrent.inactiveSeedingTimeLimit s.globalMaxInactiveSeedingMinutes) = true

/-- The timer is active while a limit applies to some torrent. -/
def Watched (s : SessionImpl TorrentID) : Prop :=
  ∀ id torrent, s.torrents.lookup id = some torrent → s.Limits torrent →
    s.seedingLimitTimerActive = true

/-- A torrent that arrives while the timer is not active does not come with a limit on its inactivity
alone. -/
def Noticed (s : SessionImpl TorrentID) : Event TorrentID → Prop
  | .createTorrent _ torrent => s.seedingLimitTimerActive = false →
    isLimit torrent.inactiveSeedingTimeLimit = true →
      isLimit torrent.ratioLimit = true ∨ isLimit torrent.seedingTimeLimit = true
  | _ => True

instance (s : SessionImpl TorrentID) : DecidablePred (Noticed s) := fun e => by
  cases e <;> unfold Noticed <;> infer_instance

/-- The timer is active when anything is set that `updateSeedingLimitTimer` looks at. -/
structure Covered (s : SessionImpl TorrentID) : Prop where
  ratio : equal s.globalMaxRatio noLimit = false → s.seedingLimitTimerActive = true
  seedingTime : equal s.globalMaxSeedingMinutes noLimit = false → s.seedingLimitTimerActive = true
  inactiveSeedingTime : equal s.globalMaxInactiveSeedingMinutes noLimit = false →
    s.seedingLimitTimerActive = true
  torrents : ∀ id torrent, s.torrents.lookup id = some torrent → torrent.hasOwnLimit = true →
    s.seedingLimitTimerActive = true

variable {s s' : SessionImpl TorrentID} {id : TorrentID} {torrent : TorrentImpl}

theorem Covered.watched (h : Covered s) : Watched s := by
  rintro id torrent hid (hlimit | hlimit | hlimit) <;>
  obtain hown | hglobal := isLimit_or_isLimit hlimit
  · exact h.torrents id torrent hid (by simp [TorrentImpl.hasOwnLimit, hown])
  · exact h.ratio (equal_noLimit hglobal)
  · exact h.torrents id torrent hid (by simp [TorrentImpl.hasOwnLimit, hown])
  · exact h.seedingTime (equal_noLimit hglobal)
  · exact h.torrents id torrent hid (by simp [TorrentImpl.hasOwnLimit, hown])
  · exact h.inactiveSeedingTime (equal_noLimit hglobal)

/-! ### What the session does keeps the timer active -/

theorem SessionImpl.hasPerTorrent_of_lookup {hasLimit : TorrentImpl → Bool}
    (hid : s.torrents.lookup id = some torrent) (h : hasLimit torrent = true) :
    s.hasPerTorrent hasLimit = true :=
  decide_eq_true (count_pos hasLimit hid h)

theorem covered_updateSeedingLimitTimer : Covered s.updateSeedingLimitTimer := by
  have hactive (h : s.hasNoLimits = false) :
      s.updateSeedingLimitTimer.seedingLimitTimerActive = true := by
    rw [SessionImpl.updateSeedingLimitTimer, h]
    rfl
  refine ⟨fun h => hactive ?_, fun h => hactive ?_, fun h => hactive ?_, fun id torrent hid h => ?_⟩
  · rw [SessionImpl.updateSeedingLimitTimer] at h
    simp [SessionImpl.hasNoLimits, h]
  · rw [SessionImpl.updateSeedingLimitTimer] at h
    simp [SessionImpl.hasNoLimits, h]
  · rw [SessionImpl.updateSeedingLimitTimer] at h
    simp [SessionImpl.hasNoLimits, h]
  · rw [TorrentImpl.hasOwnLimit, Bool.or_eq_true, Bool.or_eq_true] at h
    refine hactive ?_
    obtain (hlimit | hlimit) | hlimit := h
    · have : s.hasPerTorrentRatioLimit = true := SessionImpl.hasPerTorrent_of_lookup hid hlimit
      simp [SessionImpl.hasNoLimits, this]
    · have : s.hasPerTorrentSeedingTimeLimit = true :=
        SessionImpl.hasPerTorrent_of_lookup hid hlimit
      simp [SessionImpl.hasNoLimits, this]
    · have : s.hasPerTorrentInactiveSeedingTimeLimit = true :=
        SessionImpl.hasPerTorrent_of_lookup hid hlimit
      simp [SessionImpl.hasNoLimits, this]

/-- What is set in `s'` is set in `s` too, and the timer is as it was. -/
structure Eased (s s' : SessionImpl TorrentID) : Prop where
  ratio : s'.globalMaxRatio = s.globalMaxRatio
  seedingTime : s'.globalMaxSeedingMinutes = s.globalMaxSeedingMinutes
  inactiveSeedingTime : s'.globalMaxInactiveSeedingMinutes = s.globalMaxInactiveSeedingMinutes
  timer : s'.seedingLimitTimerActive = s.seedingLimitTimerActive
  torrents : ∀ id torrent, s'.torrents.lookup id = some torrent → ∃ id₀ torrent₀,
    s.torrents.lookup id₀ = some torrent₀ ∧ torrent.hasOwnLimit = torrent₀.hasOwnLimit

theorem Covered.of_eased (h : Covered s) (he : Eased s s') : Covered s' := by
  refine ⟨fun hset => ?_, fun hset => ?_, fun hset => ?_, fun id torrent hid hset => ?_⟩
  · exact he.timer.trans (h.ratio (he.ratio ▸ hset))
  · exact he.timer.trans (h.seedingTime (he.seedingTime ▸ hset))
  · exact he.timer.trans (h.inactiveSeedingTime (he.inactiveSeedingTime ▸ hset))
  · obtain ⟨id₀, torrent₀, hid₀, hown⟩ := he.torrents id torrent hid
    exact he.timer.trans (h.torrents id₀ torrent₀ hid₀ (hown ▸ hset))

namespace Eased

theorem refl (s : SessionImpl TorrentID) : Eased s s :=
  ⟨rfl, rfl, rfl, rfl, fun id torrent hid => ⟨id, torrent, hid, rfl⟩⟩

theorem trans {s'' : SessionImpl TorrentID} (h : Eased s s') (h' : Eased s' s'') : Eased s s'' := by
  refine ⟨h'.ratio.trans h.ratio, h'.seedingTime.trans h.seedingTime,
    h'.inactiveSeedingTime.trans h.inactiveSeedingTime, h'.timer.trans h.timer,
    fun id torrent hid => ?_⟩
  obtain ⟨id₁, torrent₁, hid₁, hown₁⟩ := h'.torrents id torrent hid
  obtain ⟨id₀, torrent₀, hid₀, hown₀⟩ := h.torrents id₁ torrent₁ hid₁
  exact ⟨id₀, torrent₀, hid₀, hown₁.trans hown₀⟩

theorem logMsg (h : Eased s s') (message : String) : Eased s (s'.logMsg message) :=
  { h with }

theorem insert (hid : s.torrents.lookup id = some torrent) {torrent' : TorrentImpl}
    (hown : torrent'.hasOwnLimit = torrent.hasOwnLimit) :
    Eased s { s with torrents := s.torrents.insert id torrent' } := by
  refine ⟨rfl, rfl, rfl, rfl, fun id' t hid' => ?_⟩
  rw [lookup_insert_eq] at hid'
  split_ifs at hid' with heq
  · cases hid'
    exact ⟨id, torrent, hid, hown⟩
  · exact ⟨id', t, hid', rfl⟩

theorem erase (s : SessionImpl TorrentID) (id : TorrentID) :
    Eased s { s with torrents := s.torrents.erase id } := by
  refine ⟨rfl, rfl, rfl, rfl, fun id' t hid' => ?_⟩
  rw [lookup_erase_eq] at hid'
  split_ifs at hid'
  exact ⟨id', t, hid', rfl⟩

theorem removeTorrent (s : SessionImpl TorrentID) (id : TorrentID) : Eased s (s.removeTorrent id) := by
  rw [SessionImpl.removeTorrent]
  split
  · exact (erase s id).logMsg _
  · exact refl s

theorem changeID (s : SessionImpl TorrentID) (prevID currentID : TorrentID) :
    Eased s (s.changeID prevID currentID) := by
  rw [SessionImpl.changeID]
  split_ifs
  · exact refl s
  · split
    · rename_i torrent hid
      refine ⟨rfl, rfl, rfl, rfl, fun id t ht => ?_⟩
      rw [lookup_insert_eq, lookup_erase_eq] at ht
      split_ifs at ht
      · cases ht
        exact ⟨prevID, torrent, hid, rfl⟩
      · exact ⟨id, t, ht, rfl⟩
    · exact refl s

theorem takeAction (hid : s.torrents.lookup id = some torrent) (description : String)
    (action : ShareLimitAction) : Eased s (s.takeAction id torrent description action) := by
  cases action with
  | default => exact refl s
  | remove => exact ((refl s).logMsg _).trans (removeTorrent _ id)
  | removeWithContent => exact ((refl s).logMsg _).trans (removeTorrent _ id)
  | stop =>
    rw [SessionImpl.takeAction]
    split_ifs
    · exact refl s
    · exact (insert hid (show torrent.stop.hasOwnLimit = _ from rfl)).logMsg _
  | enableSuperSeeding =>
    rw [SessionImpl.takeAction]
    split_ifs
    · exact refl s
    · exact (insert hid (show (torrent.setSuperSeeding true).hasOwnLimit = _ from rfl)).logMsg _

theorem processTorrentShareLimits (s : SessionImpl TorrentID) (id : TorrentID) :
    Eased s (s.processTorrentShareLimits id) := by
  rw [SessionImpl.processTorrentShareLimits]
  split
  · exact refl s
  · rename_i torrent hid
    split_ifs
    · exact refl s
    · split
      · exact refl s
      · exact takeAction hid _ _

theorem foldl_processTorrentShareLimits (ids : List TorrentID) (s : SessionImpl TorrentID) :
    Eased s (ids.foldl SessionImpl.processTorrentShareLimits s) := by
  induction ids generalizing s with
  | nil => exact refl s
  | cons id ids ih => exact (processTorrentShareLimits s id).trans (ih _)

end Eased

theorem Covered.setForTorrent (h : Covered s) (id : TorrentID)
    (set : TorrentImpl → Option TorrentImpl) : Covered (s.setForTorrent id set) := by
  rw [SessionImpl.setForTorrent]
  split
  · exact covered_updateSeedingLimitTimer
  · exact h

theorem Covered.ite {c : Prop} [Decidable c] (h : Covered s) (h' : Covered s') :
    Covered (if c then s else s') := by
  split_ifs
  · exact h
  · exact h'

/-! ### New torrents -/

theorem SessionImpl.eased_logCreated : Eased s (s.logCreated torrent) := by
  have hlog := (Eased.refl s).logMsg (if s.isRestored then "Added new torrent. " ++ torrentText torrent
    else "Restored torrent. " ++ torrentText torrent)
  rw [SessionImpl.logCreated]
  split
  · exact hlog.logMsg _
  · exact hlog

omit [DecidableEq TorrentID] in
theorem SessionImpl.torrents_logCreated : (s.logCreated torrent).torrents = s.torrents := by
  rw [logCreated]
  split <;> rfl

def SessionImpl.withTorrent (s : SessionImpl TorrentID) (id : TorrentID) (torrent : TorrentImpl) :
    SessionImpl TorrentID :=
  { s with
    torrents := s.torrents.insert id torrent
    seedingLimitTimerActive := s.seedingLimitTimerActive ||
      (isLimit torrent.ratioLimit || isLimit torrent.seedingTimeLimit) }

theorem SessionImpl.createTorrent_eq :
    s.createTorrent id torrent = (s.withTorrent id torrent).logCreated torrent := by
  rw [createTorrent, withTorrent]
  cases hactive : s.seedingLimitTimerActive <;>
  cases hlimit : isLimit torrent.ratioLimit || isLimit torrent.seedingTimeLimit <;>
  rfl

theorem SessionImpl.timer_createTorrent :
    (s.createTorrent id torrent).seedingLimitTimerActive = (s.seedingLimitTimerActive ||
      (isLimit torrent.ratioLimit || isLimit torrent.seedingTimeLimit)) := by
  rw [createTorrent_eq, eased_logCreated.timer, withTorrent]

theorem SessionImpl.lookup_createTorrent :
    (s.createTorrent id torrent).torrents.lookup id = some torrent := by
  rw [createTorrent_eq, torrents_logCreated, withTorrent, lookup_insert_eq, if_pos rfl]

theorem Covered.createTorrent (h : Covered s) (hnoticed : Noticed s (.createTorrent id torrent)) :
    Covered (s.createTorrent id torrent) := by
  have hactive (hs : s.seedingLimitTimerActive = true) :
      (s.withTorrent id torrent).seedingLimitTimerActive = true := by
    rw [SessionImpl.withTorrent, hs]
    rfl
  rw [SessionImpl.createTorrent_eq]
  refine Covered.of_eased ⟨fun hset => hactive (h.ratio hset), fun hset => hactive (h.seedingTime hset),
    fun hset => hactive (h.inactiveSeedingTime hset), fun id' t hid' hset => ?_⟩
    SessionImpl.eased_logCreated
  rw [SessionImpl.withTorrent, lookup_insert_eq] at hid'
  split_ifs at hid' with heq
  · cases hid'
    rw [TorrentImpl.hasOwnLimit, Bool.or_eq_true] at hset
    rw [SessionImpl.withTorrent, Bool.or_eq_true]
    obtain hown | hinactive := hset
    · exact .inr hown
    · cases hs : s.seedingLimitTimerActive with
      | true => exact .inl rfl
      | false => exact .inr (Bool.or_eq_true _ _ ▸ hnoticed hs hinactive)
  · exact hactive (h.torrents id' t hid' hset)

theorem not_watched_createTorrent (h : ¬ Noticed s (.createTorrent id torrent)) :
    ¬ Watched (s.createTorrent id torrent) := by
  rw [Noticed, not_forall] at h
  obtain ⟨hs, h⟩ := h
  rw [not_forall] at h
  obtain ⟨hinactive, h⟩ := h
  rw [not_or, Bool.not_eq_true, Bool.not_eq_true] at h
  intro hwatched
  have hactive := hwatched id torrent SessionImpl.lookup_createTorrent (.inr (.inr (by
    rw [effectiveLimit_of_isLimit hinactive, hinactive])))
  rw [SessionImpl.timer_createTorrent, hs, h.1, h.2] at hactive
  exact Bool.false_ne_true hactive

/-! ### Runs -/

variable {event : Event TorrentID}

theorem Covered.next (h : Covered s) (hnoticed : Noticed s event) : Covered (next s event) := by
  cases event with
  | restored => exact { h with }
  | createTorrent id torrent => exact h.createTorrent hnoticed
  | removeTorrent id => exact h.of_eased (Eased.removeTorrent s id)
  | setRatioLimit id limit => exact h.setForTorrent id _
  | setSeedingTimeLimit id limit => exact h.setForTorrent id _
  | setInactiveSeedingTimeLimit id limit => exact h.setForTorrent id _
  | setTorrentShareLimitAction id action => exact h.setForTorrent id _
  | setGlobalMaxRatio ratio => exact h.ite covered_updateSeedingLimitTimer
  | setGlobalMaxSeedingMinutes minutes => exact h.ite covered_updateSeedingLimitTimer
  | setGlobalMaxInactiveSeedingMinutes minutes => exact h.ite covered_updateSeedingLimitTimer
  | setShareLimitAction action => exact { h with }
  | statusUpdated id status =>
    rw [ShareLimits.next]
    split
    · rename_i torrent hid
      exact h.of_eased (Eased.insert hid rfl)
    · exact h
  | infoHashChanged prevID currentID => exact h.of_eased (Eased.changeID s prevID currentID)
  | finished ids => exact h.of_eased (Eased.foldl_processTorrentShareLimits ids s)
  | timeout ids => exact h.of_eased (Eased.foldl_processTorrentShareLimits ids s)

theorem not_watched_next (h : ¬ Noticed s event) : ¬ Watched (ShareLimits.next s event) := by
  cases event with
  | createTorrent id torrent => exact not_watched_createTorrent h
  | _ => exact (h trivial).elim

variable {settings : Settings} {events : List (Event TorrentID)}

/-- **The timer is active whenever a limit applies** exactly in the runs in which no torrent arrives
unnoticed. -/
theorem watched_iff_noticed (hrun : (machine.run (start settings) events).isSome) :
    machine.Always Watched (start settings) events ↔ machine.Meets Noticed (start settings) events :=
  Machine.guarded_always_iff_meets covered_updateSeedingLimitTimer (fun _ h => h.watched)
    (fun _ _ h _ hnoticed => h.next hnoticed) (fun _ _ _ _ h => not_watched_next h) hrun

/-- A torrent is loaded whose ratio is limited, another one is added that asks for the session's limit
on inactivity, and the timer runs out. -/
def limitedRun : List (Event ℕ) :=
  [.createTorrent 0 ⟨"film", .ofRat 2, noLimit, 30, .remove, {}⟩, .restored, .setGlobalMaxRatio .nan,
    .statusUpdated 0 { isFinished := true, realRatio := .ofRat 3 }, .timeout [0],
    .setGlobalMaxRatio (.ofRat (-5)), .setGlobalMaxInactiveSeedingMinutes 10,
    .createTorrent 1 ⟨"song", useGlobal, useGlobal, useGlobal, .default, {}⟩,
    .setRatioLimit 1 (.ofRat 1)]

theorem watched_limitedRun : machine.Always Watched (start {}) limitedRun :=
  (watched_iff_noticed (by decide)).2 (by decide)

/-- A torrent that is limited by its inactivity is added while nothing else is limited. -/
def unnoticed : List (Event ℕ) := [.createTorrent 0 ⟨"film", noLimit, noLimit, 30, .default, {}⟩]

theorem not_watched_unnoticed :
    ¬ ∀ (settings : Settings) (events : List (Event ℕ)),
      (machine.run (start settings) events).isSome →
        machine.Always Watched (start settings) events := by
  intro h
  have hwatched := (h {} unnoticed (by decide)).2 _ rfl 0 _ rfl (.inr (.inr (by decide)))
  revert hwatched
  decide

end QBittorrent.ShareLimits
