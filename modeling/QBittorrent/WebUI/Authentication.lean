import QBittorrent.Lib.Dict
import QBittorrent.Lib.Machine

/-!
# Authentication of the Web API

`WebApplication` answers one request after the other.  A request is tied to a session by a cookie;
sessions start with a login, or at once for clients whose addresses are exempt, and end with a logout
or when they are not used for some time.  `AuthController` counts the failed logins of each client and
bans those with too many.

What matters about a run is kept in a log, the newest entry first, and the properties are about the
log alone.

* `Justified` : what has to come before an entry of the log;
* `every_entry_justified` : so it does in every run.
-/

namespace QBittorrent.WebUI

open Dict Option

/-- Addresses of clients, and what the settings ask about them. -/
class HostAddress (A Subnet : Type) where
  /-- `QHostAddress::isLoopback` -/
  isLoopback : A → Bool
  isInSubnet : A → Subnet → Bool

/-- `Utils::Net::isIPInSubnets`. -/
def isIPInSubnets {A Subnet : Type} [HostAddress A Subnet] (addr : A) (subnets : List Subnet) : Bool :=
  subnets.any (HostAddress.isInSubnet addr)

/-- The settings of the Web UI. -/
structure Settings (Subnet : Type) where
  isLocalAuthEnabled : Bool
  isAuthSubnetWhitelistEnabled : Bool
  authSubnetWhitelist : List Subnet
  /-- In seconds; sessions do not time out if it is not positive. -/
  sessionTimeout : ℤ
  username : String
  /-- `PBKDF2::verify` of the password hash. -/
  verifyPassword : String → Bool
  maxAuthFailCount : ℤ
  /-- In seconds. -/
  banDuration : ℤ

inductive Method where
  | get | post | other
  deriving DecidableEq

/-- What is read of a request. -/
structure Request (Sid A : Type) where
  /-- The address that `resolveClientAddress` finds. -/
  clientAddress : A
  /-- The request comes from another site, or its host header is not valid. -/
  isSuspicious : Bool
  /-- The session cookie, unless it is empty. -/
  sessionId : Option Sid
  /-- The scope and the action that `m_apiPathPattern` finds in the path. -/
  api : Option (String × String)
  method : Method
  username : String
  password : String

/-- The credentials of the request are those of the settings. -/
def Request.IsRight {Sid A Subnet : Type} (r : Request Sid A) (settings : Settings Subnet) : Prop :=
  r.username = settings.username ∧ settings.verifyPassword r.password = true
  deriving Decidable

inductive Response where
  | webUIFile
  /-- The result of a controller of the session. -/
  | result
  | text (text : String)
  | error (statusCode : ℕ) (message : String)

/-- The entry of a client in `m_clientFailedLogins`. -/
structure FailedLogin where
  failedAttemptsCount : ℕ := 0
  /-- When the timer expires, if ever. -/
  banTimer : Option ℤ := none

/-- How a session came about. -/
inductive Origin (Sid A : Type) where
  | login (request : Request Sid A)
  | exemption (client : A)

inductive Event (Sid A : Type) where
  | sessionStarted (id : Sid) (origin : Origin Sid A)
  /-- A request with the cookie of the session. -/
  | sessionUsed (id : Sid)
  | sessionEnded (id : Sid)
  | executed (request : Request Sid A) (scope action : String)
  /-- The credentials were evaluated, and wrong. -/
  | loginFailed (client : A)
  | banned (client : A) (expires : ℤ)
  | unbanned (client : A)
  | configured

structure Entry (Sid A Subnet : Type) where
  time : ℕ
  settings : Settings Subnet
  event : Event Sid A

variable {Sid A Subnet : Type} [DecidableEq Sid] [DecidableEq A] [HostAddress A Subnet]

/-- The application with `AuthController`; times are in milliseconds. -/
structure WebApplication (Sid A Subnet : Type) where
  time : ℕ := 0
  settings : Settings Subnet
  /-- `m_sessions`, with the starts of their timers. -/
  sessions : Dict Sid ℕ := ∅
  currentSession : Option Sid := none
  clientFailedLogins : Dict A FailedLogin := ∅
  response : Response := .webUIFile
  log : List (Entry Sid A Subnet) := []

/-- `WebSession::hasExpired`. -/
def hasExpired (seconds : ℤ) (timestamp time : ℕ) : Bool :=
  decide (0 < seconds) && decide (seconds * 1000 < (time : ℤ) - timestamp)

/-- `WebApplication::isAuthNeeded`. -/
def isAuthNeeded (settings : Settings Subnet) (clientAddress : A) : Bool :=
  if !settings.isLocalAuthEnabled && HostAddress.isLoopback Subnet clientAddress then false
  else if settings.isAuthSubnetWhitelistEnabled
      && isIPInSubnets clientAddress settings.authSubnetWhitelist then false
  else true

def publicAPIs : List String := ["auth/login"]

def isPublicAPI (scope action : String) : Bool := decide (scope ++ "/" ++ action ∈ publicAPIs)

/-- The scopes of the controllers that a session registers. -/
def sessionScopes : List String :=
  ["app", "log", "torrentcreator", "rss", "search", "torrents", "transfer", "sync"]

/-- `m_allowedMethod`, which has `METHOD_POST` for all of them. -/
def postOnly : List (String × String) :=
  [
    ("app", "sendTestEmail"), ("app", "setCookies"), ("app", "setPreferences"), ("app", "shutdown"),
    ("auth", "login"), ("auth", "logout"), ("rss", "addFeed"), ("rss", "addFolder"),
    ("rss", "markAsRead"), ("rss", "moveItem"), ("rss", "refreshItem"), ("rss", "removeItem"),
    ("rss", "removeRule"), ("rss", "renameRule"), ("rss", "setFeedURL"), ("rss", "setRule"),
    ("search", "delete"), ("search", "enablePlugin"), ("search", "installPlugin"),
    ("search", "start"), ("search", "stop"), ("search", "uninstallPlugin"),
    ("search", "updatePlugins"), ("torrentcreator", "addTask"), ("torrentcreator", "deleteTask"),
    ("torrents", "add"), ("torrents", "addPeers"), ("torrents", "addTags"),
    ("torrents", "addTrackers"), ("torrents", "addWebSeeds"), ("transfer", "banPeers"),
    ("torrents", "bottomPrio"), ("torrents", "createCategory"), ("torrents", "createTags"),
    ("torrents", "decreasePrio"), ("torrents", "delete"), ("torrents", "deleteTags"),
    ("torrents", "editCategory"), ("torrents", "editTracker"), ("torrents", "editWebSeed"),
    ("torrents", "filePrio"), ("torrents", "increasePrio"), ("torrents", "reannounce"),
    ("torrents", "recheck"), ("torrents", "removeCategories"), ("torrents", "removeTags"),
    ("torrents", "removeTrackers"), ("torrents", "removeWebSeeds"), ("torrents", "rename"),
    ("torrents", "renameFile"), ("torrents", "renameFolder"), ("torrents", "setAutoManagement"),
    ("torrents", "setCategory"), ("torrents", "setDownloadLimit"), ("torrents", "setDownloadPath"),
    ("torrents", "setForceStart"), ("torrents", "setLocation"), ("torrents", "setSavePath"),
    ("torrents", "setShareLimits"), ("torrents", "setSSLParameters"),
    ("torrents", "setSuperSeeding"), ("torrents", "setTags"), ("torrents", "setUploadLimit"),
    ("transfer", "setDownloadLimit"), ("transfer", "setSpeedLimitsMode"),
    ("transfer", "setUploadLimit"), ("torrents", "start"), ("torrents", "stop"),
    ("torrents", "toggleFirstLastPiecePrio"), ("torrents", "toggleSequentialDownload"),
    ("transfer", "toggleSpeedLimitsMode"), ("torrents", "topPrio")]

/-- The filter of HTTP methods. -/
def isMethodAllowed (scope action : String) (method : Method) : Bool :=
  if postOnly.any fun p => decide (p.1 = scope) && decide (p.2 = action) then
    decide (method = .post)
  else decide (method ≠ .other)

namespace WebApplication

/-! ### Sessions -/

/-- Puts an event into the log. -/
def note (event : Event Sid A) (s : WebApplication Sid A Subnet) : WebApplication Sid A Subnet :=
  { s with log := ⟨s.time, s.settings, event⟩ :: s.log }

/-- The sessions that are left when those that are outdated have been removed. -/
def currentSessions (s : WebApplication Sid A Subnet) : Dict Sid ℕ :=
  Dict.filter (fun _ timestamp => !hasExpired s.settings.sessionTimeout timestamp s.time) s.sessions

/-- `sessionStart`, with the id that `generateSid` gives. -/
def sessionStart (id : Sid) (origin : Origin Sid A) (s : WebApplication Sid A Subnet) :
    WebApplication Sid A Subnet :=
  { s with
    sessions := s.currentSessions.insert id s.time
    currentSession := some id }.note (.sessionStarted id origin)

def sessionEnd (s : WebApplication Sid A Subnet) : WebApplication Sid A Subnet :=
  match s.currentSession with
  | none => s
  | some id =>
    { s with sessions := s.sessions.erase id, currentSession := none }.note (.sessionEnded id)

/-- The first part of `sessionInitialize`: the session of the cookie. -/
def findSession (sessionId : Option Sid) (s : WebApplication Sid A Subnet) :
    WebApplication Sid A Subnet :=
  match sessionId with
  | none => s
  | some id =>
    match s.sessions.lookup id with
    | none => s
    | some timestamp =>
      if hasExpired s.settings.sessionTimeout timestamp s.time then
        { s with sessions := s.sessions.erase id }
      else
        { s with
          sessions := s.sessions.insert id s.time
          currentSession := some id }.note (.sessionUsed id)

def sessionInitialize (r : Request Sid A) (id : Sid) (s : WebApplication Sid A Subnet) :
    WebApplication Sid A Subnet :=
  let s := s.findSession r.sessionId
  if s.currentSession.isNone && !isAuthNeeded s.settings r.clientAddress then
    s.sessionStart id (.exemption r.clientAddress)
  else s

/-! ### Logins -/

/-- `isBanned`, with what it does to the entry of the client. -/
def isBanned (client : A) (s : WebApplication Sid A Subnet) : Bool × WebApplication Sid A Subnet :=
  match s.clientFailedLogins.lookup client with
  | none => (false, s)
  | some failedLogin =>
    match failedLogin.banTimer with
    | none => (false, s)
    | some expires =>
      if expires ≤ s.time then
        (false, { s with clientFailedLogins := s.clientFailedLogins.erase client }.note
          (.unbanned client))
      else (true, s)

def increaseFailedAttempts (client : A) (s : WebApplication Sid A Subnet) :
    WebApplication Sid A Subnet :=
  let failedLogin := (s.clientFailedLogins.lookup client).getD {}
  let count := failedLogin.failedAttemptsCount + 1
  if s.settings.maxAuthFailCount ≤ count then
    let expires : ℤ := s.time + s.settings.banDuration * 1000
    { s with
      clientFailedLogins := s.clientFailedLogins.insert client ⟨count, some expires⟩ }.note
        (.banned client expires)
  else
    { s with
      clientFailedLogins := s.clientFailedLogins.insert client ⟨count, failedLogin.banTimer⟩ }

def setResponse (response : Response) (s : WebApplication Sid A Subnet) :
    WebApplication Sid A Subnet :=
  { s with response := response }

/-- What `loginAction` does when the client is not banned. -/
def evaluateLogin (r : Request Sid A) (id : Sid) (s : WebApplication Sid A Subnet) :
    WebApplication Sid A Subnet :=
  if r.IsRight s.settings then
    ({ s with clientFailedLogins := s.clientFailedLogins.erase r.clientAddress }.sessionStart id
      (.login r)).setResponse (.text "Ok.")
  else
    let s := s.note (.loginFailed r.clientAddress)
    let s := if 0 < s.settings.maxAuthFailCount then s.increaseFailedAttempts r.clientAddress else s
    s.setResponse (.text "Fails.")

def loginAction (r : Request Sid A) (id : Sid) (s : WebApplication Sid A Subnet) :
    WebApplication Sid A Subnet :=
  if s.currentSession.isSome then s.setResponse (.text "Ok.")
  else if (s.isBanned r.clientAddress).1 then
    (s.isBanned r.clientAddress).2.setResponse (.error 403
      "Your IP address has been banned after too many failed authentication attempts.")
  else (s.isBanned r.clientAddress).2.evaluateLogin r id

def logoutAction (s : WebApplication Sid A Subnet) : WebApplication Sid A Subnet := s.sessionEnd

/-! ### Requests -/

/-- `APIController::run`, of a controller of the session or of `AuthController`. -/
def runAction (r : Request Sid A) (id : Sid) (scope action : String)
    (s : WebApplication Sid A Subnet) : WebApplication Sid A Subnet :=
  if s.currentSession.isSome ∧ scope ∈ sessionScopes then s.setResponse .result
  else if action = "login" then s.loginAction r id
  else if action = "logout" then s.logoutAction.setResponse (.text "")
  else s.setResponse (.error 404 "")

def doProcessRequest (r : Request Sid A) (id : Sid) (s : WebApplication Sid A Subnet) :
    WebApplication Sid A Subnet :=
  match r.api with
  | none => s.setResponse .webUIFile
  | some (scope, action) =>
    if s.currentSession.isNone && !isPublicAPI scope action then s.setResponse (.error 403 "")
    else if ¬ (s.currentSession.isSome ∧ scope ∈ sessionScopes) ∧ scope ≠ "auth" then
      s.setResponse (.error 404 "")
    else if !isMethodAllowed scope action r.method then s.setResponse (.error 405 "")
    else (s.note (.executed r scope action)).runAction r id scope action

def processRequest (r : Request Sid A) (id : Sid) (s : WebApplication Sid A Subnet) :
    WebApplication Sid A Subnet :=
  let s : WebApplication Sid A Subnet := { s with currentSession := none }
  if r.isSuspicious then s.setResponse (.error 401 "")
  else (s.sessionInitialize r id).doProcessRequest r id

end WebApplication

inductive Label (Sid A Subnet : Type) where
  | tick (milliseconds : ℕ)
  | configure (settings : Settings Subnet)
  /-- A request, and the id that a session gets if one starts. -/
  | request (r : Request Sid A) (id : Sid)

/-- `generateSid` gives an id that no session has. -/
def Possible (s : WebApplication Sid A Subnet) : Label Sid A Subnet → Prop
  | .request _ id => id ∉ s.currentSessions
  | _ => True

instance (s : WebApplication Sid A Subnet) : DecidablePred (Possible s)
  | .tick _ => isTrue trivial
  | .configure _ => isTrue trivial
  | .request _ id => inferInstanceAs (Decidable (id ∉ s.currentSessions))

def next (s : WebApplication Sid A Subnet) : Label Sid A Subnet → WebApplication Sid A Subnet
  | .tick milliseconds => { s with time := s.time + milliseconds }
  | .configure settings => { s with settings := settings }.note .configured
  | .request r id => s.processRequest r id

/-- Any clients, at any times, under any settings. -/
def machine (Sid A Subnet : Type) [DecidableEq Sid] [DecidableEq A] [HostAddress A Subnet] :
    Machine (WebApplication Sid A Subnet) (Label Sid A Subnet) := .guarded Possible next

/-- The application before its first request. -/
def start (settings : Settings Subnet) : WebApplication Sid A Subnet := { settings := settings }

/-! ### What a log says -/

/-- How the session came about, and when it was used last, if it has neither ended nor ever stayed
unused for too long. -/
def lastUse (id : Sid) : List (Entry Sid A Subnet) → Option (Origin Sid A × ℕ)
  | [] => none
  | e :: log =>
    match e.event with
    | .sessionStarted id' origin => if id' = id then some (origin, e.time) else lastUse id log
    | .sessionUsed id' =>
      if id' = id then
        (lastUse id log).bind fun (origin, time) =>
          if hasExpired e.settings.sessionTimeout time e.time then none else some (origin, e.time)
      else lastUse id log
    | .sessionEnded id' => if id' = id then none else lastUse id log
    | _ => lastUse id log

/-- How the session came about that is alive at the time of an entry. -/
def liveSession (id : Sid) (e : Entry Sid A Subnet) (log : List (Entry Sid A Subnet)) :
    Option (Origin Sid A) :=
  (lastUse id log).bind fun (origin, time) =>
    if hasExpired e.settings.sessionTimeout time e.time then none else some origin

/-- A ban of the client has not expired. -/
def Banned (client : A) (time : ℕ) (log : List (Entry Sid A Subnet)) : Prop :=
  ∃ e ∈ log, ∃ expires : ℤ, e.event = .banned client expires ∧ (time : ℤ) < expires

/-- A ban of the client or its end, a login of the client, or a change of the settings. -/
def Event.resets (client : A) : Event Sid A → Bool
  | .sessionStarted _ (.login r) => decide (r.clientAddress = client)
  | .banned client' _ => decide (client' = client)
  | .unbanned client' => decide (client' = client)
  | .configured => true
  | _ => false

def Event.isFailure (client : A) : Event Sid A → Bool
  | .loginFailed client' => decide (client' = client)
  | _ => false

/-- The failed logins of the client that were evaluated since the last event that resets. -/
def failures (client : A) : List (Entry Sid A Subnet) → ℕ
  | [] => 0
  | e :: log =>
    if e.event.resets client then 0
    else failures client log + if e.event.isFailure client then 1 else 0

/-- What has to have happened before an entry of the log.
* An action that is not public is executed for an exempt client, or with the cookie of a live session.
* A session starts with a login of a client that is not banned, by the right credentials, or for an
  exempt client.
* A failed login is one of a client that is not banned, and within the limit if there is one. -/
def Justified (e : Entry Sid A Subnet) (log : List (Entry Sid A Subnet)) : Prop :=
  match e.event with
  | .executed r scope action =>
    isPublicAPI scope action = true ∨ isAuthNeeded e.settings r.clientAddress = false ∨
      ∃ id ∈ r.sessionId, (liveSession id e log).isSome = true
  | .sessionStarted _ (.login r) => ¬ Banned r.clientAddress e.time log ∧ r.IsRight e.settings
  | .sessionStarted _ (.exemption client) => isAuthNeeded e.settings client = false
  | .loginFailed client =>
    ¬ Banned client e.time log ∧
      (0 < e.settings.maxAuthFailCount → failures client (e :: log) ≤ e.settings.maxAuthFailCount)
  | _ => True

/-- Every entry is justified. -/
def Sound : List (Entry Sid A Subnet) → Prop
  | [] => True
  | e :: log => Justified e log ∧ Sound log

variable {s : WebApplication Sid A Subnet} {log : List (Entry Sid A Subnet)}
  {e : Entry Sid A Subnet} {client : A} {id : Sid} {time : ℕ} {settings : Settings Subnet}
  {event : Event Sid A} {r : Request Sid A}

/-! ### Entries that say nothing of a session, or of a client -/

/-- The session that an event is about. -/
def Event.session : Event Sid A → Option Sid
  | .sessionStarted id _ => some id
  | .sessionUsed id => some id
  | .sessionEnded id => some id
  | _ => none

omit [DecidableEq A] [HostAddress A Subnet] in
theorem lastUse_cons_of_ne (h : event.session ≠ some id) :
    lastUse id (⟨time, settings, event⟩ :: log) = lastUse id log := by
  cases event with
  | sessionStarted id' origin => exact if_neg fun hid => h (congrArg some hid)
  | sessionUsed id' => exact if_neg fun hid => h (congrArg some hid)
  | sessionEnded id' => exact if_neg fun hid => h (congrArg some hid)
  | _ => rfl

section

omit [DecidableEq Sid] [HostAddress A Subnet]

theorem failures_cons (hreset : event.resets client = false) (hfailure : event.isFailure client = false) :
    failures client (⟨time, settings, event⟩ :: log) = failures client log := by
  simp [failures, hreset, hfailure]

theorem failures_cons_of_resets (hreset : event.resets client = true) :
    failures client (⟨time, settings, event⟩ :: log) = 0 := by
  simp [failures, hreset]

end

theorem hasExpired_self (seconds : ℤ) (time : ℕ) : hasExpired seconds time time = false := by
  rw [hasExpired, Bool.and_eq_false_iff, decide_eq_false_iff_not, decide_eq_false_iff_not]
  omega

/-! ### What the state keeps of the log -/

/-- The sessions that are kept are those of the log, with the times of their last use. -/
def Known (sessions : Dict Sid ℕ) (log : List (Entry Sid A Subnet)) : Prop :=
  ∀ id time, sessions.lookup id = some time → ∃ origin, lastUse id log = some (origin, time)

/-- A ban has expired, or its timer is kept. -/
def Kept (failedLogins : Dict A FailedLogin) (time : ℕ) (log : List (Entry Sid A Subnet)) : Prop :=
  ∀ e ∈ log, ∀ (client : A) (expires : ℤ), e.event = .banned client expires → expires ≤ time ∨
    ∃ count, failedLogins.lookup client = some ⟨count, some expires⟩

def Counted (limit : ℤ) (failedLogins : Dict A FailedLogin) (log : List (Entry Sid A Subnet)) : Prop :=
  0 < limit → ∀ client,
    failures client log ≤ ((failedLogins.lookup client).getD {}).failedAttemptsCount ∧
    (0 < failures client log →
      (((failedLogins.lookup client).getD {}).failedAttemptsCount : ℤ) < limit)

structure Inv (s : WebApplication Sid A Subnet) : Prop where
  known : Known s.sessions s.log
  kept : Kept s.clientFailedLogins s.time s.log
  counted : Counted s.settings.maxAuthFailCount s.clientFailedLogins s.log
  sound : Sound s.log

namespace Known

variable {sessions sessions' : Dict Sid ℕ}

omit [DecidableEq A] [HostAddress A Subnet]

theorem mono (h : Known sessions log)
    (hsub : ∀ id time, sessions'.lookup id = some time → sessions.lookup id = some time) :
    Known sessions' log := fun id time hid => h id time (hsub id time hid)

theorem cons (h : Known sessions log)
    (hother : ∀ id time', event.session ≠ some id → sessions'.lookup id = some time' →
      sessions.lookup id = some time')
    (hsame : ∀ id time', event.session = some id → sessions'.lookup id = some time' →
      ∃ origin, lastUse id (⟨time, settings, event⟩ :: log) = some (origin, time')) :
    Known sessions' (⟨time, settings, event⟩ :: log) := by
  intro id time' hid
  by_cases hs : event.session = some id
  · exact hsame id time' hs hid
  · rw [lastUse_cons_of_ne hs]
    exact h id time' (hother id time' hs hid)

theorem cons_of_none (h : Known sessions log) (hevent : event.session = none) :
    Known sessions (⟨time, settings, event⟩ :: log) :=
  h.cons (fun _ _ _ hid => hid) fun id _ hid => by rw [hevent] at hid; cases hid

end Known

namespace Kept

variable {failedLogins failedLogins' : Dict A FailedLogin}

omit [DecidableEq Sid] [HostAddress A Subnet]

theorem cons (h : Kept failedLogins time log)
    (hevent : ∀ client expires, event ≠ .banned client expires) {time' : ℕ} :
    Kept failedLogins time (⟨time', settings, event⟩ :: log) := by
  intro e he client expires hban
  rcases List.mem_cons.1 he with rfl | he
  · exact (hevent client expires hban).elim
  · exact h e he client expires hban

theorem of_not_banned (h : Kept failedLogins time log) (hbanned : ¬ Banned client time log)
    (hother : ∀ client', client' ≠ client →
      failedLogins'.lookup client' = failedLogins.lookup client') :
    Kept failedLogins' time log := by
  intro e he client' expires hban
  by_cases hc : client' = client
  · subst hc
    exact .inl (not_lt.1 fun hlt => hbanned ⟨e, he, expires, hban, hlt⟩)
  · rw [hother client' hc]
    exact h e he client' expires hban

end Kept

namespace Counted

variable {failedLogins failedLogins' : Dict A FailedLogin} {limit : ℤ}

omit [DecidableEq Sid] [HostAddress A Subnet]

theorem cons (h : Counted limit failedLogins log) (hreset : ∀ client, event.resets client = false)
    (hfailure : ∀ client, event.isFailure client = false) :
    Counted limit failedLogins (⟨time, settings, event⟩ :: log) := by
  intro hlimit client
  rw [failures_cons (hreset client) (hfailure client)]
  exact h hlimit client

theorem cons_of_resets (h : Counted limit failedLogins log)
    (hother : ∀ client', client' ≠ client →
      failedLogins'.lookup client' = failedLogins.lookup client')
    (hreset : event.resets client = true)
    (hneutral : ∀ client', client' ≠ client →
      event.resets client' = false ∧ event.isFailure client' = false) :
    Counted limit failedLogins' (⟨time, settings, event⟩ :: log) := by
  intro hlimit client'
  by_cases hc : client' = client
  · subst hc
    rw [failures_cons_of_resets hreset]
    exact ⟨Nat.zero_le _, fun h0 => (lt_irrefl _ h0).elim⟩
  · rw [failures_cons (hneutral client' hc).1 (hneutral client' hc).2, hother client' hc]
    exact h hlimit client'

end Counted

/-! ### What the functions do -/

/-- A session may be used for the request. -/
def Admitted (r : Request Sid A) (s : WebApplication Sid A Subnet) : Prop :=
  s.currentSession.isSome = true → isAuthNeeded s.settings r.clientAddress = false ∨
    ∃ id ∈ r.sessionId, ∀ event, (liveSession id ⟨s.time, s.settings, event⟩ s.log).isSome = true

namespace Inv

theorem findSession (h : Inv s) (hs : s.currentSession = none) (r : Request Sid A) :
    Inv (s.findSession r.sessionId) ∧ Admitted r (s.findSession r.sessionId) := by
  have hidle : Admitted r s := fun hsome => by rw [hs] at hsome; cases hsome
  rw [WebApplication.findSession.eq_def]
  split
  · exact ⟨h, hidle⟩
  next id hid =>
    split
    · exact ⟨h, hidle⟩
    next timestamp hlookup =>
      obtain ⟨origin, horigin⟩ := h.known id timestamp hlookup
      split
      · refine ⟨⟨h.known.mono fun id' time hid' => ?_, h.kept, h.counted, h.sound⟩, hidle⟩
        rw [lookup_erase_eq] at hid'
        split at hid'
        · cases hid'
        · exact hid'
      next hexpired =>
        have huse : lastUse id (⟨s.time, s.settings, .sessionUsed id⟩ :: s.log)
            = some (origin, s.time) := by
          simp [lastUse, horigin, hexpired]
        have hlive : ∀ event, liveSession id ⟨s.time, s.settings, event⟩
            (⟨s.time, s.settings, .sessionUsed id⟩ :: s.log) = some origin := fun event => by
          rw [liveSession, huse, bind_some]
          exact if_neg (by rw [hasExpired_self]; exact Bool.false_ne_true)
        refine ⟨{
          known := h.known.cons
            (fun id' time hne (hid' : (s.sessions.insert id s.time).lookup id' = some time) => ?_)
            fun id' time heq (hid' : (s.sessions.insert id s.time).lookup id' = some time) => ?_
          kept := h.kept.cons fun _ _ h => by cases h
          counted := h.counted.cons (fun _ => rfl) fun _ => rfl
          sound := ⟨trivial, h.sound⟩ }, fun _ => .inr ⟨id, hid, fun event => ?_⟩⟩
        · rw [lookup_insert_eq, if_neg fun hc => hne (congrArg some hc.symm)] at hid'
          exact hid'
        · cases heq
          rw [lookup_insert_eq, if_pos rfl] at hid'
          cases hid'
          exact ⟨origin, huse⟩
        · exact isSome_iff_exists.2 ⟨origin, hlive event⟩

theorem sessionStart {origin : Origin Sid A} (hknown : Known s.sessions s.log)
    (hkept : Kept s.clientFailedLogins s.time s.log)
    (hcounted : Counted s.settings.maxAuthFailCount s.clientFailedLogins
      (⟨s.time, s.settings, .sessionStarted id origin⟩ :: s.log))
    (hjustified : Justified ⟨s.time, s.settings, .sessionStarted id origin⟩ s.log)
    (hsound : Sound s.log) : Inv (s.sessionStart id origin) where
  known := by
    refine hknown.cons
      (fun id' time hne (hid' : (s.currentSessions.insert id s.time).lookup id' = some time) => ?_)
      fun id' time heq (hid' : (s.currentSessions.insert id s.time).lookup id' = some time) => ?_
    · rw [lookup_insert_eq, if_neg fun hc => hne (congrArg some hc.symm),
        WebApplication.currentSessions, lookup_filter] at hid'
      exact (filter_eq_some_iff.1 hid').1
    · cases heq
      rw [lookup_insert_eq, if_pos rfl] at hid'
      cases hid'
      exact ⟨origin, if_pos rfl⟩
  kept := hkept.cons fun _ _ h => by cases h
  counted := hcounted
  sound := ⟨hjustified, hsound⟩

theorem sessionInitialize (h : Inv s) (hs : s.currentSession = none) (r : Request Sid A)
    (id : Sid) : Inv (s.sessionInitialize r id) ∧ Admitted r (s.sessionInitialize r id) := by
  obtain ⟨h', hadmitted⟩ := h.findSession hs r
  rw [WebApplication.sessionInitialize]
  by_cases hstart : ((s.findSession r.sessionId).currentSession.isNone
      && !isAuthNeeded (s.findSession r.sessionId).settings r.clientAddress) = true
  · rw [if_pos hstart]
    rw [Bool.and_eq_true, Bool.not_eq_true'] at hstart
    exact ⟨sessionStart h'.known h'.kept (h'.counted.cons (fun _ => rfl) fun _ => rfl) hstart.2
      h'.sound, fun _ => .inl hstart.2⟩
  · rw [if_neg hstart]
    exact ⟨h', hadmitted⟩

theorem sessionEnd (h : Inv s) : Inv s.sessionEnd := by
  rw [WebApplication.sessionEnd.eq_def]
  split
  · exact h
  next id _ =>
    exact {
      known := by
        refine h.known.cons
          (fun id' time hne (hid' : (s.sessions.erase id).lookup id' = some time) => ?_)
          fun id' time heq (hid' : (s.sessions.erase id).lookup id' = some time) => ?_
        · rw [lookup_erase_eq, if_neg fun hc => hne (congrArg some hc.symm)] at hid'
          exact hid'
        · cases heq
          rw [lookup_erase_eq, if_pos rfl] at hid'
          cases hid'
      kept := h.kept.cons fun _ _ h => by cases h
      counted := h.counted.cons (fun _ => rfl) fun _ => rfl
      sound := ⟨trivial, h.sound⟩ }

theorem setResponse (h : Inv s) (response : Response) : Inv (s.setResponse response) :=
  { h with }

theorem not_banned (h : Inv s)
    (hlookup : ∀ count expires, s.clientFailedLogins.lookup client = some ⟨count, some expires⟩ →
      expires ≤ s.time) : ¬ Banned client s.time s.log := by
  rintro ⟨e, he, expires, hban, hlt⟩
  rcases h.kept e he client expires hban with hle | ⟨count, hcount⟩
  · omega
  · have := hlookup count expires hcount
    omega

theorem isBanned (h : Inv s) (client : A) :
    Inv (s.isBanned client).2 ∧ ((s.isBanned client).1 = false →
      ¬ Banned client (s.isBanned client).2.time (s.isBanned client).2.log) := by
  rw [WebApplication.isBanned]
  split
  next hlookup => exact ⟨h, fun _ => h.not_banned fun _ _ hc => by rw [hlookup] at hc; cases hc⟩
  next failedLogin hlookup =>
    split
    next htimer =>
      exact ⟨h, fun _ => h.not_banned fun _ _ hc => by
        rw [hlookup] at hc; cases hc; cases htimer⟩
    next expires htimer =>
      split
      next hexpired =>
        have hnot : ¬ Banned client s.time s.log := h.not_banned fun _ _ hc => by
          rw [hlookup] at hc; cases hc; cases htimer; exact hexpired
        have hother : ∀ client', client' ≠ client →
            (s.clientFailedLogins.erase client).lookup client' = s.clientFailedLogins.lookup client' :=
          fun client' hc => by rw [lookup_erase_eq, if_neg hc]
        refine ⟨{
          known := h.known.cons_of_none rfl
          kept := (h.kept.of_not_banned hnot hother).cons fun _ _ h => by cases h
          counted := h.counted.cons_of_resets hother (decide_eq_true rfl)
            fun client' hc => ⟨decide_eq_false (Ne.symm hc), rfl⟩
          sound := ⟨trivial, h.sound⟩ }, ?_⟩
        rintro - ⟨e, he, expires', hban, hlt⟩
        rcases List.mem_cons.1 he with rfl | he
        · cases hban
        · exact hnot ⟨e, he, expires', hban, hlt⟩
      · exact ⟨h, fun hc => by cases hc⟩

end Inv

/-! ### Failed logins -/

omit [DecidableEq Sid] [HostAddress A Subnet] in
theorem failures_cons_loginFailed (client client' : A) :
    failures client' (⟨time, settings, .loginFailed client⟩ :: log)
      = failures client' log + if client = client' then 1 else 0 := by
  simp [failures, Event.resets, Event.isFailure]

namespace Counted

variable {failedLogins : Dict A FailedLogin} {limit : ℤ}

section

omit [DecidableEq Sid] [HostAddress A Subnet]

theorem insert (h : Counted limit failedLogins log) (failedLogin : FailedLogin)
    (hcount : failedLogin.failedAttemptsCount
      = ((failedLogins.lookup client).getD {}).failedAttemptsCount + 1)
    (hbelow : (failedLogin.failedAttemptsCount : ℤ) < limit) :
    Counted limit (failedLogins.insert client failedLogin)
      (⟨time, settings, .loginFailed client⟩ :: log) := by
  intro hlimit client'
  obtain ⟨hle, hlt⟩ := h hlimit client'
  rw [failures_cons_loginFailed, lookup_insert_eq]
  by_cases hc : client = client'
  · subst hc
    rw [if_pos rfl, if_pos rfl, getD_some, hcount]
    exact ⟨by omega, fun _ => by rw [← hcount]; exact hbelow⟩
  · rw [if_neg hc, if_neg (Ne.symm hc), add_zero]
    exact ⟨hle, hlt⟩

theorem insert_banned (h : Counted limit failedLogins log) (failedLogin : FailedLogin)
    {expires : ℤ} :
    Counted limit (failedLogins.insert client failedLogin)
      (⟨time, settings, .banned client expires⟩ :: ⟨time, settings, .loginFailed client⟩ :: log) := by
  intro hlimit client'
  obtain ⟨hle, hlt⟩ := h hlimit client'
  rw [lookup_insert_eq]
  by_cases hc : client = client'
  · subst hc
    have hreset : (Event.banned client expires : Event Sid A).resets client = true :=
      decide_eq_true rfl
    rw [failures_cons_of_resets hreset]
    exact ⟨Nat.zero_le _, fun h0 => (lt_irrefl _ h0).elim⟩
  · have hreset : (Event.banned client expires : Event Sid A).resets client' = false :=
      decide_eq_false hc
    rw [failures_cons hreset rfl, failures_cons_loginFailed, if_neg hc,
      if_neg (Ne.symm hc), add_zero]
    exact ⟨hle, hlt⟩

end

theorem justified (h : Counted settings.maxAuthFailCount failedLogins log)
    (hbanned : ¬ Banned client time log) : Justified ⟨time, settings, .loginFailed client⟩ log := by
  refine ⟨hbanned, fun hlimit => ?_⟩
  change 0 < settings.maxAuthFailCount at hlimit
  obtain ⟨hle, hlt⟩ := h hlimit client
  rw [failures_cons_loginFailed, if_pos rfl]
  change _ ≤ settings.maxAuthFailCount
  -- either no failure counts before this one, or the counter was below the limit
  by_cases hfailures : 0 < failures client log
  · omega
  · omega

end Counted

namespace Inv

section

variable (h : Inv s)

include h

theorem loginFailed (hbanned : ¬ Banned client s.time s.log) :
    Inv (if 0 < (s.note (.loginFailed client)).settings.maxAuthFailCount then
      (s.note (.loginFailed client)).increaseFailedAttempts client
      else s.note (.loginFailed client)) := by
  have hknown : Known s.sessions (⟨s.time, s.settings, .loginFailed client⟩ :: s.log) :=
    h.known.cons_of_none rfl
  have hkept : ∀ failedLogin, Kept (s.clientFailedLogins.insert client failedLogin) s.time
      (⟨s.time, s.settings, .loginFailed client⟩ :: s.log) := fun failedLogin =>
    (h.kept.of_not_banned hbanned fun client' hc => by
      rw [lookup_insert_eq, if_neg hc]).cons fun _ _ h => by cases h
  have hsound : Sound (⟨s.time, s.settings, .loginFailed client⟩ :: s.log) :=
    ⟨h.counted.justified hbanned, h.sound⟩
  split
  · rw [WebApplication.increaseFailedAttempts]
    split
    · refine ⟨hknown.cons_of_none rfl, fun e he client' expires hban => ?_,
        h.counted.insert_banned _, trivial, hsound⟩
      rcases List.mem_cons.1 he with rfl | he
      · cases hban
        exact .inr ⟨_, (lookup_insert_eq _ _ _ _).trans (if_pos rfl)⟩
      · exact hkept _ e he client' expires hban
    next hbelow => exact ⟨hknown, hkept _, h.counted.insert _ rfl (not_le.1 hbelow), hsound⟩
  next hlimit =>
    exact ⟨hknown, h.kept.cons (fun _ _ h => by cases h), fun h0 => (hlimit h0).elim, hsound⟩

theorem evaluateLogin (hbanned : ¬ Banned r.clientAddress s.time s.log) (id : Sid) :
    Inv (s.evaluateLogin r id) := by
  rw [WebApplication.evaluateLogin]
  split_ifs with hright
  · have hother : ∀ client', client' ≠ r.clientAddress →
        (s.clientFailedLogins.erase r.clientAddress).lookup client'
          = s.clientFailedLogins.lookup client' :=
      fun client' hc => by rw [lookup_erase_eq, if_neg hc]
    have hkept : Kept (s.clientFailedLogins.erase r.clientAddress) s.time s.log :=
      h.kept.of_not_banned hbanned hother
    have hcounted : Counted s.settings.maxAuthFailCount
        (s.clientFailedLogins.erase r.clientAddress)
        (⟨s.time, s.settings, .sessionStarted id (.login r)⟩ :: s.log) :=
      h.counted.cons_of_resets hother (decide_eq_true rfl) fun client' hc =>
        ⟨decide_eq_false (Ne.symm hc), rfl⟩
    have hi := sessionStart
      (s := { s with clientFailedLogins := s.clientFailedLogins.erase r.clientAddress })
      h.known hkept hcounted ⟨hbanned, hright⟩ h.sound
    exact hi.setResponse _
  · exact setResponse (h.loginFailed hbanned) _

theorem loginAction (r : Request Sid A) (id : Sid) : Inv (s.loginAction r id) := by
  rw [WebApplication.loginAction]
  obtain ⟨hi, hnot⟩ := h.isBanned r.clientAddress
  split_ifs with hsession hbanned
  · exact h.setResponse _
  · exact hi.setResponse _
  · exact hi.evaluateLogin (hnot (Bool.eq_false_iff.2 hbanned)) id

theorem runAction (r : Request Sid A) (id : Sid) (scope action : String) :
    Inv (s.runAction r id scope action) := by
  rw [WebApplication.runAction]
  split_ifs
  · exact h.setResponse _
  · exact h.loginAction r id
  · exact h.sessionEnd.setResponse _
  · exact h.setResponse _

theorem doProcessRequest (hadmitted : Admitted r s) (id : Sid) : Inv (s.doProcessRequest r id) := by
  rw [WebApplication.doProcessRequest.eq_def]
  split
  · exact h.setResponse _
  next scope action _ =>
    by_cases hforbidden : (s.currentSession.isNone && !isPublicAPI scope action) = true
    · rw [if_pos hforbidden]
      exact h.setResponse _
    split_ifs
    · exact h.setResponse _
    · exact h.setResponse _
    · have hjustified : Justified ⟨s.time, s.settings, .executed r scope action⟩ s.log := by
        by_cases hpublic : isPublicAPI scope action = true
        · exact .inl hpublic
        · have hsession : s.currentSession.isSome = true := by
            rw [Bool.not_eq_true] at hpublic
            rw [hpublic, Bool.not_false, Bool.and_true, Bool.not_eq_true,
              isNone_eq_false_iff] at hforbidden
            exact hforbidden
          rcases hadmitted hsession with hexempt | ⟨sid, hsid, hlive⟩
          · exact .inr (.inl hexempt)
          · exact .inr (.inr ⟨sid, hsid, hlive _⟩)
      have hi : Inv (s.note (.executed r scope action)) := {
        known := h.known.cons_of_none rfl
        kept := h.kept.cons fun _ _ h => by cases h
        counted := h.counted.cons (fun _ => rfl) fun _ => rfl
        sound := ⟨hjustified, h.sound⟩ }
      exact hi.runAction r id scope action

theorem processRequest (r : Request Sid A) (id : Sid) : Inv (s.processRequest r id) := by
  have hidle : Inv (s := { s with currentSession := none }) := { h with }
  rw [WebApplication.processRequest]
  split
  · exact hidle.setResponse _
  · obtain ⟨hi, hadmitted⟩ := hidle.sessionInitialize rfl r id
    exact hi.doProcessRequest hadmitted id

theorem next (l : Label Sid A Subnet) : Inv (next s l) := by
  cases l with
  | tick milliseconds =>
    refine { h with kept := fun e he client expires hban => ?_ }
    rcases h.kept e he client expires hban with hle | hlookup
    · exact .inl (hle.trans (by exact_mod_cast Nat.le_add_right _ _))
    · exact .inr hlookup
  | configure settings =>
    refine ⟨h.known.cons_of_none rfl, h.kept.cons (fun _ _ h => by cases h), fun _ client => ?_,
      trivial, h.sound⟩
    have hzero : failures client (⟨s.time, s.settings, .configured⟩ :: s.log) = 0 := rfl
    exact ⟨hzero.le.trans (Nat.zero_le _), fun h0 => (h0.ne hzero.symm).elim⟩
  | request r id => exact h.processRequest r id

end

end Inv

/-! ### Runs -/

/-- **Authentication.**  Whatever clients send, and however the settings change meanwhile, every entry
of the log is justified by those before it. -/
theorem every_entry_justified (settings : Settings Subnet) (ls : List (Label Sid A Subnet)) :
    (machine Sid A Subnet).Always (fun s => Sound s.log) (start settings) ls := by
  have hstart : Inv (start settings : WebApplication Sid A Subnet) :=
    ⟨(fun _ _ h => by cases h), (fun _ h => by cases h),
      fun _ _ => ⟨le_refl _, fun h => (lt_irrefl _ h).elim⟩, trivial⟩
  exact Machine.guarded_always (C := fun _ _ => True) hstart (fun _ h => h.sound)
    (fun _ l h _ _ => h.next l) Machine.meets_true

/-! ### What is not so -/

/-- Here actions need the session of a login, unless the client itself is exempt, and there is always a
limit to the failed logins. -/
def Claimed : List (Entry Sid A Subnet) → Prop
  | [] => True
  | e :: log =>
    (match e.event with
    | .executed r scope action =>
      isPublicAPI scope action = true ∨ isAuthNeeded e.settings r.clientAddress = false ∨
        ∃ id ∈ r.sessionId, ∃ request, liveSession id e log = some (.login request)
    | .sessionStarted _ (.login r) => ¬ Banned r.clientAddress e.time log
    | .loginFailed client => failures client (e :: log) ≤ e.settings.maxAuthFailCount
    | _ => True) ∧ Claimed log

inductive Host where
  | localhost | remote
  deriving DecidableEq

instance : HostAddress Host Host := ⟨fun host => decide (host = .localhost), fun a b => decide (a = b)⟩

/-- Localhost needs no login. -/
def homeSettings (maxAuthFailCount : ℤ) : Settings Host where
  isLocalAuthEnabled := false
  isAuthSubnetWhitelistEnabled := false
  authSubnetWhitelist := []
  sessionTimeout := 3600
  username := "admin"
  verifyPassword password := decide (password = "secret")
  maxAuthFailCount := maxAuthFailCount
  banDuration := 3600

def getVersion (client : Host) (sessionId : Option ℕ) : Request ℕ Host :=
  ⟨client, false, sessionId, some ("app", "version"), .get, "", ""⟩

/-- The cookie of a session that localhost started is sent from another address. -/
def borrowedCookie : List (Label ℕ Host Host) :=
  [.request (getVersion .localhost none) 1, .request (getVersion .remote (some 1)) 2]

def wrongPassword : List (Label ℕ Host Host) :=
  [.request ⟨.remote, false, none, some ("auth", "login"), .post, "admin", "wrong"⟩ 1]

theorem not_claimed :
    (∃ s, (machine ℕ Host Host).run (start (homeSettings 5)) borrowedCookie = some s ∧
      ¬ Claimed s.log) ∧
    ∃ s, (machine ℕ Host Host).run (start (homeSettings 0)) wrongPassword = some s ∧
      ¬ Claimed s.log := by
  refine ⟨⟨_, rfl, fun h => ?_⟩, ⟨_, rfl, fun h => ?_⟩⟩
  · rcases h.1 with hpublic | hexempt | ⟨id, hid, client, hlive⟩
    · exact absurd hpublic (by decide)
    · exact absurd hexempt (by decide)
    · cases hid
      cases hlive
  · exact absurd h.1 (by decide)

end QBittorrent.WebUI
