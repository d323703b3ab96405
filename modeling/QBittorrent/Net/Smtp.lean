import QBittorrent.Lib.Dict
import QBittorrent.Lib.Machine
import QBittorrent.Lib.Search
import QBittorrent.Lib.Text

/-!
# The SMTP client

`Smtp` sends one mail.  It takes the replies of the server line by line off a buffer; what a line
means depends on the state that the last command left.  A reply may have several lines, `ddd-…` up
to `ddd …`.

* `Smtp.handleReply` : the switch over the states;
* `Smtp.inStep_iff_careful` : when the client stays in step with the server.
-/

namespace QBittorrent

open List Option

namespace Net

/-- `States`, the last command that was sent or the phase of the greeting. -/
inductive State where
  | rcpt | ehloSent | heloSent | ehloDone | ehloGreetReceived | authRequestSent | authSent
  | authUsernameSent | authenticated | startTLSSent | data | init | body | quit | close
  deriving DecidableEq

inductive AuthType where
  | authPlain | authLogin | authCramMD5

/-- What is written to the socket. -/
inductive Command where
  | ehlo | helo | startTLS | authCramMD5 | authPlain | authLogin
  /-- The answer to the challenge of CRAM-MD5. -/
  | cramResponse
  | username | password | mailFrom | rcptTo | data | message | quit
  deriving DecidableEq

/-- The lines of the server and the commands, as they come. -/
inductive Traffic where
  | received (line : List UInt8)
  | sent (command : Command) (bytes : List UInt8)

/-- Encodings and digests, and the name of the host. -/
structure Codec where
  toLatin1 : String → List UInt8
  toUpper : String → String
  toBase64 : List UInt8 → List UInt8
  fromBase64 : List UInt8 → List UInt8
  toHex : List UInt8 → List UInt8
  hmacMD5 : List UInt8 → List UInt8 → List UInt8
  fqdn : List UInt8

structure Smtp where
  message : List UInt8
  mailFrom : String
  mailTo : String
  username : String
  password : String
  useSsl : Bool
  state : State := .init
  extensions : Dict String String := ∅
  buffer : List UInt8 := []
  authType : AuthType := .authPlain
  /-- The first line of the buffer is one that the client has put there. -/
  fake : Bool := false
  /-- The traffic so far, the newest first. -/
  log : List Traffic := []
  beyondEnd : Bool := false

/-! ### Lines -/

def crlf : List UInt8 := [13, 10]

def space : UInt8 := 32

def hyphen : UInt8 := 45

/-- `QString::section(' ', 0, 0)`. -/
def firstWord (s : String) : String := String.ofList (s.toList.takeWhile (· ≠ ' '))

/-- `QString::section(' ', 1)`. -/
def otherWords (s : String) : String := String.ofList ((s.toList.dropWhile (· ≠ ' ')).drop 1)

/-- `split(' ', Qt::SkipEmptyParts)`. -/
def splitWords (s : String) : List String :=
  ((s.toList.splitOn ' ').filter (· ≠ [])).map String.ofList

/-- The line that stands in for an answer where the server will not give one. -/
def fakeLine : List UInt8 := toUtf8 "250 QBT FAKE RESPONSE"

namespace Smtp

/-- `operator[]` of a line.  An index beyond the end is noted, and reads the byte that ends a text. -/
def look (line : List UInt8) (i : ℕ) (s : Smtp) : UInt8 × Smtp :=
  (line.getD i 0, { s with beyondEnd := s.beyondEnd || decide (line.length ≤ i) })

def write (command : Command) (bytes : List UInt8) (s : Smtp) : Smtp :=
  { s with log := .sent command bytes :: s.log }

section Replies

variable (C : Codec)

def ehlo (s : Smtp) : Smtp :=
  { s.write .ehlo (toUtf8 "ehlo " ++ C.fqdn ++ crlf) with state := .ehloSent }

def helo (s : Smtp) : Smtp :=
  { s.write .helo (toUtf8 "helo " ++ C.fqdn ++ crlf) with state := .heloSent }

def startTLS (s : Smtp) : Smtp :=
  { s.write .startTLS (toUtf8 "starttls" ++ crlf) with state := .startTLSSent }

def authCramMD5 (challenge : List UInt8) (s : Smtp) : Smtp :=
  if s.state ≠ .authRequestSent then
    { s.write .authCramMD5 (toUtf8 "auth cram-md5" ++ crlf) with
      authType := .authCramMD5, state := .authRequestSent }
  else
    let response := C.toLatin1 s.username ++ [space] ++
      C.toHex (C.hmacMD5 (C.toLatin1 s.password) (C.fromBase64 challenge))
    { s.write .cramResponse (C.toBase64 response ++ crlf) with state := .authSent }

def authPlain (s : Smtp) : Smtp :=
  if s.state ≠ .authRequestSent then
    let auth := [0] ++ C.toLatin1 s.username ++ [0] ++ C.toLatin1 s.password
    { s.write .authPlain (toUtf8 "auth plain " ++ C.toBase64 auth ++ crlf) with
      authType := .authPlain, state := .authSent }
  else s

def authLogin (s : Smtp) : Smtp :=
  if s.state ≠ .authRequestSent ∧ s.state ≠ .authUsernameSent then
    { s.write .authLogin (toUtf8 "auth login" ++ crlf) with
      authType := .authLogin, state := .authRequestSent }
  else if s.state = .authRequestSent then
    { s.write .username (C.toBase64 (C.toLatin1 s.username) ++ crlf) with
      state := .authUsernameSent }
  else
    { s.write .password (C.toBase64 (C.toLatin1 s.password) ++ crlf) with state := .authSent }

/-- Authentication is skipped: a fake answer goes to the front of the buffer. -/
def skipAuthentication (s : Smtp) : Smtp :=
  { s with state := .authenticated, buffer := fakeLine ++ crlf ++ s.buffer, fake := true }

/-- The authentication modes of the server. -/
def authModes (s : Smtp) : List String :=
  splitWords (C.toUpper ((s.extensions.lookup "AUTH").getD ""))

def authenticate (s : Smtp) : Smtp :=
  if "AUTH" ∉ s.extensions ∨ s.username = "" ∨ s.password = "" then s.skipAuthentication
  else if "CRAM-MD5" ∈ s.authModes C then s.authCramMD5 C []
  else if "PLAIN" ∈ s.authModes C then s.authPlain C
  else if "LOGIN" ∈ s.authModes C then s.authLogin C
  else s.skipAuthentication

def parseEhloResponse (code : List UInt8) (continued : Bool) (line : String) (s : Smtp) : Smtp :=
  if code ≠ [50, 53, 48] then
    if s.state = .ehloSent then s.helo C else { s with state := .close }
  else if s.state ≠ .ehloGreetReceived ∧ continued = true then { s with state := .ehloGreetReceived }
  else
    let s :=
      if s.state ≠ .ehloGreetReceived then { s with state := .ehloDone }
      else { s with
        extensions := s.extensions.insert (C.toUpper (firstWord line)) (otherWords line)
        state := if continued then s.state else .ehloDone }
    if s.state ≠ .ehloDone then s
    else if "STARTTLS" ∈ s.extensions ∧ s.useSsl = true then s.startTLS
    else s.authenticate C

/-- Go on with `f` on a reply whose first digit is `digit`, else close. -/
def onDigit (digit : UInt8) (line : List UInt8) (f : Smtp → Smtp) (s : Smtp) : Smtp :=
  let (c, s) := s.look (line.take 3) 0
  if c = digit then f s else { s with state := .close }

/-- The switch of `readyRead` on one line. -/
def handleReply (line : List UInt8) (s : Smtp) : Smtp :=
  match s.state with
  | .init =>
    onDigit 50 line (fun s =>
      let (c, s) := s.look line 3
      -- a greeting of several lines is waited for
      if c ≠ space then s else s.ehlo C) s
  | .ehloSent | .heloSent | .ehloGreetReceived =>
    let (c, s) := s.look line 3
    s.parseEhloResponse C (line.take 3) (c ≠ space) (decodeUtf8 (line.drop 4))
  | .startTLSSent => if line.take 3 = [50, 50, 48] then s.ehlo C else s.authenticate C
  | .authRequestSent | .authUsernameSent =>
    match s.authType with
    | .authPlain => s.authPlain C
    | .authLogin => s.authLogin C
    | .authCramMD5 => s.authCramMD5 C (line.drop 4)
  | .authSent | .authenticated =>
    onDigit 50 line (fun s => { s.write .mailFrom
      (toUtf8 "mail from:<" ++ C.toLatin1 s.mailFrom ++ toUtf8 ">" ++ crlf) with
        state := .rcpt }) s
  | .rcpt =>
    onDigit 50 line (fun s => { s.write .rcptTo
      (toUtf8 "rcpt to:<" ++ C.toLatin1 s.mailTo ++ toUtf8 ">" ++ crlf) with state := .data }) s
  | .data =>
    onDigit 50 line (fun s => { s.write .data (toUtf8 "data" ++ crlf) with state := .body }) s
  | .body =>
    onDigit 51 line (fun s => { s.write .message
      (s.message ++ crlf ++ toUtf8 "." ++ crlf) with state := .quit }) s
  | .quit =>
    onDigit 50 line (fun s => { s.write .quit (toUtf8 "QUIT" ++ crlf) with state := .close }) s
  -- the socket is disconnected, and nothing is sent
  | .ehloDone | .close => s

def takeLine (s : Smtp) : Option (List UInt8 × Smtp) :=
  (firstIndex crlf s.buffer).map fun pos =>
    (s.buffer.take pos, { s with
      buffer := s.buffer.drop (pos + 2)
      fake := false
      log := if s.fake then s.log else .received (s.buffer.take pos) :: s.log })

end Replies

end Smtp

/-! ### Runs -/

/-- Bytes come into the buffer, or the loop handles a line of it. -/
inductive Event where
  | receive (bytes : List UInt8)
  | handleLine

namespace Smtp

/-- The client when it connects to the server. -/
def sendMail (message : List UInt8) (mailFrom mailTo username password : String) (useSsl : Bool) :
    Smtp := { message, mailFrom, mailTo, username, password, useSsl }

def Possible (s : Smtp) : Event → Prop
  | .receive _ => True
  | .handleLine => s.takeLine.isSome = true

instance (s : Smtp) : DecidablePred s.Possible
  | .receive _ => isTrue trivial
  | .handleLine => inferInstanceAs (Decidable (_ = true))

def next (C : Codec) (s : Smtp) : Event → Smtp
  | .receive bytes => { s with buffer := s.buffer ++ bytes }
  | .handleLine =>
    match s.takeLine with
    | none => s
    | some (line, s) => s.handleReply C line

/-- Bytes in any portions, and lines handled one by one. -/
def machine (C : Codec) : Machine Smtp Event := .guarded Possible (next C)

end Smtp

/-! ### Being in step -/

/-- The line ends a reply. -/
def Complete (reply : List UInt8) : Prop := reply[3]? ≠ some hyphen
  deriving Decidable

/-- The lines that have come since the last command. -/
def answers : List Traffic → List (List UInt8)
  | .received line :: log => line :: answers log
  | _ => []

def lastCommand : List Traffic → Option Command
  | .received _ :: log => lastCommand log
  | .sent command _ :: _ => some command
  | [] => none

/-- A reply has been completed since the last command, with a code that satisfies `p`. -/
def Replied (p : List UInt8 → Prop) (log : List Traffic) : Prop :=
  ∃ line ∈ answers log, Complete line ∧ p (line.take 3)

def Positive (code : List UInt8) : Prop := code.head? = some 50
  deriving Decidable

def Intermediate (code : List UInt8) : Prop := code.head? = some 51
  deriving Decidable

/-- The last command was `command`, and it was answered so. -/
def AnsweredBy (command : Command) (p : List UInt8 → Prop) (log : List Traffic) : Prop :=
  lastCommand log = some command ∧ Replied p log

/-- Some EHLO or HELO was accepted. -/
def HelloAccepted (log : List Traffic) : Prop :=
  ∃ log', log' <:+ log ∧ (AnsweredBy .ehlo (· = [50, 53, 48]) log' ∨
    AnsweredBy .helo (· = [50, 53, 48]) log')

/-- The commands of an authentication. -/
def Command.isAuth : Command → Bool
  | .authCramMD5 | .authPlain | .authLogin | .cramResponse | .username | .password => true
  | _ => false

/-- The commands that the result of an authentication answers. -/
def Command.endsAuth : Command → Bool
  | .authPlain | .cramResponse | .password => true
  | _ => false

def AuthStarted (log : List Traffic) : Prop :=
  ∃ command bytes, .sent command bytes ∈ log ∧ command.isAuth = true

/-- What must have come before a command: a reply to the one before, and for some commands a certain
one. -/
def Allowed (command : Command) (log : List Traffic) : Prop :=
  Replied (fun _ => True) log ∧
  match command with
  | .cramResponse => AnsweredBy .authCramMD5 (· = [51, 51, 52]) log
  | .username => AnsweredBy .authLogin (· = [51, 51, 52]) log
  | .password => AnsweredBy .username (· = [51, 51, 52]) log
  | .mailFrom => HelloAccepted log ∧ (AuthStarted log →
      ∃ auth, auth.endsAuth = true ∧ AnsweredBy auth Positive log)
  | .rcptTo => AnsweredBy .mailFrom Positive log
  | .data => AnsweredBy .rcptTo Positive log
  | .message => AnsweredBy .data Intermediate log
  | _ => True

def InStep : List Traffic → Prop
  | [] => True
  | .received _ :: log => InStep log
  | .sent command _ :: log => Allowed command log ∧ InStep log

namespace Smtp

/-- The client is in step, and has looked inside the lines only. -/
structure Sound (s : Smtp) : Prop where
  inStep : InStep s.log
  inside : s.beyondEnd = false

/-- `authenticate` will skip the authentication. -/
def SkipsAuthentication (C : Codec) (s : Smtp) : Prop :=
  "AUTH" ∉ s.extensions ∨ s.username = "" ∨ s.password = "" ∨
    ("CRAM-MD5" ∉ s.authModes C ∧ "PLAIN" ∉ s.authModes C ∧ "LOGIN" ∉ s.authModes C)
  deriving Decidable

/-- What is asked of a line in a state. -/
def SuitsIn (C : Codec) (s : Smtp) (line : List UInt8) : State → Prop
  | .init => line ≠ [] ∧ (Positive line → 4 ≤ line.length)
  | .ehloSent => 4 ≤ line.length ∧ (line.take 3 ≠ [50, 53, 48] → Complete line)
  | .heloSent | .ehloGreetReceived => 4 ≤ line.length
  | .startTLSSent =>
    line.take 3 = [50, 50, 48] ∨ ¬ s.SkipsAuthentication C → Complete line
  | .authRequestSent | .authUsernameSent => Complete line ∧ line.take 3 = [51, 51, 52]
  | .authSent | .rcpt | .data | .quit => line ≠ [] ∧ (Positive line → Complete line)
  | .body => line ≠ [] ∧ (Intermediate line → Complete line)
  | .authenticated => ∀ line ∈ (answers s.log).head?, Complete line
  | .ehloDone | .close => True

/-- The line suits the state: it has the bytes that are looked at, it ends its reply where a command
is sent upon it, and a challenge has the code of one. -/
def Suits (C : Codec) (s : Smtp) (line : List UInt8) : Prop := s.SuitsIn C line s.state

instance (C : Codec) (s : Smtp) (line : List UInt8) : ∀ state, Decidable (s.SuitsIn C line state) := fun e => by
  cases e <;> unfold SuitsIn <;> infer_instance

instance (C : Codec) (s : Smtp) (line : List UInt8) : Decidable (s.Suits C line) :=
  inferInstanceAs (Decidable (s.SuitsIn C line s.state))

def Careful (C : Codec) (s : Smtp) : Event → Prop
  | .receive _ => True
  | .handleLine => ∀ taken ∈ s.takeLine, s.Suits C taken.1

instance (C : Codec) (s : Smtp) (e : Event) : Decidable (s.Careful C e) :=
  match e with
  | .receive _ => isTrue trivial
  | .handleLine => inferInstanceAs (Decidable (∀ taken ∈ s.takeLine, s.Suits C taken.1))

end Smtp

section Traffic

variable {log : List Traffic} {line : List UInt8} {command : Command} {bytes : List UInt8}
  {p : List UInt8 → Prop}

/-- The newest entry is the command. -/
def LastSent (command : Command) (log : List Traffic) : Prop :=
  ∃ bytes log', log = .sent command bytes :: log'

theorem LastSent.sent : LastSent command (.sent command bytes :: log) := ⟨bytes, log, rfl⟩

theorem LastSent.answers (h : LastSent command log) : answers log = [] := by
  obtain ⟨bytes, log', rfl⟩ := h
  rfl

theorem LastSent.lastCommand (h : LastSent command log) : lastCommand log = some command := by
  obtain ⟨bytes, log', rfl⟩ := h
  rfl

theorem replied_received (hline : Complete line) (hp : p (line.take 3)) :
    Replied p (.received line :: log) := ⟨line, .head _, hline, hp⟩

theorem replied_iff (h : answers log = []) :
    Replied p (.received line :: log) ↔ Complete line ∧ p (line.take 3) := by
  unfold Replied
  rw [answers, h]
  simp

theorem answeredBy_iff (h : LastSent command log) :
    AnsweredBy command p (.received line :: log) ↔ Complete line ∧ p (line.take 3) := by
  rw [AnsweredBy, replied_iff h.answers]
  exact and_iff_right h.lastCommand

theorem answered_allowed_iff (h : LastSent command log) :
    Replied (fun _ => True) (.received line :: log) ∧ AnsweredBy command p (.received line :: log) ↔
      Complete line ∧ p (line.take 3) := by
  rw [replied_iff h.answers, answeredBy_iff h]
  exact ⟨fun hc => hc.2, fun hc => ⟨⟨hc.1, trivial⟩, hc⟩⟩

@[simp] theorem authStarted_received :
    AuthStarted (.received line :: log) ↔ AuthStarted log := by
  simp [AuthStarted]

@[simp] theorem authStarted_sent :
    AuthStarted (.sent command bytes :: log) ↔ command.isAuth = true ∨ AuthStarted log := by
  constructor
  · rintro ⟨c, b, hmem, hauth⟩
    obtain heq | hmem := mem_cons.1 hmem
    · cases heq
      exact Or.inl hauth
    · exact Or.inr ⟨c, b, hmem, hauth⟩
  · rintro (hauth | ⟨c, b, hmem, hauth⟩)
    · exact ⟨command, bytes, .head _, hauth⟩
    · exact ⟨c, b, .tail _ hmem, hauth⟩

theorem not_authStarted_sent (h : ¬ AuthStarted log) (hcommand : command.isAuth = false) :
    ¬ AuthStarted (.sent command bytes :: log) := by
  rw [authStarted_sent, hcommand]
  exact fun hc => hc.elim (fun hc => by cases hc) h

theorem HelloAccepted.cons (h : HelloAccepted log) (t : Traffic) : HelloAccepted (t :: log) := by
  obtain ⟨log', hsuffix, hanswered⟩ := h
  exact ⟨log', hsuffix.trans (suffix_cons t log), hanswered⟩

theorem HelloAccepted.of_line
    (h : lastCommand log = some .ehlo ∨ lastCommand log = some .helo) (hline : Complete line)
    (hcode : line.take 3 = [50, 53, 48]) : HelloAccepted (.received line :: log) := by
  have hreplied : Replied (· = [50, 53, 48]) (.received line :: log) := replied_received hline hcode
  exact ⟨_, suffix_rfl, h.imp (fun h => ⟨h, hreplied⟩) (fun h => ⟨h, hreplied⟩)⟩

theorem head?_take_three (line : List UInt8) : (line.take 3).head? = line.head? := by
  cases line <;> rfl

end Traffic

namespace Smtp

/-- What the traffic looks like in a state. -/
def After (authType : AuthType) (log : List Traffic) : State → Prop
  | .init => ¬ AuthStarted log
  | .ehloSent => LastSent .ehlo log ∧ ¬ AuthStarted log
  | .heloSent => LastSent .helo log ∧ ¬ AuthStarted log
  | .ehloGreetReceived =>
    (lastCommand log = some .ehlo ∨ lastCommand log = some .helo) ∧ ¬ AuthStarted log
  | .startTLSSent => LastSent .startTLS log ∧ HelloAccepted log ∧ ¬ AuthStarted log
  | .authRequestSent => HelloAccepted log ∧
    ((authType = .authCramMD5 ∧ LastSent .authCramMD5 log) ∨
      (authType = .authLogin ∧ LastSent .authLogin log))
  | .authUsernameSent => HelloAccepted log ∧ authType = .authLogin ∧ LastSent .username log
  | .authSent => HelloAccepted log ∧ ∃ auth, auth.endsAuth = true ∧ LastSent auth log
  | .authenticated => HelloAccepted log ∧ ¬ AuthStarted log ∧
    ∃ line log', log = .received line :: log' ∧ (¬ Complete line → answers log' = [])
  | .rcpt => LastSent .mailFrom log
  | .data => LastSent .rcptTo log
  | .body => LastSent .data log
  | .quit => LastSent .message log
  | .ehloDone | .close => True

/-- The client is sound, the traffic is that of its state, and the first line of the buffer is a
fake exactly if it is about to send the mail without authentication. -/
structure Inv (s : Smtp) : Prop extends s.Sound where
  after : After s.authType s.log s.state
  fake_iff : s.fake = true ↔ s.state = .authenticated
  fakeBuffer : s.fake = true → ∃ rest, s.buffer = fakeLine ++ crlf ++ rest

/-- The condition decides whether the client stays sound. -/
def Decides (cond : Prop) (s : Smtp) : Prop := (cond → s.Inv) ∧ (¬ cond → ¬ s.Sound)

variable {cond : Prop} {s : Smtp}

theorem Decides.of_iff {cond' : Prop} (h : Decides cond s) (hiff : cond' ↔ cond) :
    Decides cond' s := ⟨fun hc => h.1 (hiff.1 hc), fun hc => h.2 (mt hiff.2 hc)⟩

theorem Decides.of_true (hcond : cond) (h : s.Inv) : Decides cond s :=
  ⟨fun _ => h, fun hc => absurd hcond hc⟩

theorem Decides.of_false (hcond : ¬ cond) (h : ¬ s.Sound) :
    Decides cond s := ⟨fun hc => absurd hc hcond, fun _ => h⟩

section Steps

variable {C : Codec} {s t : Smtp} {line : List UInt8} {log : List Traffic} {command : Command}
  {cond : Prop} {i : ℕ}

/-- The client is sound and no fake line is left. -/
structure Handling (s : Smtp) : Prop extends s.Sound where
  notFake : s.fake = false

theorem Handling.inv (h : s.Handling) (hafter : After s.authType s.log s.state)
    (hstate : s.state ≠ .authenticated) : s.Inv where
  toSound := h.toSound
  after := hafter
  fake_iff := by simp [h.notFake, hstate]
  fakeBuffer hfake := by rw [h.notFake] at hfake; cases hfake

theorem Handling.close (h : s.Handling) : Inv { s with state := .close } :=
  Handling.inv { h with } trivial (fun hstate => by cases hstate)

theorem not_sound_of_beyondEnd (h : s.beyondEnd = true) : ¬ s.Sound := fun hs => by
  rw [hs.inside] at h
  cases h

theorem Handling.decides_write (h : s.Handling) {bytes : List UInt8}
    (hlog : t.log = .sent command bytes :: s.log) (hfake : t.fake = s.fake)
    (hbeyond : t.beyondEnd = s.beyondEnd) (hafter : cond → After t.authType t.log t.state)
    (hstate : t.state ≠ .authenticated) (hallowed : Allowed command s.log ↔ cond) :
    Decides cond t := by
  constructor
  · intro hc
    have hs : t.Sound := ⟨by rw [hlog]; exact ⟨hallowed.2 hc, h.inStep⟩, by rw [hbeyond, h.inside]⟩
    exact Handling.inv ⟨hs, by rw [hfake, h.notFake]⟩ (hafter hc) hstate
  · intro hc hs
    have := hs.inStep
    rw [hlog] at this
    exact hc (hallowed.1 this.1)

theorem onDigit_nil (digit : UInt8) (hdigit : digit ≠ 0) (f : Smtp → Smtp) (s : Smtp) :
    (onDigit digit [] f s).beyondEnd = true := by
  unfold onDigit look
  dsimp only
  rw [if_neg (by simpa using hdigit.symm)]
  simp

theorem onDigit_cons (digit c : UInt8) (cs : List UInt8) (f : Smtp → Smtp) (s : Smtp) :
    onDigit digit (c :: cs) f s = if c = digit then f s else { s with state := .close } := by
  have hlook : s.look ((c :: cs).take 3) 0 = (c, s) := by
    unfold look
    simp
  unfold onDigit
  rw [hlook]

theorem Handling.decides_onDigit (h : s.Handling) {digit : UInt8} (hdigit : digit ≠ 0)
    {f : Smtp → Smtp} (hf : line.head? = some digit → Decides cond (f s)) :
    Decides (line ≠ [] ∧ (line.head? = some digit → cond)) (onDigit digit line f s) := by
  cases line with
  | nil =>
    exact .of_false (fun hc => hc.1 rfl) (not_sound_of_beyondEnd (onDigit_nil digit hdigit f s))
  | cons c cs =>
    rw [onDigit_cons]
    by_cases hc : c = digit
    · rw [if_pos hc]
      exact (hf (by rw [hc]; rfl)).of_iff (by simp [hc])
    · rw [if_neg hc]
      exact .of_true ⟨by simp, fun hhead => absurd (some.inj hhead) hc⟩ h.close

/-! ### Authentication -/

theorem skipAuthentication_inv (h : s.Handling) (hhello : HelloAccepted s.log)
    (hauth : ¬ AuthStarted s.log) (hlog : s.log = .received line :: log)
    (hline : ¬ Complete line → answers log = []) : s.skipAuthentication.Inv := { h with
  after := ⟨hhello, hauth, line, log, hlog, hline⟩
  fake_iff := iff_of_true rfl rfl
  fakeBuffer _ := ⟨s.buffer, rfl⟩ }

theorem allowed_iff (hlog : s.log = .received line :: log)
    (hline : ¬ Complete line → answers log = [])
    (hcommand : Allowed command s.log ↔ Replied (fun _ => True) s.log) :
    Allowed command s.log ↔ Complete line := by
  rw [hcommand, hlog]
  by_cases hc : Complete line
  · exact iff_of_true (replied_received hc trivial) hc
  · rw [replied_iff (hline hc)]
    exact and_iff_left trivial

theorem authenticate_decides (h : s.Handling) (hhello : HelloAccepted s.log)
    (hauth : ¬ AuthStarted s.log) (hlog : s.log = .received line :: log)
    (hline : ¬ Complete line → answers log = []) (hrequest : s.state ≠ .authRequestSent)
    (husername : s.state ≠ .authUsernameSent) :
    Decides (¬ s.SkipsAuthentication C → Complete line) (s.authenticate C) := by
  have hskip (hskips : s.SkipsAuthentication C) :
      Decides (¬ s.SkipsAuthentication C → Complete line) s.skipAuthentication :=
    .of_true (fun hno => absurd hskips hno) (skipAuthentication_inv h hhello hauth hlog hline)
  have hsent (command : Command) (bytes : List UInt8) :
      HelloAccepted (.sent command bytes :: s.log) := hhello.cons _
  have hneeds {command : Command} (hfree : Allowed command s.log ↔ Replied (fun _ => True) s.log)
      (hno : ¬ s.SkipsAuthentication C) :
      Allowed command s.log ↔ (¬ s.SkipsAuthentication C → Complete line) := by
    rw [allowed_iff hlog hline hfree]
    exact ⟨fun hc _ => hc, fun hc => hc hno⟩
  unfold authenticate
  split_ifs with hnone hcram hplain hlogin
  · exact hskip (by unfold SkipsAuthentication; tauto)
  · have hno : ¬ s.SkipsAuthentication C := by unfold SkipsAuthentication; tauto
    rw [authCramMD5, if_pos hrequest]
    exact h.decides_write rfl rfl rfl (fun _ => ⟨hsent _ _, Or.inl ⟨rfl, .sent⟩⟩)
      (fun hstate => by cases hstate) (hneeds (and_iff_left trivial) hno)
  · have hno : ¬ s.SkipsAuthentication C := by unfold SkipsAuthentication; tauto
    rw [authPlain, if_pos hrequest]
    exact h.decides_write rfl rfl rfl (fun _ => ⟨hsent _ _, _, rfl, .sent⟩)
      (fun hstate => by cases hstate) (hneeds (and_iff_left trivial) hno)
  · have hno : ¬ s.SkipsAuthentication C := by unfold SkipsAuthentication; tauto
    rw [authLogin, if_pos ⟨hrequest, husername⟩]
    exact h.decides_write rfl rfl rfl (fun _ => ⟨hsent _ _, Or.inr ⟨rfl, .sent⟩⟩)
      (fun hstate => by cases hstate) (hneeds (and_iff_left trivial) hno)
  · exact hskip (by unfold SkipsAuthentication; tauto)

theorem beyondEnd_authenticate : (s.authenticate C).beyondEnd = s.beyondEnd := by
  unfold authenticate authCramMD5 authPlain authLogin
  split_ifs <;> rfl

/-! ### The reply to EHLO -/

theorem look_of_lt (h : i < line.length) : s.look line i = (line.getD i 0, s) := by
  unfold look
  rw [decide_eq_false (by omega), Bool.or_false]

theorem beyondEnd_look (h : line.length ≤ i) : (s.look line i).2.beyondEnd = true := by
  simp [look, h]

theorem beyondEnd_parseEhloResponse (code : List UInt8) (continued : Bool) (text : String) :
    (s.parseEhloResponse C code continued text).beyondEnd = s.beyondEnd := by
  unfold parseEhloResponse
  split_ifs <;> (try rfl) <;> dsimp only
  all_goals (split_ifs <;> first | rfl | exact beyondEnd_authenticate)

theorem complete_of_space (hlen : 4 ≤ line.length) (h : line.getD 3 0 = space) :
    Complete line := by
  rw [getD_eq_getElem?_getD, getElem?_eq_getElem (by omega)] at h
  rw [Complete, getElem?_eq_getElem (by omega)]
  intro hc
  rw [getD_some, some.inj hc] at h
  exact absurd h (by decide)

theorem greeted_inv (h : s.Handling) (hdone : s.state = .ehloDone)
    (hlog : s.log = .received line :: log) (hline : Complete line)
    (hcode : line.take 3 = [50, 53, 48]) (hauth : ¬ AuthStarted s.log)
    (hhello : lastCommand log = some .ehlo ∨ lastCommand log = some .helo) :
    Inv (if "STARTTLS" ∈ s.extensions ∧ s.useSsl = true then s.startTLS else s.authenticate C) := by
  have haccepted : HelloAccepted s.log := by
    rw [hlog]
    exact .of_line hhello hline hcode
  split_ifs
  · have hdecides : Decides (Complete line) s.startTLS := by
      exact h.decides_write rfl rfl rfl
        (fun _ => ⟨.sent, haccepted.cons _, not_authStarted_sent hauth rfl⟩)
        (fun hstate => by cases hstate) (allowed_iff hlog (absurd hline) (and_iff_left trivial))
    exact hdecides.1 hline
  · refine (authenticate_decides h haccepted hauth hlog (absurd hline) ?_ ?_).1 fun _ => hline <;>
    · rw [hdone]
      decide

theorem parseEhloResponse_decides (h : s.Handling) (hlog : s.log = .received line :: log)
    (hlen : 4 ≤ line.length) (hstate : (s.state = .ehloSent ∧ LastSent .ehlo log) ∨
      (s.state = .heloSent ∧ LastSent .helo log) ∨ s.state = .ehloGreetReceived)
    (hhello : lastCommand log = some .ehlo ∨ lastCommand log = some .helo)
    (hauth : ¬ AuthStarted s.log) :
    Decides (s.state = .ehloSent → line.take 3 ≠ [50, 53, 48] → Complete line)
      (s.parseEhloResponse C (line.take 3) (line.getD 3 0 ≠ space) (decodeUtf8 (line.drop 4))) := by
  have hlast : lastCommand s.log = lastCommand log := by rw [hlog]; rfl
  unfold parseEhloResponse
  by_cases hcode : line.take 3 = [50, 53, 48]
  · rw [if_neg (not_not.2 hcode)]
    refine .of_true (fun _ hne => absurd hcode hne) ?_
    by_cases hcontinued : line.getD 3 0 = space
    · have hline := complete_of_space hlen hcontinued
      simp only [hcontinued, ne_eq, not_true, decide_false, Bool.false_eq_true, and_false, if_false]
      by_cases hgreet : s.state = .ehloGreetReceived
      · simp only [hgreet, not_true, if_false]
        exact greeted_inv (s := { s with
            extensions := s.extensions.insert (C.toUpper (firstWord (decodeUtf8 (line.drop 4))))
              (otherWords (decodeUtf8 (line.drop 4)))
            state := .ehloDone })
          { h with } rfl hlog hline hcode hauth hhello
      · simp only [hgreet, not_false_eq_true, if_true, not_true, if_false]
        exact greeted_inv (s := { s with state := .ehloDone })
          { h with } rfl hlog hline hcode hauth hhello
    · simp only [hcontinued, ne_eq, not_false_eq_true, decide_true, and_true, if_true]
      by_cases hgreet : s.state = .ehloGreetReceived
      · rw [if_neg (not_not.2 hgreet), if_neg (not_not.2 hgreet)]
        rw [if_pos (by rw [hgreet]; decide)]
        refine Handling.inv { h with } ?_ (by rw [hgreet]; decide)
        rw [hgreet]
        exact ⟨by rw [hlast]; exact hhello, hauth⟩
      · rw [if_pos hgreet]
        refine Handling.inv { h with } ?_ (fun hs => by cases hs)
        exact ⟨by rw [hlast]; exact hhello, hauth⟩
  · rw [if_pos hcode]
    by_cases hsent : s.state = .ehloSent
    · rw [if_pos hsent]
      have hlog' : LastSent .ehlo log := by
        obtain ⟨-, hlog'⟩ | ⟨hs, -⟩ | hs := hstate
        · exact hlog'
        · rw [hsent] at hs
          cases hs
        · rw [hsent] at hs
          cases hs
      refine h.decides_write rfl rfl rfl (fun _ => ⟨.sent, not_authStarted_sent hauth rfl⟩)
        (fun hs => by cases hs) ?_
      rw [allowed_iff hlog (fun _ => hlog'.answers) (and_iff_left trivial)]
      exact ⟨fun hc _ _ => hc, fun hc => hc hsent hcode⟩
    · rw [if_neg hsent]
      exact .of_true (fun hs => absurd hs hsent) h.close

/-- A line of a reply to EHLO or HELO. -/
theorem readReply_decides (h : t.Handling) (hlog : t.log = .received line :: log)
    (hstate : (t.state = .ehloSent ∧ LastSent .ehlo log) ∨
      (t.state = .heloSent ∧ LastSent .helo log) ∨ t.state = .ehloGreetReceived)
    (hhello : lastCommand log = some .ehlo ∨ lastCommand log = some .helo)
    (hauth : ¬ AuthStarted log) :
    Decides (4 ≤ line.length ∧ (t.state = .ehloSent → line.take 3 ≠ [50, 53, 48] → Complete line))
      ((t.look line 3).2.parseEhloResponse C (line.take 3) ((t.look line 3).1 ≠ space)
        (decodeUtf8 (line.drop 4))) := by
  by_cases hlen : 4 ≤ line.length
  · rw [look_of_lt (by omega)]
    refine (parseEhloResponse_decides h hlog hlen hstate hhello ?_).of_iff (and_iff_right hlen)
    rw [hlog]
    exact mt authStarted_received.1 hauth
  · refine .of_false (fun hc => hlen hc.1) (not_sound_of_beyondEnd ?_)
    rw [beyondEnd_parseEhloResponse]
    exact beyondEnd_look (by omega)

/-! ### The switch -/

theorem handleReply_decides (h : t.Handling) (hafter : After t.authType log t.state)
    (hstate : t.state ≠ .authenticated) (hlog : t.log = .received line :: log) :
    Decides (t.Suits C line) (t.handleReply C line) := by
  have hpositive : Positive (line.take 3) ↔ line.head? = some 50 := by
    rw [Positive, head?_take_three]
  have hintermediate : Intermediate (line.take 3) ↔ line.head? = some 51 := by
    rw [Intermediate, head?_take_three]
  cases hst : t.state <;> rw [hst] at hafter hstate <;> unfold Suits SuitsIn handleReply <;>
    simp only [hst]
  case authenticated => exact absurd rfl hstate
  case ehloDone =>
    exact .of_true trivial (h.inv (by rw [hst]; exact trivial) (by rw [hst]; decide))
  case close => exact .of_true trivial (h.inv (by rw [hst]; exact trivial) (by rw [hst]; decide))
  case init =>
    refine h.decides_onDigit (by decide) fun _ => ?_
    by_cases hlen : 4 ≤ line.length
    · rw [look_of_lt (by omega)]
      refine .of_true hlen ?_
      split_ifs with hspace
      · refine h.inv ?_ (by rw [hst]; decide)
        rw [hst, hlog]
        exact mt authStarted_received.1 hafter
      · have hline := complete_of_space hlen (not_not.1 hspace)
        have hdecides : Decides (Complete line) (t.ehlo C) := by
          refine h.decides_write rfl rfl rfl
            (fun _ => ⟨.sent, not_authStarted_sent ?_ rfl⟩) (fun hs => by cases hs)
            (allowed_iff hlog (absurd hline) (and_iff_left trivial))
          rw [hlog]
          exact mt authStarted_received.1 hafter
        exact hdecides.1 hline
    · refine .of_false hlen (not_sound_of_beyondEnd ?_)
      have hbeyond : (t.look line 3).2.beyondEnd = true := beyondEnd_look (by omega)
      split_ifs
      · exact hbeyond
      · exact hbeyond
  case ehloSent =>
    refine (readReply_decides h hlog (.inl ⟨hst, hafter.1⟩) (.inl hafter.1.lastCommand)
      hafter.2).of_iff ?_
    rw [forall_prop_of_true hst]
  case heloSent =>
    refine (readReply_decides h hlog (.inr (.inl ⟨hst, hafter.1⟩)) (.inr hafter.1.lastCommand)
      hafter.2).of_iff ?_
    simp [hst]
  case ehloGreetReceived =>
    refine (readReply_decides h hlog (.inr (.inr hst)) hafter.1 hafter.2).of_iff ?_
    simp [hst]
  case startTLSSent =>
    obtain ⟨hlast, hhello, hauth⟩ := hafter
    have hauth' : ¬ AuthStarted t.log := by rw [hlog]; exact mt authStarted_received.1 hauth
    by_cases hcode : line.take 3 = [50, 50, 48]
    · rw [if_pos hcode]
      refine h.decides_write rfl rfl rfl
        (fun _ => ⟨.sent, not_authStarted_sent hauth' rfl⟩) (fun hs => by cases hs) ?_
      rw [allowed_iff hlog (fun _ => hlast.answers) (and_iff_left trivial)]
      exact ⟨fun hc _ => hc, fun hc => hc (Or.inl hcode)⟩
    · rw [if_neg hcode]
      refine (authenticate_decides (C := C) h ?_ hauth' hlog (fun _ => hlast.answers)
        (by rw [hst]; decide) (by rw [hst]; decide)).of_iff ?_
      · rw [hlog]
        exact hhello.cons _
      · rw [or_iff_right hcode]
  case authRequestSent =>
    obtain ⟨hhello, hlast⟩ := hafter
    have haccepted : HelloAccepted t.log := by rw [hlog]; exact hhello.cons _
    obtain ⟨htype, hlast⟩ | ⟨htype, hlast⟩ := hlast
    · rw [htype]
      rw [authCramMD5, if_neg (not_not.2 hst)]
      refine h.decides_write rfl rfl rfl (fun _ => ⟨haccepted.cons _, _, rfl, .sent⟩)
        (fun hs => by cases hs) ?_
      rw [hlog]
      exact answered_allowed_iff hlast
    · rw [htype]
      rw [authLogin, if_neg (fun hc => hc.1 hst), if_pos hst]
      refine h.decides_write rfl rfl rfl (fun _ => ⟨haccepted.cons _, htype, .sent⟩)
        (fun hs => by cases hs) ?_
      rw [hlog]
      exact answered_allowed_iff hlast
  case authUsernameSent =>
    obtain ⟨hhello, htype, hlast⟩ := hafter
    rw [htype]
    have haccepted : HelloAccepted t.log := by rw [hlog]; exact hhello.cons _
    rw [authLogin, if_neg (fun hc => hc.2 hst), if_neg (by rw [hst]; decide)]
    refine h.decides_write rfl rfl rfl (fun _ => ⟨haccepted.cons _, _, rfl, .sent⟩)
      (fun hs => by cases hs) ?_
    rw [hlog]
    exact answered_allowed_iff hlast
  case authSent =>
    obtain ⟨hhello, auth, hends, hlast⟩ := hafter
    refine h.decides_onDigit (by decide) fun hhead => ?_
    refine h.decides_write rfl rfl rfl (fun _ => .sent) (fun hs => by cases hs) ?_
    rw [hlog]
    constructor
    · rintro ⟨hreplied, -⟩
      exact ((replied_iff hlast.answers).1 hreplied).1
    · intro hline
      have hanswered : AnsweredBy auth Positive (.received line :: log) :=
        (answeredBy_iff hlast).2 ⟨hline, hpositive.2 hhead⟩
      exact ⟨replied_received hline trivial, hhello.cons _, fun _ => ⟨auth, hends, hanswered⟩⟩
  case rcpt =>
    refine h.decides_onDigit (by decide) fun hhead => ?_
    refine h.decides_write rfl rfl rfl (fun _ => .sent) (fun hs => by cases hs) ?_
    rw [hlog]
    exact (answered_allowed_iff hafter).trans (and_iff_left (hpositive.2 hhead))
  case data =>
    refine h.decides_onDigit (by decide) fun hhead => ?_
    refine h.decides_write rfl rfl rfl (fun _ => .sent) (fun hs => by cases hs) ?_
    rw [hlog]
    exact (answered_allowed_iff hafter).trans (and_iff_left (hpositive.2 hhead))
  case body =>
    refine h.decides_onDigit (by decide) fun hhead => ?_
    refine h.decides_write rfl rfl rfl (fun _ => .sent) (fun hs => by cases hs) ?_
    rw [hlog]
    exact (answered_allowed_iff hafter).trans (and_iff_left (hintermediate.2 hhead))
  case quit =>
    refine h.decides_onDigit (by decide) fun hhead => ?_
    refine h.decides_write rfl rfl rfl (fun _ => trivial) (fun hs => by cases hs) ?_
    exact allowed_iff hlog (fun _ => hafter.answers) (and_iff_left trivial)

theorem handleFake_decides (h : t.Handling) (hafter : After t.authType t.log .authenticated)
    (hstate : t.state = .authenticated) :
    Decides (t.Suits C fakeLine) (t.handleReply C fakeLine) := by
  obtain ⟨hhello, hauth, line, log, hlog, hline⟩ := hafter
  have hallowed : Allowed .mailFrom t.log ↔ Complete line := by
    have hquit : Allowed .quit t.log ↔ Complete line :=
      allowed_iff hlog hline (and_iff_left trivial)
    rw [← hquit]
    exact and_congr_right fun _ => iff_of_true ⟨hhello, fun hc => absurd hc hauth⟩ trivial
  have hdecides : Decides (fakeLine ≠ [] ∧ (fakeLine.head? = some 50 → Complete line))
      (t.handleReply C fakeLine) := by
    unfold handleReply
    simp only [hstate]
    exact h.decides_onDigit (by decide) fun _ =>
      h.decides_write rfl rfl rfl (fun _ => .sent) (fun hs => by cases hs) hallowed
  refine hdecides.of_iff ?_
  unfold Suits SuitsIn
  rw [hstate, hlog]
  simp only [answers, head?_cons, mem_some_iff, forall_eq']
  exact ⟨fun hc => ⟨by decide, fun _ => hc⟩, fun hc => hc.2 (by decide)⟩

theorem takeLine_fake (hfake : s.fake = true) {rest : List UInt8}
    (hbuffer : s.buffer = fakeLine ++ crlf ++ rest) :
    s.takeLine = some (fakeLine, { s with buffer := rest, fake := false }) := by
  have hindex : firstIndex crlf s.buffer = some fakeLine.length := by
    rw [hbuffer]
    exact firstIndex_append (by decide)
  unfold takeLine
  rw [hindex, hbuffer, hfake]
  simp [crlf]

theorem takeLine_server (hfake : s.fake = false) (h : s.takeLine = some (line, t)) :
    t = { s with buffer := t.buffer, log := .received line :: s.log } := by
  obtain ⟨pos, -, heq⟩ := map_eq_some_iff.1 h
  cases heq
  rw [hfake]
  rfl

theorem Inv.receive (h : s.Inv) (bytes : List UInt8) : (s.next C (.receive bytes)).Inv := { h with
  fakeBuffer hfake := by
    obtain ⟨rest, hbuffer⟩ := h.fakeBuffer hfake
    refine ⟨rest ++ bytes, ?_⟩
    change s.buffer ++ bytes = _
    rw [hbuffer, append_assoc] }

theorem Inv.handleLine (h : s.Inv) (hpossible : s.Possible .handleLine) :
    Decides (s.Careful C .handleLine) (s.next C .handleLine) := by
  obtain ⟨⟨line, t⟩, htaken⟩ := isSome_iff_exists.1 hpossible
  have hnext : s.next C .handleLine = t.handleReply C line := by
    unfold next
    rw [htaken]
  have hcareful : s.Careful C .handleLine ↔ s.Suits C line := by
    unfold Careful
    rw [htaken]
    simp
  rw [hnext]
  cases hfake : s.fake with
  | true =>
    obtain ⟨rest, hbuffer⟩ := h.fakeBuffer hfake
    rw [takeLine_fake hfake hbuffer] at htaken
    cases htaken
    have hstate := h.fake_iff.1 hfake
    have hafter := h.after
    rw [hstate] at hafter
    exact (handleFake_decides (C := C) (t := { s with buffer := rest, fake := false })
      ⟨⟨h.inStep, h.inside⟩, rfl⟩ hafter hstate).of_iff hcareful
  | false =>
    have ht := takeLine_server hfake htaken
    have hstate : s.state ≠ .authenticated := fun hs => by
      rw [h.fake_iff.2 hs] at hfake
      cases hfake
    have hafter : After t.authType s.log t.state := by
      rw [ht]
      exact h.after
    have hdecides : Decides (t.Suits C line) (t.handleReply C line) := handleReply_decides
      ⟨⟨by rw [ht]; exact h.inStep, by rw [ht]; exact h.inside⟩, by rw [ht]; exact hfake⟩ hafter
      (by rw [ht]; exact hstate) (by rw [ht])
    refine hdecides.of_iff (hcareful.trans ?_)
    unfold Suits
    rw [ht]
    cases hs : s.state <;> first | exact absurd hs hstate | exact Iff.rfl

end Steps

/-! ### The loop -/

/-- **The client keeps in step exactly as long as it is careful.**  For every mail, all credentials
and any use of encryption, in every run of bytes that come in any portions and lines handled one by
one: a command is sent only upon a complete reply to the one before and when that allows it, and no
line is indexed beyond its end, as long as and only as long as each line suits the state in which it
is handled. -/
theorem inStep_iff_careful (C : Codec) (message : List UInt8)
    (mailFrom mailTo username password : String) (useSsl : Bool) (events : List Event)
    (hrun : ((machine C).run (sendMail message mailFrom mailTo username password useSsl)
      events).isSome = true) :
    (machine C).Always Sound (sendMail message mailFrom mailTo username password useSsl) events ↔
      (machine C).Meets (Careful C) (sendMail message mailFrom mailTo username password useSsl)
        events := by
  refine Machine.guarded_always_iff_meets (I := Inv) ?_ (fun _ h => h.toSound) ?_ ?_ hrun
  · exact Handling.inv ⟨⟨trivial, rfl⟩, rfl⟩ (by simp [After, AuthStarted, sendMail])
      (fun hs => by cases hs)
  · intro s e h hp hc
    cases e with
    | receive bytes => exact h.receive bytes
    | handleLine => exact (h.handleLine hp).1 hc
  · intro s e h hp hc
    cases e with
    | receive bytes => exact absurd trivial hc
    | handleLine => exact (h.handleLine hp).2 hc

/-! ### Runs on two servers -/

/-- Encodings that leave their arguments as they are. -/
def plainCodec : Codec where
  toLatin1 := toUtf8
  toUpper s := s
  toBase64 b := b
  fromBase64 b := b
  toHex b := b
  hmacMD5 key message := key ++ message
  fqdn := toUtf8 "localhost"

def lines (texts : List String) : List UInt8 := texts.flatMap fun text => toUtf8 text ++ crlf

/-- A server without extensions, whose replies have one line each. -/
def shortRun : List Event :=
  [.receive (lines ["220 ready"]), .handleLine, .receive (toUtf8 "250 he"),
    .receive (lines ["llo"]), .handleLine, .handleLine, .receive (lines ["250 ok"]), .handleLine]

theorem inStep_iff_careful_shortRun :
    (machine plainCodec).Always Sound (sendMail [] "a" "b" "" "" false) shortRun :=
  (inStep_iff_careful plainCodec [] "a" "b" "" "" false shortRun (by decide)).2 (by decide)

/-- A server whose reply to MAIL FROM has two lines. -/
def longRun : List Event :=
  [.receive (lines ["220 ready", "250 hello", "250-sender", "250 ok"]), .handleLine, .handleLine,
    .handleLine, .handleLine]

/-- RCPT TO is sent upon the first line of the reply to MAIL FROM. -/
theorem longRun_not_sound :
    ((machine plainCodec).run (sendMail [] "a" "b" "" "" false) longRun).isSome = true ∧
    ¬ (machine plainCodec).Always Sound (sendMail [] "a" "b" "" "" false) longRun := by
  refine ⟨by decide, fun h => ?_⟩
  obtain ⟨s, hs⟩ := isSome_iff_exists.1 (show ((machine plainCodec).run
    (sendMail [] "a" "b" "" "" false) longRun).isSome = true by decide)
  have hlast : ∀ s ∈ (machine plainCodec).run (sendMail [] "a" "b" "" "" false) longRun,
      lastCommand s.log = some .rcptTo ∧ answers s.log = [] ∧
        ∀ line ∈ answers s.log.tail, ¬ Complete line := by
    decide
  obtain ⟨hcommand, hanswers, hincomplete⟩ := hlast s hs
  have hstep := (h.at_end hs).inStep
  cases hlog : s.log with
  | nil =>
    rw [hlog] at hcommand
    cases hcommand
  | cons t log =>
    rw [hlog] at hanswers hincomplete hstep
    cases t with
    | received line => cases hanswers
    | sent command bytes =>
      obtain ⟨⟨line, hmem, hline, -⟩, -⟩ := hstep.1
      exact hincomplete line hmem hline

end Smtp

end Net

end QBittorrent
