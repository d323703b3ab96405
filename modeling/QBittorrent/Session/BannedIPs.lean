import Mathlib.Data.Finset.Option
import QBittorrent.Lib.Machine

/-!
# Bans and the IP filter

libtorrent's IP filter is to be the rules of the filter file with the banned addresses.  The session
sets it as a whole when a file has been parsed, or filtering is switched off.  A ban is added by a
task in another thread, which reads the filter and sets it with one more rule.

* `Inv.next` : each covered step;
* `right_of_undisturbed` : the filter is right when all is done.
-/

namespace QBittorrent.BannedIPs

open Finset List Option

/-- The state of a `FilterParserThread`: it runs, or has sent one of its signals at the end. -/
inductive ParserStatus where
  | running | parsed | failed
  deriving DecidableEq

/-- The signals of a `FilterParserThread`, queued for the session. -/
inductive ParserSignal where
  | IPFilterParsed | IPFilterError
  deriving DecidableEq

variable {Address : Type} [DecidableEq Address]

structure FilterParserThread (Address : Type) where
  filePath : String
  filter : Finset Address := ∅
  status : ParserStatus := .running

structure BanTask (Address : Type) where
  addr : Address
  filter : Finset Address

structure SessionImpl (Address : Type) where
  isIPFilteringEnabled : Bool
  IPFilterFile : String
  bannedIPs : Finset String
  IPFilteringConfigured : Bool := false
  deferredConfigureScheduled : Bool := true
  filterParser : Option (FilterParserThread Address) := none
  /-- The signals that are not handled. -/
  signals : List ParserSignal := []
  /-- The tasks of `m_asyncWorker`, which has one thread. -/
  tasks : List Address := []
  running : Option (BanTask Address) := none
  /-- libtorrent's IP filter. -/
  ipFilter : Finset Address := ∅

/-- `processFilterFile`: a run that is not over is aborted. -/
def FilterParserThread.processFilterFile (filePath : String) : FilterParserThread Address :=
  { filePath := filePath }

namespace SessionImpl

variable (makeAddress : String → Option Address) (s : SessionImpl Address)

def configureDeferred : SessionImpl Address := { s with deferredConfigureScheduled := true }

def setIPFilteringEnabled (enabled : Bool) : SessionImpl Address :=
  if enabled ≠ s.isIPFilteringEnabled then
    { s with isIPFilteringEnabled := enabled, IPFilteringConfigured := false }.configureDeferred
  else s

def setIPFilterFile (path : String) : SessionImpl Address :=
  if path ≠ s.IPFilterFile then
    { s with IPFilterFile := path, IPFilteringConfigured := false }.configureDeferred
  else s

/-- The rules of `processBannedIPs`. -/
def bannedAddresses : Finset Address :=
  s.bannedIPs.biUnion fun ip => (makeAddress ip).toFinset

def processBannedIPs (filter : Finset Address) : Finset Address :=
  filter ∪ s.bannedAddresses makeAddress

/-- The parser starts over, or is created. -/
def enableIPFilter : SessionImpl Address :=
  { s with filterParser := some (.processFilterFile s.IPFilterFile) }

def disableIPFilter : SessionImpl Address :=
  { s with filterParser := none, ipFilter := s.processBannedIPs makeAddress ∅ }

/-- `configure`, as far as the IP filter goes. -/
def configure : SessionImpl Address :=
  let s' :=
    if s.IPFilteringConfigured = false then
      { (if s.isIPFilteringEnabled then s.enableIPFilter else s.disableIPFilter makeAddress) with
        IPFilteringConfigured := true }
    else s
  { s' with deferredConfigureScheduled := false }

def handleIPFilterParsed : SessionImpl Address :=
  match s.filterParser with
  | none => s
  | some parser => { s with ipFilter := s.processBannedIPs makeAddress parser.filter }

def handleIPFilterError : SessionImpl Address :=
  { s with ipFilter := s.processBannedIPs makeAddress ∅ }

/-- The event loop delivers a signal of a parser thread, that may be deleted or run again. -/
def handleSignal : SessionImpl Address :=
  match s.signals with
  | [] => s
  | .IPFilterParsed :: signals => { s with signals := signals }.handleIPFilterParsed makeAddress
  | .IPFilterError :: signals => { s with signals := signals }.handleIPFilterError makeAddress

def banIP (ip : String) : SessionImpl Address :=
  if ip ∈ s.bannedIPs then s
  else
    match makeAddress ip with
    | none => s
    | some addr => { s with tasks := s.tasks ++ [addr], bannedIPs := insert ip s.bannedIPs }

/-- The thread of the parser reads a line of the file. -/
def addRules (rules : Finset Address) : SessionImpl Address :=
  { s with filterParser := s.filterParser.map fun parser =>
      { parser with filter := parser.filter ∪ rules } }

/-- The thread of the parser ends with one of its signals. -/
def finishParsing (success : Bool) : SessionImpl Address :=
  { s with
    filterParser := s.filterParser.map fun parser =>
      { parser with status := if success then .parsed else .failed }
    signals := s.signals ++ [if success then .IPFilterParsed else .IPFilterError] }

/-- The first half of a task. -/
def readFilter : SessionImpl Address :=
  match s.tasks with
  | [] => s
  | addr :: tasks => { s with tasks := tasks, running := some ⟨addr, s.ipFilter⟩ }

/-- The second half of a task. -/
def writeFilter : SessionImpl Address :=
  match s.running with
  | none => s
  | some task => { s with running := none, ipFilter := insert task.addr task.filter }

/-- The parser thread is at work. -/
def IsParsing : Prop := ∃ parser ∈ s.filterParser, parser.status = .running

instance : Decidable s.IsParsing := s.filterParser.decidableExistsMem

end SessionImpl

/-- What happens in the three threads. -/
inductive FilterEvent (Address : Type) where
  | setIPFilteringEnabled (enabled : Bool)
  | setIPFilterFile (path : String)
  | configure
  | banIP (ip : String)
  | addRules (rules : Finset Address)
  | finishParsing (success : Bool)
  | handleSignal
  | readFilter
  | writeFilter

namespace SessionImpl

variable (makeAddress : String → Option Address) (s : SessionImpl Address)

def next : FilterEvent Address → SessionImpl Address
  | .setIPFilteringEnabled enabled => s.setIPFilteringEnabled enabled
  | .setIPFilterFile path => s.setIPFilterFile path
  | .configure => s.configure makeAddress
  | .banIP ip => s.banIP makeAddress ip
  | .addRules rules => s.addRules rules
  | .finishParsing success => s.finishParsing success
  | .handleSignal => s.handleSignal makeAddress
  | .readFilter => s.readFilter
  | .writeFilter => s.writeFilter

def Possible : FilterEvent Address → Prop
  | .setIPFilteringEnabled _ | .setIPFilterFile _ | .banIP _ => True
  | .configure => s.deferredConfigureScheduled = true
  | .addRules _ | .finishParsing _ => s.IsParsing
  | .handleSignal => s.signals ≠ []
  | .readFilter => s.tasks ≠ [] ∧ s.running = none
  | .writeFilter => s.running.isSome = true

instance : DecidablePred s.Possible := fun e => by
  cases e <;> unfold Possible <;> infer_instance

end SessionImpl

/-- The runs of the session from its start, with any settings. -/
def machine (makeAddress : String → Option Address) :
    Machine (SessionImpl Address) (FilterEvent Address) :=
  .guarded SessionImpl.Possible (SessionImpl.next makeAddress)

/-! ### The filter that is right -/

/-- All tasks and signals are handled. -/
def Drained (s : SessionImpl Address) : Prop :=
  s.deferredConfigureScheduled = false ∧ ¬s.IsParsing ∧ s.signals = [] ∧ s.tasks = [] ∧
    s.running = none

namespace SessionImpl

variable (makeAddress : String → Option Address) (s : SessionImpl Address)

/-- The rules of the filter file, none where it is not in use or was not parsed. -/
def fileRules : Finset Address :=
  if s.isIPFilteringEnabled then
    s.filterParser.elim ∅ fun parser => if parser.status = .parsed then parser.filter else ∅
  else ∅

/-- The filter that libtorrent should have. -/
def rightFilter : Finset Address := s.fileRules ∪ s.bannedAddresses makeAddress

/-- What the tasks that wait make of a filter. -/
def afterTasks (filter : Finset Address) : Finset Address := filter ∪ s.tasks.toFinset

end SessionImpl

/-- When nothing is left to be done, the rules are those of the current file, if filtering is
enabled, and libtorrent's IP filter has these and the banned addresses. -/
def Right (makeAddress : String → Option Address) (s : SessionImpl Address) : Prop :=
  Drained s → (∀ parser ∈ s.filterParser, parser.filePath = s.IPFilterFile) ∧
    s.filterParser.isSome = s.isIPFilteringEnabled ∧ s.ipFilter = s.rightFilter makeAddress

namespace SessionImpl

variable (makeAddress : String → Option Address) (s : SessionImpl Address)

/-- What comes of a task between its halves, with those that wait, is `filter`. -/
def Written (filter : Finset Address) : Prop :=
  ∀ task ∈ s.running, s.afterTasks (insert task.addr task.filter) = filter

instance (filter : Finset Address) : Decidable (s.Written filter) :=
  s.running.decidableForallMem

/-- The signal is the last that is to be handled: the parser does not run any more. -/
def IsLastSignal : Prop :=
  s.filterParser.isSome = true ∧ ¬s.IsParsing ∧ s.signals.length = 1
  deriving Decidable

/-- The session does not set the filter for good between the halves of a task, unless the filter that
comes of the task is the same. -/
def Undisturbed : FilterEvent Address → Prop
  | .configure => s.IPFilteringConfigured = false → s.isIPFilteringEnabled = false →
    s.Written (s.bannedAddresses makeAddress)
  | .handleSignal => s.IsLastSignal → s.Written (s.rightFilter makeAddress)
  | _ => True

instance : DecidablePred (s.Undisturbed makeAddress) := fun e => by
  cases e <;> unfold Undisturbed <;> infer_instance

end SessionImpl

/-! ### The invariant -/

open SessionImpl

section inv

variable {makeAddress : String → Option Address} {s : SessionImpl Address}
  {signals : List ParserSignal}

/-- The session does not set the filter any more, of its own. -/
def Settled (s : SessionImpl Address) : Prop :=
  s.IPFilteringConfigured = true ∧
    ∀ parser ∈ s.filterParser, parser.status ≠ .running ∧ s.signals = []

/-- The signal of a parser that has ended. -/
def ParserStatus.signal : ParserStatus → ParserSignal
  | .failed => .IPFilterError
  | .running | .parsed => .IPFilterParsed

/-- The rules, the bans and the tasks add up to the filter that libtorrent should have. -/
structure Inv (makeAddress : String → Option Address) (s : SessionImpl Address) : Prop where
  scheduled : s.IPFilteringConfigured = false → s.deferredConfigureScheduled = true
  path : s.IPFilteringConfigured = true → ∀ parser ∈ s.filterParser,
    parser.filePath = s.IPFilterFile
  enabled : s.IPFilteringConfigured = true → s.filterParser.isSome = s.isIPFilteringEnabled
  signal : ∀ parser ∈ s.filterParser, parser.status ≠ .running →
    ∀ signal ∈ s.signals.getLast?, signal = parser.status.signal
  tasks : s.tasks.toFinset ⊆ s.bannedAddresses makeAddress
  running : ∀ task ∈ s.running, task.addr ∈ s.bannedAddresses makeAddress
  filter : Settled s → s.running = none → s.afterTasks s.ipFilter = s.rightFilter makeAddress
  written : Settled s → s.Written (s.rightFilter makeAddress)

omit [DecidableEq Address] in
theorem not_settled_of_isParsing (hparsing : s.IsParsing) : ¬Settled s := by
  obtain ⟨parser, hparser, hrunning⟩ := hparsing
  exact fun h => (h.2 parser hparser).1 hrunning

section

variable (hs : Inv makeAddress s) {signal : ParserSignal} {filter : Finset Address}

include hs

theorem Inv.right : Right makeAddress s := by
  rintro ⟨hscheduled, hparsing, hsignals, htasks, hrunning⟩
  have hconfigured : s.IPFilteringConfigured = true := by
    cases hconfigured : s.IPFilteringConfigured with
    | true => rfl
    | false =>
      rw [hs.scheduled hconfigured] at hscheduled
      cases hscheduled
  have hsettled : Settled s :=
    ⟨hconfigured, fun parser hparser => ⟨fun h => hparsing ⟨parser, hparser, h⟩, hsignals⟩⟩
  refine ⟨hs.path hconfigured, hs.enabled hconfigured, ?_⟩
  have hfilter := hs.filter hsettled hrunning
  rwa [afterTasks, htasks, toFinset_nil, union_empty] at hfilter

theorem Inv.reconfigure (enabled : Bool) (path : String) :
    Inv makeAddress { s with
      isIPFilteringEnabled := enabled
      IPFilterFile := path
      IPFilteringConfigured := false }.configureDeferred := by
  refine ⟨fun _ => rfl, fun h => ?_, fun h => ?_, hs.signal, hs.tasks, hs.running, fun h => ?_,
    fun h => ?_⟩
  · cases h
  · cases h
  · cases h.1
  · cases h.1

theorem Inv.enableIPFilter (henabled : s.isIPFilteringEnabled = true) :
    Inv makeAddress { s.enableIPFilter with
      IPFilteringConfigured := true
      deferredConfigureScheduled := false } := by
  have hparsing : ¬Settled { s.enableIPFilter with
      IPFilteringConfigured := true
      deferredConfigureScheduled := false } :=
    not_settled_of_isParsing ⟨_, rfl, rfl⟩
  refine ⟨fun h => ?_, fun _ parser hparser => ?_, fun _ => ?_, fun parser hparser h => ?_, hs.tasks,
    hs.running, fun h => absurd h hparsing, fun h => absurd h hparsing⟩
  · cases h
  · cases hparser
    rfl
  · exact henabled.symm
  · cases hparser
    exact absurd rfl h

theorem Inv.disableIPFilter (henabled : s.isIPFilteringEnabled = false)
    (hwritten : s.Written (s.bannedAddresses makeAddress)) :
    Inv makeAddress { s.disableIPFilter makeAddress with
      IPFilteringConfigured := true
      deferredConfigureScheduled := false } := by
  have hright : ({ s.disableIPFilter makeAddress with
      IPFilteringConfigured := true
      deferredConfigureScheduled := false } : SessionImpl Address).rightFilter makeAddress =
        s.bannedAddresses makeAddress := by
    rw [rightFilter, fileRules, if_neg (by rw [SessionImpl.disableIPFilter, henabled]; decide),
      empty_union]
    rfl
  refine ⟨fun h => ?_, fun _ parser hparser => ?_, fun _ => ?_, fun parser hparser => ?_, hs.tasks,
    hs.running, fun _ _ => ?_, fun _ => ?_⟩
  · cases h
  · cases hparser
  · exact henabled.symm
  · cases hparser
  · rw [hright]
    change (∅ ∪ s.bannedAddresses makeAddress) ∪ s.tasks.toFinset = _
    rw [empty_union, union_eq_left]
    exact hs.tasks
  · rw [hright]
    exact hwritten

theorem Inv.configure
    (hundisturbed : s.IPFilteringConfigured = false → s.isIPFilteringEnabled = false →
      s.Written (s.bannedAddresses makeAddress)) : Inv makeAddress (s.configure makeAddress) := by
  rw [SessionImpl.configure]
  cases hconfigured : s.IPFilteringConfigured with
  | true =>
    refine { hs with scheduled := fun h => ?_ }
    rw [if_neg (by decide)] at h
    rw [hconfigured] at h
    cases h
  | false =>
    cases henabled : s.isIPFilteringEnabled with
    | true => exact hs.enableIPFilter henabled
    | false => exact hs.disableIPFilter henabled (hundisturbed hconfigured henabled)

theorem Inv.banIP (ip : String) : Inv makeAddress (s.banIP makeAddress ip) := by
  rw [SessionImpl.banIP]
  split_ifs with hknown
  · exact hs
  · cases haddr : makeAddress ip with
    | none => exact hs
    | some addr =>
      dsimp only
      generalize hs' : ({ s with
        tasks := s.tasks ++ [addr]
        bannedIPs := insert ip s.bannedIPs } : SessionImpl Address) = s'
      have hbanned : s'.bannedAddresses makeAddress =
          insert addr (s.bannedAddresses makeAddress) := by
        rw [← hs', bannedAddresses, bannedAddresses, biUnion_insert, haddr,
          toFinset_some, Finset.insert_eq]
      have hright : s'.rightFilter makeAddress = insert addr (s.rightFilter makeAddress) := by
        rw [rightFilter, hbanned, rightFilter, ← union_insert, ← hs']
        rfl
      have hafter : ∀ filter, s'.afterTasks filter = insert addr (s.afterTasks filter) := by
        intro filter
        rw [← hs', afterTasks, afterTasks, toFinset_append, ← union_assoc,
          Finset.insert_eq, union_comm {addr}]
        rfl
      have hsettled : Settled s' → Settled s := by
        rw [← hs']
        exact fun h => h
      have hrunning : s'.running = s.running := by rw [← hs']
      refine ⟨?_, ?_, ?_, ?_, ?_, fun task htask => ?_, fun h hidle => ?_, fun h task htask => ?_⟩
      · rw [← hs']
        exact hs.scheduled
      · rw [← hs']
        exact hs.path
      · rw [← hs']
        exact hs.enabled
      · rw [← hs']
        exact hs.signal
      · have htasks : s'.tasks.toFinset = insert addr s.tasks.toFinset := by
          rw [← hs', toFinset_append, Finset.insert_eq, union_comm {addr}]
          rfl
        rw [hbanned, htasks]
        exact insert_subset_insert addr hs.tasks
      · rw [hrunning] at htask
        rw [hbanned]
        exact Finset.mem_insert_of_mem (hs.running task htask)
      · rw [hrunning] at hidle
        have hfilter : s'.ipFilter = s.ipFilter := by rw [← hs']
        rw [hafter, hright, hfilter, hs.filter (hsettled h) hidle]
      · rw [hrunning] at htask
        rw [hafter, hright, hs.written (hsettled h) task htask]

theorem Inv.addRules (hparsing : s.IsParsing) (rules : Finset Address) :
    Inv makeAddress (s.addRules rules) := by
  obtain ⟨parser, hparser, hrunning⟩ := hparsing
  rw [SessionImpl.addRules, hparser, map_some]
  have hnot : ¬Settled { s with
      filterParser := some { parser with filter := parser.filter ∪ rules } } :=
    not_settled_of_isParsing ⟨_, rfl, hrunning⟩
  refine ⟨hs.scheduled, fun h parser' hparser' => ?_, fun h => ?_, fun parser' hparser' h => ?_,
    hs.tasks, hs.running, fun h => absurd h hnot, fun h => absurd h hnot⟩
  · cases hparser'
    exact hs.path h parser hparser
  · rw [← hs.enabled h, hparser]
    rfl
  · cases hparser'
    exact absurd hrunning h

theorem Inv.finishParsing (hparsing : s.IsParsing) (success : Bool) :
    Inv makeAddress (s.finishParsing success) := by
  obtain ⟨parser, hparser, -⟩ := hparsing
  rw [SessionImpl.finishParsing, hparser, map_some]
  generalize hstatus : (if success = true then ParserStatus.parsed else .failed) = status
  generalize hsignal : (if success = true then ParserSignal.IPFilterParsed else .IPFilterError) =
    signal
  have hsame : signal = status.signal := by
    rw [← hstatus, ← hsignal]
    cases success <;> rfl
  have hnot : ¬Settled { s with
      filterParser := some { parser with status := status }
      signals := s.signals ++ [signal] } := by
    intro h
    have hnil := (h.2 _ rfl).2
    rw [append_eq_nil_iff] at hnil
    cases hnil.2
  refine ⟨hs.scheduled, fun h parser' hparser' => ?_, fun h => ?_, fun parser' hparser' _ => ?_,
    hs.tasks, hs.running, fun h => absurd h hnot, fun h => absurd h hnot⟩
  · cases hparser'
    exact hs.path h parser hparser
  · rw [← hs.enabled h, hparser]
    rfl
  · cases hparser'
    intro signal' hsignal'
    rw [getLast?_concat] at hsignal'
    cases hsignal'
    exact hsame

theorem Inv.readFilter (hidle : s.running = none) : Inv makeAddress s.readFilter := by
  rw [SessionImpl.readFilter]
  cases htasks : s.tasks with
  | nil => exact hs
  | cons addr tasks =>
    have hsplit : s.tasks.toFinset = insert addr tasks.toFinset := by
      rw [htasks, toFinset_cons]
    have hbanned := hs.tasks
    rw [hsplit] at hbanned
    refine ⟨hs.scheduled, hs.path, hs.enabled, hs.signal,
      fun a ha => hbanned (Finset.mem_insert_of_mem ha), fun task htask => ?_, fun _ h => ?_,
      fun h task htask => ?_⟩
    · cases htask
      exact hbanned (mem_insert_self _ _)
    · cases h
    · -- the task and those behind it make of the filter what all of them did
      cases htask
      have hfilter := hs.filter h hidle
      rw [afterTasks, hsplit, union_insert, ← insert_union] at hfilter
      exact hfilter

theorem Inv.writeFilter : Inv makeAddress s.writeFilter := by
  rw [SessionImpl.writeFilter]
  cases hrunning : s.running with
  | none => exact hs
  | some task =>
    refine { hs with
      running := fun task htask => ?_
      filter := fun h _ => ?_
      written := fun _ task htask => ?_ }
    · cases htask
    · exact hs.written h task hrunning
    · cases htask

theorem Inv.dropSignal (hsignals : s.signals = signal :: signals) (hlast : ¬s.IsLastSignal)
    (hfilter : s.filterParser = none → s.IPFilteringConfigured = true →
      filter = s.ipFilter ∨ filter = s.rightFilter makeAddress) :
    Inv makeAddress { s with signals := signals, ipFilter := filter } := by
  have hsettled : Settled { s with signals := signals, ipFilter := filter } →
      s.filterParser = none ∧ Settled s := by
    rintro ⟨hconfigured, hparsers⟩
    cases hparser : s.filterParser with
    | none =>
      refine ⟨rfl, hconfigured, fun parser hparser' => ?_⟩
      rw [hparser] at hparser'
      cases hparser'
    | some parser =>
      obtain ⟨hstatus, hnil⟩ := hparsers parser hparser
      refine absurd ⟨?_, ?_, ?_⟩ hlast
      · rw [hparser]
        rfl
      · rintro ⟨parser', hparser', hrunning⟩
        cases hparser.symm.trans hparser'
        exact hstatus hrunning
      · rw [hsignals, length_cons, show signals = [] from hnil]
        rfl
  refine { hs with
    signal := fun parser hparser hstatus signal' hsignal' => ?_
    filter := fun h hidle => ?_
    written := fun h => hs.written (hsettled h).2 }
  · refine hs.signal parser hparser hstatus signal' ?_
    rw [hsignals]
    cases signals with
    | nil => cases hsignal'
    | cons signal₁ signals => exact hsignal'
  · obtain ⟨hnone, hbefore⟩ := hsettled h
    rcases hfilter hnone hbefore.1 with rfl | rfl
    · exact hs.filter hbefore hidle
    · exact union_eq_left.2 fun a ha => mem_union_right _ (hs.tasks ha)

theorem Inv.lastSignal (hsignals : s.signals = signal :: signals) (hlast : s.IsLastSignal)
    (hfilter : s.IPFilteringConfigured = true → filter = s.rightFilter makeAddress)
    (hwritten : s.Written (s.rightFilter makeAddress)) :
    Inv makeAddress { s with signals := signals, ipFilter := filter } := by
  have hnil : signals = [] := by
    have hlength := hlast.2.2
    rw [hsignals, length_cons] at hlength
    exact length_eq_zero_iff.1 (Nat.succ.inj hlength)
  subst hnil
  refine { hs with
    signal := fun parser _ _ signal' hsignal' => ?_
    filter := fun h _ => ?_
    written := fun _ => hwritten }
  · cases hsignal'
  · rw [hfilter h.1]
    exact union_eq_left.2 fun a ha => mem_union_right _ (hs.tasks ha)

theorem Inv.fileRules_eq (hsignals : s.signals.head? = some signal) (hlast : s.IsLastSignal)
    (hconfigured : s.IPFilteringConfigured = true) {parser : FilterParserThread Address}
    (hparser : s.filterParser = some parser) :
    s.fileRules = if signal = .IPFilterParsed then parser.filter else ∅ := by
  obtain ⟨-, hparsing, hlength⟩ := hlast
  have hstatus : parser.status ≠ .running := fun h => hparsing ⟨parser, hparser, h⟩
  have hsingle : s.signals = [signal] := by
    obtain ⟨signal', hsignal'⟩ := length_eq_one_iff.1 hlength
    rw [hsignal'] at hsignals ⊢
    cases hsignals
    rfl
  have hsignal : signal = parser.status.signal := by
    refine hs.signal parser hparser hstatus signal ?_
    rw [hsingle]
    rfl
  have henabled : s.isIPFilteringEnabled = true := by
    rw [← hs.enabled hconfigured, hparser]
    rfl
  rw [fileRules, if_pos henabled, hparser, elim_some, hsignal]
  cases hcases : parser.status with
  | running => exact absurd hcases hstatus
  | parsed => rfl
  | failed => rfl

end

theorem handleSignal_cons {signal : ParserSignal} (hsignals : s.signals = signal :: signals) :
    s.handleSignal makeAddress = { s with
      signals := signals
      ipFilter :=
        if signal = .IPFilterError then s.processBannedIPs makeAddress ∅
        else s.filterParser.elim s.ipFilter fun parser =>
          s.processBannedIPs makeAddress parser.filter } := by
  obtain ⟨_, _, _, _, _, filterParser, _, _, _, _⟩ := s
  cases hsignals
  cases signal <;> cases filterParser <;> rfl

theorem Inv.handleSignal (hs : Inv makeAddress s)
    (hundisturbed : s.IsLastSignal → s.Written (s.rightFilter makeAddress)) :
    Inv makeAddress (s.handleSignal makeAddress) := by
  cases hsignals : s.signals with
  | nil =>
    rw [SessionImpl.handleSignal, hsignals]
    exact hs
  | cons signal signals =>
    have hhead : s.signals.head? = some signal := by
      rw [hsignals]
      rfl
    rw [handleSignal_cons hsignals]
    by_cases hlast : s.IsLastSignal
    · refine hs.lastSignal hsignals hlast (fun hconfigured => ?_) (hundisturbed hlast)
      obtain ⟨parser, hparser⟩ := isSome_iff_exists.1 hlast.1
      rw [rightFilter, hs.fileRules_eq hhead hlast hconfigured hparser, hparser, elim_some]
      cases signal <;> rfl
    · refine hs.dropSignal hsignals hlast fun hnone hconfigured => ?_
      have hdisabled : s.isIPFilteringEnabled = false := by
        rw [← hs.enabled hconfigured, hnone]
        rfl
      rw [rightFilter, fileRules, hdisabled, hnone]
      cases signal with
      | IPFilterParsed => exact .inl rfl
      | IPFilterError => exact .inr rfl

theorem Inv.next (hs : Inv makeAddress s) (e : FilterEvent Address) (hpossible : s.Possible e)
    (hundisturbed : s.Undisturbed makeAddress e) : Inv makeAddress (s.next makeAddress e) := by
  cases e with
  | setIPFilteringEnabled enabled =>
    rw [SessionImpl.next, setIPFilteringEnabled]
    split_ifs
    · exact hs.reconfigure enabled s.IPFilterFile
    · exact hs
  | setIPFilterFile path =>
    rw [SessionImpl.next, setIPFilterFile]
    split_ifs
    · exact hs.reconfigure s.isIPFilteringEnabled path
    · exact hs
  | configure => exact hs.configure hundisturbed
  | banIP ip => exact hs.banIP ip
  | addRules rules => exact hs.addRules hpossible rules
  | finishParsing success => exact hs.finishParsing hpossible success
  | handleSignal => exact hs.handleSignal hundisturbed
  | readFilter => exact hs.readFilter hpossible.2
  | writeFilter => exact hs.writeFilter

theorem Inv.start (enabled : Bool) (path : String) (bannedIPs : Finset String) :
    Inv makeAddress
      { isIPFilteringEnabled := enabled, IPFilterFile := path, bannedIPs := bannedIPs } := by
  refine ⟨fun _ => rfl, fun h => ?_, fun h => ?_, fun parser hparser => ?_, fun a ha => ?_,
    fun task htask => ?_, fun h => ?_, fun h => ?_⟩
  · cases h
  · cases h
  · cases hparser
  · cases ha
  · cases htask
  · cases h.1
  · cases h.1

end inv

/-- **Bans and the IP filter.**  From any settings, as long as the session does not set the filter
between the halves of the task of a ban, libtorrent's IP filter is the rules of the filter file and
the banned addresses whenever nothing is left to be done. -/
theorem right_of_undisturbed (makeAddress : String → Option Address) (enabled : Bool)
    (path : String) (bannedIPs : Finset String) (es : List (FilterEvent Address))
    (hundisturbed : (machine makeAddress).Meets (SessionImpl.Undisturbed makeAddress)
      { isIPFilteringEnabled := enabled, IPFilterFile := path, bannedIPs := bannedIPs } es) :
    (machine makeAddress).Always (Right makeAddress)
      { isIPFilteringEnabled := enabled, IPFilterFile := path, bannedIPs := bannedIPs } es :=
  Machine.guarded_always (Inv.start enabled path bannedIPs) (fun _ hs => hs.right)
    (fun _ e hs hpossible hundisturbed => hs.next e hpossible hundisturbed) hundisturbed

/-- `make_address` of the addresses in the runs below. -/
def makeAddress : String → Option (BitVec 32)
  | "10.0.0.1" => some 0x0a000001
  | "10.0.0.2" => some 0x0a000002
  | _ => none

/-- An address is banned while a file is parsed, and another one after it. -/
def bansRun : List (FilterEvent (BitVec 32)) :=
  [.configure, .banIP "10.0.0.1", .addRules {0x0a000003}, .readFilter, .writeFilter,
    .finishParsing true, .handleSignal, .banIP "10.0.0.2", .readFilter, .writeFilter]

theorem right_of_undisturbed_bansRun :
    ((machine makeAddress).run
      { isIPFilteringEnabled := true, IPFilterFile := "/a.p2p", bannedIPs := ∅ }
      bansRun).isSome = true ∧
    (machine makeAddress).Always (Right makeAddress)
      { isIPFilteringEnabled := true, IPFilterFile := "/a.p2p", bannedIPs := ∅ } bansRun :=
  ⟨by decide, right_of_undisturbed _ _ _ _ _ (by decide)⟩

/-- Filtering is switched off between the halves of the task of a ban. -/
def disturbedRun : List (FilterEvent (BitVec 32)) :=
  [.configure, .addRules {0x0a000003}, .finishParsing true, .handleSignal, .banIP "10.0.0.1",
    .readFilter, .setIPFilteringEnabled false, .configure, .writeFilter]

/-- The rule of the file is still in the filter. -/
theorem disturbedRun_not_right :
    ((machine makeAddress).run
      { isIPFilteringEnabled := true, IPFilterFile := "/a.p2p", bannedIPs := ∅ }
      disturbedRun).isSome = true ∧
    ¬(machine makeAddress).Always (Right makeAddress)
      { isIPFilteringEnabled := true, IPFilterFile := "/a.p2p", bannedIPs := ∅ } disturbedRun := by
  refine ⟨by decide, fun h => ?_⟩
  obtain ⟨s, hs⟩ : ∃ s, (machine makeAddress).run
      { isIPFilteringEnabled := true, IPFilterFile := "/a.p2p", bannedIPs := ∅ } disturbedRun =
        some s := isSome_iff_exists.1 (by decide)
  have hend : ∀ s ∈ (machine makeAddress).run
      { isIPFilteringEnabled := true, IPFilterFile := "/a.p2p", bannedIPs := ∅ } disturbedRun,
      (s.deferredConfigureScheduled = false ∧ ¬s.IsParsing ∧ s.signals.length = 0 ∧
        s.tasks.length = 0 ∧ s.running = none) ∧
      0x0a000003 ∈ s.ipFilter ∧ 0x0a000003 ∉ s.rightFilter makeAddress := by decide
  obtain ⟨⟨hscheduled, hparsing, hsignals, htasks, hrunning⟩, hmem, hnotMem⟩ := hend s hs
  have hright := (h.at_end hs ⟨hscheduled, hparsing, length_eq_zero_iff.1 hsignals,
    length_eq_zero_iff.1 htasks, hrunning⟩).2.2
  rw [hright] at hmem
  exact hnotMem hmem

end QBittorrent.BannedIPs
