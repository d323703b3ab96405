import QBittorrent.Lib.Dict
import QBittorrent.Lib.Text

/-!
# The status of a tracker

libtorrent announces to a tracker from every endpoint and with every protocol of a torrent.
`updateTrackerEntryStatus` brings the table of these announces up to date in place, drops what it
takes for outdated, and sums the table up.

* `lookup_updateEndpoints` : one endpoint;
* `updateTrackerEntryStatus_eq_iff` : when the status is that of the present ones.
-/

namespace QBittorrent.BitTorrent

open List Finmap Dict

inductive TrackerEndpointState where
  | notContacted
  | working
  | updating
  | notWorking
  | trackerError
  | unreachable
  deriving DecidableEq

inductive ProtocolVersion where
  | v1
  | v2
  deriving DecidableEq

structure TrackerEndpointStatus where
  name : String := ""
  btVersion : ProtocolVersion := .v1
  state : TrackerEndpointState := .notContacted
  message : String := ""
  numPeers : ℤ := -1
  numSeeds : ℤ := -1
  numLeeches : ℤ := -1
  numDownloaded : ℤ := -1
  nextAnnounceTime : ℤ := 0
  minAnnounceTime : ℤ := 0

/-- The name of an endpoint and a protocol. -/
abbrev EndpointKey := String × ProtocolVersion

abbrev EndpointTable := Dict EndpointKey TrackerEndpointStatus

structure TrackerEntryStatus where
  url : String := ""
  tier : ℕ := 0
  state : TrackerEndpointState := .notContacted
  message : String := ""
  numPeers : ℤ := -1
  numSeeds : ℤ := -1
  numLeeches : ℤ := -1
  numDownloaded : ℤ := -1
  nextAnnounceTime : ℤ := 0
  minAnnounceTime : ℤ := 0
  endpoints : EndpointTable := ∅

/-! ### What libtorrent tells -/

/-- The announces of an endpoint with one protocol. -/
structure AnnounceInfohash (E : Type) where
  updating : Bool
  fails : ℕ
  lastError : E
  message : List UInt8
  scrapeComplete : ℤ
  scrapeIncomplete : ℤ
  scrapeDownloaded : ℤ
  nextAnnounce : ℤ
  minAnnounce : ℤ

structure AnnounceEndpoint (A E : Type) where
  localEndpoint : A
  infoHashes : ProtocolVersion → AnnounceInfohash E

structure AnnounceEntry (A E : Type) where
  tier : ℕ
  verified : Bool
  endpoints : List (AnnounceEndpoint A E)

/-- What the code takes from elsewhere: how an endpoint is written, the error codes that matter with
the test and the text of a code, and the order in which a table is walked. -/
structure TrackerContext (A E : Type) where
  endpointName : A → String
  trackerFailure : E
  announceSkipped : E
  isError : E → Bool
  errorMessage : E → String
  values : EndpointTable → List TrackerEndpointStatus
  coe_values : ∀ table, (values table : Multiset TrackerEndpointStatus) =
    table.entries.map Sigma.snd

/-- A set of protocols, in the order in which it is walked. -/
structure BtProtocols where
  toList : List ProtocolVersion
  nodup : toList.Nodup

/-- The numbers of peers of the last announces. -/
abbrev UpdateInfo (A : Type) := Dict A (Dict ProtocolVersion ℤ)

variable {A E : Type} [DecidableEq A] [DecidableEq E] (ctx : TrackerContext A E)

/-! ### One endpoint -/

def endpointState (verified : Bool) (info : AnnounceInfohash E) : TrackerEndpointState :=
  if info.updating then .updating
  else if 0 < info.fails then
    if info.lastError = ctx.trackerFailure then .trackerError
    else if info.lastError = ctx.announceSkipped then .unreachable
    else .notWorking
  else if verified then .working
  else .notContacted

def endpointMessage (info : AnnounceInfohash E) : String :=
  if info.message ≠ [] then decodeUtf8 info.message
  else if ctx.isError info.lastError then ctx.errorMessage info.lastError
  else ""

/-- The entry of an endpoint; the number of peers of `old` stays unless there is a new one. -/
def endpointStatus (verified : Bool) (updateInfo : UpdateInfo A) (old : TrackerEndpointStatus)
    (announce : AnnounceEndpoint A E × ProtocolVersion) : TrackerEndpointStatus where
  name := ctx.endpointName announce.1.localEndpoint
  btVersion := announce.2
  state := endpointState ctx verified (announce.1.infoHashes announce.2)
  message := endpointMessage ctx (announce.1.infoHashes announce.2)
  numPeers := ((updateInfo.lookup announce.1.localEndpoint).bind
    (Finmap.lookup announce.2)).getD old.numPeers
  numSeeds := (announce.1.infoHashes announce.2).scrapeComplete
  numLeeches := (announce.1.infoHashes announce.2).scrapeIncomplete
  numDownloaded := (announce.1.infoHashes announce.2).scrapeDownloaded
  nextAnnounceTime := (announce.1.infoHashes announce.2).nextAnnounce
  minAnnounceTime := (announce.1.infoHashes announce.2).minAnnounce

/-- The counters of the loop. -/
structure StateCounts where
  numUpdating : ℕ := 0
  numWorking : ℕ := 0
  numNotWorking : ℕ := 0
  numTrackerError : ℕ := 0
  numUnreachable : ℕ := 0

def StateCounts.bump (counts : StateCounts) : TrackerEndpointState → StateCounts
  | .updating => { counts with numUpdating := counts.numUpdating + 1 }
  | .working => { counts with numWorking := counts.numWorking + 1 }
  | .notWorking => { counts with numNotWorking := counts.numNotWorking + 1 }
  | .trackerError => { counts with numTrackerError := counts.numTrackerError + 1 }
  | .unreachable => { counts with numUnreachable := counts.numUnreachable + 1 }
  | .notContacted => counts

def announceKey (announce : AnnounceEndpoint A E × ProtocolVersion) : EndpointKey :=
  (ctx.endpointName announce.1.localEndpoint, announce.2)

/-- The body of the inner loop. -/
def updateEndpoint (verified : Bool) (updateInfo : UpdateInfo A) (s : EndpointTable × StateCounts)
    (announce : AnnounceEndpoint A E × ProtocolVersion) : EndpointTable × StateCounts :=
  let old := (s.1.lookup (announceKey ctx announce)).getD {}
  let status := endpointStatus ctx verified updateInfo old announce
  (s.1.insert (announceKey ctx announce) status, s.2.bump status.state)

/-! ### The whole entry -/

/-- The loops over the endpoints and the protocols. -/
def updateEndpoints (native : AnnounceEntry A E) (protocols : BtProtocols)
    (updateInfo : UpdateInfo A) (table : EndpointTable) : EndpointTable × StateCounts :=
  native.endpoints.foldl (fun s endpoint => protocols.toList.foldl
    (fun s protocolVersion =>
      updateEndpoint ctx native.verified updateInfo s (endpoint, protocolVersion)) s) (table, {})

def numEndpoints (native : AnnounceEntry A E) (protocols : BtProtocols) : ℕ :=
  native.endpoints.length * protocols.toList.length

def hasName (native : AnnounceEntry A E) (name : String) : Bool :=
  native.endpoints.any fun endpoint => name = ctx.endpointName endpoint.localEndpoint

/-- The removal of outdated endpoints. -/
def removeOutdated (native : AnnounceEntry A E) (protocols : BtProtocols) (table : EndpointTable) :
    EndpointTable :=
  if numEndpoints native protocols < table.keys.card then
    table.filter fun key _ => hasName ctx native key.1
  else table

def nextState (numEndpoints : ℕ) (counts : StateCounts) (state : TrackerEndpointState) :
    TrackerEndpointState :=
  if 0 < numEndpoints then
    if 0 < counts.numUpdating then .updating
    else if 0 < counts.numWorking then .working
    else if 0 < counts.numTrackerError then .trackerError
    else if counts.numUnreachable = numEndpoints then .unreachable
    else if counts.numUnreachable + counts.numNotWorking = numEndpoints then .notWorking
    else state
  else state

/-- The body of the last loop. -/
def addEndpoint (status : TrackerEntryStatus) (endpoint : TrackerEndpointStatus) :
    TrackerEntryStatus :=
  let earlier := endpoint.state = status.state ∧ (status.nextAnnounceTime = 0 ∨
    endpoint.nextAnnounceTime < status.nextAnnounceTime)
  let message := if earlier ∧ (endpoint.state ≠ .working ∨ endpoint.message ≠ "") then
    endpoint.message else status.message
  { status with
    numPeers := max status.numPeers endpoint.numPeers
    numSeeds := max status.numSeeds endpoint.numSeeds
    numLeeches := max status.numLeeches endpoint.numLeeches
    numDownloaded := max status.numDownloaded endpoint.numDownloaded
    nextAnnounceTime :=
      if earlier then endpoint.nextAnnounceTime else status.nextAnnounceTime
    minAnnounceTime := if earlier then endpoint.minAnnounceTime else status.minAnnounceTime
    message := if endpoint.state = status.state ∧ endpoint.state = .working ∧ message = "" then
      endpoint.message else message }

/-- The sums over the table. -/
def aggregate (url : String) (tier : ℕ) (state : TrackerEndpointState) (table : EndpointTable) :
    TrackerEntryStatus :=
  (ctx.values table).foldl addEndpoint
    { url := url, tier := tier, state := state, endpoints := table }

def updateTrackerEntryStatus (status : TrackerEntryStatus) (native : AnnounceEntry A E)
    (protocols : BtProtocols) (updateInfo : UpdateInfo A) : TrackerEntryStatus :=
  let updated := updateEndpoints ctx native protocols updateInfo status.endpoints
  aggregate ctx status.url native.tier
    (nextState (numEndpoints native protocols) updated.2 status.state)
    (removeOutdated ctx native protocols updated.1)

/-! ### The endpoints there are now -/

/-- The announces of an entry, in the order of the loops. -/
def announces (native : AnnounceEntry A E) (protocols : BtProtocols) :
    List (AnnounceEndpoint A E × ProtocolVersion) :=
  native.endpoints.flatMap fun endpoint => protocols.toList.map fun protocolVersion =>
    (endpoint, protocolVersion)

def currentKeys (native : AnnounceEntry A E) (protocols : BtProtocols) : Finset EndpointKey :=
  ((announces native protocols).map (announceKey ctx)).toFinset

/-- The announces of one key, one after the other. -/
def statusOf (table : EndpointTable) (native : AnnounceEntry A E) (protocols : BtProtocols)
    (updateInfo : UpdateInfo A) (key : EndpointKey) : TrackerEndpointStatus :=
  ((announces native protocols).filter fun announce => announceKey ctx announce = key).foldl
    (endpointStatus ctx native.verified updateInfo) ((table.lookup key).getD {})

def currentEndpoints (table : EndpointTable) (native : AnnounceEntry A E) (protocols : BtProtocols)
    (updateInfo : UpdateInfo A) : EndpointTable :=
  Dict.ofFinset (currentKeys ctx native protocols)
    (statusOf ctx table native protocols updateInfo)

/-- The state of a tracker whose endpoints have these states. -/
def stateOf (states : List TrackerEndpointState) : TrackerEndpointState :=
  if .updating ∈ states then .updating
  else if .working ∈ states then .working
  else if .trackerError ∈ states then .trackerError
  else if states = [] ∨ .notContacted ∈ states then .notContacted
  else if .notWorking ∈ states then .notWorking
  else .unreachable

/-- The status as a function of the endpoints: the table has no other keys, and the state and the
sums are those of the table. -/
def ofEndpoints (status : TrackerEntryStatus) (native : AnnounceEntry A E)
    (protocols : BtProtocols) (updateInfo : UpdateInfo A) : TrackerEntryStatus :=
  let table := currentEndpoints ctx status.endpoints native protocols updateInfo
  aggregate ctx status.url native.tier (stateOf ((ctx.values table).map (·.state))) table

/-! ### When the status is that of the endpoints -/

def outdatedKeys (table : EndpointTable) (native : AnnounceEntry A E) (protocols : BtProtocols) :
    Finset EndpointKey := table.keys \ currentKeys ctx native protocols

/-- Nothing is outdated; or only names that are gone, and more keys than the announces that share a
key with another make up for. -/
def Removable (table : EndpointTable) (native : AnnounceEntry A E) (protocols : BtProtocols) :
    Prop :=
  outdatedKeys ctx table native protocols = ∅ ∨
    (∀ key ∈ outdatedKeys ctx table native protocols, hasName ctx native key.1 = false) ∧
      (announces native protocols).length <
        (outdatedKeys ctx table native protocols).card + (currentKeys ctx native protocols).card

def announceStates (native : AnnounceEntry A E) (protocols : BtProtocols) :
    List TrackerEndpointState :=
  (announces native protocols).map fun announce =>
    endpointState ctx native.verified (announce.1.infoHashes announce.2)

/-- The last announce with the key of `announce`. -/
def lastOf (native : AnnounceEntry A E) (protocols : BtProtocols)
    (announce : AnnounceEndpoint A E × ProtocolVersion) : AnnounceEndpoint A E × ProtocolVersion :=
  (((announces native protocols).filter fun other =>
    announceKey ctx other = announceKey ctx announce).getLast?).getD announce

/-- The states of the announces that no later one with the same key covers. -/
def lastStates (native : AnnounceEntry A E) (protocols : BtProtocols) :
    List TrackerEndpointState :=
  (announces native protocols).map fun announce =>
    let last := lastOf ctx native protocols announce
    endpointState ctx native.verified (last.1.infoHashes last.2)

/-- A rule applies: some announce has a state that outweighs the others, or all have failed. -/
def Decided (states : List TrackerEndpointState) : Prop :=
  .updating ∈ states ∨ .working ∈ states ∨ .trackerError ∈ states ∨
    states ≠ [] ∧ .notContacted ∉ states

/-- The rules see all announces and the table only the last ones of each key; where no rule applies,
the state is that of before. -/
def StateKnown (status : TrackerEntryStatus) (native : AnnounceEntry A E)
    (protocols : BtProtocols) : Prop :=
  Decided (announceStates ctx native protocols) ∧
      stateOf (announceStates ctx native protocols) = stateOf (lastStates ctx native protocols) ∨
    ¬ Decided (announceStates ctx native protocols) ∧
      status.state = stateOf (lastStates ctx native protocols)

variable {ctx} {native : AnnounceEntry A E} {protocols : BtProtocols} {updateInfo : UpdateInfo A}
  {table : EndpointTable} {key : EndpointKey} {announce : AnnounceEndpoint A E × ProtocolVersion}
  {verified : Bool}

section

omit [DecidableEq A] [DecidableEq E]

theorem mem_announces :
    announce ∈ announces native protocols ↔
      announce.1 ∈ native.endpoints ∧ announce.2 ∈ protocols.toList := by
  obtain ⟨endpoint, protocol⟩ := announce
  simp [announces]

theorem length_announces :
    (announces native protocols).length = numEndpoints native protocols := by
  simp [announces, numEndpoints, length_flatMap]

theorem mem_currentKeys : key ∈ currentKeys ctx native protocols ↔
    hasName ctx native key.1 = true ∧ key.2 ∈ protocols.toList := by
  obtain ⟨name, protocol⟩ := key
  rw [currentKeys, mem_toFinset, mem_map, hasName, any_eq_true]
  constructor
  · rintro ⟨announce, hmem, hkey⟩
    rw [mem_announces] at hmem
    rw [announceKey, Prod.mk.injEq] at hkey
    exact ⟨⟨announce.1, hmem.1, decide_eq_true hkey.1.symm⟩, hkey.2 ▸ hmem.2⟩
  · rintro ⟨⟨endpoint, hmem, hname⟩, hprotocol⟩
    exact ⟨(endpoint, protocol), mem_announces.2 ⟨hmem, hprotocol⟩,
      Prod.ext (of_decide_eq_true hname).symm rfl⟩

end

/-! ### The loop -/

theorem updateEndpoints_eq : updateEndpoints ctx native protocols updateInfo table =
    (announces native protocols).foldl (updateEndpoint ctx native.verified updateInfo)
      (table, {}) := by
  rw [updateEndpoints, announces, foldl_flatMap]
  simp only [foldl_map]

theorem lookup_foldl_updateEndpoint (l : List (AnnounceEndpoint A E × ProtocolVersion))
    (s : EndpointTable × StateCounts) :
    (l.foldl (updateEndpoint ctx verified updateInfo) s).1.lookup key =
      if key ∈ l.map (announceKey ctx) then
        some ((l.filter fun announce => announceKey ctx announce = key).foldl
          (endpointStatus ctx verified updateInfo) ((s.1.lookup key).getD {}))
      else s.1.lookup key := by
  induction l generalizing s with
  | nil => simp
  | cons announce l ih =>
    rw [foldl_cons, ih, map_cons]
    by_cases hkey : announceKey ctx announce = key
    · subst hkey
      rw [filter_cons_of_pos (by simp), foldl_cons, if_pos mem_cons_self]
      simp only [updateEndpoint, lookup_insert, Option.getD_some]
      split_ifs with hmem
      · rfl
      · rw [filter_eq_nil_iff.2, foldl_nil]
        intro other hother hsame
        exact hmem (mem_map.2 ⟨other, hother, of_decide_eq_true hsame⟩)
    · rw [filter_cons_of_neg (by simpa using hkey)]
      simp only [updateEndpoint, lookup_insert_of_ne _ (Ne.symm hkey), mem_cons,
        Ne.symm hkey, false_or]

theorem snd_foldl_updateEndpoint (l : List (AnnounceEndpoint A E × ProtocolVersion))
    (s : EndpointTable × StateCounts) :
    (l.foldl (updateEndpoint ctx verified updateInfo) s).2 =
      (l.map fun announce => endpointState ctx verified
        (announce.1.infoHashes announce.2)).foldl StateCounts.bump s.2 := by
  induction l generalizing s with
  | nil => rfl
  | cons announce l ih =>
    rw [foldl_cons, ih]
    rfl

theorem lookup_updateEndpoints :
    (updateEndpoints ctx native protocols updateInfo table).1.lookup key =
      if key ∈ currentKeys ctx native protocols then
        some (statusOf ctx table native protocols updateInfo key)
      else table.lookup key := by
  rw [updateEndpoints_eq, lookup_foldl_updateEndpoint]
  simp only [currentKeys, mem_toFinset, statusOf]

/-! ### Outdated endpoints -/

theorem keys_updateEndpoints :
    (updateEndpoints ctx native protocols updateInfo table).1.keys =
      outdatedKeys ctx table native protocols ∪ currentKeys ctx native protocols := by
  ext key
  rw [Finmap.mem_keys, mem_iff_isSome, lookup_updateEndpoints, Finset.mem_union, outdatedKeys,
    Finset.mem_sdiff, Finmap.mem_keys, mem_iff_isSome]
  split_ifs with h <;> simp [h]

theorem card_keys_updateEndpoints :
    (updateEndpoints ctx native protocols updateInfo table).1.keys.card =
      (outdatedKeys ctx table native protocols).card + (currentKeys ctx native protocols).card := by
  rw [keys_updateEndpoints]
  exact Finset.card_union_of_disjoint Finset.sdiff_disjoint

section

omit [DecidableEq A] [DecidableEq E]

theorem hasName_of_mem (h : key ∈ currentKeys ctx native protocols) :
    hasName ctx native key.1 = true := (mem_currentKeys.1 h).1

theorem lookup_removeOutdated (table : EndpointTable) :
    (removeOutdated ctx native protocols table).lookup key =
      if (announces native protocols).length < table.keys.card ∧ hasName ctx native key.1 = false
      then none else table.lookup key := by
  rw [removeOutdated, length_announces]
  by_cases hsize : numEndpoints native protocols < table.keys.card
  · rw [if_pos hsize, lookup_filter]
    cases hname : hasName ctx native key.1 <;> cases table.lookup key <;> simp [hsize]
  · rw [if_neg hsize, if_neg fun h => hsize h.1]

end

theorem lookup_removeOutdated_of_mem (h : key ∈ currentKeys ctx native protocols) :
    (removeOutdated ctx native protocols
        (updateEndpoints ctx native protocols updateInfo table).1).lookup key =
      some (statusOf ctx table native protocols updateInfo key) := by
  rw [lookup_removeOutdated, lookup_updateEndpoints, if_pos h, if_neg]
  rw [hasName_of_mem h]
  exact fun hgone => Bool.noConfusion hgone.2

variable (updateInfo) in
theorem removeOutdated_eq_iff : removeOutdated ctx native protocols
      (updateEndpoints ctx native protocols updateInfo table).1 =
        currentEndpoints ctx table native protocols updateInfo ↔
    Removable ctx table native protocols := by
  have hlookup : ∀ key ∉ currentKeys ctx native protocols,
      ((currentEndpoints ctx table native protocols updateInfo).lookup key) = none := by
    intro key hkey
    rw [currentEndpoints, lookup_ofFinset, if_neg hkey]
  have hcard : (updateEndpoints ctx native protocols updateInfo table).1.keys.card =
      (outdatedKeys ctx table native protocols).card +
        (currentKeys ctx native protocols).card := card_keys_updateEndpoints
  constructor
  · intro heq
    rw [Removable, or_iff_not_imp_left]
    intro hne
    have hgone : ∀ key ∈ outdatedKeys ctx table native protocols,
        (announces native protocols).length <
          (updateEndpoints ctx native protocols updateInfo table).1.keys.card ∧
        hasName ctx native key.1 = false := by
      intro key hkey
      rw [outdatedKeys, Finset.mem_sdiff, Finmap.mem_keys, mem_iff_isSome] at hkey
      have hnone := hlookup key hkey.2
      rw [← heq, lookup_removeOutdated, lookup_updateEndpoints, if_neg hkey.2] at hnone
      by_contra hstays
      rw [if_neg hstays] at hnone
      rw [hnone] at hkey
      exact Bool.noConfusion hkey.1
    obtain ⟨key, hkey⟩ := Finset.nonempty_iff_ne_empty.2 hne
    refine ⟨fun key hkey => (hgone key hkey).2, ?_⟩
    rw [← hcard]
    exact (hgone key hkey).1
  · intro hremovable
    refine ext_lookup fun key => ?_
    by_cases hkey : key ∈ currentKeys ctx native protocols
    · rw [lookup_removeOutdated_of_mem hkey, currentEndpoints, lookup_ofFinset, if_pos hkey]
    rw [hlookup key hkey, lookup_removeOutdated, lookup_updateEndpoints, if_neg hkey]
    split_ifs with hgone
    · rfl
    by_contra hstays
    have houtdated : key ∈ outdatedKeys ctx table native protocols := by
      rw [outdatedKeys, Finset.mem_sdiff, Finmap.mem_keys, mem_iff_isSome]
      exact ⟨Option.ne_none_iff_isSome.1 hstays, hkey⟩
    rcases hremovable with hempty | ⟨hnames, hsize⟩
    · rw [hempty] at houtdated
      exact Finset.notMem_empty _ houtdated
    · rw [← hcard] at hsize
      exact hgone ⟨hsize, hnames key houtdated⟩

/-! ### The state -/

theorem foldl_bump (states : List TrackerEndpointState) (counts : StateCounts) :
    states.foldl StateCounts.bump counts =
      ⟨counts.numUpdating + states.count .updating, counts.numWorking + states.count .working,
        counts.numNotWorking + states.count .notWorking,
        counts.numTrackerError + states.count .trackerError,
        counts.numUnreachable + states.count .unreachable⟩ := by
  induction states generalizing counts with
  | nil => rfl
  | cons state states ih =>
    rw [foldl_cons, ih]
    cases state <;> simp [StateCounts.bump, Nat.add_assoc, Nat.add_comm 1]

theorem count_add_count_eq_length {a b : TrackerEndpointState} (h : a ≠ b)
    (states : List TrackerEndpointState) :
    states.count a + states.count b = states.length ↔ ∀ x ∈ states, x = a ∨ x = b := by
  have hcount : states.count a + states.count b =
      states.countP fun x => decide (x = a ∨ x = b) := by
    induction states with
    | nil => rfl
    | cons x states ih =>
      rw [count_cons, count_cons, countP_cons, ← ih]
      by_cases ha : x = a
      · simp [ha, h]
        omega
      · by_cases hb : x = b
        · simp [hb, h.symm, Nat.add_assoc]
        · simp [ha, hb]
  rw [hcount, countP_eq_length]
  simp only [decide_eq_true_eq]

theorem nextState_of_not_decided {states : List TrackerEndpointState} (h : ¬ Decided states)
    (state : TrackerEndpointState) :
    nextState states.length (states.foldl StateCounts.bump {}) state = state := by
  simp only [Decided, not_or] at h
  obtain ⟨hupdating, hworking, herror, hcontacted⟩ := h
  rw [foldl_bump, nextState]
  split_ifs with hlength h₁ h₂ h₃ h₄ h₅
  · exact absurd (count_pos_iff.1 (by simpa using h₁)) hupdating
  · exact absurd (count_pos_iff.1 (by simpa using h₂)) hworking
  · exact absurd (count_pos_iff.1 (by simpa using h₃)) herror
  · refine absurd ⟨length_pos_iff.1 hlength, fun hmem => ?_⟩ hcontacted
    simp only [Nat.zero_add, count_eq_length] at h₄
    exact absurd (h₄ _ hmem) nofun
  · refine absurd ⟨length_pos_iff.1 hlength, fun hmem => ?_⟩ hcontacted
    simp only [Nat.zero_add] at h₅
    rcases (count_add_count_eq_length (by decide) states).1 h₅ _ hmem with h | h <;> cases h
  · rfl
  · rfl

theorem nextState_of_decided {states : List TrackerEndpointState} (h : Decided states)
    (state : TrackerEndpointState) :
    nextState states.length (states.foldl StateCounts.bump {}) state = stateOf states := by
  have hne : states ≠ [] := by
    rintro rfl
    simp [Decided] at h
  rw [foldl_bump, nextState, stateOf, if_pos (length_pos_iff.2 hne)]
  simp only [Nat.zero_add, count_pos_iff]
  by_cases hupdating : .updating ∈ states
  · rw [if_pos hupdating, if_pos hupdating]
  by_cases hworking : .working ∈ states
  · rw [if_neg hupdating, if_neg hupdating, if_pos hworking, if_pos hworking]
  by_cases herror : .trackerError ∈ states
  · rw [if_neg hupdating, if_neg hupdating, if_neg hworking, if_neg hworking, if_pos herror,
      if_pos herror]
  rw [if_neg hupdating, if_neg hupdating, if_neg hworking, if_neg hworking, if_neg herror,
    if_neg herror]
  -- what is left has failed
  have hcontacted : .notContacted ∉ states := by
    rcases h with h | h | h | ⟨-, h⟩
    · exact absurd h hupdating
    · exact absurd h hworking
    · exact absurd h herror
    · exact h
  have hfailed : ∀ x ∈ states, x = .unreachable ∨ x = .notWorking := by
    intro x hx
    cases x with
    | notContacted => exact absurd hx hcontacted
    | working => exact absurd hx hworking
    | updating => exact absurd hx hupdating
    | trackerError => exact absurd hx herror
    | notWorking => exact .inr rfl
    | unreachable => exact .inl rfl
  rw [if_neg (not_or.2 ⟨hne, hcontacted⟩),
    if_pos ((count_add_count_eq_length (by decide) states).2 hfailed)]
  by_cases hfail : .notWorking ∈ states
  · rw [if_pos hfail, if_neg]
    intro hall
    exact absurd (count_eq_length.1 hall _ hfail) nofun
  · rw [if_neg hfail, if_pos]
    refine count_eq_length.2 fun x hx => ?_
    rcases hfailed x hx with rfl | rfl
    · rfl
    · exact absurd hx hfail

theorem stateOf_congr {states states' : List TrackerEndpointState}
    (h : ∀ x, x ∈ states ↔ x ∈ states') : stateOf states = stateOf states' := by
  have hnil : states = [] ↔ states' = [] := by
    simp only [eq_nil_iff_forall_not_mem, h]
  simp only [stateOf, h, hnil]

omit [DecidableEq A] [DecidableEq E] in
theorem mem_values {status : TrackerEndpointStatus} :
    status ∈ ctx.values table ↔ ∃ key, table.lookup key = some status := by
  have hvalues : status ∈ ctx.values table ↔ status ∈ table.entries.map Sigma.snd := by
    rw [← ctx.coe_values]
    exact Multiset.mem_coe.symm
  rw [hvalues, Multiset.mem_map]
  constructor
  · rintro ⟨⟨key, _⟩, hmem, rfl⟩
    exact ⟨key, mem_lookup_iff.2 hmem⟩
  · rintro ⟨key, hlookup⟩
    exact ⟨⟨key, status⟩, mem_lookup_iff.1 hlookup, rfl⟩

theorem state_foldl_endpointStatus {l : List (AnnounceEndpoint A E × ProtocolVersion)} (h : l ≠ [])
    (old : TrackerEndpointStatus) :
    (l.foldl (endpointStatus ctx verified updateInfo) old).state =
      endpointState ctx verified ((l.getLast h).1.infoHashes (l.getLast h).2) := by
  conv_lhs => rw [← dropLast_concat_getLast h, foldl_concat]
  rfl

theorem state_statusOf (h : announce ∈ announces native protocols) :
    (statusOf ctx table native protocols updateInfo (announceKey ctx announce)).state =
      endpointState ctx native.verified
        ((lastOf ctx native protocols announce).1.infoHashes
          (lastOf ctx native protocols announce).2) := by
  have hne : (announces native protocols).filter
      (fun other => announceKey ctx other = announceKey ctx announce) ≠ [] :=
    ne_nil_of_mem (mem_filter.2 ⟨h, by simp⟩)
  rw [statusOf, state_foldl_endpointStatus hne, lastOf, List.getLast?_eq_some_getLast hne,
    Option.getD_some]

theorem mem_states_currentEndpoints {x : TrackerEndpointState} :
    x ∈ (ctx.values (currentEndpoints ctx table native protocols updateInfo)).map (·.state) ↔
      x ∈ lastStates ctx native protocols := by
  rw [mem_map, lastStates, mem_map]
  constructor
  · rintro ⟨status, hstatus, rfl⟩
    obtain ⟨key, hlookup⟩ := mem_values.1 hstatus
    rw [currentEndpoints, lookup_ofFinset] at hlookup
    split_ifs at hlookup with hkey
    rw [currentKeys, mem_toFinset, mem_map] at hkey
    obtain ⟨announce, hannounce, rfl⟩ := hkey
    rw [Option.some.injEq] at hlookup
    exact ⟨announce, hannounce, by rw [← hlookup, state_statusOf hannounce]⟩
  · rintro ⟨announce, hannounce, rfl⟩
    refine ⟨statusOf ctx table native protocols updateInfo (announceKey ctx announce),
      mem_values.2 ⟨announceKey ctx announce, ?_⟩, state_statusOf hannounce⟩
    rw [currentEndpoints, lookup_ofFinset, if_pos]
    exact mem_toFinset.2 (mem_map.2 ⟨announce, hannounce, rfl⟩)

theorem snd_updateEndpoints : (updateEndpoints ctx native protocols updateInfo table).2 =
    (announceStates ctx native protocols).foldl StateCounts.bump {} := by
  rw [updateEndpoints_eq, snd_foldl_updateEndpoint, announceStates]

variable (ctx) in
omit [DecidableEq A] in
theorem length_announceStates :
    (announceStates ctx native protocols).length = numEndpoints native protocols := by
  rw [announceStates, length_map, length_announces]

variable (updateInfo) in
theorem nextState_eq_iff {status : TrackerEntryStatus} :
    nextState (numEndpoints native protocols)
        (updateEndpoints ctx native protocols updateInfo table).2 status.state =
      stateOf ((ctx.values (currentEndpoints ctx table native protocols updateInfo)).map
        (·.state)) ↔ StateKnown ctx status native protocols := by
  rw [snd_updateEndpoints, ← length_announceStates ctx,
    stateOf_congr fun x => mem_states_currentEndpoints, StateKnown]
  by_cases h : Decided (announceStates ctx native protocols)
  · rw [nextState_of_decided h]
    simp [h]
  · rw [nextState_of_not_decided h]
    simp [h]

/-! ### The sums -/

omit [DecidableEq A] [DecidableEq E] in
theorem foldl_addEndpoint (l : List TrackerEndpointStatus) (status : TrackerEntryStatus) :
    (l.foldl addEndpoint status).state = status.state ∧
      (l.foldl addEndpoint status).endpoints = status.endpoints := by
  induction l generalizing status with
  | nil => exact ⟨rfl, rfl⟩
  | cons endpoint l ih => exact ih (addEndpoint status endpoint)

/-! ### Endpoints with names of their own -/

omit [DecidableEq A] [DecidableEq E] in
theorem lastOf_of_nodup (h : ((announces native protocols).map (announceKey ctx)).Nodup)
    (hmem : announce ∈ announces native protocols) :
    lastOf ctx native protocols announce = announce := by
  rw [lastOf]
  cases hlast : ((announces native protocols).filter
    fun other => announceKey ctx other = announceKey ctx announce).getLast? with
  | none => rfl
  | some other =>
    have hother := mem_filter.1 (mem_of_getLast? hlast)
    exact inj_on_of_nodup_map h hother.1 hmem (of_decide_eq_true hother.2)

theorem stateOf_of_not_decided {states : List TrackerEndpointState} (h : ¬ Decided states) :
    stateOf states = .notContacted := by
  simp only [Decided, not_or, not_and_or, not_not] at h
  rw [stateOf, if_neg h.1, if_neg h.2.1, if_neg h.2.2.1, if_pos h.2.2.2]

omit [DecidableEq A] in
theorem stateKnown_iff_of_nodup {status : TrackerEntryStatus}
    (h : ((announces native protocols).map (announceKey ctx)).Nodup) :
    StateKnown ctx status native protocols ↔
      Decided (announceStates ctx native protocols) ∨ status.state = .notContacted := by
  have hlast : lastStates ctx native protocols = announceStates ctx native protocols :=
    map_congr_left fun announce hmem => by rw [lastOf_of_nodup h hmem]
  rw [StateKnown, hlast]
  by_cases hdecided : Decided (announceStates ctx native protocols)
  · simp [hdecided]
  · simp [hdecided, stateOf_of_not_decided hdecided]

/-- **The status of a tracker.**  The status is the one of the endpoints that there are exactly when
what is outdated can be removed and the state is known. -/
theorem updateTrackerEntryStatus_eq_iff (ctx : TrackerContext A E) (status : TrackerEntryStatus)
    (native : AnnounceEntry A E) (protocols : BtProtocols) (updateInfo : UpdateInfo A) :
    updateTrackerEntryStatus ctx status native protocols updateInfo =
        ofEndpoints ctx status native protocols updateInfo ↔
      Removable ctx status.endpoints native protocols ∧ StateKnown ctx status native protocols := by
  rw [← removeOutdated_eq_iff updateInfo, ← nextState_eq_iff updateInfo]
  constructor
  · intro heq
    have hendpoints := congrArg TrackerEntryStatus.endpoints heq
    have hstate := congrArg TrackerEntryStatus.state heq
    simp only [updateTrackerEntryStatus, ofEndpoints, aggregate, foldl_addEndpoint]
      at hendpoints hstate
    exact ⟨hendpoints, hstate⟩
  · rintro ⟨hendpoints, hstate⟩
    simp only [updateTrackerEntryStatus, ofEndpoints]
    rw [hendpoints, hstate]

/-! ### An endpoint that is gone -/

/-- Endpoints are numbers that are written as characters, errors are numbers. -/
noncomputable def plainContext : TrackerContext ℕ ℕ where
  endpointName address := (Char.ofNat address).toString
  trackerFailure := 1
  announceSkipped := 2
  isError code := code ≠ 0
  errorMessage _ := ""
  values table := (table.entries.map Sigma.snd).toList
  coe_values _ := Multiset.coe_toList _

def newEndpoint : AnnounceEndpoint ℕ ℕ where
  localEndpoint := 98
  infoHashes _ := ⟨false, 0, 0, [], -1, -1, -1, 5, 5⟩

def newEntry : AnnounceEntry ℕ ℕ := ⟨0, false, [newEndpoint]⟩

def onlyV1 : BtProtocols := ⟨[.v1], by decide⟩

/-- The only endpoint so far has failed. -/
def failedStatus : TrackerEntryStatus where
  state := .notWorking
  endpoints := (∅ : EndpointTable).insert ("a", .v1)
    { name := "a", state := .notWorking, message := "refused" }

/-- The failure of an endpoint that is gone is still the state of the tracker. -/
theorem failure_kept :
    updateTrackerEntryStatus plainContext failedStatus newEntry onlyV1 ∅ ≠
      ofEndpoints plainContext failedStatus newEntry onlyV1 ∅ := by
  intro heq
  have hstate := congrArg TrackerEntryStatus.state heq
  simp only [updateTrackerEntryStatus, ofEndpoints, aggregate, foldl_addEndpoint] at hstate
  have hknown : StateKnown plainContext failedStatus newEntry onlyV1 :=
    (nextState_eq_iff ∅).1 hstate
  have hnodup : ((announces newEntry onlyV1).map (announceKey plainContext)).Nodup :=
    nodup_singleton _
  rcases (stateKnown_iff_of_nodup hnodup).1 hknown with hdecided | hbefore
  · have hstates : announceStates plainContext newEntry onlyV1 = [.notContacted] := rfl
    rw [hstates] at hdecided
    simp [Decided] at hdecided
  · cases hbefore

end QBittorrent.BitTorrent
