import QBittorrent.Torrent.TrackerList
import QBittorrent.Torrent.TrackerStatus

/-!
# The trackers filter

The filter has a row for each host with the torrents that have a tracker there, a row for the
torrents without trackers, and rows for the torrents whose trackers fail or warn.  It is changed by
the events of the session, URL by URL.  A torrent keeps its ID.

* `mem_torrentsOf_addItems` : one URL, seen at one row;
* `Tidy` : the rows show the sizes of their sets.
-/

namespace QBittorrent

open BitTorrent List Finmap Finset Dict

/-- `QUrl::host`. -/
structure UrlHost where
  host : List Char → List Char
  host_nil : host [] = []

/-! ### Rows of errors and warnings -/

/-- A map from torrents to URLs of trackers, and the number in the text of its row. -/
structure ErrorView (ID : Type) where
  urls : Dict ID (Finset (List Char)) := ∅
  row : ℕ := 0

namespace ErrorView

variable {ID : Type} [DecidableEq ID] (v : ErrorView ID)

omit [DecidableEq ID] in
/-- The text of the row is set. -/
def showSize : ErrorView ID := { v with row := v.urls.keys.card }

/-- What `removeItem` does: a torrent without URLs is erased, and the text is set. -/
def remove (id : ID) (url : List Char) : ErrorView ID :=
  match v.urls.lookup id with
  | none => v
  | some errored =>
    if (errored.erase url).card = 0 then { v with urls := v.urls.erase id }.showSize
    else { v with urls := v.urls.insert id (errored.erase url) }

/-- What `refreshTrackers` does. -/
def forget (id : ID) : ErrorView ID := { v with urls := v.urls.erase id }.showSize

/-- What `handleTrackerStatusesUpdated` leaves, with the URLs that its iterator points at. -/
def store (id : ID) : Option (Finset (List Char)) → ErrorView ID
  | none => v.showSize
  | some errored =>
    if errored.card = 0 then { v with urls := v.urls.erase id }.showSize
    else { v with urls := v.urls.insert id errored }.showSize

end ErrorView

/-! ### The widget -/

/-- The torrents with a tracker at a host, and the number in the text of the row. -/
structure TrackerData (ID : Type) where
  torrents : Finset ID
  row : ℕ

structure TrackersFilterWidget (ID : Type) where
  trackers : Dict (List Char) (TrackerData ID) := ∅
  errors : ErrorView ID := {}
  trackerErrors : ErrorView ID := {}
  warnings : ErrorView ID := {}
  totalTorrents : ℤ := 0
  allRow : ℤ := 0

namespace TrackersFilterWidget

variable {ID : Type} [DecidableEq ID] (U : UrlHost)

/-- The constructor before the torrents of the session are loaded. -/
def new : TrackersFilterWidget ID where
  trackers := (∅ : Dict (List Char) (TrackerData ID)).insert [] ⟨∅, 0⟩

/-- The host, or the URL itself if it has none. -/
def getHost (url : List Char) : List Char := if U.host url = [] then url else U.host url

/-- The torrents at a host, none without an entry. -/
def torrentsOf (w : TrackersFilterWidget ID) (host : List Char) : Finset ID :=
  (w.trackers.lookup host).elim ∅ (·.torrents)

/-- The entry of a host with these torrents and their number. -/
def putTorrents (w : TrackersFilterWidget ID) (host : List Char) (torrentIDs : Finset ID) :
    TrackersFilterWidget ID :=
  { w with trackers := w.trackers.insert host ⟨torrentIDs, torrentIDs.card⟩ }

def addItems (w : TrackersFilterWidget ID) (trackerURL : List Char) (torrents : List ID) :
    TrackersFilterWidget ID :=
  w.putTorrents (getHost U trackerURL) (w.torrentsOf (getHost U trackerURL) ∪ torrents.toFinset)

def removeItem (w : TrackersFilterWidget ID) (trackerURL : List Char) (id : ID) :
    TrackersFilterWidget ID :=
  let host := getHost U trackerURL
  let torrentIDs := (w.torrentsOf host).erase id
  if host ≠ [] then
    let w' : TrackersFilterWidget ID :=
      { w with
        errors := w.errors.remove id trackerURL
        trackerErrors := w.trackerErrors.remove id trackerURL
        warnings := w.warnings.remove id trackerURL }
    if torrentIDs.card = 0 then { w' with trackers := w'.trackers.erase host }
    else w'.putTorrents host torrentIDs
  else w.putTorrents host torrentIDs

def addTrackers (w : TrackersFilterWidget ID) (torrentID : ID) (trackers : List TrackerEntry) :
    TrackersFilterWidget ID :=
  removeItem U (trackers.foldl (fun w tracker => addItems U w tracker.url [torrentID]) w) []
    torrentID

/-- `removeTrackers`; the torrent has the trackers `remaining` now. -/
def removeTrackers (w : TrackersFilterWidget ID) (torrentID : ID) (remaining : List TrackerEntry)
    (trackers : List (List Char)) : TrackersFilterWidget ID :=
  let w' := trackers.foldl (fun w tracker => removeItem U w tracker torrentID) w
  if remaining = [] then addItems U w' [] [torrentID] else w'

/-- The URLs under which a torrent is added: the empty one if it has no trackers. -/
def rowUrls (trackers : List TrackerEntry) : List (List Char) :=
  if trackers = [] then [[]] else urls trackers

/-- The torrent is taken out of all rows. -/
def forget (w : TrackersFilterWidget ID) (torrentID : ID) : TrackersFilterWidget ID :=
  { w with
    errors := w.errors.forget torrentID
    trackerErrors := w.trackerErrors.forget torrentID
    warnings := w.warnings.forget torrentID
    trackers := w.trackers.filterMap fun host trackerData =>
      if torrentID ∉ trackerData.torrents then some trackerData
      else if host ≠ [] ∧ (trackerData.torrents.erase torrentID).card = 0 then none
      else some ⟨trackerData.torrents.erase torrentID,
        (trackerData.torrents.erase torrentID).card⟩ }

def refreshTrackers (w : TrackersFilterWidget ID) (torrentID : ID)
    (trackers : List TrackerEntry) : TrackersFilterWidget ID :=
  (rowUrls trackers).foldl (fun w url => addItems U w url [torrentID]) (w.forget torrentID)

/-- The torrents that are added under a URL. -/
def torrentsPerTracker (torrents : List (ID × List TrackerEntry)) (url : List Char) : List ID :=
  torrents.flatMap fun torrent => ((rowUrls torrent.2).filter (· = url)).map fun _ => torrent.1

/-- `handleTorrentsLoaded`, with the order in which the URLs are walked. -/
def handleTorrentsLoaded (w : TrackersFilterWidget ID) (torrents : List (ID × List TrackerEntry))
    (order : List (List Char)) : TrackersFilterWidget ID :=
  let w' := order.foldl (fun w url => addItems U w url (torrentsPerTracker torrents url)) w
  { w' with
    totalTorrents := w'.totalTorrents + torrents.length
    allRow := w'.totalTorrents + torrents.length }

def torrentAboutToBeDeleted (w : TrackersFilterWidget ID) (torrentID : ID)
    (trackers : List TrackerEntry) : TrackersFilterWidget ID :=
  let w' := (rowUrls trackers).foldl (fun w url => removeItem U w url torrentID) w
  { w' with totalTorrents := w'.totalTorrents - 1, allRow := w'.totalTorrents - 1 }

/-! ### Statuses of trackers -/

/-- The URLs of one torrent that the three iterators point at. -/
structure Iterators where
  errors : Option (Finset (List Char))
  trackerErrors : Option (Finset (List Char))
  warnings : Option (Finset (List Char))

def hasNoWarningMessages (endpoints : EndpointTable) : Bool :=
  endpoints.all fun _ endpoint => endpoint.message = "" || endpoint.state ≠ .working

/-- One status in the loop of `handleTrackerStatusesUpdated`. -/
def Iterators.update (it : Iterators) (status : TrackerEntryStatus) : Iterators :=
  let url := status.url.toList
  let without (errored : Option (Finset (List Char))) := errored.map (·.erase url)
  let including (errored : Option (Finset (List Char))) := some (insert url (errored.getD ∅))
  match status.state with
  | .working =>
    { errors := without it.errors
      trackerErrors := without it.trackerErrors
      warnings := if hasNoWarningMessages status.endpoints then without it.warnings
        else including it.warnings }
  | .notWorking | .unreachable =>
    { errors := including it.errors
      trackerErrors := without it.trackerErrors
      warnings := without it.warnings }
  | .trackerError =>
    { errors := without it.errors
      trackerErrors := including it.trackerErrors
      warnings := without it.warnings }
  | .notContacted =>
    { errors := without it.errors
      trackerErrors := without it.trackerErrors
      warnings := without it.warnings }
  | .updating => it

def handleTrackerStatusesUpdated (w : TrackersFilterWidget ID) (id : ID)
    (updatedTrackers : List TrackerEntryStatus) : TrackersFilterWidget ID :=
  let it := updatedTrackers.foldl Iterators.update
    ⟨w.errors.urls.lookup id, w.trackerErrors.urls.lookup id, w.warnings.urls.lookup id⟩
  { w with
    errors := w.errors.store id it.errors
    trackerErrors := w.trackerErrors.store id it.trackerErrors
    warnings := w.warnings.store id it.warnings }

end TrackersFilterWidget

namespace ErrorView

variable {ID : Type} [DecidableEq ID] {v : ErrorView ID} {id : ID} {url : List Char}
  {known known' : ID → List Char → Prop}

/-- The row shows the size, no torrent is there without URLs, and all URLs are known. -/
structure Names (known : ID → List Char → Prop) (v : ErrorView ID) : Prop where
  row : v.row = v.urls.keys.card
  nonempty : ∀ id errored, v.urls.lookup id = some errored → errored.card ≠ 0
  known : ∀ id errored, v.urls.lookup id = some errored → ∀ url ∈ errored, known id url

theorem Names.mono (h : Names known v) (hknown : ∀ id url, known id url → known' id url) :
    Names known' v :=
  ⟨h.row, h.nonempty, fun id errored hlookup url hurl =>
    hknown id url (h.known id errored hlookup url hurl)⟩

theorem Names.remove (h : Names known v) (id : ID) (url : List Char) :
    Names (fun j u => known j u ∧ ¬ (j = id ∧ u = url)) (v.remove id url) := by
  rw [ErrorView.remove]
  cases hlookup : v.urls.lookup id with
  | none =>
    refine ⟨h.row, h.nonempty, fun j errored hj u hu => ⟨h.known j errored hj u hu, ?_⟩⟩
    rintro ⟨rfl, -⟩
    rw [hlookup] at hj
    cases hj
  | some errored =>
    by_cases hempty : (errored.erase url).card = 0
    · simp only [if_pos hempty]
      refine ⟨rfl, fun j s hj => ?_, fun j s hj u hu => ?_⟩
      all_goals
        rw [showSize, lookup_erase_eq] at hj
        split_ifs at hj with hne
      · exact h.nonempty j s hj
      · exact ⟨h.known j s hj u hu, fun heq => hne heq.1⟩
    · simp only [if_neg hempty]
      refine ⟨?_, fun j s hj => ?_, fun j s hj u hu => ?_⟩
      · rw [h.row]
        congr 1
        ext j
        rw [Finmap.mem_keys, Finmap.mem_keys, Finmap.mem_insert]
        refine ⟨.inr, ?_⟩
        rintro (rfl | hj)
        · exact mem_of_lookup_eq_some hlookup
        · exact hj
      · rw [lookup_insert_eq] at hj
        split_ifs at hj
        · obtain rfl := Option.some.inj hj
          exact hempty
        · exact h.nonempty j s hj
      · rw [lookup_insert_eq] at hj
        split_ifs at hj with hne
        · obtain rfl := Option.some.inj hj
          subst hne
          obtain ⟨hneurl, hmem⟩ := mem_erase.1 hu
          exact ⟨h.known _ errored hlookup u hmem, fun heq => hneurl heq.2⟩
        · exact ⟨h.known j s hj u hu, fun heq => hne heq.1⟩

theorem Names.forget (h : Names known v) (id : ID) :
    Names (fun j u => known j u ∧ j ≠ id) (v.forget id) := by
  refine ⟨rfl, fun j s hj => ?_, fun j s hj u hu => ?_⟩
  all_goals
    rw [ErrorView.forget, showSize, lookup_erase_eq] at hj
    split_ifs at hj with hne
  · exact h.nonempty j s hj
  · exact ⟨h.known j s hj u hu, hne⟩

theorem Names.store (h : Names known v) {id : ID} {it : Option (Finset (List Char))}
    (hit : ∀ errored, it = some errored → ∀ url ∈ errored, known id url) :
    Names known (v.store id it) := by
  cases it with
  | none => exact ⟨rfl, h.nonempty, h.known⟩
  | some errored =>
    rw [ErrorView.store]
    split_ifs with hempty
    · exact (h.forget id).mono fun j u hj => hj.1
    · refine ⟨rfl, fun j s hj => ?_, fun j s hj u hu => ?_⟩
      all_goals
        rw [showSize, lookup_insert_eq] at hj
        split_ifs at hj with heq
      · exact Option.some.inj hj ▸ hempty
      · exact h.nonempty j s hj
      · obtain rfl := Option.some.inj hj
        subst heq
        exact hit errored rfl u hu
      · exact h.known j s hj u hu

end ErrorView

namespace TrackersFilterWidget

variable {ID : Type} [DecidableEq ID] {U : UrlHost} {w : TrackersFilterWidget ID} {id j : ID}
  {host url : List Char} {known known' : ID → List Char → Prop} {torrents : List ID}

theorem getHost_eq_nil_iff : getHost U url = [] ↔ url = [] := by
  rw [getHost]
  split_ifs with hhost
  · exact Iff.rfl
  · refine iff_of_false hhost ?_
    rintro rfl
    exact hhost U.host_nil

theorem getHost_nil : getHost U [] = [] := getHost_eq_nil_iff.2 rfl

omit [DecidableEq ID] in
theorem torrentsOf_putTorrents (host' : List Char) (torrentIDs : Finset ID) :
    (w.putTorrents host torrentIDs).torrentsOf host' =
      if host' = host then torrentIDs else w.torrentsOf host' := by
  rw [torrentsOf, putTorrents, lookup_insert_eq]
  split_ifs <;> rfl

theorem mem_torrentsOf_addItems :
    j ∈ (addItems U w url torrents).torrentsOf host ↔
      j ∈ w.torrentsOf host ∨ getHost U url = host ∧ j ∈ torrents := by
  rw [addItems, torrentsOf_putTorrents]
  split_ifs with hhost
  · rw [Finset.mem_union, mem_toFinset, hhost, and_iff_right rfl]
  · rw [or_iff_left fun h => hhost h.1.symm]

theorem mem_torrentsOf_removeItem :
    j ∈ (removeItem U w url id).torrentsOf host ↔
      j ∈ w.torrentsOf host ∧ ¬ (j = id ∧ getHost U url = host) := by
  have hput : j ∈ (w.putTorrents (getHost U url)
      ((w.torrentsOf (getHost U url)).erase id)).torrentsOf host ↔
        j ∈ w.torrentsOf host ∧ ¬ (j = id ∧ getHost U url = host) := by
    rw [torrentsOf_putTorrents]
    split_ifs with hhost
    · rw [Finset.mem_erase, hhost, and_comm]
      simp
    · rw [and_iff_left fun h => hhost h.2.symm]
  rw [removeItem]
  split_ifs with hnil hempty
  · rw [← hput, torrentsOf, torrentsOf, putTorrents, lookup_erase_eq, lookup_insert_eq]
    split_ifs
    · simp [card_eq_zero.1 hempty]
    · rfl
  · exact hput
  · exact hput

theorem mem_torrentsOf_foldl_addItems (l : List (List Char)) (torrents : List Char → List ID) :
    j ∈ (l.foldl (fun w url => addItems U w url (torrents url)) w).torrentsOf host ↔
      j ∈ w.torrentsOf host ∨ ∃ url ∈ l, getHost U url = host ∧ j ∈ torrents url := by
  induction l generalizing w with
  | nil => simp
  | cons url l ih => rw [foldl_cons, ih, mem_torrentsOf_addItems, or_assoc]; simp

theorem mem_torrentsOf_foldl_removeItem (l : List (List Char)) :
    j ∈ (l.foldl (fun w url => removeItem U w url id) w).torrentsOf host ↔
      j ∈ w.torrentsOf host ∧ ¬ (j = id ∧ ∃ url ∈ l, getHost U url = host) := by
  induction l generalizing w with
  | nil => simp
  | cons url l ih =>
    rw [foldl_cons, ih, mem_torrentsOf_removeItem, and_assoc, ← not_or, ← and_or_left]
    simp

theorem addTrackers_eq (trackers : List TrackerEntry) :
    addTrackers U w id trackers =
      removeItem U ((urls trackers).foldl (fun w url => addItems U w url [id]) w) [] id := by
  rw [addTrackers, urls, foldl_map]

theorem mem_torrentsOf_forget :
    j ∈ (w.forget id).torrentsOf host ↔ j ∈ w.torrentsOf host ∧ j ≠ id := by
  rw [torrentsOf, torrentsOf, forget, lookup_filterMap]
  cases w.trackers.lookup host with
  | none => simp
  | some trackerData =>
    rw [Option.bind_some, Option.elim_some]
    split_ifs with hin hempty
    · rw [and_comm, ← Finset.mem_erase, card_eq_zero.1 hempty.2]
      rfl
    · rw [Option.elim_some, Finset.mem_erase, and_comm]
    · exact ⟨fun hj => ⟨hj, fun heq => hin (heq ▸ hj)⟩, fun hj => hj.1⟩

theorem mem_torrentsOf_handleTorrentsLoaded {torrents : List (ID × List TrackerEntry)}
    {order : List (List Char)} :
    j ∈ (handleTorrentsLoaded U w torrents order).torrentsOf host ↔ j ∈ w.torrentsOf host ∨
      ∃ url ∈ order, getHost U url = host ∧ j ∈ torrentsPerTracker torrents url :=
  mem_torrentsOf_foldl_addItems order (torrentsPerTracker torrents)

/-! ### Sizes -/

/-- The rows show the sizes of the sets, and no host is there without torrents. -/
structure Tidy (w : TrackersFilterWidget ID) : Prop where
  rows : ∀ host trackerData, w.trackers.lookup host = some trackerData →
    trackerData.row = trackerData.torrents.card ∧ (host ≠ [] → trackerData.torrents.card ≠ 0)
  trackerless : [] ∈ w.trackers
  all : w.allRow = w.totalTorrents

section

omit [DecidableEq ID]

theorem tidy_new : Tidy (new : TrackersFilterWidget ID) where
  rows host trackerData h := by
    rw [new, lookup_insert_eq] at h
    split_ifs at h with hnil
    · obtain rfl := Option.some.inj h
      exact ⟨rfl, fun hne => absurd hnil hne⟩
    · cases h
  trackerless := mem_insert.2 (.inl rfl)
  all := rfl

theorem Tidy.putTorrents (h : Tidy w) {torrentIDs : Finset ID}
    (hne : host ≠ [] → torrentIDs.card ≠ 0) : Tidy (w.putTorrents host torrentIDs) where
  rows host' trackerData hlookup := by
    rw [TrackersFilterWidget.putTorrents, lookup_insert_eq] at hlookup
    split_ifs at hlookup with hhost
    · obtain rfl := Option.some.inj hlookup
      exact ⟨rfl, hhost ▸ hne⟩
    · exact h.rows host' trackerData hlookup
  trackerless := mem_insert.2 (.inr h.trackerless)
  all := h.all

end

theorem Tidy.addItems (h : Tidy w) (url : List Char) (hne : torrents ≠ []) :
    Tidy (addItems U w url torrents) := by
  refine h.putTorrents fun _ hcard => ?_
  rw [card_eq_zero, union_eq_empty] at hcard
  exact hne (toFinset_eq_empty_iff _ |>.1 hcard.2)

theorem Tidy.removeItem (h : Tidy w) (url : List Char) (id : ID) :
    Tidy (removeItem U w url id) := by
  rw [TrackersFilterWidget.removeItem]
  split_ifs with hnil hempty
  · refine ⟨fun host trackerData hlookup => ?_, ?_, h.all⟩
    · rw [lookup_erase_eq] at hlookup
      split_ifs at hlookup
      exact h.rows host trackerData hlookup
    · exact mem_erase.2 ⟨Ne.symm hnil, h.trackerless⟩
  · have hw : Tidy { w with
        errors := w.errors.remove id url
        trackerErrors := w.trackerErrors.remove id url
        warnings := w.warnings.remove id url } := { h with }
    exact hw.putTorrents fun _ => hempty
  · exact h.putTorrents fun hne => absurd hne hnil

theorem Tidy.foldl_addItems (h : Tidy w) (l : List (List Char)) {torrents : List Char → List ID}
    (hne : ∀ url ∈ l, torrents url ≠ []) :
    Tidy (l.foldl (fun w url => TrackersFilterWidget.addItems U w url (torrents url)) w) := by
  induction l generalizing w with
  | nil => exact h
  | cons url l ih =>
    rw [List.forall_mem_cons] at hne
    exact ih (h.addItems url hne.1) hne.2

theorem Tidy.foldl_removeItem (h : Tidy w) (l : List (List Char)) (id : ID) :
    Tidy (l.foldl (fun w url => TrackersFilterWidget.removeItem U w url id) w) := by
  induction l generalizing w with
  | nil => exact h
  | cons url l ih => exact ih (h.removeItem url id)

theorem Tidy.forget (h : Tidy w) (id : ID) : Tidy (w.forget id) where
  rows host trackerData hlookup := by
    rw [TrackersFilterWidget.forget, lookup_filterMap] at hlookup
    obtain ⟨old, hold, hnew⟩ := Option.bind_eq_some_iff.1 hlookup
    split_ifs at hnew with hin hempty
    · obtain rfl := Option.some.inj hnew
      exact ⟨rfl, fun hne hcard => hempty ⟨hne, hcard⟩⟩
    · obtain rfl := Option.some.inj hnew
      exact h.rows host old hold
  trackerless := by
    obtain ⟨old, hold⟩ := mem_iff.1 h.trackerless
    rw [mem_iff]
    refine Option.isSome_iff_exists.1 ?_
    rw [TrackersFilterWidget.forget, lookup_filterMap, hold, Option.bind_some]
    split_ifs with hin hempty
    · exact absurd rfl hempty.1
    · rfl
    · rfl
  all := h.all

theorem totalTorrents_foldl_addItems (l : List (List Char)) (torrents : List Char → List ID) :
    (l.foldl (fun w url => addItems U w url (torrents url)) w).totalTorrents =
      w.totalTorrents := by
  induction l generalizing w with
  | nil => rfl
  | cons url l ih => exact ih

theorem totalTorrents_removeItem (url : List Char) (id : ID) :
    (removeItem U w url id).totalTorrents = w.totalTorrents := by
  rw [removeItem]
  split_ifs <;> rfl

theorem totalTorrents_foldl_removeItem (l : List (List Char)) (id : ID) :
    (l.foldl (fun w url => removeItem U w url id) w).totalTorrents = w.totalTorrents := by
  induction l generalizing w with
  | nil => rfl
  | cons url l ih => exact ih.trans (totalTorrents_removeItem url id)

/-! ### Errors and warnings -/

/-- The three sets name known URLs only. -/
structure Names (known : ID → List Char → Prop) (w : TrackersFilterWidget ID) : Prop where
  errors : w.errors.Names known
  trackerErrors : w.trackerErrors.Names known
  warnings : w.warnings.Names known

section

variable (h : Names known w)

include h

theorem Names.mono (hknown : ∀ id url, known id url → known' id url) : Names known' w :=
  ⟨h.errors.mono hknown, h.trackerErrors.mono hknown, h.warnings.mono hknown⟩

theorem Names.addItems (url : List Char) (torrents : List ID) :
    Names known (addItems U w url torrents) := { h with }

theorem Names.foldl_addItems (l : List (List Char)) (torrents : List Char → List ID) :
    Names known
      (l.foldl (fun w url => TrackersFilterWidget.addItems U w url (torrents url)) w) := by
  induction l generalizing w with
  | nil => exact h
  | cons url l ih => exact ih (h.addItems url _)

theorem Names.removeItem_nil (id : ID) : Names known (removeItem U w [] id) := by
  rw [TrackersFilterWidget.removeItem, getHost_nil, if_neg (not_not.2 rfl)]
  exact { h with }

theorem Names.removeItem (id : ID) (hurl : url ≠ []) :
    Names (fun j u => known j u ∧ ¬ (j = id ∧ u = url)) (removeItem U w url id) := by
  rw [TrackersFilterWidget.removeItem, if_pos (mt getHost_eq_nil_iff.1 hurl)]
  split_ifs <;>
    exact ⟨h.errors.remove id url, h.trackerErrors.remove id url, h.warnings.remove id url⟩

theorem Names.foldl_removeItem (id : ID) {l : List (List Char)} (hl : [] ∉ l) :
    Names (fun j u => known j u ∧ ¬ (j = id ∧ u ∈ l))
      (l.foldl (fun w url => TrackersFilterWidget.removeItem U w url id) w) := by
  induction l generalizing w known with
  | nil => exact h.mono fun j u hj => ⟨hj, fun hmem => not_mem_nil hmem.2⟩
  | cons url l ih =>
    rw [List.mem_cons, not_or] at hl
    refine (ih (h.removeItem id (Ne.symm hl.1)) hl.2).mono fun j u hj => ⟨hj.1.1, fun hmem => ?_⟩
    rcases mem_cons.1 hmem.2 with heq | hrest
    · exact hj.1.2 ⟨hmem.1, heq⟩
    · exact hj.2 ⟨hmem.1, hrest⟩

theorem Names.forget (id : ID) : Names (fun j u => known j u ∧ j ≠ id) (w.forget id) :=
  ⟨h.errors.forget id, h.trackerErrors.forget id, h.warnings.forget id⟩

end

/-- The iterators point at URLs that satisfy `P`. -/
structure Iterators.Within (P : List Char → Prop) (it : Iterators) : Prop where
  errors : ∀ errored, it.errors = some errored → ∀ url ∈ errored, P url
  trackerErrors : ∀ errored, it.trackerErrors = some errored → ∀ url ∈ errored, P url
  warnings : ∀ errored, it.warnings = some errored → ∀ url ∈ errored, P url

theorem Iterators.Within.update {P : List Char → Prop} {it : Iterators} (h : it.Within P)
    {status : TrackerEntryStatus} (hstatus : status.state ≠ .notContacted → P status.url.toList) :
    (it.update status).Within P := by
  have hwithout : ∀ {it : Option (Finset (List Char))},
      (∀ errored, it = some errored → ∀ url ∈ errored, P url) →
      ∀ errored, it.map (·.erase status.url.toList) = some errored → ∀ url ∈ errored, P url := by
    intro it hit errored herrored url hurl
    obtain ⟨old, hold, rfl⟩ := Option.map_eq_some_iff.1 herrored
    exact hit old hold url (mem_of_mem_erase hurl)
  have hincluding : ∀ {it : Option (Finset (List Char))},
      (∀ errored, it = some errored → ∀ url ∈ errored, P url) → P status.url.toList →
      ∀ errored, some (insert status.url.toList (it.getD ∅)) = some errored →
        ∀ url ∈ errored, P url := by
    intro it hit hurl errored herrored url hmem
    obtain rfl := Option.some.inj herrored
    rcases mem_insert.1 hmem with rfl | hmem
    · exact hurl
    · cases it with
      | none => exact absurd hmem (notMem_empty _)
      | some old => exact hit old rfl url hmem
  rw [Iterators.update]
  cases hstate : status.state with
  | working =>
    refine ⟨hwithout h.errors, hwithout h.trackerErrors, ?_⟩
    split_ifs
    · exact hwithout h.warnings
    · exact hincluding h.warnings (hstatus (by rw [hstate]; decide))
  | notWorking =>
    exact ⟨hincluding h.errors (hstatus (by rw [hstate]; decide)), hwithout h.trackerErrors,
      hwithout h.warnings⟩
  | unreachable =>
    exact ⟨hincluding h.errors (hstatus (by rw [hstate]; decide)), hwithout h.trackerErrors,
      hwithout h.warnings⟩
  | trackerError =>
    exact ⟨hwithout h.errors, hincluding h.trackerErrors (hstatus (by rw [hstate]; decide)),
      hwithout h.warnings⟩
  | notContacted => exact ⟨hwithout h.errors, hwithout h.trackerErrors, hwithout h.warnings⟩
  | updating => exact h

theorem Names.handleTrackerStatusesUpdated (h : Names known w) (id : ID)
    {updatedTrackers : List TrackerEntryStatus}
    (hupdated : ∀ status ∈ updatedTrackers, status.state ≠ .notContacted →
      known id status.url.toList) :
    Names known (w.handleTrackerStatusesUpdated id updatedTrackers) := by
  have hloop : ∀ (l : List TrackerEntryStatus) (it : Iterators),
      (∀ status ∈ l, status.state ≠ .notContacted → known id status.url.toList) →
      it.Within (known id) → (l.foldl Iterators.update it).Within (known id) := by
    intro l
    induction l with
    | nil => exact fun it _ hit => hit
    | cons status l ih =>
      intro it hl hit
      rw [List.forall_mem_cons] at hl
      exact ih _ hl.2 (hit.update hl.1)
  have hit := hloop updatedTrackers ⟨w.errors.urls.lookup id, w.trackerErrors.urls.lookup id,
    w.warnings.urls.lookup id⟩ hupdated ⟨h.errors.known id, h.trackerErrors.known id,
      h.warnings.known id⟩
  exact ⟨h.errors.store hit.errors, h.trackerErrors.store hit.trackerErrors,
    h.warnings.store hit.warnings⟩

end TrackersFilterWidget

end QBittorrent
