import QBittorrent.Gui.TrackersFilter

/-!
# The trackers filter over runs

The session loads and removes torrents, changes their trackers and tells the filter.  The filter
forgets a host of a torrent as soon as one of the URLs with this host is removed.

* `mirrors_removed_iff` : when trackers are removed rightly;
* `right_iff_apart` : when the filter is right throughout a run.
-/

namespace QBittorrent.TrackersFilter

open BitTorrent TrackersFilterWidget List TorrentTrackers Finmap Option Dict

variable {ID : Type} [DecidableEq ID]

/-- The torrents of the session and the filter. -/
structure State (ID : Type) where
  torrents : Dict ID TorrentTrackers
  widget : TrackersFilterWidget ID

def start : State ID := ⟨∅, new⟩

inductive Event (ID : Type) where
  | torrentsLoaded (torrents : List (ID × TorrentTrackers)) (order : List (List Char))
  | torrentAboutToBeDeleted (id : ID)
  | trackersCall (id : ID) (call : TorrentTrackers.Call)
  | trackerStatusesUpdated (id : ID) (updatedTrackers : List TrackerEntryStatus)

/-- There is a torrent, and it satisfies `P`. -/
def Holds (P : TorrentTrackers → Prop) (torrent : Option TorrentTrackers) : Prop :=
  ∃ t, torrent = some t ∧ P t

instance (P : TorrentTrackers → Prop) [DecidablePred P] : DecidablePred (Holds P)
  | none => isFalse (by rintro ⟨t, h, -⟩; cases h)
  | some t => decidable_of_iff (P t) ⟨fun h => ⟨t, rfl, h⟩, by rintro ⟨t, ⟨⟩, h⟩; exact h⟩

/-- The statuses are those of trackers that the torrent has, or say nothing. -/
def OwnStatuses (updatedTrackers : List TrackerEntryStatus) (t : TorrentTrackers) : Prop :=
  ∀ status ∈ updatedTrackers, status.state ≠ .notContacted → status.url.toList ∈ urls t.statuses

instance (updatedTrackers : List TrackerEntryStatus) :
    DecidablePred (OwnStatuses updatedTrackers) := fun t =>
  inferInstanceAs (Decidable (∀ status ∈ updatedTrackers, status.state ≠ .notContacted →
    status.url.toList ∈ urls t.statuses))

/-- The URLs of torrents that are loaded. -/
def loadedUrls (torrents : List (ID × TorrentTrackers)) : List (List Char) :=
  (torrents.flatMap fun torrent => rowUrls torrent.2.statuses).dedup

/-- The torrents that are loaded are new, the others are there. -/
def Possible (s : State ID) : Event ID → Prop
  | .torrentsLoaded torrents order => (torrents.map Prod.fst).Nodup ∧
      (∀ torrent ∈ torrents, torrent.1 ∉ s.torrents) ∧ order.Perm (loadedUrls torrents)
  | .torrentAboutToBeDeleted id => Holds (fun _ => True) (s.torrents.lookup id)
  | .trackersCall id call => Holds (fun t => t.Possible call) (s.torrents.lookup id)
  | .trackerStatusesUpdated id updatedTrackers =>
    Holds (OwnStatuses updatedTrackers) (s.torrents.lookup id)

instance (s : State ID) : DecidablePred (Possible s) := fun e => by
  cases e <;> unfold Possible <;> infer_instance

variable (U : UrlHost) (N : NativeTrackers) (S : TierSort)

/-- What the filter does when it is told what a call has changed. -/
def tell (w : TrackersFilterWidget ID) (id : ID) (t : TorrentTrackers) : TrackersFilterWidget ID :=
  match t.notice with
  | .none => w
  | .added trackers => addTrackers U w id trackers
  | .removed trackers => TrackersFilterWidget.removeTrackers U w id t.statuses trackers
  | .changed => refreshTrackers U w id t.statuses

def next (s : State ID) : Event ID → State ID
  | .torrentsLoaded torrents order =>
    { torrents := torrents.foldl (fun m torrent => m.insert torrent.1 torrent.2) s.torrents
      widget := handleTorrentsLoaded U s.widget
        (torrents.map fun torrent => (torrent.1, torrent.2.statuses)) order }
  | .torrentAboutToBeDeleted id =>
    match s.torrents.lookup id with
    | none => s
    | some t => ⟨s.torrents.erase id, torrentAboutToBeDeleted U s.widget id t.statuses⟩
  | .trackersCall id call =>
    match s.torrents.lookup id with
    | none => s
    | some t => ⟨s.torrents.insert id (t.next N S call), tell U s.widget id (t.next N S call)⟩
  | .trackerStatusesUpdated id updatedTrackers =>
    { s with widget := s.widget.handleTrackerStatusesUpdated id updatedTrackers }

def machine : Machine (State ID) (Event ID) := Machine.guarded Possible (next U N S)

/-! ### What is meant -/

/-- A torrent with these trackers belongs to the row of a host. -/
def Belongs (host : List Char) (trackers : List TrackerEntry) : Prop :=
  (host = [] ∧ trackers = []) ∨ (host ≠ [] ∧ ∃ url ∈ urls trackers, getHost U url = host)

/-- The rows of the hosts hold the torrents that belong there. -/
def Mirrors (torrents : Dict ID TorrentTrackers) (w : TrackersFilterWidget ID) : Prop :=
  ∀ host id, id ∈ w.torrentsOf host ↔ ∃ t, torrents.lookup id = some t ∧ Belongs U host t.statuses

/-- The torrent has a tracker with this URL. -/
def Known (torrents : Dict ID TorrentTrackers) (id : ID) (url : List Char) : Prop :=
  ∃ t, torrents.lookup id = some t ∧ url ∈ urls t.statuses

/-- The row shows the size, and only known URLs are named. -/
def Shows (torrents : Dict ID TorrentTrackers) (v : ErrorView ID) : Prop :=
  v.row = v.urls.keys.card ∧
    ∀ id errored, v.urls.lookup id = some errored → ∀ url ∈ errored, Known torrents id url

/-- What is to hold after every event. -/
structure Right (s : State ID) : Prop where
  mirrors : Mirrors U s.torrents s.widget
  trackerless : [] ∈ s.widget.trackers
  rows : ∀ host trackerData, s.widget.trackers.lookup host = some trackerData →
    trackerData.row = trackerData.torrents.card
  all : s.widget.allRow = s.torrents.keys.card
  errors : Shows s.torrents s.widget.errors
  trackerErrors : Shows s.torrents s.widget.trackerErrors
  warnings : Shows s.torrents s.widget.warnings

/-- The URLs that are removed have other hosts than those that stay. -/
def OtherHosts (trackers : List (List Char)) (t : TorrentTrackers) : Prop :=
  ∀ url ∈ (trackers.foldl TorrentTrackers.removeOne (t.statuses, trackers)).2,
    ∀ other ∈ urls (trackers.foldl TorrentTrackers.removeOne (t.statuses, trackers)).1,
      getHost U other ≠ getHost U url

/-- Torrents are loaded without empty URLs, and the trackers that are removed are apart from those
that stay. -/
def Apart (s : State ID) : Event ID → Prop
  | .torrentsLoaded torrents _ => ∀ torrent ∈ torrents, [] ∉ urls torrent.2.statuses
  | .trackersCall id (.remove trackers) =>
    ∀ t, s.torrents.lookup id = some t → OtherHosts U trackers t
  | _ => True

/-! ### One torrent -/

section

variable {U N S} {torrents : Dict ID TorrentTrackers} {w w' : TrackersFilterWidget ID} {id j : ID}
  {t t' : TorrentTrackers} {trackers : List TrackerEntry} {host url : List Char}
  {loaded : List (ID × TorrentTrackers)} {order : List (List Char)}

theorem belongs_iff (h : [] ∉ urls trackers) :
    Belongs U host trackers ↔ ∃ url ∈ rowUrls trackers, getHost U url = host := by
  by_cases hnil : trackers = []
  · subst hnil
    rw [rowUrls, if_pos rfl]
    simp [Belongs, getHost_nil, urls, eq_comm]
  · rw [rowUrls, if_neg hnil, Belongs, or_iff_right fun hboth => hnil hboth.2,
      and_iff_right_iff_imp]
    rintro ⟨url, hurl, rfl⟩ hhost
    exact h (getHost_eq_nil_iff.1 hhost ▸ hurl)

section

variable (h : Mirrors U torrents w)

include h

theorem mirrors_insert_iff
    (hother : ∀ host j, j ≠ id → (j ∈ w'.torrentsOf host ↔ j ∈ w.torrentsOf host)) :
    Mirrors U (torrents.insert id t') w' ↔
      ∀ host, id ∈ w'.torrentsOf host ↔ Belongs U host t'.statuses := by
  constructor
  · intro h' host
    rw [h' host id, lookup_insert]
    constructor
    · rintro ⟨t, heq, hbelongs⟩
      obtain rfl := some.inj heq
      exact hbelongs
    · exact fun hbelongs => ⟨t', rfl, hbelongs⟩
  · intro hid host j
    by_cases hj : j = id
    · subst hj
      rw [hid, lookup_insert]
      constructor
      · exact fun hbelongs => ⟨t', rfl, hbelongs⟩
      · rintro ⟨t, heq, hbelongs⟩
        obtain rfl := some.inj heq
        exact hbelongs
    · rw [hother host j hj, h host j, lookup_insert_of_ne _ hj]

section

variable (ht : torrents.lookup id = some t)

include ht

theorem Mirrors.mem_iff (host : List Char) :
    id ∈ w.torrentsOf host ↔ Belongs U host t.statuses := by
  rw [h host id, ht]
  constructor
  · rintro ⟨t', heq, hbelongs⟩
    obtain rfl := some.inj heq
    exact hbelongs
  · exact fun hbelongs => ⟨t, rfl, hbelongs⟩

theorem mirrors_unchanged (hsame : ∀ url, url ∈ urls t'.statuses ↔ url ∈ urls t.statuses) :
    Mirrors U (torrents.insert id t') w := by
  refine (mirrors_insert_iff h fun _ _ _ => Iff.rfl).2 fun host => ?_
  have hnil : t'.statuses = [] ↔ t.statuses = [] := by
    rw [← map_eq_nil_iff (f := TrackerEntry.url) (l := t'.statuses),
      ← map_eq_nil_iff (f := TrackerEntry.url) (l := t.statuses),
      eq_nil_iff_forall_not_mem, eq_nil_iff_forall_not_mem]
    exact forall_congr' fun url => not_congr (hsame url)
  simp only [h.mem_iff ht host, Belongs, hnil, hsame]

theorem mirrors_added {order : List TrackerEntry} (hne : order ≠ [])
    (hstatuses : t'.statuses.Perm (t.statuses ++ order)) :
    Mirrors U (torrents.insert id t') (addTrackers U w id order) := by
  have hmem : ∀ host j, j ∈ (addTrackers U w id order).torrentsOf host ↔
      (j ∈ w.torrentsOf host ∨ ∃ url ∈ urls order, getHost U url = host ∧ j = id) ∧
        ¬ (j = id ∧ host = []) := by
    intro host j
    rw [addTrackers_eq, mem_torrentsOf_removeItem, getHost_nil,
      mem_torrentsOf_foldl_addItems (urls order) fun _ => [id]]
    simp only [List.mem_singleton, eq_comm (a := host)]
  refine (mirrors_insert_iff h fun host j hj => ?_).2 fun host => ?_
  · rw [hmem]
    simp [hj]
  · have hurls : ∀ url, url ∈ urls t'.statuses ↔ url ∈ urls t.statuses ∨ url ∈ urls order := by
      intro url
      rw [urls, (hstatuses.map _).mem_iff, map_append, mem_append, urls, urls]
    have hnil : t'.statuses ≠ [] := by
      rintro hnil
      rw [hnil] at hstatuses
      exact hne (append_eq_nil_iff.1 hstatuses.symm.eq_nil).2
    rw [hmem, h.mem_iff ht host, Belongs, Belongs]
    by_cases hhost : host = []
    · simp [hhost, hnil]
    · simp [hhost, hurls, or_and_right, exists_or]

theorem mirrors_removed_iff (hurls : [] ∉ urls t.statuses) (trackers : List (List Char))
    (hstatuses : t'.statuses =
      (trackers.foldl TorrentTrackers.removeOne (t.statuses, trackers)).1) :
    Mirrors U (torrents.insert id t') (TrackersFilterWidget.removeTrackers U w id t'.statuses
      (trackers.foldl TorrentTrackers.removeOne (t.statuses, trackers)).2) ↔
        OtherHosts U trackers t := by
  have hstays : ∀ url ∈ urls t'.statuses, url ∈ urls t.statuses := fun url hurl =>
    mem_of_mem_remaining (hstatuses ▸ hurl)
  have hleft : ∀ url ∈ urls t.statuses, url ∈ urls t'.statuses ∨
      url ∈ (trackers.foldl removeOne (t.statuses, trackers)).2 := fun url hurl =>
    hstatuses ▸ mem_remaining_or_removed trackers hurl
  rw [OtherHosts, ← hstatuses]
  generalize (trackers.foldl removeOne (t.statuses, trackers)).2 = removed at *
  have hmem : ∀ host j,
      j ∈ (TrackersFilterWidget.removeTrackers U w id t'.statuses removed).torrentsOf host ↔
        (j ∈ w.torrentsOf host ∧ ¬ (j = id ∧ ∃ url ∈ removed, getHost U url = host)) ∨
          (t'.statuses = [] ∧ host = [] ∧ j = id) := by
    intro host j
    rw [TrackersFilterWidget.removeTrackers]
    split_ifs with hnil
    · rw [mem_torrentsOf_addItems, mem_torrentsOf_foldl_removeItem, getHost_nil,
        List.mem_singleton, and_iff_right hnil, eq_comm (a := host)]
    · rw [mem_torrentsOf_foldl_removeItem, or_iff_left fun hboth => hnil hboth.1]
  rw [mirrors_insert_iff h fun host j hj => by rw [hmem]; simp [hj]]
  constructor
  · intro hid url hurl other hother heq
    have hhost : getHost U other ≠ [] := fun hnil =>
      hurls (getHost_eq_nil_iff.1 hnil ▸ hstays other hother)
    rcases (hmem _ _).1 ((hid (getHost U other)).2 (.inr ⟨hhost, other, hother, rfl⟩)) with
      ⟨-, hnot⟩ | ⟨-, hnil, -⟩
    · exact hnot ⟨rfl, url, hurl, heq.symm⟩
    · exact hhost hnil
  · intro hapart host
    rw [hmem, h.mem_iff ht, Belongs, Belongs]
    by_cases hhost : host = []
    · have hnil : t.statuses = [] → t'.statuses = [] := by
        intro hnil
        rw [hnil] at hstays
        exact map_eq_nil_iff.1 (eq_nil_iff_forall_not_mem.2 fun url hurl =>
          not_mem_nil (hstays url hurl))
      simp only [hhost, ne_eq, not_true_eq_false, false_and, or_false, true_and, and_true]
      exact ⟨fun hor => hor.elim (fun hboth => hnil hboth.1) fun hnil => hnil, .inr⟩
    · simp only [hhost, false_and, and_false, or_false, false_or, ne_eq, not_false_eq_true,
        true_and]
      constructor
      · rintro ⟨⟨url, hurl, hhosturl⟩, hnot⟩
        rcases hleft url hurl with hstay | hgone
        · exact ⟨url, hstay, hhosturl⟩
        · exact absurd ⟨url, hgone, hhosturl⟩ hnot
      · rintro ⟨other, hother, rfl⟩
        exact ⟨⟨other, hstays other hother, rfl⟩, fun ⟨url, hurl, heq⟩ =>
          hapart url hurl other hother heq.symm⟩

end

theorem mirrors_changed (hurls : [] ∉ urls t'.statuses) :
    Mirrors U (torrents.insert id t') (refreshTrackers U w id t'.statuses) := by
  have hmem : ∀ host j, j ∈ (refreshTrackers U w id t'.statuses).torrentsOf host ↔
      (j ∈ w.torrentsOf host ∧ j ≠ id) ∨
        ∃ url ∈ rowUrls t'.statuses, getHost U url = host ∧ j = id := by
    intro host j
    rw [refreshTrackers, mem_torrentsOf_foldl_addItems _ fun _ => [id], mem_torrentsOf_forget]
    simp only [List.mem_singleton]
  refine (mirrors_insert_iff h fun host j hj => ?_).2 fun host => ?_
  · rw [hmem]
    simp [hj]
  · rw [hmem, belongs_iff hurls]
    simp

theorem mirrors_deleted (ht : torrents.lookup id = some t) (hurls : [] ∉ urls t.statuses) :
    Mirrors U (torrents.erase id) (torrentAboutToBeDeleted U w id t.statuses) := by
  intro host j
  have hmem : j ∈ (torrentAboutToBeDeleted U w id t.statuses).torrentsOf host ↔
      j ∈ w.torrentsOf host ∧
        ¬ (j = id ∧ ∃ url ∈ rowUrls t.statuses, getHost U url = host) :=
    mem_torrentsOf_foldl_removeItem (rowUrls t.statuses)
  rw [hmem, lookup_erase_eq]
  split_ifs with hj
  · subst hj
    rw [h.mem_iff ht, belongs_iff hurls]
    simp
  · rw [h host j]
    simp [hj]

end

/-! ### Loading -/

omit [DecidableEq ID] in
theorem mem_torrentsPerTracker {loaded : List (ID × List TrackerEntry)} :
    j ∈ torrentsPerTracker loaded url ↔
      ∃ torrent ∈ loaded, torrent.1 = j ∧ url ∈ rowUrls torrent.2 := by
  rw [torrentsPerTracker, mem_flatMap]
  refine exists_congr fun torrent => and_congr_right fun _ => ?_
  rw [List.mem_map]
  constructor
  · rintro ⟨url', hurl', rfl⟩
    obtain ⟨hmem, heq⟩ := mem_filter.1 hurl'
    exact ⟨rfl, of_decide_eq_true heq ▸ hmem⟩
  · rintro ⟨rfl, hurl⟩
    exact ⟨url, mem_filter.2 ⟨hurl, decide_eq_true rfl⟩, rfl⟩

theorem mem_torrentsOf_loaded (horder : order.Perm (loadedUrls loaded)) :
    j ∈ (handleTorrentsLoaded U w
      (loaded.map fun torrent => (torrent.1, torrent.2.statuses)) order).torrentsOf host ↔
        j ∈ w.torrentsOf host ∨ ∃ torrent ∈ loaded, torrent.1 = j ∧
          ∃ url ∈ rowUrls torrent.2.statuses, getHost U url = host := by
  rw [mem_torrentsOf_handleTorrentsLoaded]
  refine or_congr_right ?_
  constructor
  · rintro ⟨url, -, hhost, hmem⟩
    obtain ⟨_, hloaded, rfl, hurl⟩ := mem_torrentsPerTracker.1 hmem
    obtain ⟨torrent, htorrent, rfl⟩ := mem_map.1 hloaded
    exact ⟨torrent, htorrent, rfl, url, hurl, hhost⟩
  · rintro ⟨torrent, htorrent, rfl, url, hurl, hhost⟩
    refine ⟨url, horder.mem_iff.2 ?_, hhost, mem_torrentsPerTracker.2 ?_⟩
    · exact mem_dedup.2 (mem_flatMap.2 ⟨torrent, htorrent, hurl⟩)
    · exact ⟨_, mem_map.2 ⟨torrent, htorrent, rfl⟩, rfl, hurl⟩

/-! ### Calls -/

variable {call : TorrentTrackers.Call}

theorem call_cases (t : TorrentTrackers) (h : t.Possible call) :
    ((t.next N S call).notice = .none ∧
      ∀ url, url ∈ urls (t.next N S call).statuses ↔ url ∈ urls t.statuses) ∨
    (∃ order, (t.next N S call).notice = .added order ∧ order ≠ [] ∧ [] ∉ urls order ∧
      (t.next N S call).statuses.Perm (t.statuses ++ order)) ∨
    (∃ trackers, call = .remove trackers ∧
      (t.next N S call).notice =
        .removed (trackers.foldl TorrentTrackers.removeOne (t.statuses, trackers)).2 ∧
      (t.next N S call).statuses =
        (trackers.foldl TorrentTrackers.removeOne (t.statuses, trackers)).1) ∨
    ((t.next N S call).notice = .changed ∧ [] ∉ urls (t.next N S call).statuses) := by
  cases call with
  | add trackers order =>
    rw [TorrentTrackers.next, TorrentTrackers.addTrackers]
    split_ifs with hnil
    · exact .inl ⟨rfl, fun _ => Iff.rfl⟩
    · refine .inr (.inl ⟨order, rfl, ?_, ?_, S.perm _⟩)
      · rintro rfl
        exact hnil h.symm.eq_nil
      · rintro hmem
        obtain ⟨tracker, htracker, hurl⟩ := mem_urls.1 hmem
        exact url_ne_nil_of_mem_order h htracker hurl
  | remove trackers =>
    rw [TorrentTrackers.next, TorrentTrackers.removeTrackers]
    by_cases hremoved : (trackers.foldl removeOne (t.statuses, trackers)).2 = []
    · rw [if_neg (not_not.2 hremoved)]
      refine .inl ⟨rfl, fun url => ⟨mem_of_mem_remaining, fun hurl => ?_⟩⟩
      refine (mem_remaining_or_removed trackers hurl).resolve_right ?_
      rw [hremoved]
      exact not_mem_nil
    · rw [if_pos hremoved]
      exact .inr (.inr (.inl ⟨trackers, rfl, rfl, rfl⟩))
  | replace trackers order =>
    refine .inr (.inr (.inr ⟨rfl, fun hmem => ?_⟩))
    obtain ⟨tracker, htracker, hurl⟩ := mem_urls.1 hmem
    exact url_ne_nil_of_mem_sort_order h tracker htracker hurl

theorem tidy_tell (h : w.Tidy) (id : ID) (t : TorrentTrackers) : (tell U w id t).Tidy := by
  rw [tell]
  split
  · exact h
  · rw [addTrackers_eq]
    exact (h.foldl_addItems _ fun _ _ => cons_ne_nil _ _).removeItem [] id
  · rw [TrackersFilterWidget.removeTrackers]
    split_ifs
    · exact (h.foldl_removeItem _ id).addItems [] (cons_ne_nil _ _)
    · exact h.foldl_removeItem _ id
  · exact (h.forget id).foldl_addItems _ fun _ _ => cons_ne_nil _ _

theorem totalTorrents_tell (id : ID) (t : TorrentTrackers) :
    (tell U w id t).totalTorrents = w.totalTorrents := by
  rw [tell]
  split
  · rfl
  · rw [addTrackers_eq, totalTorrents_removeItem, totalTorrents_foldl_addItems _ fun _ => [id]]
  · rw [TrackersFilterWidget.removeTrackers]
    split_ifs
    · exact totalTorrents_foldl_removeItem _ id
    · exact totalTorrents_foldl_removeItem _ id
  · exact totalTorrents_foldl_addItems _ fun _ => [id]

theorem known_insert_self (h : url ∈ urls t'.statuses) :
    Known (torrents.insert id t') id url := ⟨t', lookup_insert _, h⟩

theorem known_insert_of_ne (hj : j ≠ id) (h : Known torrents j url) :
    Known (torrents.insert id t') j url := by
  obtain ⟨t, ht, hurl⟩ := h
  exact ⟨t, (lookup_insert_of_ne _ hj).trans ht, hurl⟩

theorem Known.mem (h : Known torrents id url) (ht : torrents.lookup id = some t) :
    url ∈ urls t.statuses := by
  obtain ⟨t', ht', hurl⟩ := h
  rw [ht] at ht'
  obtain rfl := some.inj ht'
  exact hurl

theorem known_insert (h : Known torrents j url) (ht : torrents.lookup id = some t)
    (hkept : j = id → url ∈ urls t.statuses → url ∈ urls t'.statuses) :
    Known (torrents.insert id t') j url := by
  by_cases hj : j = id
  · subst hj
    exact known_insert_self (hkept rfl (h.mem ht))
  · exact known_insert_of_ne hj h

/-! ### One event -/

/-- What holds between the events. -/
structure Kept (U : UrlHost) (s : State ID) : Prop where
  mirrors : Mirrors U s.torrents s.widget
  tidy : s.widget.Tidy
  names : s.widget.Names (Known s.torrents)
  total : s.widget.totalTorrents = s.torrents.keys.card
  nonempty : ∀ id t, s.torrents.lookup id = some t → [] ∉ urls t.statuses

variable {s : State ID} {event : Event ID}

theorem Kept.right (h : Kept U s) : Right U s where
  mirrors := h.mirrors
  trackerless := h.tidy.trackerless
  rows host trackerData hlookup := (h.tidy.rows host trackerData hlookup).1
  all := h.tidy.all.trans h.total
  errors := ⟨h.names.errors.row, h.names.errors.known⟩
  trackerErrors := ⟨h.names.trackerErrors.row, h.names.trackerErrors.known⟩
  warnings := ⟨h.names.warnings.row, h.names.warnings.known⟩

theorem kept_start : Kept U (start : State ID) where
  mirrors host id := by
    have hnone : ∀ j : ID, j ∉ (new : TrackersFilterWidget ID).torrentsOf host := by
      intro j
      rw [torrentsOf, new, lookup_insert_eq]
      split_ifs
      · exact Finset.notMem_empty j
      · exact Finset.notMem_empty j
    refine iff_of_false (hnone id) ?_
    rintro ⟨t, ht, -⟩
    cases ht
  tidy := tidy_new
  names := by
    have hempty : (({} : ErrorView ID)).Names (Known ∅) := by
      refine ⟨rfl, fun id errored h => ?_, fun id errored h => ?_⟩
      all_goals
        cases h
    exact ⟨hempty, hempty, hempty⟩
  total := rfl
  nonempty id t ht := by
    cases ht

theorem keys_insert (t : TorrentTrackers) :
    (torrents.insert id t).keys = insert id torrents.keys := by
  ext j
  rw [Finmap.mem_keys, Finmap.mem_insert, Finset.mem_insert, Finmap.mem_keys]

theorem kept_insert (h : Kept U s) (ht : s.torrents.lookup id = some t)
    (hmirrors : Mirrors U (s.torrents.insert id t') w) (htidy : w.Tidy)
    (hnames : w.Names (Known (s.torrents.insert id t')))
    (htotal : w.totalTorrents = s.widget.totalTorrents) (hurls : [] ∉ urls t'.statuses) :
    Kept U ⟨s.torrents.insert id t', w⟩ where
  mirrors := hmirrors
  tidy := htidy
  names := hnames
  total := by
    have hid : id ∈ s.torrents.keys := mem_keys.2 (mem_of_lookup_eq_some ht)
    rw [keys_insert, Finset.insert_eq_of_mem hid, htotal, h.total]
  nonempty j t hj := by
    rw [lookup_insert_eq] at hj
    split_ifs at hj
    · exact some.inj hj ▸ hurls
    · exact h.nonempty j t hj

theorem next_trackersCall (ht : s.torrents.lookup id = some t) (call : TorrentTrackers.Call) :
    next U N S s (.trackersCall id call) =
      ⟨s.torrents.insert id (t.next N S call), tell U s.widget id (t.next N S call)⟩ := by
  simp only [next, ht]

theorem kept_trackersCall (h : Kept U s) (ht : s.torrents.lookup id = some t)
    (hcall : t.Possible call)
    (hapart : ∀ trackers, call = .remove trackers → OtherHosts U trackers t) :
    Kept U (next U N S s (.trackersCall id call)) := by
  rw [next_trackersCall ht]
  have hurls := h.nonempty id t ht
  have htidy := tidy_tell (U := U) h.tidy id (t.next N S call)
  have htotal := totalTorrents_tell (U := U) (w := s.widget) id (t.next N S call)
  rcases call_cases t hcall with ⟨hnotice, hsame⟩ | ⟨order, hnotice, hne, hnew, hperm⟩ |
    ⟨trackers, hremove, hnotice, hstatuses⟩ | ⟨hnotice, hnew⟩
  · refine kept_insert h ht ?_ htidy ?_ htotal fun hmem => hurls ((hsame []).1 hmem)
    · simp only [tell, hnotice]
      exact mirrors_unchanged h.mirrors ht hsame
    · simp only [tell, hnotice]
      exact h.names.mono fun j url hknown =>
        known_insert hknown ht fun _ hurl => (hsame url).2 hurl
  · have hmem : ∀ url, url ∈ urls (t.next N S call).statuses ↔
        url ∈ urls t.statuses ∨ url ∈ urls order := by
      intro url
      rw [urls, (hperm.map _).mem_iff, map_append, mem_append, urls, urls]
    refine kept_insert h ht ?_ htidy ?_ htotal fun hnil => ((hmem []).1 hnil).elim hurls hnew
    · simp only [tell, hnotice]
      exact mirrors_added h.mirrors ht hne hperm
    · simp only [tell, hnotice, addTrackers_eq]
      refine ((h.names.foldl_addItems _ fun _ => [id]).removeItem_nil id).mono
        fun j url hknown => ?_
      exact known_insert hknown ht fun _ hurl => (hmem url).2 (.inl hurl)
  · have hstays : ∀ url ∈ urls (t.next N S call).statuses, url ∈ urls t.statuses := by
      rw [hstatuses]
      exact fun url => mem_of_mem_remaining
    refine kept_insert h ht ?_ htidy ?_ htotal fun hnil => hurls (hstays [] hnil)
    · simp only [tell, hnotice]
      exact (mirrors_removed_iff h.mirrors ht hurls trackers hstatuses).2 (hapart trackers hremove)
    · simp only [tell, hnotice, TrackersFilterWidget.removeTrackers]
      have hremoved : [] ∉ (trackers.foldl removeOne (t.statuses, trackers)).2 :=
        fun hnil => hurls (mem_of_mem_removed hnil)
      have hkept : ∀ j url, Known s.torrents j url ∧ ¬ (j = id ∧
          url ∈ (trackers.foldl removeOne (t.statuses, trackers)).2) →
            Known (s.torrents.insert id (t.next N S call)) j url := by
        rintro j url ⟨hknown, hnot⟩
        refine known_insert hknown ht fun hj hurl => ?_
        rw [hstatuses]
        exact (mem_remaining_or_removed trackers hurl).resolve_right
          fun hmem => hnot ⟨hj, hmem⟩
      have hnames := (h.names.foldl_removeItem (U := U) id hremoved).mono hkept
      split_ifs
      · exact hnames.addItems [] [id]
      · exact hnames
  · refine kept_insert h ht ?_ htidy ?_ htotal hnew
    · simp only [tell, hnotice]
      exact mirrors_changed h.mirrors hnew
    · simp only [tell, hnotice]
      refine ((h.names.forget id).foldl_addItems _ fun _ => [id]).mono fun j url hknown => ?_
      exact known_insert_of_ne hknown.2 hknown.1

theorem kept_torrentAboutToBeDeleted (h : Kept U s) (ht : s.torrents.lookup id = some t) :
    Kept U (next U N S s (.torrentAboutToBeDeleted id)) := by
  have hurls := h.nonempty id t ht
  have hnext : next U N S s (.torrentAboutToBeDeleted id) =
      ⟨s.torrents.erase id, torrentAboutToBeDeleted U s.widget id t.statuses⟩ := by
    simp only [next, ht]
  rw [hnext]
  have htidy := h.tidy.foldl_removeItem (U := U) (rowUrls t.statuses) id
  have hnames : (((rowUrls t.statuses).foldl (fun w url => removeItem U w url id)
      s.widget)).Names (Known (s.torrents.erase id)) := by
    have herase : ∀ j url, Known s.torrents j url → (j = id → url ∉ urls t.statuses) →
        Known (s.torrents.erase id) j url := by
      rintro j url ⟨t', ht', hurl⟩ hnot
      refine ⟨t', ?_, hurl⟩
      rw [lookup_erase_eq, if_neg, ht']
      rintro rfl
      exact hnot rfl (Known.mem ⟨t', ht', hurl⟩ ht)
    rw [rowUrls]
    split_ifs with hnil
    · refine (h.names.removeItem_nil id).mono fun j url hknown => herase j url hknown fun _ => ?_
      rw [hnil]
      exact not_mem_nil
    · refine (h.names.foldl_removeItem id hurls).mono fun j url hknown =>
        herase j url hknown.1 fun hj hurl => hknown.2 ⟨hj, hurl⟩
  have htotal := totalTorrents_foldl_removeItem (U := U) (w := s.widget) (rowUrls t.statuses) id
  refine ⟨mirrors_deleted h.mirrors ht hurls, ⟨htidy.rows, htidy.trackerless, rfl⟩,
    { hnames with }, ?_, fun j t' hj => ?_⟩
  · have hid : id ∈ s.torrents.keys := mem_keys.2 (mem_of_lookup_eq_some ht)
    have hpos := Finset.card_pos.2 ⟨id, hid⟩
    change ((rowUrls t.statuses).foldl (fun w url => removeItem U w url id)
      s.widget).totalTorrents - 1 = _
    rw [htotal, h.total, keys_erase, Finset.card_erase_of_mem hid]
    omega
  · rw [lookup_erase_eq] at hj
    split_ifs at hj
    exact h.nonempty j t' hj

theorem lookup_loaded (hnodup : (loaded.map Prod.fst).Nodup) :
    (loaded.foldl (fun m torrent => m.insert torrent.1 torrent.2) torrents).lookup j =
      some t ↔ (j, t) ∈ loaded ∨ j ∉ loaded.map Prod.fst ∧ torrents.lookup j = some t := by
  by_cases hj : j ∈ loaded.map Prod.fst
  · obtain ⟨torrent, htorrent, rfl⟩ := mem_map.1 hj
    rw [lookup_foldl_insert_of_mem hnodup htorrent, or_iff_left fun hboth => hboth.1 hj]
    constructor
    · intro heq
      obtain rfl := some.inj heq
      exact htorrent
    · intro hmem
      exact congrArg some (congrArg Prod.snd (inj_on_of_nodup_map hnodup htorrent hmem rfl))
  · rw [lookup_foldl_insert_of_notMem hj, and_iff_right hj,
      or_iff_right fun hmem => hj (mem_map.2 ⟨_, hmem, rfl⟩)]

theorem card_keys_loaded (hnodup : (loaded.map Prod.fst).Nodup)
    (hnew : ∀ torrent ∈ loaded, torrent.1 ∉ torrents) :
    (loaded.foldl (fun m torrent => m.insert torrent.1 torrent.2) torrents).keys.card =
      torrents.keys.card + loaded.length := by
  induction loaded generalizing torrents with
  | nil => rfl
  | cons torrent loaded ih =>
    rw [map_cons, nodup_cons] at hnodup
    rw [forall_mem_cons] at hnew
    rw [foldl_cons, ih hnodup.2, keys_insert, Finset.card_insert_of_notMem,
      length_cons]
    · omega
    · exact fun hmem => hnew.1 (mem_keys.1 hmem)
    · intro other hother hmem
      rcases mem_insert.1 hmem with heq | hold
      · exact hnodup.1 (heq ▸ mem_map_of_mem hother)
      · exact hnew.2 other hother hold

omit [DecidableEq ID] in
theorem torrentsPerTracker_ne_nil (loaded : List (ID × TorrentTrackers))
    (h : url ∈ loadedUrls loaded) :
    torrentsPerTracker (loaded.map fun torrent => (torrent.1, torrent.2.statuses)) url ≠ [] := by
  obtain ⟨torrent, htorrent, hurl⟩ := mem_flatMap.1 (mem_dedup.1 h)
  refine ne_nil_of_mem (mem_torrentsPerTracker.2 ⟨_, mem_map.2 ⟨torrent, htorrent, rfl⟩,
    rfl, hurl⟩)

theorem kept_torrentsLoaded (h : Kept U s) (hposs : Possible s (.torrentsLoaded loaded order))
    (hapart : ∀ torrent ∈ loaded, [] ∉ urls torrent.2.statuses) :
    Kept U (next U N S s (.torrentsLoaded loaded order)) := by
  obtain ⟨hnodup, hnew, horder⟩ := hposs
  have hnone : ∀ torrent ∈ loaded, s.torrents.lookup torrent.1 = none :=
    fun torrent htorrent => lookup_eq_none.2 (hnew torrent htorrent)
  have hold : ∀ j t, s.torrents.lookup j = some t → j ∉ loaded.map Prod.fst := by
    intro j t hj hmem
    obtain ⟨torrent, htorrent, rfl⟩ := mem_map.1 hmem
    rw [hnone torrent htorrent] at hj
    cases hj
  have htidy := h.tidy.foldl_addItems (U := U) order fun url hurl =>
    torrentsPerTracker_ne_nil loaded (horder.mem_iff.1 hurl)
  have hnames := h.names.foldl_addItems (U := U) order
    (torrentsPerTracker (loaded.map fun torrent => (torrent.1, torrent.2.statuses)))
  have htotal := totalTorrents_foldl_addItems (U := U) (w := s.widget) order
    (torrentsPerTracker (loaded.map fun torrent => (torrent.1, torrent.2.statuses)))
  have hwithKnown : ∀ j url, Known s.torrents j url →
      Known (next U N S s (.torrentsLoaded loaded order)).torrents j url := by
    rintro j url ⟨t, ht, hurl⟩
    exact ⟨t, (lookup_loaded hnodup).2 (.inr ⟨hold j t ht, ht⟩), hurl⟩
  refine ⟨fun host j => ?_, ⟨htidy.rows, htidy.trackerless, rfl⟩,
    ⟨hnames.errors.mono hwithKnown, hnames.trackerErrors.mono hwithKnown,
      hnames.warnings.mono hwithKnown⟩, ?_, fun j t hj => ?_⟩
  · refine (mem_torrentsOf_loaded horder).trans ?_
    rw [h.mirrors host j]
    constructor
    · rintro (⟨t, ht, hbelongs⟩ | ⟨torrent, htorrent, rfl, hhost⟩)
      · exact ⟨t, (lookup_loaded hnodup).2 (.inr ⟨hold j t ht, ht⟩), hbelongs⟩
      · exact ⟨torrent.2, (lookup_loaded hnodup).2 (.inl htorrent),
          (belongs_iff (hapart torrent htorrent)).2 hhost⟩
    · rintro ⟨t, ht, hbelongs⟩
      rcases (lookup_loaded hnodup).1 ht with hmem | ⟨-, ht⟩
      · exact .inr ⟨(j, t), hmem, rfl, (belongs_iff (hapart _ hmem)).1 hbelongs⟩
      · exact .inl ⟨t, ht, hbelongs⟩
  · change (order.foldl (fun w url => addItems U w url (torrentsPerTracker
      (loaded.map fun torrent => (torrent.1, torrent.2.statuses)) url)) s.widget).totalTorrents +
        ((loaded.map fun torrent => (torrent.1, torrent.2.statuses)).length : ℤ) =
      ((loaded.foldl (fun m torrent => m.insert torrent.1 torrent.2) s.torrents).keys.card : ℤ)
    rw [htotal, h.total, card_keys_loaded hnodup hnew, length_map, Nat.cast_add]
  · rcases (lookup_loaded hnodup).1 hj with hmem | ⟨-, hj⟩
    · exact hapart _ hmem
    · exact h.nonempty j t hj

theorem not_right_torrentsLoaded (hposs : Possible s (.torrentsLoaded loaded order))
    {torrent : ID × TorrentTrackers} (htorrent : torrent ∈ loaded)
    (hnil : [] ∈ urls torrent.2.statuses) :
    ¬ Right U (next U N S s (.torrentsLoaded loaded order)) := by
  obtain ⟨hnodup, -, horder⟩ := hposs
  intro hright
  have hne : torrent.2.statuses ≠ [] := by
    intro heq
    rw [heq] at hnil
    exact not_mem_nil hnil
  have hrow : [] ∈ rowUrls torrent.2.statuses := by
    rw [rowUrls, if_neg hne]
    exact hnil
  have hmem : torrent.1 ∈ (next U N S s (.torrentsLoaded loaded order)).widget.torrentsOf [] :=
    (mem_torrentsOf_loaded horder).2 (.inr ⟨torrent, htorrent, rfl, [], hrow, getHost_nil⟩)
  have hlookup : (next U N S s (.torrentsLoaded loaded order)).torrents.lookup torrent.1 =
      some torrent.2 := (lookup_loaded hnodup).2 (.inl htorrent)
  rcases (hright.mirrors.mem_iff hlookup []).1 hmem with ⟨-, heq⟩ | ⟨hself, -⟩
  · exact hne heq
  · exact hself rfl

theorem kept_trackerStatusesUpdated (h : Kept U s) (ht : s.torrents.lookup id = some t)
    {updatedTrackers : List TrackerEntryStatus} (hown : OwnStatuses updatedTrackers t) :
    Kept U (next U N S s (.trackerStatusesUpdated id updatedTrackers)) := { h with
  tidy := ⟨h.tidy.rows, h.tidy.trackerless, h.tidy.all⟩
  names := h.names.handleTrackerStatusesUpdated id fun status hstatus hstate =>
    ⟨t, ht, hown status hstatus hstate⟩ }

theorem kept_next (h : Kept U s) (hposs : Possible s event) (hapart : Apart U s event) :
    Kept U (next U N S s event) := by
  cases event with
  | torrentsLoaded loaded order => exact kept_torrentsLoaded h hposs hapart
  | torrentAboutToBeDeleted id =>
    obtain ⟨t, ht, -⟩ := hposs
    exact kept_torrentAboutToBeDeleted h ht
  | trackersCall id call =>
    obtain ⟨t, ht, hcall⟩ := hposs
    refine kept_trackersCall h ht hcall fun trackers hremove => ?_
    subst hremove
    exact hapart t ht
  | trackerStatusesUpdated id updatedTrackers =>
    obtain ⟨t, ht, hown⟩ := hposs
    exact kept_trackerStatusesUpdated h ht hown

theorem otherHosts_of_right (h : Kept U s) (ht : s.torrents.lookup id = some t)
    {trackers : List (List Char)}
    (hright : Right U (next U N S s (.trackersCall id (.remove trackers)))) :
    OtherHosts U trackers t := by
  by_cases hremoved : (trackers.foldl removeOne (t.statuses, trackers)).2 = []
  · intro url hurl
    rw [hremoved] at hurl
    exact absurd hurl not_mem_nil
  · have hmirrors := hright.mirrors
    rw [next_trackersCall ht] at hmirrors
    have hcall : t.next N S (.remove trackers) = TorrentTrackers.removeTrackers N t trackers := rfl
    rw [hcall, TorrentTrackers.removeTrackers, if_pos hremoved] at hmirrors
    exact (mirrors_removed_iff h.mirrors ht (h.nonempty id t ht) trackers rfl).1 hmirrors

theorem not_right_next (h : Kept U s) (hposs : Possible s event) (hapart : ¬ Apart U s event) :
    ¬ Right U (next U N S s event) := by
  intro hright
  cases event with
  | torrentsLoaded loaded order =>
    refine hapart fun torrent htorrent hnil => ?_
    exact not_right_torrentsLoaded hposs htorrent hnil hright
  | torrentAboutToBeDeleted id => exact hapart trivial
  | trackersCall id call =>
    cases call with
    | add trackers order => exact hapart trivial
    | remove trackers => exact hapart fun t ht => otherHosts_of_right h ht hright
    | replace trackers order => exact hapart trivial
  | trackerStatusesUpdated id updatedTrackers => exact hapart trivial

/-- **The filter mirrors the session** after every event of a run if and only if no torrent is
loaded with an empty URL and no tracker is removed whose host another tracker of the torrent has. -/
theorem right_iff_apart {events : List (Event ID)}
    (hrun : ((machine U N S).run start events).isSome) :
    (machine U N S).Always (Right U) start events ↔
      (machine U N S).Meets (Apart U) start events :=
  Machine.guarded_always_iff_meets (I := Kept U) kept_start (fun _ h => h.right)
    (fun _ _ h hposs hapart => kept_next h hposs hapart)
    (fun _ _ h hposs hapart => not_right_next h hposs hapart) hrun

end

/-! ### Two trackers at one host -/

def scheme : List Char := ['u', 'd', 'p', ':', '/', '/']

/-- The host of an address that begins with `udp://`. -/
def udpHost : UrlHost where
  host url := if scheme.isPrefixOf url then (url.drop 6).takeWhile (· ≠ '/') else []
  host_nil := rfl

def urlA : List Char := scheme ++ ['h', '/', 'a']

def urlB : List Char := scheme ++ ['h', '/', 'b']

/-- A torrent with two trackers at the host `h`. -/
def twoTrackers : TorrentTrackers where
  statuses := [⟨urlA, 0⟩, ⟨urlB, 0⟩]
  native := []
  previous := []
  notice := .none

def loadTwoTrackers : Event ℕ := .torrentsLoaded [(0, twoTrackers)] [urlA, urlB]

theorem possible_loadTwoTrackers : Possible start loadTwoTrackers := by decide

theorem run_loadTwoTrackers : ((machine udpHost TorrentTrackers.plainTrackers
    TorrentTrackers.tierSort).run start [loadTwoTrackers]).isSome := by
  rfl

theorem right_loadTwoTrackers :
    (machine udpHost TorrentTrackers.plainTrackers TorrentTrackers.tierSort).Always
        (Right udpHost) start [loadTwoTrackers] ↔
      (machine udpHost TorrentTrackers.plainTrackers TorrentTrackers.tierSort).Meets
        (Apart udpHost) start [loadTwoTrackers] :=
  right_iff_apart run_loadTwoTrackers

/-- One of two trackers at a host is removed, and the row of the host loses the torrent. -/
theorem host_forgotten :
    ¬ (machine udpHost TorrentTrackers.plainTrackers TorrentTrackers.tierSort).Always
      (Right udpHost) start [loadTwoTrackers, .trackersCall 0 (.remove [urlA])] := by
  intro hright
  have hapart : Apart udpHost start loadTwoTrackers := fun torrent htorrent => by
    obtain rfl := mem_singleton.1 htorrent
    decide
  have hkept := kept_next (N := plainTrackers) (S := tierSort)
    (kept_start (U := udpHost)) possible_loadTwoTrackers hapart
  have hnodup : ([(0, twoTrackers)].map Prod.fst).Nodup := nodup_singleton 0
  have hlookup : (next udpHost plainTrackers tierSort start
      loadTwoTrackers).torrents.lookup 0 = some twoTrackers :=
    (lookup_loaded hnodup).2 (.inl (mem_singleton.2 rfl))
  have hlater := hright.2 _ (Machine.guarded_step_eq_some.2 ⟨possible_loadTwoTrackers, rfl⟩)
  have hremoved : Right udpHost _ :=
    hlater.2 _ (Machine.guarded_step_eq_some.2 ⟨⟨twoTrackers, hlookup, trivial⟩, rfl⟩)
  have hother := otherHosts_of_right hkept hlookup hremoved
  exact hother urlA (by decide) urlB (by decide) (by decide)

end QBittorrent.TrackersFilter
