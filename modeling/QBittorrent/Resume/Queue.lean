import QBittorrent.Resume.QueueFile
import QBittorrent.Resume.RoundTrip

/-!
# The order of the torrents after a restart

Torrents are stored and removed, and queues are stored, in any sequence; then the storage is opened
again.  `History` says what it should know: which torrents are registered, the last queue, and the
place that each torrent got in the last queue that was stored while it was registered.

* `BencodeStorage.survives` : the files always keep the queue;
* `queue_survives_iff` : when both storages do.
-/

namespace QBittorrent

open List Finmap BencodeStorage

/-- An operation of a storage. -/
inductive Op (E : Platform) where
  | store (id : Digest32) (resumeData : LoadTorrentParams E)
  | remove (id : Digest32)
  | storeQueue (queue : List Digest32)

namespace BencodeStorage

variable {E : Platform}

def perform (dir : BencodeDir Digest32) : Op E → BencodeDir Digest32
  | .store id resumeData => store dir id resumeData
  | .remove id => remove dir id
  | .storeQueue queue => { dir with queue := some (queueFile queue) }

/-- The name of a `.fastresume` file. -/
def filename (id : Digest32) : List UInt8 := id.toLatin1 ++ toUtf8 ".fastresume"

/-- `^([A-Fa-f0-9]{40})\.fastresume$`. -/
def matchFilename (name : List UInt8) : Option Digest32 :=
  if name.drop 40 = toUtf8 ".fastresume" then Digest32.matchHash (name.take 40) else none

/-- The constructor: the torrents found among the file names, ordered by `loadQueue`. -/
def registeredTorrents (dir : BencodeDir Digest32) (filenames : List (List UInt8)) :
    List Digest32 :=
  loadQueue dir.queue (filenames.filterMap matchFilename)

/-- The names of the `.fastresume` files, in the order in which the directory lists them. -/
def Lists (dir : BencodeDir Digest32) (filenames : List (List UInt8)) : Prop :=
  ∃ ids : List Digest32, ids.Nodup ∧ (∀ id, id ∈ ids ↔ id ∈ dir.fastresume) ∧
    filenames = ids.map filename

theorem filterMap_filename (ids : List Digest32) :
    (ids.map filename).filterMap matchFilename = ids := by
  have h : ∀ id : Digest32, matchFilename (filename id) = some id := by
    intro id
    have hdrop : (filename id).drop 40 = toUtf8 ".fastresume" :=
      drop_left' id.length_toLatin1
    have htake : (filename id).take 40 = id.toLatin1 := take_left' id.length_toLatin1
    rw [matchFilename, if_pos hdrop, htake, Digest32.matchHash_toLatin1]
  simp [filterMap_map, h]

end BencodeStorage

namespace DBStorage

variable {E : Platform}

def perform (table : TorrentsTable Digest32) : Op E → TorrentsTable Digest32
  | .store id resumeData => store table id resumeData
  | .remove id => remove table id
  | .storeQueue queue => storeQueue table queue

/-- The rows, in the order in which the database finds them. -/
def Scans (table : TorrentsTable Digest32) (scan : List Digest32) : Prop :=
  scan.Nodup ∧ ∀ id, id ∈ scan ↔ id ∈ table

end DBStorage

/-! ### What the operations mean -/

structure History where
  /-- The torrents stored and not removed since. -/
  registered : Finset Digest32
  queue : List Digest32
  /-- The place of a torrent in the last queue that had it, of those stored since the torrent was
  registered. -/
  place : Digest32 → Option ℕ

namespace History

variable {E : Platform} {H : History}

def init : History := ⟨∅, [], fun _ => none⟩

def next (H : History) : Op E → History
  | .store id _ => { H with registered := insert id H.registered }
  | .remove id =>
    { H with registered := H.registered.erase id, place := Function.update H.place id none }
  | .storeQueue queue =>
    { H with
      queue := queue
      place := fun id =>
        if id ∈ queue ∧ id ∈ H.registered then some (queue.idxOf id) else H.place id }

/-- The history of a sequence of operations. -/
def of (ops : List (Op E)) : History := ops.foldl next init

/-- The torrents of the queue would be sorted in front by their places: no other torrent is
registered, unless it kept a later place from an earlier queue, and only the first torrent of the
queue may have no place. -/
structure QueueKept (H : History) : Prop where
  others : ∀ a ∈ H.registered, ∀ b ∈ H.registered, a ∈ H.queue → b ∉ H.queue →
    ∃ n, H.place b = some n ∧ ∀ m, H.place a = some m → m < n
  members : ∀ a ∈ H.registered, ∀ b ∈ H.registered, [a, b].Sublist H.queue → (H.place b).isSome

/-- Unregistered torrents have no place, and torrents of the last queue have their place in it. -/
structure Inv (H : History) : Prop where
  registered : ∀ id, id ∉ H.registered → H.place id = none
  place : ∀ id ∈ H.queue, ∀ n, H.place id = some n → n = H.queue.idxOf id

theorem Inv.next (h : H.Inv) (op : Op E) : (H.next op).Inv := by
  cases op with
  | store id x =>
    refine ⟨fun t ht => h.registered t fun hr => ht (Finset.mem_insert_of_mem hr), h.place⟩
  | remove id =>
    refine ⟨fun t ht => ?_, fun t hq n hn => ?_⟩
    · by_cases hti : t = id
      · simp [History.next, hti]
      · have : t ∉ H.registered := fun hr => ht (Finset.mem_erase_of_ne_of_mem hti hr)
        simpa [History.next, hti] using h.registered t this
    · by_cases hti : t = id
      · simp [History.next, hti] at hn
      · exact h.place t hq n (by simpa [History.next, hti] using hn)
  | storeQueue queue =>
    refine ⟨fun t ht => ?_, fun t hq n hn => ?_⟩
    · have ht' : t ∉ H.registered := ht
      simpa [History.next, ht'] using h.registered t ht'
    · by_cases hr : t ∈ H.registered
      · have hq' : t ∈ queue := hq
        simpa [History.next, hq', hr, eq_comm] using hn
      · -- an unregistered torrent has no place
        have : H.place t = some n := by simpa [History.next, hr] using hn
        rw [h.registered t hr] at this
        cases this

theorem inv_of (ops : List (Op E)) : (of ops).Inv :=
  foldlRecOn ops next ⟨fun _ _ => rfl, by simp [init]⟩ fun _ h op _ => h.next op

/-! ### The files and the rows -/

/-- The directory is what the history says. -/
structure Files (H : History) (dir : BencodeDir Digest32) : Prop where
  mem : ∀ id, id ∈ dir.fastresume ↔ id ∈ H.registered
  queue : dir.queue = some (queueFile H.queue) ∨ dir.queue = none ∧ H.queue = []

theorem Files.perform {dir : BencodeDir Digest32} (h : H.Files dir) (op : Op E) :
    (H.next op).Files (BencodeStorage.perform dir op) := by
  cases op with
  | store id x =>
    have hfast : ∀ t, t ∈ (store dir id x).fastresume ↔
        t = id ∨ t ∈ dir.fastresume := by
      intro t
      unfold store
      dsimp only
      split_ifs <;> exact mem_insert
    have hqueue : (store dir id x).queue = dir.queue := by
      unfold store
      dsimp only
      split_ifs <;> rfl
    refine ⟨fun t => ?_, ?_⟩
    · rw [BencodeStorage.perform, hfast, h.mem]
      simp [next]
    · rw [BencodeStorage.perform, hqueue]
      exact h.queue
  | remove id =>
    refine ⟨fun t => ?_, h.queue⟩
    simp [BencodeStorage.perform, BencodeStorage.remove, next, mem_erase, h.mem]
  | storeQueue queue => exact ⟨h.mem, Or.inl rfl⟩

theorem files (ops : List (Op E)) :
    (of ops).Files (ops.foldl BencodeStorage.perform ⟨∅, ∅, none⟩) :=
  foldl_rel (r := Files) ⟨by simp [init, notMem_empty], Or.inr ⟨rfl, rfl⟩⟩ fun op _ _ _ h => h.perform op

/-- The table is what the history says. -/
structure Rows (H : History) (table : TorrentsTable Digest32) : Prop where
  mem : ∀ id, id ∈ table ↔ id ∈ H.registered
  position : ∀ id, DBStorage.position table id = (H.place id).elim (-1) (↑)

theorem lookup_updatePosition (table : TorrentsTable Digest32) (id t : Digest32) (n : ℕ) :
    (DBStorage.updatePosition table (id, n)).lookup t =
      (table.lookup t).map fun row => if t = id then { row with queuePosition := n } else row := by
  unfold DBStorage.updatePosition
  by_cases ht : t = id
  · subst ht
    cases h : table.lookup t with
    | none => simp [h]
    | some row => simp
  · cases h : table.lookup id with
    | none => simp [ht]
    | some row => simp [ht, lookup_insert_of_ne _ ht]

theorem lookup_storeQueue {queue : List Digest32} (hq : queue.Nodup) (k : ℕ)
    (table : TorrentsTable Digest32) (t : Digest32) :
    ((queue.zipIdx k).foldl DBStorage.updatePosition table).lookup t =
      (table.lookup t).map fun row =>
        if t ∈ queue then { row with queuePosition := (k + queue.idxOf t : ℕ) } else row := by
  induction queue generalizing k table with
  | nil => simp
  | cons id queue ih =>
    obtain ⟨hid, hq'⟩ := nodup_cons.1 hq
    rw [zipIdx_cons, foldl_cons, ih hq', lookup_updatePosition, Option.map_map]
    congr 1
    funext row
    by_cases ht : t = id
    · subst ht
      simp [hid]
    · by_cases hm : t ∈ queue
      · simp [ht, hm, idxOf_cons_ne _ (Ne.symm ht)]
        omega
      · simp [ht, hm]

theorem Rows.perform {table : TorrentsTable Digest32} (h : H.Rows table) (op : Op E)
    (hq : ∀ queue, op = .storeQueue queue → queue.Nodup) :
    (H.next op).Rows (DBStorage.perform table op) := by
  cases op with
  | store id x =>
    refine ⟨fun t => ?_, fun t => ?_⟩
    · rw [DBStorage.perform, DBStorage.store, mem_insert, h.mem]
      simp [next]
    · rw [next, ← h.position t]
      unfold DBStorage.perform DBStorage.store DBStorage.position
      by_cases ht : t = id
      · -- the statement does not name the position
        subst ht
        simp [DBStorage.boundRow]
      · rw [lookup_insert_of_ne _ ht]
  | remove id =>
    refine ⟨fun t => ?_, fun t => ?_⟩
    · simp [DBStorage.perform, DBStorage.remove, next, mem_erase, h.mem]
    · unfold DBStorage.perform DBStorage.remove DBStorage.position
      by_cases ht : t = id
      · subst ht
        simp [next]
      · have := h.position t
        simpa [next, ht, lookup_erase_ne ht, DBStorage.position] using this
  | storeQueue queue =>
    have hlookup := lookup_storeQueue (hq queue rfl) 0 table
    refine ⟨fun t => ?_, fun t => ?_⟩
    · rw [← lookup_isSome, DBStorage.perform, DBStorage.storeQueue, hlookup, Option.isSome_map,
        lookup_isSome, h.mem]
      rfl
    · have hmem := h.mem t
      have hpos := h.position t
      rw [← lookup_isSome] at hmem
      unfold DBStorage.position at hpos
      rw [DBStorage.position, DBStorage.perform, DBStorage.storeQueue, hlookup]
      cases hrow : table.lookup t with
      | none =>
        have hr : t ∉ H.registered := by simpa [hrow] using hmem.not.1 (by simp [hrow])
        simpa [next, hr, hrow] using hpos
      | some row =>
        have hr : t ∈ H.registered := hmem.1 (by simp [hrow])
        by_cases ht : t ∈ queue
        · simp [next, ht, hr]
        · simpa [next, ht, hrow] using hpos

theorem rows (ops : List (Op E)) (hq : ∀ queue, .storeQueue queue ∈ ops → queue.Nodup) :
    (of ops).Rows (ops.foldl DBStorage.perform ∅) :=
  foldl_rel (r := Rows) ⟨by simp [init, notMem_empty], fun _ => rfl⟩
    fun op hop _ _ h => h.perform op fun queue hop' => hq queue (hop' ▸ hop)

end History

/-! ### Surviving a restart -/

/-- The torrents are registered once each, those of the last queue first and in its order. -/
structure Survives (H : History) (registered : List Digest32) : Prop where
  nodup : registered.Nodup
  mem : ∀ id, id ∈ registered ↔ id ∈ H.registered
  queue : H.queue.filter (· ∈ registered) <+: registered

theorem History.queue_nodup {E : Platform} {ops : List (Op E)}
    (hq : ∀ queue, .storeQueue queue ∈ ops → queue.Nodup) : (History.of ops).queue.Nodup := by
  refine foldlRecOn (motive := fun H : History => H.queue.Nodup) ops History.next
    nodup_nil fun H h op hop => ?_
  cases op with
  | store id x => exact h
  | remove id => exact h
  | storeQueue queue => exact hq queue hop

theorem BencodeStorage.survives {E : Platform} {ops : List (Op E)}
    (hq : ∀ queue, .storeQueue queue ∈ ops → queue.Nodup) {filenames : List (List UInt8)}
    (hl : Lists (ops.foldl perform ⟨∅, ∅, none⟩) filenames) :
    Survives (History.of ops)
      (registeredTorrents (ops.foldl perform ⟨∅, ∅, none⟩) filenames) := by
  obtain ⟨ids, hnodup, hids, rfl⟩ := hl
  have hfiles := History.files ops
  rw [registeredTorrents, filterMap_filename]
  have hperm := loadQueue_perm (ops.foldl perform ⟨∅, ∅, none⟩).queue ids
  refine ⟨hperm.nodup_iff.2 hnodup, fun id => ?_, ?_⟩
  · rw [hperm.mem_iff, hids, hfiles.mem]
  · simp only [hperm.mem_iff]
    obtain hfile | ⟨hfile, hnil⟩ := hfiles.queue
    · rw [hfile]
      exact loadQueue_prefix (History.queue_nodup hq) ids
    · rw [hnil]
      exact nil_prefix

namespace Survives

variable {H : History} {l : List Digest32}

theorem sublist_of_notMem (h : Survives H l) {a b : Digest32} (ha : a ∈ l) (hb : b ∈ l)
    (haq : a ∈ H.queue) (hbq : b ∉ H.queue) : [a, b].Sublist l := by
  obtain ⟨r, hr⟩ := h.queue
  have hafront : a ∈ H.queue.filter (· ∈ l) := mem_filter.2 ⟨haq, by simpa using ha⟩
  have hbback : b ∈ r := by
    rw [← hr] at hb
    refine (mem_append.1 hb).resolve_left fun hf => ?_
    exact hbq (mem_filter.1 hf).1
  rw [← hr]
  exact (singleton_sublist.2 hafront).append (singleton_sublist.2 hbback)

theorem sublist_of_sublist (h : Survives H l) {a b : Digest32} (ha : a ∈ l) (hb : b ∈ l)
    (hab : [a, b].Sublist H.queue) : [a, b].Sublist l := by
  have hfilter := hab.filter (· ∈ l)
  rw [filter_eq_self.2 (by simp [ha, hb])] at hfilter
  exact hfilter.trans h.queue.sublist

end Survives

namespace DBStorage

variable {H : History} {table : TorrentsTable Digest32}

theorem registeredTorrents_perm (table : TorrentsTable Digest32) (scan : List Digest32) :
    (registeredTorrents table scan).Perm scan :=
  perm_insertionSort _ scan

theorem registeredTorrents_pairwise (table : TorrentsTable Digest32) (scan : List Digest32) :
    (registeredTorrents table scan).Pairwise fun a b => position table a ≤ position table b := by
  exact pairwise_insertionSort _ scan

theorem scans_iff (hrows : H.Rows table) {scan : List Digest32} :
    Scans table scan ↔ scan.Nodup ∧ ∀ id, id ∈ scan ↔ id ∈ H.registered := by
  simp only [Scans, hrows.mem]

theorem position_lt_of_forall (hrows : H.Rows table) {a b : Digest32} (hab : a ≠ b)
    (ha : a ∈ H.registered) (hb : b ∈ H.registered)
    (h : ∀ scan, Scans table scan → [a, b].Sublist (registeredTorrents table scan)) :
    position table a < position table b := by
  by_contra hle
  -- the database may find `b` first, and the sort keeps that order
  let scan := b :: a :: ((H.registered.erase a).erase b).toList
  have hscan : Scans table scan := by
    refine (scans_iff hrows).2 ⟨?_, fun id => ?_⟩
    · simp [scan, Finset.nodup_toList, hab.symm]
    · by_cases hia : id = a
      · simp [scan, hia, ha]
      · by_cases hib : id = b <;> simp [scan, hia, hib, hb]
  have hnodup : (registeredTorrents table scan).Nodup :=
    (registeredTorrents_perm table scan).nodup_iff.2 hscan.1
  have hsub : [b, a].Sublist scan := (nil_sublist _).cons_cons a |>.cons_cons b
  exact not_sublist_of_sublist hnodup (h scan hscan)
    (pair_sublist_insertionSort (not_lt.1 hle) hsub)

/-- The positions order the torrents of the queue, and put them before the others. -/
def PositionsFollow (H : History) (table : TorrentsTable Digest32) : Prop :=
  (∀ a ∈ H.registered, ∀ b ∈ H.registered, a ∈ H.queue → b ∉ H.queue →
      position table a < position table b) ∧
    ∀ a ∈ H.registered, ∀ b ∈ H.registered, [a, b].Sublist H.queue →
      position table a < position table b

theorem position_lt_iff (hrows : H.Rows table) {a b : Digest32} :
    position table a < position table b ↔
      ∃ n, H.place b = some n ∧ ∀ m, H.place a = some m → m < n := by
  rw [hrows.position, hrows.position]
  cases H.place b with
  | none =>
    refine iff_of_false (not_lt.2 ?_) nofun
    cases H.place a with
    | none => exact le_rfl
    | some m => exact neg_one_lt_zero.le.trans (Int.natCast_nonneg m)
  | some n =>
    cases H.place a with
    | none => exact iff_of_true (neg_one_lt_zero.trans_le (Int.natCast_nonneg n)) ⟨n, rfl, nofun⟩
    | some m => simp

theorem positionsFollow_iff (hrows : H.Rows table) (hinv : H.Inv) (hq : H.queue.Nodup) :
    PositionsFollow H table ↔ H.QueueKept := by
  constructor
  · rintro ⟨hothers, hmembers⟩
    refine ⟨fun a ha b hb haq hbq => (position_lt_iff hrows).1 (hothers a ha b hb haq hbq),
      fun a ha b hb hab => ?_⟩
    obtain ⟨n, hn, -⟩ := (position_lt_iff hrows).1 (hmembers a ha b hb hab)
    exact Option.isSome_iff_exists.2 ⟨n, hn⟩
  · intro h
    refine ⟨fun a ha b hb haq hbq => (position_lt_iff hrows).2 (h.others a ha b hb haq hbq),
      fun a ha b hb hab => ?_⟩
    obtain ⟨n, hn⟩ := Option.isSome_iff_exists.1 (h.members a ha b hb hab)
    refine (position_lt_iff hrows).2 ⟨n, hn, fun m ha' => ?_⟩
    rw [hinv.place a (hab.subset (by simp)) m ha', hinv.place b (hab.subset (by simp)) n hn]
    exact idxOf_lt_of_sublist hq hab

theorem survives_iff (hrows : H.Rows table) (hinv : H.Inv) (hq : H.queue.Nodup) :
    (∀ scan, Scans table scan → Survives H (registeredTorrents table scan)) ↔ H.QueueKept := by
  rw [← positionsFollow_iff hrows hinv hq]
  constructor
  · intro h
    have hmem : ∀ scan, Scans table scan → ∀ id ∈ H.registered,
        id ∈ registeredTorrents table scan := by
      intro scan hscan id hid
      exact ((h scan hscan).mem id).2 hid
    refine ⟨fun a ha b hb haq hbq => ?_, fun a ha b hb hab => ?_⟩
    · refine position_lt_of_forall hrows (fun hab => hbq (hab ▸ haq)) ha hb fun scan hscan => ?_
      exact (h scan hscan).sublist_of_notMem (hmem scan hscan a ha) (hmem scan hscan b hb) haq hbq
    · have hne : a ≠ b := by
        rintro rfl
        simpa using (hq.sublist hab)
      refine position_lt_of_forall hrows hne ha hb fun scan hscan => ?_
      exact (h scan hscan).sublist_of_sublist (hmem scan hscan a ha) (hmem scan hscan b hb) hab
  · rintro ⟨hothers, hmembers⟩ scan hscan
    have hperm := registeredTorrents_perm table scan
    obtain ⟨hnodup, hmem⟩ := (scans_iff hrows).1 hscan
    have hmem' : ∀ id, id ∈ registeredTorrents table scan ↔ id ∈ H.registered := by
      intro id
      rw [hperm.mem_iff, hmem]
    refine ⟨hperm.nodup_iff.2 hnodup, hmem', ?_⟩
    have hsorted := registeredTorrents_pairwise table scan
    generalize hl : registeredTorrents table scan = l at hperm hmem' hsorted ⊢
    have hlnodup : l.Nodup := hperm.nodup_iff.2 hnodup
    have hfront := filter_append_filter (p := fun id => decide (id ∈ H.queue)) hsorted
      fun a ha b hb haq hbq => hothers a ((hmem' a).1 ha) b ((hmem' b).1 hb)
        (by simpa using haq) (by simpa using hbq)
    -- both lists have the same entries, in the order of their positions
    have heq : H.queue.filter (· ∈ l) = l.filter (· ∈ H.queue) := by
      have hpermf : (H.queue.filter (· ∈ l)).Perm (l.filter (· ∈ H.queue)) := by
        rw [perm_ext_iff_of_nodup (hq.filter _) (hlnodup.filter _)]
        simp [and_comm]
      have hlt : (H.queue.filter (· ∈ l)).Pairwise fun a b => position table a < position table b := by
        rw [pairwise_iff_forall_sublist]
        intro a b hab
        have hreg : ∀ x ∈ [a, b], x ∈ H.registered := fun x hx =>
          (hmem' x).1 (by simpa using (mem_filter.1 (hab.subset hx)).2)
        exact hmembers a (hreg a (by simp)) b (hreg b (by simp)) (hab.trans filter_sublist)
      have hne : (l.filter (· ∈ H.queue)).Pairwise fun a b => position table a ≠ position table b :=
        hpermf.pairwise (hlt.imp fun h => h.ne) fun h => h.symm
      refine hpermf.eq_of_pairwise (fun a b _ _ h₁ h₂ => (lt_asymm h₁ h₂).elim) hlt ?_
      exact ((hsorted.sublist filter_sublist).and hne).imp fun h => lt_of_le_of_ne h.1 h.2
    rw [heq]
    exact ⟨_, hfront⟩

end DBStorage

section Both

variable {E : Platform}

/-- What has to hold after the operations `ops` and a restart: the torrents survive in both
storages, however the directory lists its files and the database finds its rows; and for every
queue and every directory the loop over the queue file permutes the torrents found and puts those
of the queue in front. -/
structure BothSurvive (ops : List (Op E)) : Prop where
  files : ∀ filenames, BencodeStorage.Lists (ops.foldl BencodeStorage.perform ⟨∅, ∅, none⟩) filenames →
    Survives (History.of ops) (BencodeStorage.registeredTorrents
      (ops.foldl BencodeStorage.perform ⟨∅, ∅, none⟩) filenames)
  database : ∀ scan, DBStorage.Scans (ops.foldl DBStorage.perform ∅) scan →
    Survives (History.of ops)
      (DBStorage.registeredTorrents (ops.foldl DBStorage.perform ∅) scan)
  loadQueue : ∀ queue found : List Digest32, queue.Nodup →
    (QBittorrent.loadQueue (some (queueFile queue)) found).Perm found ∧
      queue.filter (· ∈ found) <+: QBittorrent.loadQueue (some (queueFile queue)) found

/-- **Order and membership survive a restart in both storages**, exactly when the history keeps the
queue. -/
theorem queue_survives_iff (ops : List (Op E))
    (hq : ∀ queue, .storeQueue queue ∈ ops → queue.Nodup) :
    BothSurvive ops ↔ (History.of ops).QueueKept := by
  rw [← DBStorage.survives_iff (History.rows ops hq) (History.inv_of ops) (History.queue_nodup hq)]
  constructor
  · intro h
    exact h.database
  · intro h
    exact ⟨fun _ hl => survives hq hl, h,
      fun queue found hnodup => ⟨loadQueue_perm _ found, loadQueue_prefix hnodup found⟩⟩

end Both

/-- The torrent whose ID repeats one digit. -/
def Digest32.ofDigit (d : Fin 16) : Digest32 := ⟨List.replicate 40 d, by simp⟩

/-- The IDs of two torrents. -/
def firstID : Digest32 := .ofDigit (.last 15)

def secondID : Digest32 := .ofDigit (.castSucc (.last 14))

def queueLast : List (Op Platform.plain) :=
  [.store firstID (forcedTorrent false), .store secondID (forcedTorrent false),
    .storeQueue [secondID, firstID]]

theorem queue_survives_iff_queueLast : BothSurvive queueLast := by
  refine (queue_survives_iff queueLast ?_).2 ⟨?_, ?_⟩
  · intro queue hmem
    obtain rfl : queue = [secondID, firstID] := by simpa [queueLast] using hmem
    decide
  · intro a _ b hb _ hbq
    exfalso
    revert b
    decide
  · have hplaces : ∀ b ∈ (History.of queueLast).registered,
        ((History.of queueLast).place b).isSome := by decide
    exact fun _ _ b hb _ => hplaces b hb

def queueFirst : List (Op Platform.plain) :=
  [.store firstID (forcedTorrent false), .storeQueue [firstID, secondID],
    .store secondID (forcedTorrent false)]

theorem DBStorage.queue_lost : ¬ BothSurvive queueFirst := by
  intro h
  have hq : ∀ queue, .storeQueue queue ∈ queueFirst → queue.Nodup := by
    intro queue hmem
    obtain rfl : queue = [firstID, secondID] := by simpa [queueFirst] using hmem
    decide
  have hkept := (survives_iff (History.rows queueFirst hq) (History.inv_of queueFirst)
    (History.queue_nodup hq)).1 h.database
  have hplace := hkept.members firstID (by decide) secondID (by decide) (by decide)
  revert hplace
  decide

end QBittorrent
