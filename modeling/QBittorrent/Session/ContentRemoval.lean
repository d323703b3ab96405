import Mathlib.Algebra.BigOperators.Group.Finset.Basic
import Mathlib.Tactic.Abel
import QBittorrent.Session.MoveQueueTracking

/-!
# Removing the content of torrents

What is to be removed with a torrent is parked in `m_removingTorrents`, next to the way the torrent
is removed, until libtorrent reports that it has removed the torrent.  The table is keyed by ID.

* `RemovalSession` : the session of the move queue with the rest of the entries of the table.
-/

namespace QBittorrent.MoveQueue

open Finmap Finset Multiset Option Dict

/-- `contentStoragePath` and `fileNames` of `RemovingTorrentData`. -/
structure Content where
  contentStoragePath : String
  fileNames : List String
  deriving DecidableEq

def TorrentImpl.actualStorageLocation (t : TorrentImpl) : String :=
  if t.hasMetadata then t.location else ""

structure RemovalSession where
  queue : SessionImpl := {}
  /-- `actualFilePaths` of the torrents. -/
  actualFilePaths : Dict Digest (List String) := ∅
  /-- What is to be removed, of the entries of `m_removingTorrents`. -/
  contents : Dict Digest Content := ∅
  /-- The calls of `performJob`. -/
  performed : List Content := []
  /-- What was to be removed with the torrents removed so far. -/
  requested : List Content := []

/-- What happens: the names of files change, and are set for a torrent that is added. -/
inductive RemovalEvent where
  | queue (e : MoveEvent)
  | filesRenamed (id : Digest) (actualFilePaths : List String)

namespace RemovalSession

variable (s : RemovalSession)

/-- The entry that `removeTorrent` makes. -/
def contentOf (id : Digest) (t : TorrentImpl) (deleteOption : TorrentRemoveOption) : Content where
  contentStoragePath := t.actualStorageLocation
  fileNames :=
    if deleteOption = .removeContent then (s.actualFilePaths.lookup id).getD [] else []

/-- What there is to remove: a torrent without metadata has no content. -/
def toRemove (deleteOption : TorrentRemoveOption) (content : Content) : Option Content :=
  if deleteOption = .removeContent ∧ content.contentStoragePath ≠ "" then some content else none

def removeTorrent (id : Digest) (deleteOption : TorrentRemoveOption) : RemovalSession :=
  match s.queue.torrents.lookup id with
  | none => s
  | some t =>
    { s with
      queue := s.queue.removeTorrent id deleteOption
      contents := s.contents.insert id (s.contentOf id t deleteOption)
      requested := s.requested ++ (toRemove deleteOption (s.contentOf id t deleteOption)).toList }

/-- What is parked for an ID. -/
def parked (id : Digest) : Option Content :=
  (s.queue.removingTorrents.lookup id).bind fun removeOption =>
    (s.contents.lookup id).bind (toRemove removeOption)

/-- `handleRemovedTorrent`, of both alerts. -/
def handleRemovedTorrent (id : Digest) : RemovalSession :=
  { s with
    queue := s.queue.handleRemovedTorrent id
    contents := s.contents.erase id
    performed := s.performed ++ (s.parked id).toList }

def next : RemovalEvent → RemovalSession
  | .queue (.removeTorrent id deleteOption) => s.removeTorrent id deleteOption
  | .queue (.torrentDeleted id) => s.handleRemovedTorrent id
  | .queue e => { s with queue := s.queue.next e }
  | .filesRenamed id actualFilePaths =>
    { s with actualFilePaths := s.actualFilePaths.insert id actualFilePaths }

def Possible : RemovalEvent → Prop
  | .queue e => s.queue.Possible e
  | .filesRenamed .. => True

instance : DecidablePred s.Possible
  | .queue e => inferInstanceAs (Decidable (s.queue.Possible e))
  | .filesRenamed .. => isTrue trivial

end RemovalSession

/-- The runs of a session. -/
def removalMachine : Machine RemovalSession RemovalEvent :=
  .guarded RemovalSession.Possible RemovalSession.next

open SessionImpl

/-! ### What events leave of the table -/

/-- The torrents are those of libtorrent with their hash. -/
def LiveNative (s : SessionImpl) : Prop :=
  ∀ id t, s.torrents.lookup id = some t →
    t.nativeHandle.infoHash = id ∧ t.nativeHandle ∈ s.native

/-- The table parks the same content, and the removals to be reported are still to be. -/
structure Keeps (s s' : SessionImpl) : Prop where
  live : LiveNative s → LiveNative s'
  removing : ∀ id, s'.removingTorrents.lookup id = some .removeContent ↔
    s.removingTorrents.lookup id = some .removeContent
  deletions : ∀ id ∈ s.deletions, id ∈ s'.deletions

namespace Keeps

variable {s s' s'' : SessionImpl} {id : Digest} {t t' : TorrentImpl} {h : TorrentHandle}

theorem refl (s : SessionImpl) : Keeps s s := ⟨fun h => h, fun _ => .rfl, fun _ h => h⟩

theorem trans (h : Keeps s s') (h' : Keeps s' s'') : Keeps s s'' where
  live hl := h'.live (h.live hl)
  removing id := (h'.removing id).trans (h.removing id)
  deletions id hid := h'.deletions id (h.deletions id hid)

theorem of_queue (q : List MoveStorageJob) (moving : List TorrentHandle) (allMoved : Bool) :
    Keeps s { s with moveStorageQueue := q, moving := moving, allMoved := allMoved } :=
  ⟨fun h => h, fun _ => .rfl, fun _ h => h⟩

theorem withTorrent (ht : s.torrents.lookup id = some t)
    (hh : t'.nativeHandle = t.nativeHandle) : Keeps s (s.withTorrent id t') := by
  refine ⟨fun hl id' t'' ht'' => ?_, fun _ => .rfl, fun _ h => h⟩
  simp only [SessionImpl.withTorrent, lookup_insert_eq] at ht''
  split_ifs at ht'' with hid
  · cases ht''
    rw [hh, hid]
    exact hl id t ht
  · exact hl id' t'' ht''

theorem mem_deletions_takeOut {id' : Digest} (hid : id' ∈ s.deletions) :
    id' ∈ (s.takeOut h).deletions := by
  rw [takeOut]
  split_ifs
  · exact List.mem_append_left _ hid
  · exact hid

section

variable (ht : s.torrents.lookup id = some t)

include ht

theorem reload (hh : t'.nativeHandle = t.nativeHandle) : Keeps s (s.reload id t') := by
  refine ⟨fun hl id' t'' ht'' => ?_, fun _ => .rfl, fun _ => mem_deletions_takeOut⟩
  simp only [SessionImpl.reload, SessionImpl.withTorrent, lookup_insert_eq, takeOut] at ht''
  split_ifs at ht'' with hid
  · cases ht''
    exact ⟨hid.symm, mem_insert_self _ _⟩
  · obtain ⟨hhash, hin⟩ := hl id' t'' ht''
    refine ⟨hhash, mem_insert_of_mem (mem_erase.2 ⟨fun he => hid ?_, hin⟩)⟩
    rw [← hhash, he, hh, (hl id t ht).1]

theorem finishJob (path : String) (context : MoveStorageContext) (hasOutstandingJob : Bool) :
    Keeps s (s.finishJob id t path context hasOutstandingJob) := by
  rw [SessionImpl.finishJob]
  split_ifs
  · exact reload ht rfl
  · exact withTorrent ht rfl

theorem cancelInactiveJob : Keeps s (s.cancelInactiveJob id t) := by
  cases hjob : s.inactiveJob t.nativeHandle with
  | none =>
    rw [SessionImpl.cancelInactiveJob, hjob]
    exact refl s
  | some job =>
    rw [cancelInactiveJob_of_some hjob]
    refine (of_queue (withoutInactive t.nativeHandle s.moveStorageQueue) s.moving
      s.allMoved).trans ?_
    exact finishJob (s := { s with
      moveStorageQueue := withoutInactive t.nativeHandle s.moveStorageQueue }) ht _ _ _

end

theorem enqueue (job : MoveStorageJob) : Keeps s (s.enqueue job) := by
  rw [SessionImpl.enqueue]
  split_ifs
  · exact of_queue _ _ _
  · exact of_queue _ _ _

theorem moveStorage (s : SessionImpl) (id : Digest) (newPath : String)
    (context : MoveStorageContext) : Keeps s (s.moveStorage id newPath context) := by
  cases ht : s.torrents.lookup id with
  | none =>
    rw [SessionImpl.moveStorage, ht]
    exact refl s
  | some t =>
    cases hmeta : t.hasMetadata with
    | false =>
      rw [SessionImpl.moveStorage, ht]
      dsimp only
      rw [if_pos hmeta]
      exact withTorrent ht rfl
    | true =>
      have hrequested : Keeps s (s.withTorrent id (requestedTorrent t newPath)) :=
        withTorrent ht rfl
      have hcanceled : Keeps s (canceled s id t newPath) :=
        hrequested.trans (cancelInactiveJob (lookup_withTorrent s id _))
      obtain ⟨-, he⟩ | ⟨-, mode, he⟩ := moveStorage_cases ht hmeta newPath context
      · rw [he]
        exact hcanceled
      · rw [he]
        have hlookup := lookup_canceled s id t newPath
        rw [← torrents_enqueue _ ⟨t.nativeHandle, newPath, mode, context⟩] at hlookup
        exact hcanceled.trans ((enqueue _).trans (withTorrent hlookup rfl))

theorem start (s : SessionImpl) (id : Digest) : Keeps s (s.start id) := by
  rw [SessionImpl.start]
  cases ht : s.torrents.lookup id with
  | none => exact refl s
  | some t =>
    dsimp only
    split_ifs
    · exact reload ht rfl
    · exact refl s

theorem setMissingFiles (s : SessionImpl) (id : Digest) (missing : Bool) :
    Keeps s (s.setMissingFiles id missing) := by
  rw [SessionImpl.setMissingFiles]
  cases ht : s.torrents.lookup id with
  | none => exact refl s
  | some t => exact withTorrent ht rfl

theorem addTorrent (s : SessionImpl) (id : Digest) (hasMetadata : Bool)
    (location savePath downloadPath : String) :
    Keeps s (s.addTorrent id hasMetadata location savePath downloadPath) := by
  refine ⟨fun hl id' t' ht' => ?_, fun _ => .rfl, fun _ h => h⟩
  simp only [SessionImpl.addTorrent, SessionImpl.withTorrent, lookup_insert_eq] at ht'
  split_ifs at ht' with he
  · cases ht'
    exact ⟨he.symm, mem_insert_self _ _⟩
  · exact ⟨(hl id' t' ht').1, mem_insert_of_mem (hl id' t' ht').2⟩

theorem answered (s : SessionImpl) (job : MoveStorageJob) (path : String) :
    Keeps s (answered s job path) := by
  rw [MoveQueue.answered]
  cases ht : s.torrents.lookup job.torrentHandle.infoHash with
  | some t => exact finishJob ht _ _ _
  | none =>
    dsimp only
    split_ifs with hqueued hkeep
    · exact refl s
    · -- the entry that is inserted if there is none keeps the content
      refine ⟨fun hl id t ht' => ?_, fun id => ?_, fun id => mem_deletions_takeOut⟩
      · obtain ⟨hhash, hin⟩ := hl id t ht'
        refine ⟨hhash, mem_erase.2 ⟨fun he => ?_, hin⟩⟩
        rw [← he, hhash] at ht
        cases ht.symm.trans ht'
      · simp only [removeNative, takeOut, lookup_insert_eq]
        split_ifs with hid
        · rw [hkeep, hid]
          refine iff_of_false (by simp) fun hremove => ?_
          rw [hremove] at hkeep
          cases hkeep
        · exact .rfl
    · refine ⟨fun hl => hl, fun id => ?_, fun _ h => h⟩
      simp only [lookup_insert_eq]
      split_ifs with hid
      · rw [hid]
        cases hremove : s.removingTorrents.lookup job.torrentHandle.infoHash with
        | none =>
          rw [hremove] at hkeep
          exact absurd rfl hkeep
        | some removeOption => rfl
      · exact .rfl

theorem handleStorageAlert (s : SessionImpl) (success : Bool) :
    Keeps s (s.handleStorageAlert success) := by
  rw [SessionImpl.handleStorageAlert]
  cases hq : s.moveStorageQueue with
  | nil => exact refl s
  | cons head rest =>
    cases rest with
    | nil => exact (of_queue [] _ _).trans (answered _ head (reportedPath s head success))
    | cons job rest =>
      exact (of_queue (job :: rest) _ _).trans (answered _ head (reportedPath s head success))

end Keeps

namespace RemovalSession

variable {s : RemovalSession} {id : Digest}

def allParked (s : RemovalSession) : Multiset Content :=
  ∑ id ∈ s.contents.keys, ((s.parked id).toList : Multiset Content)

theorem parked_eq_none (hid : id ∉ s.contents.keys) : s.parked id = none := by
  have hnone : s.contents.lookup id = none := by
    rw [← not_isSome_iff_eq_none, ← mem_iff_isSome, ← mem_keys]
    exact hid
  rw [parked, hnone]
  cases s.queue.removingTorrents.lookup id <;> rfl

theorem allParked_eq (s : RemovalSession) (id : Digest) :
    s.allParked = (s.parked id).toList +
      ∑ id' ∈ s.contents.keys.erase id, ((s.parked id').toList : Multiset Content) := by
  by_cases hid : id ∈ s.contents.keys
  · exact (add_sum_erase _ _ hid).symm
  · rw [parked_eq_none hid, erase_eq_of_notMem hid]
    exact (zero_add _).symm

theorem allParked_of_entry {s' : RemovalSession}
    (hkeys : s'.contents.keys.erase id = s.contents.keys.erase id)
    (hparked : ∀ id' ≠ id, s'.parked id' = s.parked id') :
    s'.allParked + (s.parked id).toList = s.allParked + (s'.parked id).toList := by
  rw [s.allParked_eq id, s'.allParked_eq id, hkeys, sum_congr rfl fun id' hid' => by
    rw [hparked id' (ne_of_mem_erase hid')]]
  abel

end RemovalSession

/-- Each torrent that was removed with its content has had it removed once, or it is parked and the
removal is to be reported. -/
structure Honoured (s : RemovalSession) : Prop where
  accounts : (s.performed : Multiset Content) + s.allParked = s.requested
  reported : ∀ id, (s.parked id).isSome → id ∈ s.queue.deletions

theorem Honoured.performed_perm {s : RemovalSession} (hs : Honoured s)
    (hreported : s.queue.deletions = []) : s.performed.Perm s.requested := by
  have hzero : s.allParked = 0 := sum_eq_zero fun id _ => by
    cases hparked : s.parked id with
    | none => rfl
    | some content =>
      have hmem := hs.reported id (by rw [hparked]; rfl)
      rw [hreported] at hmem
      cases hmem
  have haccounts := hs.accounts
  rw [hzero, add_zero] at haccounts
  exact coe_eq_coe.1 haccounts

/-- No torrent is removed while content is parked under its ID. -/
def NotParked (s : RemovalSession) : RemovalEvent → Prop
  | .queue (.removeTorrent id _) => (s.queue.torrents.lookup id).isSome → s.parked id = none
  | _ => True

instance (s : RemovalSession) : DecidablePred (NotParked s)
  | .queue (.removeTorrent id _) =>
    inferInstanceAs (Decidable ((s.queue.torrents.lookup id).isSome → s.parked id = none))
  | .queue (.addTorrent ..) | .queue (.moveStorage ..) | .queue (.setMissingFiles ..)
  | .queue (.start _) | .queue (.storageMoved _) | .queue (.torrentDeleted _)
  | .filesRenamed .. => isTrue trivial

/-- The accounts, and where the torrents are. -/
structure RemovalInv (s : RemovalSession) : Prop extends Honoured s where
  live : LiveNative s.queue

namespace RemovalInv

variable {s : RemovalSession} {id : Digest}

theorem of_keeps (hs : RemovalInv s) {queue : SessionImpl} (hk : Keeps s.queue queue)
    (actualFilePaths : Dict Digest (List String)) :
    RemovalInv { s with queue := queue, actualFilePaths := actualFilePaths } := by
  have hparked : ∀ id, ({ s with queue := queue, actualFilePaths := actualFilePaths } :
      RemovalSession).parked id = s.parked id := by
    intro id
    have hremove : ∀ removeOption content, removeOption ≠ .removeContent →
        RemovalSession.toRemove removeOption content = none := fun _ _ hne =>
      if_neg fun h => hne h.1
    have hnot : ∀ (o : Option TorrentRemoveOption), o ≠ some .removeContent →
        (o.bind fun removeOption => (s.contents.lookup id).bind
          (RemovalSession.toRemove removeOption)) = none := by
      intro o ho
      cases o with
      | none => rfl
      | some removeOption =>
        cases s.contents.lookup id with
        | none => rfl
        | some content => exact hremove _ _ fun he => ho (by rw [he])
    change (queue.removingTorrents.lookup id).bind _ = _
    rw [RemovalSession.parked]
    by_cases h : s.queue.removingTorrents.lookup id = some .removeContent
    · rw [h, (hk.removing id).2 h]
    · rw [hnot _ h, hnot _ fun h' => h ((hk.removing id).1 h')]
  refine ⟨⟨?_, fun id hsome => hk.deletions id (hs.reported id (hparked id ▸ hsome))⟩,
    hk.live hs.live⟩
  rw [RemovalSession.allParked]
  simp only [hparked]
  exact hs.accounts

end RemovalInv

section removal

variable {s : SessionImpl} {id : Digest} {t : TorrentImpl} {deleteOption : TorrentRemoveOption}

theorem lookup_removingTorrents_removeTorrent (ht : s.torrents.lookup id = some t)
    (id' : Digest) :
    (s.removeTorrent id deleteOption).removingTorrents.lookup id' =
      if id' = id then some deleteOption else s.removingTorrents.lookup id' := by
  have hinsert : (s.removeTorrent id deleteOption).removingTorrents =
      s.removingTorrents.insert id deleteOption := by
    rw [removeTorrent, ht]
    cases deleteOption with
    | keepContent =>
      dsimp only
      split_ifs <;> rfl
    | removeContent => rfl
  rw [hinsert, lookup_insert_eq]

theorem torrents_native_removeTorrent (ht : s.torrents.lookup id = some t) :
    (s.removeTorrent id deleteOption).torrents = s.torrents.erase id ∧
      s.native.erase t.nativeHandle ⊆ (s.removeTorrent id deleteOption).native := by
  rw [removeTorrent, ht]
  cases deleteOption with
  | keepContent =>
    dsimp only
    split_ifs
    · exact ⟨rfl, Finset.erase_subset _ _⟩
    · exact ⟨rfl, subset_rfl⟩
  | removeContent => exact ⟨rfl, subset_rfl⟩

theorem live_removeTorrent (hs : LiveNative s) (ht : s.torrents.lookup id = some t) :
    LiveNative (s.removeTorrent id deleteOption) := by
  intro id' t' ht'
  obtain ⟨htorrents, hnative⟩ :
      (s.removeTorrent id deleteOption).torrents = _ ∧ _ := torrents_native_removeTorrent ht
  rw [htorrents] at ht'
  by_cases hid : id' = id
  · rw [hid, lookup_erase] at ht'
    cases ht'
  · rw [lookup_erase_ne hid] at ht'
    obtain ⟨hhash, hin⟩ := hs id' t' ht'
    refine ⟨hhash, hnative (mem_erase.2 ⟨fun he => hid ?_, hin⟩)⟩
    rw [← hhash, he, (hs id t ht).1]

theorem mem_deletions_removeTorrent (ht : s.torrents.lookup id = some t) {id' : Digest}
    (hid : id' ∈ s.deletions) : id' ∈ (s.removeTorrent id deleteOption).deletions := by
  rw [removeTorrent, ht]
  cases deleteOption with
  | keepContent =>
    dsimp only
    split_ifs
    · exact hid
    · exact Keeps.mem_deletions_takeOut hid
  | removeContent => exact Keeps.mem_deletions_takeOut hid

theorem mem_deletions_removeContent (hs : LiveNative s) (ht : s.torrents.lookup id = some t) :
    id ∈ (s.removeTorrent id .removeContent).deletions := by
  obtain ⟨hhash, hin⟩ := hs id t ht
  rw [removeTorrent, ht]
  simp only [removeNative, takeOut, if_pos hin, hhash]
  exact List.mem_append_right _ (List.mem_singleton_self id)

end removal

namespace RemovalSession

variable {s : RemovalSession} {id : Digest} {t : TorrentImpl} {deleteOption : TorrentRemoveOption}

section

variable (ht : s.queue.torrents.lookup id = some t)

include ht

theorem removeTorrent_of_some :
    s.removeTorrent id deleteOption =
      { s with
        queue := s.queue.removeTorrent id deleteOption
        contents := s.contents.insert id (s.contentOf id t deleteOption)
        requested :=
          s.requested ++ (toRemove deleteOption (s.contentOf id t deleteOption)).toList } := by
  rw [removeTorrent, ht]

theorem parked_removeTorrent_self :
    (s.removeTorrent id deleteOption).parked id =
      toRemove deleteOption (s.contentOf id t deleteOption) := by
  rw [removeTorrent_of_some ht, parked]
  rw [lookup_removingTorrents_removeTorrent ht, if_pos rfl, lookup_insert]
  rfl

theorem parked_removeTorrent_of_ne {id' : Digest} (hne : id' ≠ id) :
    (s.removeTorrent id deleteOption).parked id' = s.parked id' := by
  rw [removeTorrent_of_some ht, parked, parked]
  rw [lookup_removingTorrents_removeTorrent ht, if_neg hne, lookup_insert_of_ne _ hne]

theorem allParked_removeTorrent :
    (s.removeTorrent id deleteOption).allParked + (s.parked id).toList =
      s.allParked + (toRemove deleteOption (s.contentOf id t deleteOption)).toList := by
  rw [← parked_removeTorrent_self ht]
  refine allParked_of_entry ?_ fun id' hne => parked_removeTorrent_of_ne ht hne
  rw [removeTorrent_of_some ht]
  ext id'
  simp only [Finset.mem_erase, mem_keys, Finmap.mem_insert]
  tauto

end

theorem parked_handleRemovedTorrent_self : (s.handleRemovedTorrent id).parked id = none := by
  rw [handleRemovedTorrent, parked]
  rw [lookup_erase]
  cases (s.queue.handleRemovedTorrent id).removingTorrents.lookup id <;> rfl

theorem parked_handleRemovedTorrent_of_ne {id' : Digest} (hne : id' ≠ id) :
    (s.handleRemovedTorrent id).parked id' = s.parked id' := by
  rw [handleRemovedTorrent, parked]
  dsimp only [SessionImpl.handleRemovedTorrent]
  rw [lookup_erase_ne hne, lookup_erase_ne hne]
  rfl

theorem allParked_handleRemovedTorrent (s : RemovalSession) (id : Digest) :
    (s.handleRemovedTorrent id).allParked + (s.parked id).toList = s.allParked := by
  have hkeys : (s.handleRemovedTorrent id).contents.keys.erase id = s.contents.keys.erase id := by
    rw [handleRemovedTorrent]
    rw [keys_erase, erase_idem]
  have h := allParked_of_entry hkeys fun id' hne => parked_handleRemovedTorrent_of_ne hne
  rw [parked_handleRemovedTorrent_self] at h
  exact h.trans (add_zero _)

end RemovalSession

namespace RemovalInv

variable {s : RemovalSession} {id : Digest}

theorem accounts_removeTorrent (hs : Honoured s) {t : TorrentImpl}
    (ht : s.queue.torrents.lookup id = some t) (deleteOption : TorrentRemoveOption) :
    ((s.removeTorrent id deleteOption).performed : Multiset Content) +
        (s.removeTorrent id deleteOption).allParked + (s.parked id).toList =
      (s.removeTorrent id deleteOption).requested := by
  rw [add_assoc, RemovalSession.allParked_removeTorrent ht, ← add_assoc]
  rw [RemovalSession.removeTorrent_of_some ht]
  rw [hs.accounts]
  rfl

theorem removeTorrent (hs : RemovalInv s) (deleteOption : TorrentRemoveOption)
    (hparked : (s.queue.torrents.lookup id).isSome → s.parked id = none) :
    RemovalInv (s.removeTorrent id deleteOption) := by
  cases ht : s.queue.torrents.lookup id with
  | none =>
    rw [RemovalSession.removeTorrent, ht]
    exact hs
  | some t =>
    have hnone : s.parked id = none := hparked (by rw [ht]; rfl)
    have haccounts := accounts_removeTorrent hs.toHonoured ht deleteOption
    rw [hnone] at haccounts
    have hqueue : (s.removeTorrent id deleteOption).queue =
        s.queue.removeTorrent id deleteOption := by
      rw [RemovalSession.removeTorrent_of_some ht]
    refine ⟨⟨(add_zero _).symm.trans haccounts, fun id' hsome => ?_⟩, ?_⟩
    · rw [hqueue]
      rcases eq_or_ne id' id with rfl | hne
      · -- the torrent leaves libtorrent at once if there is something to remove
        rw [RemovalSession.parked_removeTorrent_self ht] at hsome
        cases deleteOption with
        | keepContent =>
          cases hsome
        | removeContent => exact mem_deletions_removeContent hs.live ht
      · rw [RemovalSession.parked_removeTorrent_of_ne ht hne] at hsome
        exact mem_deletions_removeTorrent ht (hs.reported id' hsome)
    · rw [hqueue]
      exact live_removeTorrent hs.live ht

theorem not_honoured_removeTorrent (hs : RemovalInv s) (deleteOption : TorrentRemoveOption)
    (hparked : ¬((s.queue.torrents.lookup id).isSome → s.parked id = none)) :
    ¬Honoured (s.removeTorrent id deleteOption) := by
  intro hs'
  obtain ⟨hsome, hne⟩ := Classical.not_imp.1 hparked
  obtain ⟨t, ht⟩ := isSome_iff_exists.1 hsome
  obtain ⟨content, hcontent⟩ := ne_none_iff_exists'.1 hne
  have haccounts := accounts_removeTorrent hs.toHonoured ht deleteOption
  rw [hs'.accounts, hcontent] at haccounts
  have hcard := congrArg Multiset.card haccounts
  rw [card_add, toList_some, coe_card, coe_card,
    List.length_singleton] at hcard
  omega

theorem handleRemovedTorrent (hs : RemovalInv s) (id : Digest) :
    RemovalInv (s.handleRemovedTorrent id) := by
  refine ⟨⟨?_, fun id' hsome => ?_⟩, hs.live⟩
  · have haccounts := hs.accounts
    rw [← RemovalSession.allParked_handleRemovedTorrent s id] at haccounts
    refine Eq.trans ?_ haccounts
    change ((s.performed ++ (s.parked id).toList : List Content) : Multiset Content) + _ = _
    rw [← coe_add]
    abel
  · rcases eq_or_ne id' id with rfl | hne
    · rw [RemovalSession.parked_handleRemovedTorrent_self] at hsome
      cases hsome
    · rw [RemovalSession.parked_handleRemovedTorrent_of_ne hne] at hsome
      exact (List.mem_erase_of_ne hne).2 (hs.reported id' hsome)

theorem init : RemovalInv {} where
  accounts := rfl
  reported := by
    intro id hsome
    cases hsome
  live := by
    intro id t ht
    cases ht

theorem next (hs : RemovalInv s) (e : RemovalEvent) (hparked : NotParked s e) :
    RemovalInv (s.next e) := by
  cases e with
  | filesRenamed id actualFilePaths => exact hs.of_keeps (.refl _) _
  | queue e =>
    cases e with
    | addTorrent id hasMetadata location savePath downloadPath =>
      exact hs.of_keeps (.addTorrent ..) s.actualFilePaths
    | moveStorage id newPath context => exact hs.of_keeps (.moveStorage ..) s.actualFilePaths
    | removeTorrent id deleteOption => exact hs.removeTorrent deleteOption hparked
    | setMissingFiles id missing => exact hs.of_keeps (.setMissingFiles ..) s.actualFilePaths
    | start id => exact hs.of_keeps (.start ..) s.actualFilePaths
    | storageMoved success => exact hs.of_keeps (.handleStorageAlert ..) s.actualFilePaths
    | torrentDeleted id => exact hs.handleRemovedTorrent id

theorem not_honoured_next (hs : RemovalInv s) {e : RemovalEvent} (hparked : ¬NotParked s e) :
    ¬Honoured (s.next e) := by
  cases e with
  | filesRenamed => exact absurd trivial hparked
  | queue e =>
    cases e with
    | removeTorrent id deleteOption => exact hs.not_honoured_removeTorrent deleteOption hparked
    | addTorrent | moveStorage | setMissingFiles | start | storageMoved | torrentDeleted =>
      exact absurd trivial hparked

end RemovalInv

/-- **Removal of content.**  The content of just the torrents that were removed with it is removed,
once for each and as it was when the torrent was removed, as long as no torrent is removed while
content is parked under its ID. -/
theorem honoured_iff (es : List RemovalEvent) (hr : (removalMachine.run {} es).isSome) :
    removalMachine.Always Honoured {} es ↔ removalMachine.Meets NotParked {} es :=
  Machine.guarded_always_iff_meets RemovalInv.init (fun _ hs => hs.toHonoured)
    (fun _ e hs _ hparked => hs.next e hparked)
    (fun _ _ hs _ hparked => hs.not_honoured_next hparked) hr

/-- A torrent is removed with its content, and added and removed again once that is reported. -/
theorem honoured_iff_readded :
    removalMachine.Always Honoured {}
      [.queue (.addTorrent 1 true "/a" "/a" ""), .filesRenamed 1 ["f"],
        .queue (.removeTorrent 1 .removeContent), .queue (.torrentDeleted 1),
        .queue (.addTorrent 1 true "/b" "/b" ""), .queue (.removeTorrent 1 .keepContent),
        .queue (.torrentDeleted 1)] :=
  (honoured_iff _ (by decide)).2 (by decide)

/-- A torrent is removed with its content, and added and removed again before that is reported. -/
def overwrittenRun : List RemovalEvent :=
  [.queue (.addTorrent 1 true "/a" "/a" ""), .filesRenamed 1 ["f"],
    .queue (.removeTorrent 1 .removeContent), .queue (.addTorrent 1 true "/b" "/b" ""),
    .queue (.removeTorrent 1 .keepContent), .queue (.torrentDeleted 1),
    .queue (.torrentDeleted 1)]

/-- The content of the first torrent stays. -/
theorem overwrittenRun_not_honoured :
    (removalMachine.run {} overwrittenRun).isSome = true ∧
      ¬removalMachine.Always Honoured {} overwrittenRun := by
  refine ⟨by decide, fun h => ?_⟩
  obtain ⟨s, hs⟩ : ∃ s, removalMachine.run {} overwrittenRun = some s :=
    isSome_iff_exists.1 (by decide)
  have hend : ∀ s ∈ removalMachine.run {} overwrittenRun, s.queue.deletions = [] ∧
      s.performed = [] ∧ s.requested = [⟨"/a", ["f"]⟩] := by decide
  obtain ⟨hreported, hperformed, hrequested⟩ := hend s hs
  have hperm := (h.at_end hs).performed_perm hreported
  rw [hperformed, hrequested] at hperm
  exact List.cons_ne_nil _ _ hperm.nil_eq.symm

end QBittorrent.MoveQueue
