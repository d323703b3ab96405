import Mathlib
import QBittorrent.Lib.Dict
import QBittorrent.Lib.Placement
import QBittorrent.Lib.Reorder

/-!
# Moves in the queue

The session moves the selected torrents in the queue of libtorrent one at a time: each one place up
or down, or to the top or the bottom.  It sorts them by their positions first, such that the one
that is moved next does not meet those that were moved before.  The queue also has torrents that
the session only loads the metadata of; these it puts back to the bottom.

* `QueuedSession.Right` : the order among the selected torrents and the order among the others are
  kept, and the selected ones get where they should.
-/

namespace QBittorrent

open Reorder List Option

/-- What the moves read. -/
structure QueuedSession (ID H : Type*) [DecidableEq ID] [DecidableEq H] where
  /-- `m_torrents`; a torrent is known by its native handle. -/
  torrents : Dict ID H
  /-- `m_nativeStatus.queue_position` of a torrent. -/
  queuePosition : H → ℤ
  /-- The torrents of `m_downloadedMetadata`. -/
  downloadedMetadata : List H
  /-- The queue of libtorrent. -/
  queue : List H
  queue_nodup : queue.Nodup
  torrents_injective : ∀ id id' h, torrents.lookup id = some h → torrents.lookup id' = some h →
    id = id'
  queuePosition_eq : ∀ id h, torrents.lookup id = some h →
    queuePosition h = if h ∈ queue then (queue.idxOf h : ℤ) else -1
  downloadedMetadata_notMem : ∀ h ∈ downloadedMetadata, ∀ id, torrents.lookup id ≠ some h

namespace QueuedSession

variable {ID H : Type*} [DecidableEq ID] [DecidableEq H] (s : QueuedSession ID H) (ids : List ID)

/-- The torrents of `ids` that are queued, with their positions. -/
def torrentQueue : List (ℤ × H) :=
  ids.filterMap fun id => do
    let torrent ← s.torrents.lookup id
    if 0 ≤ s.queuePosition torrent then some (s.queuePosition torrent, torrent) else none

/-- The order in which a `priority_queue` with `std::greater` gives them.  No two torrents have one
position, so that their addresses do not matter. -/
def lowestFirst : List H :=
  ((s.torrentQueue ids).insertionSort fun a b => a.1 ≤ b.1).map Prod.snd

/-- The order in which a `priority_queue` gives them. -/
def highestFirst : List H :=
  ((s.torrentQueue ids).insertionSort fun a b => b.1 ≤ a.1).map Prod.snd

/-- `torrentQueuePositionBottom` for all of `m_downloadedMetadata`. -/
def bottomMetadata (queue : List H) : List H :=
  s.downloadedMetadata.foldl (fun queue torrent => moveBack torrent queue) queue

/-! ### The moves, each with the queue that it leaves -/

def increaseTorrentsQueuePos : List H :=
  (s.lowestFirst ids).foldl (fun queue torrent => moveUp torrent queue) s.queue

def decreaseTorrentsQueuePos : List H :=
  s.bottomMetadata ((s.highestFirst ids).foldl (fun queue torrent => moveDown torrent queue) s.queue)

def topTorrentsQueuePos : List H :=
  (s.highestFirst ids).foldl (fun queue torrent => moveFront torrent queue) s.queue

def bottomTorrentsQueuePos : List H :=
  s.bottomMetadata ((s.lowestFirst ids).foldl (fun queue torrent => moveBack torrent queue) s.queue)

inductive QueueMove where
  | increase
  | decrease
  | top
  | bottom

def perform : QueueMove → List H
  | .increase => s.increaseTorrentsQueuePos ids
  | .decrease => s.decreaseTorrentsQueuePos ids
  | .top => s.topTorrentsQueuePos ids
  | .bottom => s.bottomTorrentsQueuePos ids

/-! ### What a move should do -/

/-- The torrent is one of the session. -/
def isTorrent (torrent : H) : Bool :=
  decide (∃ id ∈ s.torrents.keys, s.torrents.lookup id = some torrent)

def isSelected (torrent : H) : Bool := ids.any fun id => decide (s.torrents.lookup id = some torrent)

def isOther (torrent : H) : Bool := s.isTorrent torrent && !s.isSelected ids torrent

/-- The order among the selected torrents and the order among the others are as before. -/
structure OrderKept (queue : List H) : Prop where
  selected : queue.filter (s.isSelected ids) = s.queue.filter (s.isSelected ids)
  others : queue.filter (s.isOther ids) = s.queue.filter (s.isOther ids)

/-- The place of a torrent among those of the session. -/
def place (torrent : H) (queue : List H) : ℕ := (queue.filter s.isTorrent).idxOf torrent

/-- The selected torrents get where the move says. -/
def Moved (queue : List H) : QueueMove → Prop
  | .increase => ∀ torrent, s.isSelected ids torrent = true →
      s.place torrent queue ≤ s.place torrent s.queue
  | .decrease => ∀ torrent, s.isSelected ids torrent = true →
      s.place torrent s.queue ≤ s.place torrent queue
  | .top => queue.filter s.isTorrent =
      s.queue.filter (s.isSelected ids) ++ s.queue.filter (s.isOther ids)
  | .bottom => queue.filter s.isTorrent =
      s.queue.filter (s.isOther ids) ++ s.queue.filter (s.isSelected ids)

def Right (move : QueueMove) : Prop :=
  s.OrderKept ids (s.perform ids move) ∧ s.Moved ids (s.perform ids move) move

/-- Of the two torrents at the end that a step goes to, not both are selected. -/
def Unobstructed : QueueMove → Prop
  | .increase => FrontFree (s.isSelected ids) s.queue
  | .decrease => FrontFree (s.isSelected ids) s.queue.reverse
  | .top | .bottom => True

instance : DecidablePred (s.Unobstructed ids)
  | .increase | .decrease => inferInstanceAs (Decidable (FrontFree _ _))
  | .top | .bottom => isTrue trivial

variable {s ids} {torrent : H} {q : H → Bool}

theorem isSelected_iff :
    s.isSelected ids torrent = true ↔ ∃ id ∈ ids, s.torrents.lookup id = some torrent := by
  simp [isSelected]

theorem isTorrent_iff :
    s.isTorrent torrent = true ↔ ∃ id, s.torrents.lookup id = some torrent := by
  rw [isTorrent, decide_eq_true_iff]
  constructor
  · rintro ⟨id, -, hid⟩
    exact ⟨id, hid⟩
  · rintro ⟨id, hid⟩
    exact ⟨id, Finmap.mem_keys.2 (Finmap.mem_of_lookup_eq_some hid), hid⟩

theorem isTorrent_of_isSelected (h : s.isSelected ids torrent = true) :
    s.isTorrent torrent = true := by
  obtain ⟨id, -, hid⟩ := isSelected_iff.1 h
  exact isTorrent_iff.2 ⟨id, hid⟩

theorem isOther_iff : s.isOther ids torrent = true ↔
    s.isTorrent torrent = true ∧ s.isSelected ids torrent = false := by
  simp [isOther]

/-! ### The order of the moves -/

theorem mem_torrentQueue {position : ℤ} : (position, torrent) ∈ s.torrentQueue ids ↔
    s.isSelected ids torrent = true ∧ torrent ∈ s.queue ∧ position = s.queue.idxOf torrent := by
  rw [torrentQueue, mem_filterMap, isSelected_iff]
  constructor
  · rintro ⟨id, hid, h⟩
    obtain ⟨torrent', hlookup, h⟩ := bind_eq_some_iff.1 h
    rw [s.queuePosition_eq id torrent' hlookup] at h
    by_cases hqueued : torrent' ∈ s.queue
    · simp only [if_pos hqueued, Int.natCast_nonneg, if_true, some.injEq,
        Prod.mk.injEq] at h
      obtain ⟨hposition, rfl⟩ := h
      exact ⟨⟨id, hid, hlookup⟩, hqueued, hposition.symm⟩
    · simp [if_neg hqueued] at h
  · rintro ⟨⟨id, hid, hlookup⟩, hqueued, rfl⟩
    refine ⟨id, hid, bind_eq_some_iff.2 ⟨torrent, hlookup, ?_⟩⟩
    simp [s.queuePosition_eq id torrent hlookup, hqueued]

section

variable (hids : ids.Nodup) {l : List (ℤ × H)}

include hids

theorem nodup_torrentQueue : ((s.torrentQueue ids).map Prod.snd).Nodup := by
  induction ids with
  | nil => exact nodup_nil
  | cons id ids ih =>
    obtain ⟨hid, hrest⟩ := nodup_cons.1 hids
    have hcons : s.torrentQueue (id :: ids) = s.torrentQueue [id] ++ s.torrentQueue ids := by
      rw [torrentQueue, ← singleton_append, filterMap_append]
      rfl
    rw [hcons, map_append, nodup_append]
    refine ⟨?_, ih hrest, ?_⟩
    · rw [torrentQueue, filterMap_cons, filterMap_nil]
      split <;> simp
    · rintro torrent hfirst _ hlater rfl
      obtain ⟨⟨position₁, torrent₁⟩, hmem₁, heq₁⟩ := mem_map.1 hfirst
      obtain ⟨⟨position₂, torrent₂⟩, hmem₂, heq₂⟩ := mem_map.1 hlater
      obtain ⟨id₁, hid₁, hlookup₁⟩ := isSelected_iff.1 (mem_torrentQueue.1 hmem₁).1
      obtain ⟨id₂, hid₂, hlookup₂⟩ := isSelected_iff.1 (mem_torrentQueue.1 hmem₂).1
      obtain rfl := mem_singleton.1 hid₁
      have hsame : torrent₂ = torrent₁ := heq₂.trans heq₁.symm
      rw [hsame] at hlookup₂
      exact hid (s.torrents_injective _ _ _ hlookup₁ hlookup₂ ▸ hid₂)

theorem perm_selected (hl : l.Perm (s.torrentQueue ids)) :
    (l.map Prod.snd).Perm (s.queue.filter (s.isSelected ids)) := by
  refine (hl.map Prod.snd).trans ((perm_ext_iff_of_nodup (nodup_torrentQueue hids)
    (s.queue_nodup.filter _)).2 fun torrent => ?_)
  rw [List.mem_map, mem_filter]
  constructor
  · rintro ⟨⟨position, torrent⟩, hmem, rfl⟩
    obtain ⟨hselected, hqueued, -⟩ := mem_torrentQueue.1 hmem
    exact ⟨hqueued, hselected⟩
  · rintro ⟨hqueued, hselected⟩
    exact ⟨(s.queue.idxOf torrent, torrent), mem_torrentQueue.2 ⟨hselected, hqueued, rfl⟩, rfl⟩

theorem eq_filter_of_sorted (hl : l.Perm (s.torrentQueue ids))
    (hsorted : l.Pairwise fun a b => a.1 ≤ b.1) :
    l.map Prod.snd = s.queue.filter (s.isSelected ids) := by
  have hposition : ∀ a ∈ l, a.1 = s.queue.idxOf a.2 := fun a ha =>
    (mem_torrentQueue.1 (hl.mem_iff.1 ha)).2.2
  have hqueue : (s.queue.filter (s.isSelected ids)).Pairwise fun a b =>
      s.queue.idxOf a ≤ s.queue.idxOf b := by
    refine pairwise_iff_forall_sublist.2 fun {a b} hab => ?_
    exact (idxOf_lt_of_sublist s.queue_nodup (hab.trans filter_sublist)).le
  have hsortedQueue : (l.map Prod.snd).Pairwise fun a b =>
      s.queue.idxOf a ≤ s.queue.idxOf b := by
    refine pairwise_map.2 ((Pairwise.and_mem.1 hsorted).imp fun {a b} h => ?_)
    obtain ⟨ha, hb, hle⟩ := h
    rw [hposition a ha, hposition b hb] at hle
    exact Int.ofNat_le.1 hle
  refine Perm.eq_of_pairwise (fun a b ha _ hab hba => ?_) hsortedQueue hqueue
    (perm_selected hids hl)
  have hmem := mem_of_mem_filter ((perm_selected hids hl).mem_iff.1 ha)
  exact (idxOf_inj hmem).1 (hab.antisymm hba)

theorem lowestFirst_eq : s.lowestFirst ids = s.queue.filter (s.isSelected ids) := by
  exact eq_filter_of_sorted hids (perm_insertionSort _ _) (pairwise_insertionSort _ _)

theorem highestFirst_eq : s.highestFirst ids = (s.queue.filter (s.isSelected ids)).reverse := by
  rw [highestFirst, reverse_eq_iff.symm, ← map_reverse]
  exact eq_filter_of_sorted hids ((reverse_perm _).trans (perm_insertionSort _ _))
    (pairwise_reverse.2 (pairwise_insertionSort _ _))

end

theorem filter_bottomMetadata (hq : ∀ torrent, q torrent = true → s.isTorrent torrent = true)
    (queue : List H) : (s.bottomMetadata queue).filter q = queue.filter q := by
  have hnot : ∀ torrent ∈ s.downloadedMetadata, q torrent = false := by
    intro torrent hmem
    refine Bool.eq_false_iff.2 fun h => ?_
    obtain ⟨id, hid⟩ := isTorrent_iff.1 (hq torrent h)
    exact s.downloadedMetadata_notMem torrent hmem id hid
  rw [bottomMetadata]
  generalize s.downloadedMetadata = members at hnot
  induction members generalizing queue with
  | nil => rfl
  | cons torrent members ih =>
    rw [foldl_cons, ih _ fun t ht => hnot t (mem_cons_of_mem torrent ht),
      filter_moveBack (hnot torrent mem_cons_self)]

/-! ### The moves -/

theorem increase_eq (hids : ids.Nodup) :
    s.perform ids .increase = raise (s.isSelected ids) s.queue := by
  rw [perform, increaseTorrentsQueuePos, lowestFirst_eq hids]
  rfl

theorem filter_decrease (hids : ids.Nodup)
    (hq : ∀ torrent, q torrent = true → s.isTorrent torrent = true) :
    (s.perform ids .decrease).filter q = (lower (s.isSelected ids) s.queue).filter q := by
  rw [perform, decreaseTorrentsQueuePos, highestFirst_eq hids, filter_bottomMetadata hq]
  rfl

theorem filter_notMem_selected :
    (s.queue.filter fun torrent => decide (torrent ∉ s.queue.filter (s.isSelected ids))) =
      s.queue.filter fun torrent => !s.isSelected ids torrent := by
  refine filter_congr fun torrent hmem => ?_
  cases h : s.isSelected ids torrent <;> simp [hmem, h]

theorem top_eq (hids : ids.Nodup) :
    s.perform ids .top = s.queue.filter (s.isSelected ids) ++
      s.queue.filter fun torrent => !s.isSelected ids torrent := by
  rw [perform, topTorrentsQueuePos, highestFirst_eq hids,
    foldl_moveFront s.queue_nodup (nodup_reverse.2 (s.queue_nodup.filter _))
      fun x hx => mem_of_mem_filter (mem_reverse.1 hx), reverse_reverse,
    ← filter_notMem_selected]
  simp only [mem_reverse]

theorem filter_bottom (hids : ids.Nodup)
    (hq : ∀ torrent, q torrent = true → s.isTorrent torrent = true) :
    (s.perform ids .bottom).filter q =
      ((s.queue.filter fun torrent => !s.isSelected ids torrent) ++
        s.queue.filter (s.isSelected ids)).filter q := by
  rw [perform, bottomTorrentsQueuePos, lowestFirst_eq hids, filter_bottomMetadata hq,
    foldl_moveBack s.queue_nodup (s.queue_nodup.filter _) fun x hx => mem_of_mem_filter hx,
    filter_notMem_selected]

section

omit [DecidableEq H]

variable {p : H → Bool}

theorem filter_filter_self (h : ∀ torrent, p torrent = true → q torrent = true) (queue : List H) :
    (queue.filter p).filter q = queue.filter p := by
  refine filter_eq_self.2 fun torrent hmem => h torrent (mem_filter.1 hmem).2

theorem filter_filter_eq_nil (h : ∀ torrent, p torrent = true → q torrent = false)
    (queue : List H) : (queue.filter p).filter q = [] := by
  refine filter_eq_nil_iff.2 fun torrent hmem => ?_
  exact Bool.eq_false_iff.1 (h torrent (mem_filter.1 hmem).2)

end

theorem filter_isOther_not_selected :
    (s.queue.filter fun torrent => !s.isSelected ids torrent).filter (s.isOther ids) =
      s.queue.filter (s.isOther ids) := by
  rw [List.filter_filter]
  refine filter_congr fun torrent _ => ?_
  rw [isOther]
  cases s.isTorrent torrent <;> cases s.isSelected ids torrent <;> rfl

theorem filter_isTorrent_not_selected :
    (s.queue.filter fun torrent => !s.isSelected ids torrent).filter s.isTorrent =
      s.queue.filter (s.isOther ids) := by
  rw [List.filter_filter]
  rfl

theorem isTorrent_of_isOther (h : s.isOther ids torrent = true) : s.isTorrent torrent = true :=
  (isOther_iff.1 h).1

theorem isSelected_of_isOther (h : s.isOther ids torrent = true) :
    s.isSelected ids torrent = false := (isOther_iff.1 h).2

theorem not_isOther_of_isSelected (h : s.isSelected ids torrent = true) :
    s.isOther ids torrent = false := by
  rw [isOther, h, Bool.not_true, Bool.and_false]

theorem not_isSelected_of_not (h : (!s.isSelected ids torrent) = true) :
    s.isSelected ids torrent = false := by
  simpa using h

theorem right_top (hids : ids.Nodup) : s.Right ids .top := by
  refine ⟨⟨?_, ?_⟩, ?_⟩
  · rw [top_eq hids, filter_append, filter_filter_self fun _ => id,
      filter_filter_eq_nil fun _ => not_isSelected_of_not, append_nil]
  · rw [top_eq hids, filter_append, filter_filter_eq_nil fun _ => not_isOther_of_isSelected,
      filter_isOther_not_selected, nil_append]
  · show (s.perform ids .top).filter s.isTorrent = _
    rw [top_eq hids, filter_append, filter_filter_self fun _ => isTorrent_of_isSelected,
      filter_isTorrent_not_selected]

theorem right_bottom (hids : ids.Nodup) : s.Right ids .bottom := by
  refine ⟨⟨?_, ?_⟩, ?_⟩
  · rw [filter_bottom hids fun _ => isTorrent_of_isSelected, filter_append,
      filter_filter_self fun _ => id, filter_filter_eq_nil fun _ => not_isSelected_of_not,
      nil_append]
  · rw [filter_bottom hids fun _ => isTorrent_of_isOther, filter_append,
      filter_filter_eq_nil fun _ => not_isOther_of_isSelected, filter_isOther_not_selected,
      append_nil]
  · show (s.perform ids .bottom).filter s.isTorrent = _
    rw [filter_bottom hids fun _ => id, filter_append,
      filter_filter_self fun _ => isTorrent_of_isSelected, filter_isTorrent_not_selected]

theorem right_increase_iff (hids : ids.Nodup) :
    s.Right ids .increase ↔ FrontFree (s.isSelected ids) s.queue := by
  constructor
  · rintro ⟨hkept, -⟩
    by_contra hboth
    obtain ⟨a, b, rest, rest', hab, ha, hb, hqueue, hraise⟩ := raise_swaps s.queue_nodup hboth
    have horder := hkept.selected
    rw [increase_eq hids, hraise, hqueue, filter_cons_of_pos hb, filter_cons_of_pos ha]
      at horder
    exact hab (List.cons.inj horder).1.symm
  · intro hfree
    refine ⟨⟨?_, ?_⟩, fun torrent hselected => ?_⟩
    · rw [increase_eq hids]
      exact (raise_kept s.queue_nodup hfree).1 fun _ => id
    · rw [increase_eq hids]
      exact (raise_kept s.queue_nodup hfree).2.1 fun _ => isSelected_of_isOther
    · rw [increase_eq hids]
      exact (raise_kept s.queue_nodup hfree).2.2 (fun _ => isTorrent_of_isSelected) torrent hselected

theorem right_decrease_iff (hids : ids.Nodup) :
    s.Right ids .decrease ↔ FrontFree (s.isSelected ids) s.queue.reverse := by
  constructor
  · rintro ⟨hkept, -⟩
    by_contra hboth
    obtain ⟨a, b, rest, rest', hab, ha, hb, hqueue, hlower⟩ := lower_swaps s.queue_nodup hboth
    have horder := hkept.selected
    rw [filter_decrease hids fun _ => isTorrent_of_isSelected, hlower, hqueue, filter_append,
      filter_append, filter_cons_of_pos hb, filter_cons_of_pos hb,
      filter_cons_of_pos ha] at horder
    have hlast := congrArg List.getLast? horder
    simp only [filter_nil, List.getLast?_append, List.getLast?_cons, List.getLast?_nil,
      getD_none, getD_some, some_or, some.injEq] at hlast
    exact hab hlast.symm
  · intro hfree
    refine ⟨⟨?_, ?_⟩, fun torrent hselected => ?_⟩
    · rw [filter_decrease hids fun _ => isTorrent_of_isSelected]
      exact (lower_kept s.queue_nodup hfree).1 fun _ => id
    · rw [filter_decrease hids fun _ => isTorrent_of_isOther]
      exact (lower_kept s.queue_nodup hfree).2.1 fun _ => isSelected_of_isOther
    · rw [place, place, filter_decrease hids fun _ => id]
      exact (lower_kept s.queue_nodup hfree).2.2 (fun _ => isTorrent_of_isSelected) torrent hselected

/-- **Moves in the queue.**  Whatever the queue and the selected torrents are, a move keeps the order
among the selected torrents and the order among the others, and takes the selected ones where it
should, exactly when it is unobstructed: always to the top or to the bottom, and one place up or
down unless the two torrents at that end are both selected. -/
theorem moves_right_iff (s : QueuedSession ID H) (ids : List ID) (hids : ids.Nodup) (move : QueueMove) :
    s.Right ids move ↔ s.Unobstructed ids move := by
  cases move with
  | increase => exact right_increase_iff hids
  | decrease => exact right_decrease_iff hids
  | top => exact iff_of_true (right_top hids) trivial
  | bottom => exact iff_of_true (right_bottom hids) trivial

def ofQueue (n : ℕ) : QueuedSession ℕ ℕ where
  torrents := Dict.ofFinset (Finset.range n) id
  queuePosition torrent := if torrent < n then (List.range n).idxOf torrent else -1
  downloadedMetadata := []
  queue := List.range n
  queue_nodup := List.nodup_range
  torrents_injective id id' h hid hid' := by
    simp only [Dict.lookup_ofFinset, Option.ite_none_right_eq_some, Option.some.injEq] at hid hid'
    exact hid.2.trans hid'.2.symm
  queuePosition_eq id h hid := by
    simp only [List.mem_range]
  downloadedMetadata_notMem h hmem := absurd hmem List.not_mem_nil

/-- The third and the fourth torrent of five are moved up. -/
theorem moves_right_iff_block : (ofQueue 5).Right [3, 2] .increase :=
  (moves_right_iff (ofQueue 5) [3, 2] (by decide) .increase).2 (by decide)

/-- Two torrents at the top are moved up: the second one gets in front of the first. -/
theorem first_two_change_places : ¬ (ofQueue 2).Right [0, 1] .increase := by
  rintro ⟨⟨hselected, -⟩, -⟩
  exact absurd hselected (by decide)

end QueuedSession

end QBittorrent
