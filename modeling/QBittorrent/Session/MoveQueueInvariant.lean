import QBittorrent.Session.MoveQueue

/-!
# Who the jobs of the queue of storage moves belong to

* `Core.reload`, `Core.enqueue`, `Core.remove` : it is kept by all operations.
-/

namespace QBittorrent.MoveQueue

open List Dict Option

namespace SessionImpl

variable {s : SessionImpl} {h h' : TorrentHandle} {q : List MoveStorageJob} {job : MoveStorageJob}

/-- The jobs of a torrent, in order. -/
def jobsOf (h : TorrentHandle) (q : List MoveStorageJob) : List MoveStorageJob :=
  q.filter fun job => job.torrentHandle = h

theorem queued_iff : s.Queued h ↔ jobsOf h s.moveStorageQueue ≠ [] := by
  simp [Queued, jobsOf, filter_eq_nil_iff]

theorem jobsOf_append (h : TorrentHandle) (q q' : List MoveStorageJob) :
    jobsOf h (q ++ q') = jobsOf h q ++ jobsOf h q' := filter_append ..

theorem jobsOf_cons_self (job : MoveStorageJob) (q : List MoveStorageJob) :
    jobsOf job.torrentHandle (job :: q) = job :: jobsOf job.torrentHandle q :=
  filter_cons_of_pos (by simp)

theorem jobsOf_cons_of_ne (hne : job.torrentHandle ≠ h) (q : List MoveStorageJob) :
    jobsOf h (job :: q) = jobsOf h q := filter_cons_of_neg (by simpa using hne)

theorem mem_jobsOf : job ∈ jobsOf h q ↔ job ∈ q ∧ job.torrentHandle = h := by
  simp [jobsOf]

theorem jobsOf_eraseP_of_ne (hne : h ≠ h') (q : List MoveStorageJob) :
    jobsOf h (q.eraseP fun job => job.torrentHandle = h') = jobsOf h q := by
  induction q with
  | nil => rfl
  | cons job q ih =>
    by_cases hjob : job.torrentHandle = h'
    · rw [eraseP_cons_of_pos (by simpa using hjob),
        jobsOf_cons_of_ne (fun he => hne (he.symm.trans hjob))]
    · rw [eraseP_cons_of_neg (by simpa using hjob)]
      by_cases hself : job.torrentHandle = h
      · subst hself
        rw [jobsOf_cons_self, jobsOf_cons_self, ih]
      · rw [jobsOf_cons_of_ne hself, jobsOf_cons_of_ne hself, ih]

theorem jobsOf_eraseP_self (hq : (q.map (·.torrentHandle)).Nodup) :
    jobsOf h (q.eraseP fun job => job.torrentHandle = h) = [] := by
  induction q with
  | nil => rfl
  | cons job q ih =>
    rw [map_cons, nodup_cons] at hq
    by_cases hjob : job.torrentHandle = h
    · rw [eraseP_cons_of_pos (by simpa using hjob)]
      refine filter_eq_nil_iff.2 fun job' hjob' he => hq.1 ?_
      rw [hjob, ← of_decide_eq_true he]
      exact mem_map_of_mem hjob'
    · rw [eraseP_cons_of_neg (by simpa using hjob), jobsOf_cons_of_ne hjob, ih hq.2]

theorem jobsOf_withoutInactive_of_ne (hne : h ≠ h') (q : List MoveStorageJob) :
    jobsOf h (withoutInactive h' q) = jobsOf h q := by
  cases q with
  | nil => rfl
  | cons job q =>
    rw [withoutInactive]
    by_cases hself : job.torrentHandle = h
    · subst hself
      rw [jobsOf_cons_self, jobsOf_cons_self, jobsOf_eraseP_of_ne hne]
    · rw [jobsOf_cons_of_ne hself, jobsOf_cons_of_ne hself, jobsOf_eraseP_of_ne hne]

theorem jobsOf_withoutInactive_self (hq : (q.tail.map (·.torrentHandle)).Nodup) :
    jobsOf h (withoutInactive h q) = (q.head?.filter fun job => job.torrentHandle = h).toList := by
  cases q with
  | nil => rfl
  | cons job q =>
    have herase : jobsOf h (q.eraseP fun job => job.torrentHandle = h) = [] :=
      jobsOf_eraseP_self hq
    rw [withoutInactive, List.head?_cons]
    by_cases hself : job.torrentHandle = h
    · subst hself
      rw [jobsOf_cons_self, herase, filter_some, if_pos (by simp)]
      rfl
    · rw [jobsOf_cons_of_ne hself, herase, filter_some, if_neg (by simpa using hself)]
      rfl

theorem head?_withoutInactive (h : TorrentHandle) (q : List MoveStorageJob) :
    (withoutInactive h q).head? = q.head? := by
  cases q <;> rfl

theorem tail_withoutInactive (h : TorrentHandle) (q : List MoveStorageJob) :
    (withoutInactive h q).tail = q.tail.eraseP fun job => job.torrentHandle = h := by
  cases q <;> rfl

theorem withoutInactive_subset (h : TorrentHandle) (q : List MoveStorageJob) :
    withoutInactive h q ⊆ q := by
  cases q with
  | nil => exact Subset.refl _
  | cons job q =>
    exact cons_subset_cons _ (eraseP_sublist.subset)

end SessionImpl

/-! ### The core -/

open SessionImpl

def Live (s : SessionImpl) (h : TorrentHandle) : Prop :=
  ∃ t, s.torrents.lookup h.infoHash = some t ∧ t.nativeHandle = h

/-- Who the torrents of libtorrent, the jobs and the removals belong to. -/
structure Core (s : SessionImpl) : Prop where
  live : ∀ id t, s.torrents.lookup id = some t →
    t.nativeHandle.infoHash = id ∧ t.nativeHandle ∈ s.native
  bounded : ∀ h ∈ s.native, h.index < s.nextIndex
  unique : ∀ h ∈ s.native, ∀ h' ∈ s.native, h.infoHash = h'.infoHash → h = h'
  removedBounded : ∀ r ∈ s.removed, r.1.index < s.nextIndex
  removedOnce : (s.removed.map Prod.fst).Nodup
  removedGone : ∀ r ∈ s.removed, ¬Live s r.1
  single : (s.moveStorageQueue.tail.map (·.torrentHandle)).Nodup
  owned : ∀ job ∈ s.moveStorageQueue,
    Live s job.torrentHandle ∨ ∃ option, (job.torrentHandle, option) ∈ s.removed
  behind : ∀ job ∈ s.moveStorageQueue.tail, (job.torrentHandle, .removeContent) ∉ s.removed
  waiting : ∀ h, (h, .keepContent) ∈ s.removed → s.Queued h →
    h ∈ s.native ∧ s.removingTorrents.lookup h.infoHash ≠ some .removeContent
  takenOnce : ∀ r ∈ s.removed,
    s.removals.count r.1 = if r.2 = .keepContent ∧ s.Queued r.1 then 0 else 1
  takenOnly : ∀ h ∈ s.removals, ∃ option, (h, option) ∈ s.removed
  issued : s.moving = (s.activeJob.map (·.torrentHandle)).toList

namespace Core

variable {s : SessionImpl} {id : Digest} {t t' : TorrentImpl} {h : TorrentHandle}
  {job : MoveStorageJob}

section

variable (hs : Core s)

include hs

theorem live_handle (ht : s.torrents.lookup id = some t) : Live s t.nativeHandle :=
  ⟨t, by rw [(hs.live id t ht).1]; exact ht, rfl⟩

theorem mem_native (hl : Live s h) : h ∈ s.native := by
  obtain ⟨t, ht, rfl⟩ := hl
  exact (hs.live _ t ht).2

theorem not_removed (hl : Live s h) (option : TorrentRemoveOption) :
    (h, option) ∉ s.removed := fun hr => hs.removedGone _ hr hl

theorem option_unique {o o' : TorrentRemoveOption} (ho : (h, o) ∈ s.removed)
    (ho' : (h, o') ∈ s.removed) : o = o' := by
  have := inj_on_of_nodup_map hs.removedOnce ho ho' rfl
  exact (Prod.mk.inj this).2

theorem not_mem_of_waiting (hr : (h, .keepContent) ∈ s.removed) (hq : s.Queued h) :
    h.infoHash ∉ s.torrents := by
  intro hmem
  obtain ⟨t, ht⟩ := isSome_iff_exists.1 (Finmap.lookup_isSome.2 hmem)
  obtain ⟨hhash, hnative⟩ := hs.live _ t ht
  have : t.nativeHandle = h := hs.unique _ hnative _ (hs.waiting h hr hq).1 hhash
  exact hs.removedGone _ hr ⟨t, ht, this⟩

theorem job_bounded (hjob : job ∈ s.moveStorageQueue) : job.torrentHandle.index < s.nextIndex := by
  obtain hl | ⟨option, hr⟩ := hs.owned job hjob
  · exact hs.bounded _ (hs.mem_native hl)
  · exact hs.removedBounded _ hr

theorem not_queued_new (id : Digest) : jobsOf ⟨s.nextIndex, id⟩ s.moveStorageQueue = [] := by
  refine filter_eq_nil_iff.2 fun job hjob he => ?_
  have := hs.job_bounded hjob
  rw [of_decide_eq_true he] at this
  exact absurd this (Nat.lt_irrefl _)

end

/-! ### Changes of torrents -/

theorem live_withTorrent (ht : s.torrents.lookup id = some t)
    (hh : t'.nativeHandle = t.nativeHandle) :
    Live (s.withTorrent id t') h ↔ Live s h := by
  simp only [Live, withTorrent, lookup_insert_eq]
  by_cases hid : h.infoHash = id
  · subst hid
    rw [if_pos rfl, ht]
    simp [hh]
  · rw [if_neg hid]

theorem withTorrent (hs : Core s) (ht : s.torrents.lookup id = some t)
    (hh : t'.nativeHandle = t.nativeHandle) : Core (s.withTorrent id t') := { hs with
  live id' t'' ht'' := by
    simp only [SessionImpl.withTorrent, lookup_insert_eq] at ht''
    split_ifs at ht'' with hid
    · cases ht''
      rw [hh, hid]
      exact hs.live id t ht
    · exact hs.live id' t'' ht''
  removedGone r hr hl := hs.removedGone r hr ((live_withTorrent ht hh).1 hl)
  owned job hjob := (hs.owned job hjob).imp (live_withTorrent ht hh).2 fun hr => hr }

theorem reload (hs : Core s) (ht : s.torrents.lookup id = some t)
    (hh : t'.nativeHandle = t.nativeHandle) (hq : ¬s.Queued t.nativeHandle) :
    Core (s.reload id t') := by
  obtain ⟨hhash, hnative⟩ := hs.live id t ht
  have hlive : ∀ h, Live (s.reload id t') h ↔
      h = ⟨s.nextIndex, id⟩ ∨ (Live s h ∧ h.infoHash ≠ id) := by
    intro h
    simp only [Live, SessionImpl.reload, SessionImpl.withTorrent, lookup_insert_eq, takeOut]
    by_cases hid : h.infoHash = id
    · simp only [hid, if_true, some.injEq, ne_eq, not_true, and_false, or_false]
      exact ⟨fun ⟨_, he, hn⟩ => by rw [← hn, ← he], fun he => ⟨_, rfl, he.symm⟩⟩
    · simp only [hid, if_false, ne_eq, not_false_eq_true, and_true]
      exact ⟨.inr, fun hor => hor.resolve_left fun he => hid (by rw [he])⟩
  have hkeep : ∀ h, Live s h → h ≠ t.nativeHandle → h.infoHash ≠ id := fun h hl hne hid =>
    hne (hs.unique _ (hs.mem_native hl) _ hnative (hid.trans hhash.symm))
  have hmem : ∀ h, h ∈ (s.reload id t').native ↔
      h = ⟨s.nextIndex, id⟩ ∨ (h ≠ t.nativeHandle ∧ h ∈ s.native) := by
    intro h
    simp [SessionImpl.reload, takeOut, SessionImpl.withTorrent, hh]
  refine
    { hs with
      live := fun id' t'' ht'' => ?_
      bounded := fun h hmem' => ?_
      unique := fun h hmem₁ h' hmem₂ hhash' => ?_
      removedBounded := fun r hr => Nat.lt_succ_of_lt (hs.removedBounded r hr)
      removedGone := fun r hr hl => ?_
      owned := fun job hjob => ?_
      waiting := fun h hr hq' => ?_ }
  · rw [hmem]
    simp only [SessionImpl.reload, SessionImpl.withTorrent, lookup_insert_eq, takeOut] at ht''
    split_ifs at ht'' with hid
    · cases ht''
      exact ⟨hid.symm, .inl rfl⟩
    · obtain ⟨hhash'', hnative''⟩ := hs.live id' t'' ht''
      refine ⟨hhash'', .inr ⟨fun he => hid ?_, hnative''⟩⟩
      rw [← hhash'', he, hhash]
  · obtain rfl | ⟨-, hmem'⟩ := (hmem h).1 hmem'
    · exact Nat.lt_succ_self _
    · exact Nat.lt_succ_of_lt (hs.bounded h hmem')
  · obtain rfl | ⟨hne₁, hmem₁⟩ := (hmem h).1 hmem₁ <;>
      obtain rfl | ⟨hne₂, hmem₂⟩ := (hmem h').1 hmem₂
    · rfl
    · exact absurd (hs.unique _ hmem₂ _ hnative (hhash'.symm.trans hhash.symm)) hne₂
    · exact absurd (hs.unique _ hmem₁ _ hnative (hhash'.trans hhash.symm)) hne₁
    · exact hs.unique _ hmem₁ _ hmem₂ hhash'
  · obtain he | ⟨hl, -⟩ := (hlive r.1).1 hl
    · have hlt := hs.removedBounded r hr
      rw [he] at hlt
      exact Nat.lt_irrefl _ hlt
    · exact hs.removedGone r hr hl
  · refine (hs.owned job hjob).imp (fun hl => ?_) fun hr => hr
    exact (hlive _).2 (.inr ⟨hl, hkeep _ hl fun he => hq ⟨job, hjob, he⟩⟩)
  · obtain ⟨hnative', hoption⟩ := hs.waiting h hr hq'
    refine ⟨(hmem h).2 (.inr ⟨fun he => ?_, hnative'⟩), hoption⟩
    exact hs.removedGone _ hr (he ▸ hs.live_handle ht)

theorem addTorrent (hs : Core s) (hid : id ∉ s.torrents) (hnew : ∀ h ∈ s.native, h.infoHash ≠ id)
    (hasMetadata : Bool) (location savePath downloadPath : String) :
    Core (s.addTorrent id hasMetadata location savePath downloadPath) := by
  have hlive : ∀ h, Live (s.addTorrent id hasMetadata location savePath downloadPath) h ↔
      h = ⟨s.nextIndex, id⟩ ∨ Live s h := by
    intro h
    simp only [Live, SessionImpl.addTorrent, SessionImpl.withTorrent, lookup_insert_eq]
    by_cases he : h.infoHash = id
    · have hnone : s.torrents.lookup h.infoHash = none := by
        rw [he, ← not_isSome_iff_eq_none, ← mem_iff_isSome]
        exact hid
      simp only [if_pos he, hnone, some.injEq]
      exact ⟨fun ⟨_, he, hn⟩ => .inl (by rw [← hn, ← he]),
        fun hor => hor.elim (fun he => ⟨_, rfl, he.symm⟩) (by simp)⟩
    · simp only [he, if_false]
      exact ⟨.inr, fun hor => hor.resolve_left fun he' => he (by rw [he'])⟩
  have hmem : ∀ h, h ∈ (s.addTorrent id hasMetadata location savePath downloadPath).native ↔
      h = ⟨s.nextIndex, id⟩ ∨ h ∈ s.native := by
    intro h
    simp [SessionImpl.addTorrent, SessionImpl.withTorrent]
  refine
    { hs with
      live := fun id' t' ht' => ?_
      bounded := fun h hmem' => ?_
      unique := fun h hmem₁ h' hmem₂ hhash => ?_
      removedBounded := fun r hr => Nat.lt_succ_of_lt (hs.removedBounded r hr)
      removedGone := fun r hr hl => ?_
      owned := fun job hjob => (hs.owned job hjob).imp (fun hl => (hlive _).2 (.inr hl)) fun hr => hr
      waiting := fun h hr hq =>
        ⟨(hmem h).2 (.inr (hs.waiting h hr hq).1), (hs.waiting h hr hq).2⟩ }
  · rw [hmem]
    simp only [SessionImpl.addTorrent, SessionImpl.withTorrent, lookup_insert_eq] at ht'
    split_ifs at ht' with he
    · cases ht'
      exact ⟨he.symm, .inl rfl⟩
    · exact ⟨(hs.live id' t' ht').1, .inr (hs.live id' t' ht').2⟩
  · obtain rfl | hmem' := (hmem h).1 hmem'
    · exact Nat.lt_succ_self _
    · exact Nat.lt_succ_of_lt (hs.bounded h hmem')
  · obtain rfl | hmem₁ := (hmem h).1 hmem₁ <;> obtain rfl | hmem₂ := (hmem h').1 hmem₂
    · rfl
    · exact absurd hhash.symm (hnew _ hmem₂)
    · exact absurd hhash (hnew _ hmem₁)
    · exact hs.unique _ hmem₁ _ hmem₂ hhash
  · obtain he | hl := (hlive r.1).1 hl
    · have hlt := hs.removedBounded r hr
      rw [he] at hlt
      exact Nat.lt_irrefl _ hlt
    · exact hs.removedGone r hr hl

/-! ### Changes of the queue -/

section

variable (hs : Core s) {head : MoveStorageJob} {rest : List MoveStorageJob}

include hs

theorem requeue {q : List MoveStorageJob} {moving : List TorrentHandle} (allMoved : Bool)
    (hsingle : (q.tail.map (·.torrentHandle)).Nodup)
    (howned : ∀ job ∈ q, Live s job.torrentHandle ∨ ∃ option, (job.torrentHandle, option) ∈ s.removed)
    (hbehind : ∀ job ∈ q.tail, (job.torrentHandle, .removeContent) ∉ s.removed)
    (hqueued : ∀ h, (h, .keepContent) ∈ s.removed → (jobsOf h q ≠ [] ↔ s.Queued h))
    (hissued : moving = (q.head?.map (·.torrentHandle)).toList) :
    Core { s with moveStorageQueue := q, moving := moving, allMoved := allMoved } := { hs with
  single := hsingle
  owned := howned
  behind := hbehind
  waiting h hr hq := hs.waiting h hr ((hqueued h hr).1 (queued_iff.1 hq))
  takenOnce := by
    rintro ⟨h, option⟩ hr
    rw [hs.takenOnce _ hr]
    refine if_congr (and_congr_right ?_) rfl rfl
    rintro rfl
    rw [← hqueued h hr, queued_iff]
  issued := hissued }

theorem mem_native_of_behind (hjob : job ∈ s.moveStorageQueue.tail) :
    job.torrentHandle ∈ s.native := by
  have hmem := mem_of_mem_tail hjob
  obtain hl | ⟨option, hr⟩ := hs.owned job hmem
  · exact hs.mem_native hl
  · cases option with
    | keepContent => exact (hs.waiting _ hr ⟨job, hmem, rfl⟩).1
    | removeContent => exact absurd hr (hs.behind job hjob)

theorem pop (hq : s.moveStorageQueue = head :: rest) (allMoved : Bool)
    (hkeep : (head.torrentHandle, .keepContent) ∈ s.removed →
      jobsOf head.torrentHandle rest ≠ []) :
    Core { s with
      moveStorageQueue := rest
      moving := (rest.head?.map (·.torrentHandle)).toList
      allMoved := allMoved } := by
  have hsub : rest ⊆ s.moveStorageQueue := by
    rw [hq]
    exact subset_cons_self _ _
  have htail : s.moveStorageQueue.tail = rest := by rw [hq]; rfl
  refine hs.requeue allMoved ?_ (fun job hjob => hs.owned job (hsub hjob)) ?_ ?_ rfl
  · have hsingle := hs.single
    rw [htail] at hsingle
    exact hsingle.sublist ((tail_sublist rest).map _)
  · intro job hjob
    exact hs.behind job (by rw [htail]; exact mem_of_mem_tail hjob)
  · intro h hr
    rw [queued_iff, hq]
    by_cases hne : head.torrentHandle = h
    · subst hne
      rw [jobsOf_cons_self]
      exact iff_of_true (hkeep hr) (cons_ne_nil _ _)
    · rw [jobsOf_cons_of_ne hne]

theorem release (hq : s.moveStorageQueue = head :: rest) (allMoved : Bool)
    (hr : (head.torrentHandle, .keepContent) ∈ s.removed)
    (hlast : jobsOf head.torrentHandle rest = []) :
    Core (({ s with
      moveStorageQueue := rest
      moving := (rest.head?.map (·.torrentHandle)).toList
      allMoved := allMoved
      removingTorrents := s.removingTorrents.insert head.torrentHandle.infoHash .keepContent } :
        SessionImpl).removeNative head.torrentHandle) := by
  have hsub : rest ⊆ s.moveStorageQueue := by
    rw [hq]
    exact subset_cons_self _ _
  have htail : s.moveStorageQueue.tail = rest := by rw [hq]; rfl
  have hqueued : s.Queued head.torrentHandle :=
    ⟨head, by rw [hq]; exact mem_cons_self, rfl⟩
  have hgone := hs.removedGone _ hr
  have hjobs : ∀ h ≠ head.torrentHandle, (jobsOf h rest ≠ [] ↔ s.Queued h) := by
    intro h hne
    rw [queued_iff, hq, jobsOf_cons_of_ne hne.symm]
  exact
    { hs with
      live := fun id t ht => ⟨(hs.live id t ht).1, Finset.mem_erase.2
        ⟨fun he => hgone (he ▸ hs.live_handle ht), (hs.live id t ht).2⟩⟩
      bounded := fun h hh => hs.bounded h (Finset.mem_of_mem_erase hh)
      unique := fun h hh h' hh' =>
        hs.unique h (Finset.mem_of_mem_erase hh) h' (Finset.mem_of_mem_erase hh')
      single := by
        have hsingle := hs.single
        rw [htail] at hsingle
        exact hsingle.sublist ((tail_sublist rest).map _)
      owned := fun job hjob => hs.owned job (hsub hjob)
      behind := fun job hjob =>
        hs.behind job (by rw [htail]; exact mem_of_mem_tail hjob)
      waiting := by
        intro h hr' hq'
        have hne : h ≠ head.torrentHandle := by
          rintro rfl
          exact queued_iff.1 hq' hlast
        obtain ⟨hin', hoption⟩ := hs.waiting h hr' ((hjobs h hne).1 (queued_iff.1 hq'))
        refine ⟨Finset.mem_erase.2 ⟨hne, hin'⟩, ?_⟩
        simp only [removeNative, takeOut, lookup_insert_eq]
        split_ifs
        · simp
        · exact hoption
      takenOnce := by
        rintro ⟨h, option⟩ hr'
        simp only [removeNative, takeOut, count_append]
        have hold := hs.takenOnce _ hr'
        by_cases hne : h = head.torrentHandle
        · subst hne
          rw [hs.option_unique hr' hr] at hold ⊢
          rw [if_pos ⟨rfl, hqueued⟩] at hold
          rw [hold, count_singleton_self, if_neg]
          exact fun hk => queued_iff.1 hk.2 hlast
        · have hzero : [head.torrentHandle].count h = 0 := count_eq_zero.2 (by simpa using hne)
          rw [hzero, Nat.add_zero, hold]
          refine if_congr (and_congr_right fun _ => ?_) rfl rfl
          rw [← hjobs h hne, queued_iff]
      takenOnly := fun h hh => by
        obtain hh | hh := mem_append.1 hh
        · exact hs.takenOnly h hh
        · rw [mem_singleton.1 hh]
          exact ⟨_, hr⟩
      issued := rfl }

theorem withoutInactive (hl : Live s h) :
    Core { s with moveStorageQueue := withoutInactive h s.moveStorageQueue } := by
  refine hs.requeue s.allMoved ?_ ?_ ?_ ?_ ?_
  · rw [tail_withoutInactive]
    exact hs.single.sublist (eraseP_sublist.map _)
  · exact fun job hjob => hs.owned job (withoutInactive_subset _ _ hjob)
  · intro job hjob
    rw [tail_withoutInactive] at hjob
    exact hs.behind job (eraseP_sublist.subset hjob)
  · intro h' hr
    have hne : h' ≠ h := fun he => hs.removedGone _ hr (he ▸ hl)
    rw [jobsOf_withoutInactive_of_ne hne, queued_iff]
  · rw [head?_withoutInactive]
    exact hs.issued

theorem enqueue (hl : Live s job.torrentHandle)
    (hq : jobsOf job.torrentHandle s.moveStorageQueue.tail = []) : Core (s.enqueue job) := by
  have hqueued : ∀ h, (h, .keepContent) ∈ s.removed →
      (jobsOf h (s.moveStorageQueue ++ [job]) ≠ [] ↔ s.Queued h) := by
    intro h hr
    have hne : job.torrentHandle ≠ h := fun he => hs.removedGone _ hr (he ▸ hl)
    rw [jobsOf_append, jobsOf_cons_of_ne hne, queued_iff]
    simp [jobsOf]
  have howned : ∀ job' ∈ s.moveStorageQueue ++ [job], Live s job'.torrentHandle ∨
      ∃ option, (job'.torrentHandle, option) ∈ s.removed := by
    intro job' hjob'
    obtain hjob' | hjob' := mem_append.1 hjob'
    · exact hs.owned job' hjob'
    · rw [mem_singleton.1 hjob']
      exact .inl hl
  rw [SessionImpl.enqueue]
  cases hqs : s.moveStorageQueue with
  | nil =>
    rw [if_pos rfl, moveTorrentStorage, if_pos (hs.mem_native hl)]
    rw [hqs] at hqueued howned
    have hissued := hs.issued
    rw [activeJob, hqs] at hissued
    exact hs.requeue s.allMoved nodup_nil howned (by simp) hqueued (by simp [hissued])
  | cons head rest =>
    rw [hqs] at hqueued howned hq
    have hsingle := hs.single
    have hbehind := hs.behind
    have hissued := hs.issued
    rw [activeJob] at hissued
    rw [hqs] at hsingle hbehind hissued
    refine hs.requeue s.allMoved ?_ howned ?_ hqueued hissued
    · rw [cons_append, tail_cons, map_append]
      refine Nodup.append hsingle (nodup_singleton _) fun h hmem hmem' => ?_
      obtain ⟨job', hjob', rfl⟩ := mem_map.1 hmem
      rw [map_singleton, mem_singleton] at hmem'
      exact (ne_nil_of_mem (mem_jobsOf.2 ⟨hjob', hmem'⟩)) hq
    · intro job' hjob'
      obtain hjob' | hjob' := mem_append.1 hjob'
      · exact hbehind job' hjob'
      · rw [mem_singleton.1 hjob']
        exact hs.not_removed hl _

end

/-! ### Removals -/

theorem remove (hs : Core s) (ht : s.torrents.lookup id = some t) {option : TorrentRemoveOption}
    {native : Finset TorrentHandle} {removals : List TorrentHandle} (deletions : List Digest)
    (hnative : native = if option = .keepContent ∧ s.Queued t.nativeHandle then s.native
      else s.native.erase t.nativeHandle)
    (hremovals : removals = if option = .keepContent ∧ s.Queued t.nativeHandle then s.removals
      else s.removals ++ [t.nativeHandle])
    (htail : option = .removeContent → jobsOf t.nativeHandle s.moveStorageQueue.tail = []) :
    Core { s with
      torrents := s.torrents.erase id
      removingTorrents := s.removingTorrents.insert id option
      removed := s.removed ++ [(t.nativeHandle, option)]
      native := native
      deletions := deletions
      removals := removals } := by
  obtain ⟨hhash, hin⟩ := hs.live id t ht
  have hl := hs.live_handle ht
  have hold : ∀ r ∈ s.removed, r.1 ≠ t.nativeHandle := fun r hr he =>
    hs.removedGone r hr (he ▸ hl)
  have hsub : native ⊆ s.native := by
    rw [hnative]
    split_ifs
    · exact Finset.Subset.refl _
    · exact Finset.erase_subset _ _
  have hmem : ∀ h ∈ s.native, h ≠ t.nativeHandle → h ∈ native := by
    intro h hh hne
    rw [hnative]
    split_ifs
    · exact hh
    · exact Finset.mem_erase.2 ⟨hne, hh⟩
  have hlive : ∀ h, (∃ t', (s.torrents.erase id).lookup h.infoHash = some t' ∧
      t'.nativeHandle = h) ↔ Live s h ∧ h.infoHash ≠ id := by
    intro h
    rw [lookup_erase_eq]
    by_cases hid : h.infoHash = id
    · simp [hid]
    · simp [hid, Live]
  refine
    { hs with
      live := fun id' t' ht' => ?_
      bounded := fun h hh => hs.bounded h (hsub hh)
      unique := fun h hh h' hh' => hs.unique h (hsub hh) h' (hsub hh')
      removedBounded := fun r hr => ?_
      removedOnce := ?_
      removedGone := fun r hr hl' => ?_
      owned := fun job hjob => ?_
      behind := fun job hjob hr => ?_
      waiting := fun h hr hq => ?_
      takenOnce := fun r hr => ?_
      takenOnly := fun h hh => ?_ }
  · simp only [lookup_erase_eq] at ht'
    split_ifs at ht' with hid
    obtain ⟨hhash', hin'⟩ := hs.live id' t' ht'
    exact ⟨hhash', hmem _ hin' fun he => hid (by rw [← hhash', he, hhash])⟩
  · obtain hr | hr := mem_append.1 hr
    · exact hs.removedBounded r hr
    · rw [mem_singleton.1 hr]
      exact hs.bounded _ hin
  · rw [map_append]
    refine Nodup.append hs.removedOnce (nodup_singleton _) fun h hh hh' => ?_
    obtain ⟨r, hr, rfl⟩ := mem_map.1 hh
    exact hold r hr (mem_singleton.1 hh')
  · obtain ⟨hl', hid⟩ := (hlive r.1).1 hl'
    obtain hr | hr := mem_append.1 hr
    · exact hs.removedGone r hr hl'
    · rw [mem_singleton.1 hr] at hid
      exact hid hhash
  · by_cases hid : job.torrentHandle.infoHash = id
    · obtain hl' | ⟨option', hr⟩ := hs.owned job hjob
      · refine .inr ⟨option, mem_append_right _ ?_⟩
        rw [mem_singleton, hs.unique _ (hs.mem_native hl') _ hin (hid.trans hhash.symm)]
      · exact .inr ⟨option', mem_append_left _ hr⟩
    · obtain hl' | ⟨option', hr⟩ := hs.owned job hjob
      · exact .inl ((hlive _).2 ⟨hl', hid⟩)
      · exact .inr ⟨option', mem_append_left _ hr⟩
  · obtain hr | hr := mem_append.1 hr
    · exact hs.behind job hjob hr
    · obtain ⟨he, ho⟩ := Prod.mk.inj (mem_singleton.1 hr)
      exact ne_nil_of_mem (mem_jobsOf.2 ⟨hjob, he⟩) (htail ho.symm)
  · obtain hr | hr := mem_append.1 hr
    · obtain ⟨hin', hoption⟩ := hs.waiting h hr hq
      refine ⟨hmem _ hin' (hold _ hr), ?_⟩
      have hid : h.infoHash ≠ id := fun he => hs.not_mem_of_waiting hr hq
        (by rw [he, mem_iff_isSome, ht]; rfl)
      rwa [lookup_insert_eq, if_neg hid]
    · obtain ⟨rfl, rfl⟩ := Prod.mk.inj (mem_singleton.1 hr)
      refine ⟨?_, ?_⟩
      · rw [hnative, if_pos ⟨rfl, hq⟩]
        exact hin
      · rw [lookup_insert_eq, if_pos hhash]
        simp
  · obtain hr | hr := mem_append.1 hr
    · have hcount : removals.count r.1 = s.removals.count r.1 := by
        rw [hremovals]
        split_ifs
        · rfl
        · rw [count_append, count_singleton, if_neg, Nat.add_zero]
          simpa using (hold r hr).symm
      exact hcount.trans (hs.takenOnce r hr)
    · rw [mem_singleton.1 hr]
      have hnone : s.removals.count t.nativeHandle = 0 := count_eq_zero.2 fun hh => by
        obtain ⟨option', hr'⟩ := hs.takenOnly _ hh
        exact hold _ hr' rfl
      simp only [hremovals]
      by_cases hk : option = .keepContent ∧ s.Queued t.nativeHandle
      · rw [if_pos hk, hnone]
        exact (if_pos hk).symm
      · rw [if_neg hk, count_append, hnone, count_singleton_self]
        exact (if_neg hk).symm
  · simp only [hremovals] at hh
    have hh' : h ∈ s.removals ∨ h = t.nativeHandle := by
      split_ifs at hh
      · exact .inl hh
      · simpa using hh
    obtain hh' | rfl := hh'
    · obtain ⟨option', hr⟩ := hs.takenOnly h hh'
      exact ⟨option', mem_append_left _ hr⟩
    · exact ⟨option, mem_append_right _ (mem_singleton_self _)⟩

theorem removeTorrent (hs : Core s) (id : Digest) (deleteOption : TorrentRemoveOption) :
    Core (s.removeTorrent id deleteOption) := by
  rw [SessionImpl.removeTorrent]
  cases ht : s.torrents.lookup id with
  | none => exact hs
  | some t =>
    cases deleteOption with
    | keepContent =>
      dsimp only
      split_ifs with hq
      · have hk : TorrentRemoveOption.keepContent = .keepContent ∧ s.Queued t.nativeHandle :=
          ⟨rfl, hq⟩
        exact hs.remove ht s.deletions (if_pos hk).symm (if_pos hk).symm nofun
      · have hk : ¬(TorrentRemoveOption.keepContent = .keepContent ∧ s.Queued t.nativeHandle) :=
          fun hk => hq hk.2
        exact hs.remove ht _ (if_neg hk).symm (if_neg hk).symm nofun
    | removeContent =>
      have hs' := hs.withoutInactive (hs.live_handle ht)
      refine hs'.remove ht _ (if_neg fun hk => nomatch hk.1).symm
        (if_neg fun hk => nomatch hk.1).symm fun _ => ?_
      rw [tail_withoutInactive]
      exact jobsOf_eraseP_self hs.single

theorem handleRemovedTorrent (hs : Core s) (id : Digest) : Core (s.handleRemovedTorrent id) :=
  { hs with
    waiting h hr hq := by
      obtain ⟨hin, hoption⟩ := hs.waiting h hr hq
      refine ⟨hin, ?_⟩
      simp only [SessionImpl.handleRemovedTorrent, lookup_erase_eq]
      split_ifs
      · simp
      · exact hoption }

/-! ### Finished jobs -/

theorem finishJob (hs : Core s) (ht : s.torrents.lookup id = some t) (path : String)
    (context : MoveStorageContext) {hasOutstandingJob : Bool}
    (hq : hasOutstandingJob = false → t.hasMissingFiles = true → ¬s.Queued t.nativeHandle) :
    Core (s.finishJob id t path context hasOutstandingJob) := by
  rw [SessionImpl.finishJob]
  split_ifs with hif
  · exact hs.reload ht rfl (hq hif.1 hif.2)
  · exact hs.withTorrent ht rfl

end Core

end QBittorrent.MoveQueue
