import QBittorrent.Gui.CategorySignals

/-!
# Runs of the filter of categories

The session emits the signals of a request one after the other, with its categories and torrents at
that moment.

* `addCategory_follows` : the signals of one request;
* `mirrors_of_orderly` : the tree mirrors the session in every orderly run.
-/

namespace QBittorrent.CategoryFilter

open List CategoryFilter.Session Option Machine

variable {ι : Type} [DecidableEq ι]

section requests

variable {s : Session ι} {announced : List String} {m : CategoryFilterModel}
  {es es' : List (Emission ι)} {name : String}

/-- The invariant holds after each signal of a list. -/
def Follows (announced : List String) (m : CategoryFilterModel) (es : List (Emission ι)) : Prop :=
  ∀ x ∈ snapshots announced m es, Inv x.session x.announced x.model

/-- The model after some signals. -/
def played (m : CategoryFilterModel) (es : List (Emission ι)) : CategoryFilterModel :=
  es.foldl (fun m e => m.handle e) m

/-- The categories announced as removed after some signals. -/
def announcedAfter (announced : List String) (es : List (Emission ι)) : List String :=
  es.foldl (fun announced e => announce announced e.2) announced

section

omit [DecidableEq ι]

theorem lastSession_cons (e : Emission ι) :
    lastSession s (e :: es) = lastSession e.1 es := by
  cases es with
  | nil => rfl
  | cons e' es => simp [lastSession, List.getLast?_cons]

theorem lastSession_append : lastSession s (es ++ es') = lastSession (lastSession s es) es' := by
  induction es generalizing s with
  | nil => rfl
  | cons e es ih => rw [cons_append, lastSession_cons, lastSession_cons, ih]

end

theorem snapshots_append : snapshots announced m (es ++ es') = snapshots announced m es ++
    snapshots (announcedAfter announced es) (played m es) es' := by
  induction es generalizing announced m with
  | nil => rfl
  | cons e es ih =>
    rw [cons_append, snapshots, snapshots, ih]
    rfl

namespace Follows

theorem nil : Follows announced m ([] : List (Emission ι)) := fun _ h => by cases h

theorem append (h : Follows announced m es)
    (h' : Follows (announcedAfter announced es) (played m es) es') :
    Follows announced m (es ++ es') := by
  intro x hx
  rw [snapshots_append, mem_append] at hx
  exact hx.elim (h x) (h' x)

theorem cons {e : Emission ι} (h : Inv e.1 (announce announced e.2) (m.handle e))
    (h' : Follows (announce announced e.2) (m.handle e) es) : Follows announced m (e :: es) := by
  intro x hx
  rcases mem_cons.1 hx with rfl | hx
  · exact h
  · exact h' x hx

theorem last (h : Follows announced m es) (hs : Inv s announced m) :
    Inv (lastSession s es) (announcedAfter announced es) (played m es) := by
  induction es generalizing s announced m with
  | nil => exact hs
  | cons e es ih =>
    rw [lastSession_cons]
    exact ih (fun x hx => h x (mem_cons_of_mem _ hx)) (h _ (mem_cons_self ..))

end Follows

/-- The name does not start with a separator. -/
def Proper (category : String) : Prop := (itemPath true category).head? ≠ some UID_UNCATEGORIZED

variable {c p : String} {subs : Bool}

theorem Proper.ne_empty (h : Proper c) : c ≠ "" := by
  rintro rfl
  exact h (by decide)

theorem head?_itemPath_of_mem (h : p ∈ expandCategory c) :
    (itemPath true p).head? = (itemPath true c).head? := by
  obtain ⟨t, ht⟩ := mem_expandCategory_iff.1 h
  rw [← ht, List.head?_append_of_ne_nil _ itemPath_ne_nil]

theorem Proper.of_mem (h : Proper c) (hp : p ∈ expandCategory c) : Proper p := by
  rw [Proper, head?_itemPath_of_mem hp]
  exact h

theorem proper_of_valid (hc : c ≠ "") (hvalid : isValidCategoryName c = true) : Proper c := by
  intro hhead
  have hpath : itemPath true "" = [UID_UNCATEGORIZED] := by decide
  have hpre : itemPath true "" <+: itemPath true c := hpath ▸ singleton_prefix_iff_head?_eq_some.2 hhead
  have hbelow := itemPath_prefix_iff.1 hpre
  rw [belongsToCategory, if_neg hc, Bool.true_and, Bool.or_eq_true, decide_eq_true_iff,
    or_iff_right hc, isBelow_iff] at hbelow
  obtain ⟨t, ht⟩ := hbelow
  rw [isValidCategoryName, ← ht] at hvalid
  simp [hc] at hvalid

theorem free_of_proper (h : Proper c) (hall : (itemPath subs c).head? ≠ some UID_ALL) :
    Free subs c := by
  refine ⟨hall, ?_⟩
  cases subs with
  | true => exact h
  | false =>
    intro he
    exact h.ne_empty (some.inj he)

/-! ### Adding categories -/

omit [DecidableEq ι] in
theorem addParents_append (as bs : List String) :
    Session.addParents name (as ++ bs) s = Session.addParents name as s ++
      Session.addParents name bs (lastSession s (Session.addParents name as s)) := by
  induction as generalizing s with
  | nil => rfl
  | cons a as ih =>
    rw [cons_append, addParents, addParents]
    split_ifs
    · dsimp only
      rw [ih, cons_append, lastSession_cons]
    · exact ih

theorem exists_expandCategory (name : String) : ∃ parents, expandCategory name = parents ++ [name] ∧
    name ∉ parents ∧ ∀ as p bs, parents = as ++ p :: bs → p ∈ expandCategory name ∧
      ∀ q ∈ expandCategory p, q ≠ p → q ∈ as := by
  obtain ⟨parents, hparents⟩ : ∃ parents, expandCategory name = parents ++ [name] := by
    rw [expandCategory, expansions, map_append, map_singleton, String.ofList_toList]
    exact ⟨_, rfl⟩
  have hsorted : (expandCategory name).Pairwise fun a b => a.toList.length < b.toList.length := by
    rw [expandCategory, pairwise_map]
    have hexpansions : (expansions '/' name.toList).Pairwise fun a b => a.length < b.length :=
      expansions_pairwise name.toList
    simpa using hexpansions
  have hmem : ∀ {p q : String}, q ∈ expandCategory p → p ∈ expandCategory name →
      q ∈ expandCategory name := fun hq hp =>
    mem_expandCategory_iff.2 ((mem_expandCategory_iff.1 hq).trans (mem_expandCategory_iff.1 hp))
  refine ⟨parents, hparents, fun hname => ?_, ?_⟩
  · rw [hparents, pairwise_append] at hsorted
    exact lt_irrefl _ (hsorted.2.2 name hname name (mem_singleton_self name))
  · rintro as p bs rfl
    have hp : p ∈ expandCategory name := by
      rw [hparents]
      exact mem_append_left _ (mem_append_right _ (mem_cons_self ..))
    refine ⟨hp, fun q hq hne => ?_⟩
    have hshort : q.toList.length ≤ p.toList.length := by
      rcases mem_expansions_iff.1 (mem_expandCategory.1 hq) with h | h
      · rw [h]
      · have := h.length_le
        rw [length_append] at this
        omega
    have hqname := hmem hq hp
    rw [hparents, append_assoc, cons_append] at hqname hsorted
    rcases mem_append.1 hqname with h | h
    · exact h
    · rcases mem_cons.1 h with h | h
      · exact (hne h).elim
      · have := (pairwise_cons.1 (pairwise_append.1 hsorted).2.1).1 q h
        omega

theorem addParents_follows {parents : List String} (h : Inv s [] m)
    (hs : s.isSubcategoriesEnabled = true) (hname : name ∉ parents)
    (hfree : ∀ p ∈ parents, Free true p)
    (habove : ∀ as p bs, parents = as ++ p :: bs → ∀ q ∈ expandCategory p, q ≠ p →
      q ∈ s.categories ∨ q ∈ as) :
    Follows [] m (Session.addParents name parents s) ∧
      announcedAfter [] (Session.addParents name parents s) = [] ∧
      (lastSession s (Session.addParents name parents s)) =
        { s with categories := s.categories ∪ parents.toFinset } := by
  induction parents generalizing s m with
  | nil =>
    refine ⟨Follows.nil, rfl, ?_⟩
    rw [toFinset_nil, Finset.union_empty]
    rfl
  | cons p parents ih =>
    obtain ⟨hp, hname⟩ := not_or.1 (fun h => hname (mem_cons.2 h))
    obtain ⟨hfreep, hfree⟩ := forall_mem_cons.1 hfree
    have habovep : ∀ q, belongsToCategory s.isSubcategoriesEnabled q p = true → q ≠ p →
        q ∈ s.categories := by
      intro q hq hne
      rw [hs] at hq
      exact (habove [] p parents rfl q (mem_expandCategory_iff_belongs.2 hq) hne).resolve_right
        not_mem_nil
    have hset : ∀ C : Finset String,
        insert p C ∪ parents.toFinset = C ∪ (p :: parents).toFinset := by
      intro C
      rw [toFinset_cons, Finset.union_insert, Finset.insert_union]
    rw [addParents]
    by_cases hmem : p ∈ s.categories
    · rw [if_neg fun hc => hc.2 hmem]
      obtain ⟨hfollows, hann, hlast⟩ := ih h hs hname hfree fun as p' bs hsplit q hq hne => by
        rcases habove (p :: as) p' bs (by rw [hsplit]; rfl) q hq hne with hq | hq
        · exact .inl hq
        · rcases mem_cons.1 hq with rfl | hq
          · exact .inl hmem
          · exact .inr hq
      refine ⟨hfollows, hann, ?_⟩
      rw [hlast, ← hset, Finset.insert_eq_of_mem hmem]
    · rw [if_pos ⟨Ne.symm hp, hmem⟩]
      have hinv := h.categoryAdded hmem (by rw [hs]; exact hfreep) habovep s.storedCategories
      obtain ⟨hfollows, hann, hlast⟩ := ih hinv hs hname hfree fun as p' bs hsplit q hq hne => by
        rcases habove (p :: as) p' bs (by rw [hsplit]; rfl) q hq hne with hq | hq
        · exact .inl (Finset.mem_insert_of_mem hq)
        · rcases mem_cons.1 hq with rfl | hq
          · exact .inl (Finset.mem_insert_self ..)
          · exact .inr hq
      refine ⟨Follows.cons hinv hfollows, hann, ?_⟩
      rw [lastSession_cons, hlast, ← hset]

theorem addCategory_follows (h : Inv s [] m)
    (hfree : isValidCategoryName name = true → name ≠ "" → Free s.isSubcategoriesEnabled name) :
    Follows [] m (s.addCategory name) ∧ announcedAfter [] (s.addCategory name) = [] ∧
      ((s.addCategory name) = [] ∨ (name ≠ "" ∧ isValidCategoryName name = true ∧
        ∃ C, (∀ c ∈ C, c ∈ s.categories ∨ c ∈ expandCategory name) ∧ s.categories ⊆ C ∧
          lastSession s (s.addCategory name) =
            { s with categories := C, storedCategories := C })) := by
  rw [addCategory]
  by_cases hempty : name = ""
  · rw [if_pos hempty]
    exact ⟨Follows.nil, rfl, .inl rfl⟩
  rw [if_neg hempty]
  by_cases hrefused : ¬ isValidCategoryName name = true ∨ name ∈ s.categories
  · rw [if_pos hrefused]
    exact ⟨Follows.nil, rfl, .inl rfl⟩
  rw [if_neg hrefused]
  obtain ⟨hvalid, hnew⟩ := not_or.1 hrefused
  rw [not_not] at hvalid
  have hfreename := hfree hvalid hempty
  obtain ⟨parents, hexpand, hname, hsplit⟩ := exists_expandCategory name
  -- the session when the parents are there
  have hparents : ∃ (es : List (Emission ι)) (C : Finset String),
      (if s.isSubcategoriesEnabled = true then addParents name (expandCategory name) s
        else []) = es ∧
      Follows [] m es ∧ announcedAfter [] es = [] ∧ lastSession s es = { s with categories := C } ∧
      (∀ c ∈ C, c ∈ s.categories ∨ c ∈ parents) ∧ s.categories ⊆ C ∧
      ∀ p, belongsToCategory s.isSubcategoriesEnabled p name = true → p ≠ name → p ∈ C := by
    by_cases hs : s.isSubcategoriesEnabled = true
    · rw [hs] at hfreename
      have hhead : ∀ p ∈ parents, Free true p := fun p hp => by
        have hmem : p ∈ expandCategory name := hexpand ▸ mem_append_left _ hp
        rw [Free, head?_itemPath_of_mem hmem]
        exact hfreename
      have hself : addParents name (expandCategory name) s =
          addParents name parents s := by
        rw [hexpand, addParents_append, addParents, if_neg fun hc => hc.1 rfl,
          addParents, append_nil]
      obtain ⟨hfollows, hann, hlast⟩ := addParents_follows h hs hname hhead
        fun as p bs heq q hq hne => .inr ((hsplit as p bs heq).2 q hq hne)
      refine ⟨_, s.categories ∪ parents.toFinset, by rw [if_pos hs, hself], hfollows, hann, hlast,
        fun c hc => ?_, Finset.subset_union_left, fun p hp hne => ?_⟩
      · exact (Finset.mem_union.1 hc).imp_right mem_toFinset.1
      · rw [hs] at hp
        have hmem := mem_expandCategory_iff_belongs.2 hp
        rw [hexpand, mem_append, mem_singleton] at hmem
        exact Finset.mem_union_right _ (mem_toFinset.2 (hmem.resolve_right hne))
    · refine ⟨[], s.categories, if_neg hs, Follows.nil, rfl, rfl, fun c hc => .inl hc,
        Finset.Subset.refl _, fun p hp hne => ?_⟩
      rw [Bool.not_eq_true] at hs
      rw [hs, ← itemPath_prefix_iff] at hp
      exact (hne (itemPath_injective (hp.eq_of_length rfl))).elim
  obtain ⟨es, C, hes, hfollows, hann, hlast, hC, hsub, habove⟩ := hparents
  have hnot : name ∉ C := fun hmem => (hC name hmem).elim hnew hname
  have hinv := hfollows.last h
  rw [hann, hlast] at hinv
  have hfinal := hinv.categoryAdded hnot hfreename habove (insert name C)
  rw [hes]
  dsimp only
  rw [hlast]
  refine ⟨hfollows.append ?_, ?_, .inr ⟨hempty, hvalid, insert name C, fun c hc => ?_,
    hsub.trans (Finset.subset_insert _ _), ?_⟩⟩
  · rw [hann]
    exact Follows.cons hfinal Follows.nil
  · rw [announcedAfter, foldl_append]
    exact hann
  · rcases Finset.mem_insert.1 hc with rfl | hc
    · exact .inr (mem_expandCategory_self c)
    · refine (hC c hc).imp_right fun hp => ?_
      rw [hexpand]
      exact mem_append_left _ hp
  · rw [lastSession_append]
    rfl

/-! ### Torrents and their categories -/

theorem Inv.congr {s' : Session ι} {announced' : List String} (h : Inv s announced m)
    (hmode : s'.isSubcategoriesEnabled = s.isSubcategoriesEnabled)
    (htorrents : s'.torrents = s.torrents)
    (hremaining : remaining s' announced' = remaining s announced) : Inv s' announced' m := by
  obtain ⟨hnames, hwithin, hshown⟩ := h
  refine ⟨?_, ?_, ?_⟩
  · rw [hmode, hremaining]
    exact hnames
  · rw [htorrents, hremaining]
    exact hwithin
  · rw [hmode, htorrents, hremaining]
    exact hshown

theorem setTorrentCategory_follows (h : Inv s announced m) (id : ι) {category : String}
    (hcategory : category ≠ "" → category ∈ s.categories → category ∈ remaining s announced) :
    Follows announced m (s.setTorrentCategory id category) ∧
      announcedAfter announced (s.setTorrentCategory id category) = announced ∧
      ∃ torrents,
        lastSession s (s.setTorrentCategory id category) = { s with torrents := torrents } ∧
        (category = "" → ∀ id', torrents.lookup id' =
          if id' = id then (s.torrents.lookup id).map fun _ => "" else s.torrents.lookup id') := by
  rw [setTorrentCategory]
  cases hold : s.torrents.lookup id with
  | none =>
    refine ⟨Follows.nil, rfl, s.torrents, rfl, fun _ id' => ?_⟩
    by_cases hid : id' = id
    · rw [if_pos hid, hid, hold]
      rfl
    · rw [if_neg hid]
  | some oldCategory =>
    dsimp only
    by_cases hsame : oldCategory = category
    · rw [if_pos hsame]
      refine ⟨Follows.nil, rfl, s.torrents, rfl, fun hempty id' => ?_⟩
      by_cases hid : id' = id
      · rw [if_pos hid, hid, hold, hsame, hempty]
        rfl
      · rw [if_neg hid]
    rw [if_neg hsame]
    by_cases hunknown : category ≠ "" ∧ category ∉ s.categories
    · rw [if_pos hunknown]
      exact ⟨Follows.nil, rfl, s.torrents, rfl, fun hempty => (hunknown.1 hempty).elim⟩
    rw [if_neg hunknown]
    have hknown : category = "" ∨ category ∈ remaining s announced := by
      by_cases hempty : category = ""
      · exact .inl hempty
      · exact .inr (hcategory hempty (not_not.1 fun hmem => hunknown ⟨hempty, hmem⟩))
    refine ⟨Follows.cons (h.torrentCategoryChanged hold hknown) Follows.nil, rfl,
      s.torrents.insert id category, rfl, fun hempty id' => ?_⟩
    rw [Dict.lookup_insert_eq, hempty]
    rfl

variable (name) in
theorem resetTorrents_follows (h : Inv s announced m) (ids : List ι) :
    Follows announced m (Session.resetTorrents name ids s) ∧
      announcedAfter announced (Session.resetTorrents name ids s) = announced ∧
      ∃ torrents,
        lastSession s (Session.resetTorrents name ids s) = { s with torrents := torrents } ∧
        ∀ id d, torrents.lookup id = some d → d ≠ "" → s.torrents.lookup id = some d ∧
          (id ∈ ids → belongsToCategory s.isSubcategoriesEnabled name d = false) := by
  induction ids generalizing s m with
  | nil =>
    refine ⟨Follows.nil, rfl, s.torrents, rfl, fun id d hd _ => ⟨hd, fun hid => ?_⟩⟩
    cases hid
  | cons id ids ih =>
    -- one torrent
    have hone : ∃ es : List (Emission ι),
        (if (s.torrents.lookup id).any (belongsToCategory s.isSubcategoriesEnabled name) = true then
          s.setTorrentCategory id "" else []) = es ∧
        Follows announced m es ∧ announcedAfter announced es = announced ∧
        ∃ torrents, lastSession s es = { s with torrents := torrents } ∧
          ∀ id' d, torrents.lookup id' = some d → d ≠ "" → s.torrents.lookup id' = some d ∧
            (id' = id → belongsToCategory s.isSubcategoriesEnabled name d = false) := by
      by_cases hany :
          (s.torrents.lookup id).any (belongsToCategory s.isSubcategoriesEnabled name) = true
      · obtain ⟨hfollows, hann, torrents, hlast, hreset⟩ := setTorrentCategory_follows h id
          fun hempty => (hempty rfl).elim
        refine ⟨_, if_pos hany, hfollows, hann, torrents, hlast, fun id' d hd hne => ?_⟩
        rw [hreset rfl] at hd
        by_cases hid : id' = id
        · rw [if_pos hid, map_eq_some_iff] at hd
          obtain ⟨-, -, rfl⟩ := hd
          exact (hne rfl).elim
        · rw [if_neg hid] at hd
          exact ⟨hd, fun heq => (hid heq).elim⟩
      · refine ⟨[], if_neg hany, Follows.nil, rfl, s.torrents, rfl, fun id' d hd _ => ⟨hd, ?_⟩⟩
        rintro rfl
        rw [hd, any_some] at hany
        exact Bool.eq_false_iff.2 hany
    obtain ⟨es, hes, hfollows, hann, torrents, hlast, hreset⟩ := hone
    have hinv := hfollows.last h
    rw [hann, hlast] at hinv
    obtain ⟨hfollows', hann', torrents', hlast', hreset'⟩ := ih hinv
    rw [resetTorrents, hes, hlast]
    refine ⟨hfollows.append ?_, ?_, torrents', ?_, fun id' d hd hne => ?_⟩
    · rw [hann]
      exact hfollows'
    · rw [announcedAfter, foldl_append]
      rw [announcedAfter] at hann hann'
      rw [hann, hann']
    · rw [lastSession_append, hlast, hlast']
    · obtain ⟨hd', hnot⟩ := hreset' id' d hd hne
      obtain ⟨hd'', hnot'⟩ := hreset id' d hd' hne
      refine ⟨hd'', fun hid => ?_⟩
      rcases mem_cons.1 hid with hid | hid
      · exact hnot' hid
      · exact hnot hid

/-! ### Removing categories -/

theorem belongs_iff {d : String} (hd : d ≠ "") :
    belongsToCategory subs c d = true ↔ d = c ∨ (subs = true ∧ isBelow c d = true) := by
  rw [belongsToCategory, if_neg hd, Bool.or_eq_true, decide_eq_true_iff, Bool.and_eq_true]

theorem ne_empty_of_isBelow {d : String} (h : isBelow c d = true) : d ≠ "" := by
  rintro rfl
  have hlength := (isBelow_iff.1 h).length_le
  simp at hlength

theorem belongs_of_isBelow {d : String} (h : isBelow c d = true) :
    belongsToCategory true c d = true :=
  (belongs_iff (ne_empty_of_isBelow h)).2 (.inr ⟨rfl, h⟩)

theorem removeSubcategories_follows (h : Inv s announced m) (hs : s.isSubcategoriesEnabled = true)
    {categories : List String} (hfree : ∀ c ∈ categories, Free true c)
    (hnone : ∀ id d, s.torrents.lookup id = some d → d ≠ "" →
      belongsToCategory true name d = false) :
    Follows announced m (Session.removeSubcategories name categories s) ∧
      (∃ C ⊆ s.categories, (∀ d ∈ s.categories, d ∉ C → isBelow name d = true) ∧
        lastSession s (Session.removeSubcategories name categories s) =
          { s with categories := C }) ∧
      ∀ c ∈ announcedAfter announced (Session.removeSubcategories name categories s),
        c ∈ announced ∨ isBelow name c = true := by
  induction categories generalizing s announced m with
  | nil =>
    exact ⟨Follows.nil, ⟨s.categories, Finset.Subset.refl _, fun d hd hnot => (hnot hd).elim, rfl⟩,
      fun c hc => .inl hc⟩
  | cons c categories ih =>
    obtain ⟨hfreec, hfree⟩ := forall_mem_cons.1 hfree
    rw [removeSubcategories]
    by_cases hbelow : isBelow name c = true
    · rw [if_pos hbelow]
      have hremoved : Inv s (c :: announced) (m.categoryRemoved c) := by
        refine h.categoryRemoved (by rw [hs]; exact hfreec) fun id d hd hne => ?_
        rw [hs]
        refine Bool.eq_false_iff.2 fun hb => ?_
        have hnot := hnone id d hd hne
        rw [belongsToCategory_trans (belongs_of_isBelow hbelow) hb] at hnot
        cases hnot
      have hnext : Inv { s with categories := s.categories.erase c } (c :: announced)
          (m.categoryRemoved c) := by
        refine hremoved.congr rfl rfl ?_
        ext d
        rw [remaining, remaining, Finset.mem_filter, Finset.mem_filter]
        refine and_congr_left fun hnot => Finset.mem_erase.trans (and_iff_right ?_)
        rintro rfl
        have hself := hnot d (mem_cons_self ..)
        rw [belongsToCategory_self] at hself
        cases hself
      obtain ⟨hfollows, ⟨C, hsub, hgone, hlast⟩, hannounced⟩ := ih hnext hs hfree hnone
      refine ⟨Follows.cons hremoved hfollows, ?_, fun d hd => ?_⟩
      · rw [lastSession_cons]
        cases hrest : removeSubcategories name categories
            { s with categories := s.categories.erase c } with
        | nil => exact ⟨s.categories, Finset.Subset.refl _, fun d hd hnot => (hnot hd).elim, rfl⟩
        | cons e rest =>
          rw [hrest, lastSession_cons] at hlast
          refine ⟨C, hsub.trans (Finset.erase_subset _ _), fun d hd hnot => ?_, ?_⟩
          · by_cases hdc : d = c
            · exact hdc ▸ hbelow
            · exact hgone d (Finset.mem_erase.2 ⟨hdc, hd⟩) hnot
          · rw [lastSession_cons, hlast]
      · rcases hannounced d hd with hd | hd
        · rcases mem_cons.1 hd with rfl | hd
          · exact .inr hbelow
          · exact .inl hd
        · exact .inr hd
    · rw [if_neg hbelow]
      exact ih h hs hfree hnone

omit [DecidableEq ι] in
theorem mem_subcategories_iff {d : String} : d ∈ s.subcategories name ↔
    d ∈ s.categories ∧ s.isSubcategoriesEnabled = true ∧ isBelow name d = true := by
  rw [subcategories]
  split
  · rename_i hs
    rw [Finset.mem_filter, and_iff_right hs]
  · rename_i hs
    exact iff_of_false (Finset.notMem_empty d) fun h => hs h.2.1

variable (name) in
theorem removeCategory_follows (h : Inv s [] m)
    {order : List ι} (horder : order.toFinset = s.torrents.keys) :
    Follows [] m (s.removeCategory name order) ∧
      Inv (lastSession s (s.removeCategory name order)) []
        (played m (s.removeCategory name order)) ∧
      (lastSession s (s.removeCategory name order)).isSubcategoriesEnabled =
        s.isSubcategoriesEnabled ∧
      (lastSession s (s.removeCategory name order)).categories ⊆ s.categories ∧
      (lastSession s (s.removeCategory name order)).storedCategories ⊆
        s.storedCategories ∪ s.categories := by
  obtain ⟨hresets, hann, torrents, hlast, hreset⟩ := resetTorrents_follows name h order
  have hinv := hresets.last h
  rw [hann, hlast] at hinv
  rw [removeCategory, hlast]
  -- no torrent is in the category any more
  have hnone : ∀ id d, torrents.lookup id = some d → d ≠ "" →
      belongsToCategory s.isSubcategoriesEnabled name d = false := by
    intro id d hd hne
    obtain ⟨hold, hnot⟩ := hreset id d hd hne
    refine hnot (mem_toFinset.1 ?_)
    rw [horder]
    exact Finmap.mem_keys.2 (Finmap.mem_of_lookup_eq_some hold)
  have hsub : subcategories name { s with torrents := torrents } =
      s.subcategories name := rfl
  rw [hsub]
  by_cases hnothing : s.subcategories name = ∅ ∧ name ∉ s.categories
  · rw [if_pos hnothing, hlast]
    refine ⟨hresets, ?_, rfl, Finset.Subset.refl _, Finset.subset_union_left⟩
    have hinv := hresets.last h
    rwa [hann, hlast] at hinv
  rw [if_neg hnothing]
  have hnames := h.names
  rw [remaining_nil] at hnames
  have hmem : name ∈ s.categories := by
    by_contra hnot
    obtain ⟨c, hc⟩ := Finset.nonempty_iff_ne_empty.2 fun hempty => hnothing ⟨hempty, hnot⟩
    obtain ⟨hc, hs, hbelow⟩ := mem_subcategories_iff.1 hc
    exact hnot (hnames.closed c hc name (by rw [hs]; exact belongs_of_isBelow hbelow))
  -- the categories below
  have hremovals : ∃ (es : List (Emission ι)) (C : Finset String),
      (if s.isSubcategoriesEnabled = true then
        removeSubcategories name (ascending s.categories) { s with torrents := torrents }
        else []) = es ∧
      Follows [] (played m (resetTorrents name order s)) es ∧ C ⊆ s.categories ∧
      (∀ d ∈ s.categories, d ∉ C → belongsToCategory s.isSubcategoriesEnabled name d = true) ∧
      lastSession { s with torrents := torrents } es =
        { s with torrents := torrents, categories := C } ∧
      ∀ c ∈ announcedAfter [] es, belongsToCategory s.isSubcategoriesEnabled name c = true := by
    by_cases hs : s.isSubcategoriesEnabled = true
    · have hfree : ∀ c ∈ ascending s.categories, Free true c := fun c hc => by
        rw [← hs]
        exact hnames.free c (mem_ascending.1 hc)
      have hnone' : ∀ id d, torrents.lookup id = some d → d ≠ "" →
          belongsToCategory true name d = false := hs ▸ hnone
      obtain ⟨hfollows, ⟨C, hC, hgone, hlast'⟩, hannounced⟩ :=
        removeSubcategories_follows hinv hs hfree hnone'
      refine ⟨_, C, if_pos hs, hfollows, hC, fun d hd hnot => ?_, hlast', fun c hc => ?_⟩
      all_goals rw [hs]
      · exact belongs_of_isBelow (hgone d hd hnot)
      · exact belongs_of_isBelow ((hannounced c hc).resolve_left not_mem_nil)
    · refine ⟨[], s.categories, if_neg hs, Follows.nil, Finset.Subset.refl _,
        fun d hd hnot => (hnot hd).elim, rfl, fun c hc => ?_⟩
      cases hc
  obtain ⟨es, C, hes, hfollows, hC, hgone, hlast', hannounced⟩ := hremovals
  rw [hes]
  have hinv' := hfollows.last hinv
  rw [hlast'] at hinv'
  have hremoved := hinv'.categoryRemoved (hnames.free name hmem) hnone
  set left := (s.categories \ s.subcategories name).erase name with hleft
  have hmemLeft : ∀ d, d ∈ left ↔
      d ∈ s.categories ∧ belongsToCategory s.isSubcategoriesEnabled name d = false := by
    intro d
    rw [hleft, Finset.mem_erase, Finset.mem_sdiff, mem_subcategories_iff, and_comm, and_assoc]
    refine and_congr_right fun hd => ?_
    rw [← Bool.not_eq_true, belongs_iff (hnames.free d hd).ne_empty]
    tauto
  have hfinal : Inv ({ s with torrents := torrents, categories := left, storedCategories := left } :
      Session ι) (name :: announcedAfter [] es) _ := hremoved.congr rfl rfl (by
    ext d
    rw [remaining, remaining, Finset.mem_filter, Finset.mem_filter]
    refine and_congr_left fun hnot => ?_
    have hname := hnot name (mem_cons_self ..)
    rw [hmemLeft, and_iff_left hname]
    refine ⟨fun hd => not_not.1 fun hdC => ?_, fun hd => hC hd⟩
    have hself := hgone d hd hdC
    rw [hname] at hself
    cases hself)
  have hnow : remaining
      ({ s with torrents := torrents, categories := left, storedCategories := left } : Session ι)
      (name :: announcedAfter [] es) = left := by
    refine Finset.filter_true_of_mem fun d hd c hc => ?_
    refine Bool.eq_false_iff.2 fun hb => ?_
    have hname : belongsToCategory s.isSubcategoriesEnabled name c = true := by
      rcases mem_cons.1 hc with rfl | hc
      · exact belongsToCategory_self _ _
      · exact hannounced c hc
    have hnot := ((hmemLeft d).1 hd).2
    rw [belongsToCategory_trans hname hb] at hnot
    cases hnot
  have hlastAll : lastSession s (resetTorrents name order s ++ es ++
      [({ s with torrents := torrents, categories := left, storedCategories := left },
        .categoryRemoved name)]) =
      { s with torrents := torrents, categories := left, storedCategories := left } := by
    rw [lastSession_append]
    rfl
  have hplayed : played m (resetTorrents name order s ++ es ++
      [({ s with torrents := torrents, categories := left, storedCategories := left },
        .categoryRemoved name)]) =
      (played (played m (resetTorrents name order s)) es).categoryRemoved name := by
    rw [played, foldl_append, foldl_append]
    rfl
  have hsmaller : left ⊆ s.categories := fun d hd => ((hmemLeft d).1 hd).1
  rw [hlastAll, hplayed]
  refine ⟨(hresets.append (by rwa [hann])).append ?_, hfinal.congr rfl rfl ?_, rfl, hsmaller,
    hsmaller.trans Finset.subset_union_right⟩
  · refine Follows.cons ?_ Follows.nil
    have hannAll : announcedAfter [] (resetTorrents name order s ++ es) =
        announcedAfter [] es := by
      rw [announcedAfter, foldl_append]
      exact congrArg (fun a => announcedAfter a es) hann
    rw [hannAll, played, foldl_append]
    exact hfinal
  · rw [remaining_nil, hnow]

/-! ### Other requests -/

/-- What holds between requests. -/
structure Sound (s : Session ι) (m : CategoryFilterModel) : Prop where
  inv : Inv s [] m
  proper : ∀ c ∈ s.categories, Proper c
  stored : ∀ c ∈ s.storedCategories, Proper c

/-- The signals of a request keep it. -/
structure Kept (s : Session ι) (m : CategoryFilterModel) (es : List (Emission ι)) : Prop where
  follows : Follows [] m es
  sound : Sound (lastSession s es) (played m es)

theorem Sound.kept_nil (h : Sound s m) : Kept s m [] := ⟨Follows.nil, h⟩

/-- The names that would be added are not that of the item of all torrents. -/
def Nameable (s : Session ι) (name : String) : Prop :=
  isValidCategoryName name = true → (itemPath s.isSubcategoriesEnabled name).head? ≠ some UID_ALL

theorem addCategory_kept (h : Sound s m) (hname : Nameable s name) :
    Kept s m (s.addCategory name) := by
  obtain ⟨hinv, hproper, hstored⟩ := h
  have hfree : isValidCategoryName name = true → name ≠ "" → Free s.isSubcategoriesEnabled name :=
    fun hvalid hempty => free_of_proper (proper_of_valid hempty hvalid) (hname hvalid)
  obtain ⟨hfollows, hann, hlast⟩ := addCategory_follows hinv hfree
  have hinv' := hfollows.last hinv
  rw [hann] at hinv'
  rcases hlast with hnil | ⟨hempty, hvalid, C, hC, -, hlast⟩
  · rw [hnil]
    exact Sound.kept_nil ⟨hinv, hproper, hstored⟩
  · have hproperC : ∀ c ∈ C, Proper c := fun c hc =>
      (hC c hc).elim (hproper c) fun hmem => (proper_of_valid hempty hvalid).of_mem hmem
    refine ⟨hfollows, hinv', ?_, ?_⟩ <;> rw [hlast]
    all_goals exact hproperC

theorem takeCategory_kept (h : Sound s m) (hname : Nameable s name) :
    Kept s m (s.takeCategory name) := by
  rw [takeCategory]
  split_ifs
  · exact addCategory_kept h hname
  · exact h.kept_nil

theorem removeCategory_kept (h : Sound s m) {order : List ι}
    (horder : order.toFinset = s.torrents.keys) : Kept s m (s.removeCategory name order) := by
  obtain ⟨hinv, hproper, hstored⟩ := h
  obtain ⟨hfollows, hinv', -, hcategories, hstored'⟩ := removeCategory_follows name hinv horder
  refine ⟨hfollows, hinv', fun c hc => hproper c (hcategories hc), fun c hc => ?_⟩
  exact (Finset.mem_union.1 (hstored' hc)).elim (hstored c) (hproper c)

theorem names_false {C : Finset String} (h : ∀ c ∈ C, c ≠ "" ∧ c ≠ UID_ALL) : Names false C where
  free c hc := by
    constructor
    · exact fun he => (h c hc).2 (some.inj he)
    · exact fun he => (h c hc).1 (some.inj he)
  closed c hc p hp := by
    rw [belongs_iff (h c hc).1] at hp
    rcases hp with rfl | ⟨hfalse, -⟩
    · exact hc
    · cases hfalse

theorem mem_expandCategories {C : Finset String} :
    c ∈ Session.expandCategories C ↔ ∃ d ∈ C, c ∈ expandCategory d := by
  rw [expandCategories, Finset.mem_union, Finset.mem_biUnion]
  constructor
  · rintro (hc | ⟨d, hd, hc⟩)
    · exact ⟨c, hc, mem_expandCategory_self c⟩
    · exact ⟨d, hd, mem_toFinset.1 hc⟩
  · rintro ⟨d, hd, hc⟩
    exact .inr ⟨d, hd, mem_toFinset.2 hc⟩

theorem names_expandCategories {C : Finset String} (hproper : ∀ c ∈ C, Proper c)
    (hall : ∀ c ∈ C, (itemPath true c).head? ≠ some UID_ALL) :
    Names true (Session.expandCategories C) where
  free c hc := by
    obtain ⟨d, hd, hcd⟩ := mem_expandCategories.1 hc
    rw [Free, head?_itemPath_of_mem hcd]
    exact ⟨hall d hd, hproper d hd⟩
  closed c hc p hp := by
    obtain ⟨d, hd, hcd⟩ := mem_expandCategories.1 hc
    exact mem_expandCategories.2 ⟨d, hd, mem_expandCategory_iff_belongs.2
      (belongsToCategory_trans hp (mem_expandCategory_iff_belongs.1 hcd))⟩

/-- What has to hold so that subcategories can be turned on or off. -/
def Switchable (s : Session ι) : (value isReadable : Bool) → Prop
  | true, _ => ∀ c ∈ s.categories, (itemPath true c).head? ≠ some UID_ALL
  | false, isReadable => UID_ALL ∉ s.storedCategories ∧
    Within s.torrents (if isReadable then s.storedCategories else ∅)

theorem setSubcategoriesEnabled_kept (h : Sound s m) {value isReadable : Bool}
    (hswitch : s.isSubcategoriesEnabled ≠ value → Switchable s value isReadable) :
    Kept s m (s.setSubcategoriesEnabled value isReadable) := by
  rw [setSubcategoriesEnabled]
  by_cases hsame : s.isSubcategoriesEnabled = value
  · rw [if_pos hsame]
    exact h.kept_nil
  rw [if_neg hsame]
  obtain ⟨hinv, hproper, hstored⟩ := h
  have hwithin := hinv.within
  rw [remaining_nil] at hwithin
  replace hswitch := hswitch hsame
  cases value with
  | true =>
    have hexpanded : ∀ c ∈ expandCategories s.categories, Proper c := fun c hc => by
      obtain ⟨d, hd, hcd⟩ := mem_expandCategories.1 hc
      exact (hproper d hd).of_mem hcd
    have hnow := Inv.populate (s := { s with
        categories := expandCategories s.categories
        storedCategories := expandCategories s.categories
        isSubcategoriesEnabled := true }) (names_expandCategories hproper hswitch)
      (fun id d hd => (hwithin id d hd).imp_right fun hd =>
        mem_expandCategories.2 ⟨d, hd, mem_expandCategory_self d⟩) hinv.shown.notFailed
    exact ⟨Follows.cons hnow Follows.nil, hnow, hexpanded, hexpanded⟩
  | false =>
    obtain ⟨hall, hwithin'⟩ := hswitch
    have hread : ∀ c ∈ (if isReadable = true then s.storedCategories else ∅),
        c ∈ s.storedCategories := by
      intro c hc
      split_ifs at hc
      · exact hc
      · exact absurd hc (Finset.notMem_empty c)
    have hnow := Inv.populate (s := { s with
        categories := if isReadable then s.storedCategories else ∅
        isSubcategoriesEnabled := false })
      (names_false fun c hc =>
        ⟨(hstored c (hread c hc)).ne_empty, fun he => hall (he ▸ hread c hc)⟩)
      hwithin' hinv.shown.notFailed
    exact ⟨Follows.cons hnow Follows.nil, hnow, fun c hc => hstored c (hread c hc), hstored⟩

theorem setTorrentCategory_kept (h : Sound s m) (id : ι) (category : String) :
    Kept s m (s.setTorrentCategory id category) := by
  obtain ⟨hinv, hproper, hstored⟩ := h
  obtain ⟨hfollows, hann, torrents, hlast, -⟩ := setTorrentCategory_follows hinv id
    fun _ hmem => by rwa [remaining_nil]
  have hinv' := hfollows.last hinv
  rw [hann] at hinv'
  refine ⟨hfollows, hinv', ?_, ?_⟩ <;> rw [hlast]
  exacts [hproper, hstored]

/-- The category of a torrent that is being added. -/
def loadingCategory (s : Session ι) (id : ι) : String := (s.loadingTorrents.lookup id).getD ""

/-- **When a request is followed.**  Names to add are not that of the item of all torrents; torrents
that have been added have categories that are still there; and where subcategories are turned on or
off, the items can stand together and the categories of torrents stay. -/
def Orderly (w : Watched ι) : Request ι → Prop
  | .addCategory name => Nameable w.session name
  | .addTorrent _ category => Nameable w.session category
  | .restoreTorrent _ category => Nameable w.session category
  | .setSubcategoriesEnabled value isReadable =>
    w.session.isSubcategoriesEnabled ≠ value → Switchable w.session value isReadable
  | .finishLoading ids => ∀ id ∈ ids,
    loadingCategory w.session id = "" ∨ loadingCategory w.session id ∈ w.session.categories
  | _ => True

/-- What holds in every state. -/
structure Watches (w : Watched ι) : Prop where
  sound : Sound w.session w.model
  last : ∀ x ∈ w.last, Inv x.session x.announced x.model

theorem Watches.right {w : Watched ι} (h : Watches w) : Right w :=
  ⟨fun x hx => (h.last x hx).mirrors, h.sound.inv.mirrors⟩

theorem emissions_kept {w : Watched ι} (h : Sound w.session w.model) {r : Request ι}
    (hpossible : Possible w r) (horderly : Orderly w r) :
    Kept w.session w.model (w.session.emissions r) := by
  cases r with
  | addCategory name => exact addCategory_kept h horderly
  | removeCategory name order => exact removeCategory_kept h hpossible.2
  | setSubcategoriesEnabled value isReadable => exact setSubcategoriesEnabled_kept h horderly
  | addTorrent id category => exact takeCategory_kept h horderly
  | restoreTorrent id category =>
    rw [emissions]
    split_ifs
    · exact h.kept_nil
    · exact takeCategory_kept h horderly
  | finishLoading ids =>
    obtain ⟨hinv, hproper, hstored⟩ := h
    obtain ⟨-, hnodup, hids⟩ := hpossible
    have hnow := hinv.torrentsLoaded (f := loadingCategory w.session) hnodup
      (fun id hid => (hids id hid).2) (fun id hid => by
        rw [remaining_nil]
        exact horderly id hid)
      (ids.foldl (fun loading id => loading.erase id) w.session.loadingTorrents)
    exact ⟨Follows.cons hnow Follows.nil, hnow, hproper, hstored⟩
  | setTorrentCategory id category => exact setTorrentCategory_kept h id category
  | removeTorrent id =>
    rw [emissions]
    obtain ⟨hinv, hproper, hstored⟩ := h
    cases hold : w.session.torrents.lookup id with
    | none => exact Sound.kept_nil ⟨hinv, hproper, hstored⟩
    | some category =>
      have hnow := hinv.torrentAboutToBeRemoved hold
      exact ⟨Follows.cons hnow Follows.nil, hnow, hproper, hstored⟩

theorem Sound.after {r : Request ι} (h : Sound (lastSession s (s.emissions r)) m) :
    Sound (s.after r) m := by
  obtain ⟨hinv, hproper, hstored⟩ := h
  cases r with
  | addTorrent id category => exact ⟨hinv.congr rfl rfl rfl, hproper, hstored⟩
  | restoreTorrent id category =>
    rw [Session.after]
    split_ifs
    all_goals exact ⟨hinv.congr rfl rfl rfl, hproper, hstored⟩
  | _ => exact ⟨hinv, hproper, hstored⟩

theorem next_watches {w : Watched ι} (h : Watches w) {r : Request ι} (hpossible : Possible w r)
    (horderly : Orderly w r) : Watches (next w r) := by
  obtain ⟨hfollows, hsound⟩ := emissions_kept h.sound hpossible horderly
  exact ⟨hsound.after, hfollows⟩

end requests

/-- The names in the file when the session starts. -/
def Loadable (storedCategories : Finset String) (isSubcategoriesEnabled : Bool) : Prop :=
  ∀ c ∈ storedCategories, c ≠ "" ∧ isValidCategoryName c = true ∧
    (itemPath isSubcategoriesEnabled c).head? ≠ some UID_ALL

theorem start_watches {storedCategories : Finset String} {isSubcategoriesEnabled : Bool}
    (h : Loadable storedCategories isSubcategoriesEnabled) :
    Watches (start storedCategories isSubcategoriesEnabled : Watched ι) := by
  have hproper : ∀ c ∈ storedCategories, Proper c :=
    fun c hc => proper_of_valid (h c hc).1 (h c hc).2.1
  have hnone : ∀ C, Within (∅ : Dict ι String) C := fun C id c hc => by
    cases hc
  refine ⟨?_, fun x hx => by cases hx⟩
  cases isSubcategoriesEnabled with
  | true =>
    have hnames := names_expandCategories hproper fun c hc => (h c hc).2.2
    refine ⟨Inv.populate hnames (hnone _) rfl, ?_, hproper⟩
    intro c hc
    obtain ⟨d, hd, hcd⟩ := mem_expandCategories.1 hc
    exact (hproper d hd).of_mem hcd
  | false =>
    refine ⟨Inv.populate (names_false fun c hc => ⟨(h c hc).1, ?_⟩) (hnone _) rfl, hproper, hproper⟩
    rintro rfl
    exact (h _ hc).2.2 rfl

/-- **The filter of categories.**  In every run from the start of the session whose requests are
orderly, the model mirrors the session after each signal. -/
theorem mirrors_of_orderly (storedCategories : Finset String) (isSubcategoriesEnabled : Bool)
    (hstart : Loadable storedCategories isSubcategoriesEnabled) (requests : List (Request ι))
    (h : (machine ι).Meets Orderly (start storedCategories isSubcategoriesEnabled) requests) :
    (machine ι).Always Right (start storedCategories isSubcategoriesEnabled) requests := by
  refine h.always (I := Watches) (start_watches hstart) (fun w hw => hw.right) ?_
  intro w r w' hw horderly hstep
  obtain ⟨hpossible, rfl⟩ := guarded_step_eq_some.1 hstep
  exact next_watches hw hpossible horderly

/-! ### Examples -/

/-- A torrent is added to a new category. -/
theorem mirrors_of_orderly_linux :
    (machine ℕ).Always Right (start {"iso"} true)
      [.addCategory "iso/linux", .addTorrent 1 "iso/linux", .finishLoading [1]] := by
  refine mirrors_of_orderly {"iso"} true ?_ _ ?_
  · intro c hc
    obtain rfl := Finset.mem_singleton.1 hc
    decide
  · refine ⟨fun _ => by decide, fun w hw => ?_⟩
    obtain ⟨-, rfl⟩ := guarded_step_eq_some.1 hw
    refine ⟨fun _ => by decide, fun w hw => ?_⟩
    obtain ⟨-, rfl⟩ := guarded_step_eq_some.1 hw
    refine ⟨fun id hid => .inr ?_, fun w hw => trivial⟩
    obtain rfl := mem_singleton.1 hid
    decide

section missing

variable {w : Watched ι} {id : ι}

variable (id) in
theorem failed_of_missing (h : Sound w.session w.model)
    (hfree : Free w.session.isSubcategoriesEnabled (loadingCategory w.session id))
    (hmissing : loadingCategory w.session id ∉ w.session.categories) :
    (next w (.finishLoading [id])).model.failed = true := by
  have hshown := h.inv.shown
  rw [remaining_nil] at hshown
  have hfind := hshown.findItem_of_notMem hfree hmissing
  have hmodel : (next w (.finishLoading [id])).model =
      let m := w.model.increaseItem 1 (w.model.findItem (loadingCategory w.session id))
      m.increaseItem 1 (m.childAt 0) := rfl
  rw [hmodel, hfind]
  dsimp only
  have hall : (w.model.increaseItem 1 none).childAt 0 = some [UID_ALL] := hshown.childAt_zero
  rw [hall]
  rfl

end missing

/-- A category goes while a torrent is being added to it. -/
def lateCategory : List (Request ℕ) :=
  [.addCategory "iso", .addTorrent 1 "iso", .removeCategory "iso" [], .finishLoading [1]]

theorem late_category : ¬ (machine ℕ).Always Right (start ∅ false) lateCategory := by
  intro h
  have hstep : ∀ {w : Watched ℕ} {r : Request ℕ}, Possible w r →
      (machine ℕ).step w r = some (next w r) := fun h => guarded_step_eq_some.2 ⟨h, rfl⟩
  have hw₀ : Watches (start ∅ false : Watched ℕ) :=
    start_watches fun c hc => absurd hc (Finset.notMem_empty c)
  have hw₁ := next_watches hw₀ (r := .addCategory "iso") trivial fun _ => by decide
  have hpossible₂ : Possible (next (start ∅ false) (.addCategory "iso")) (.addTorrent 1 "iso") := by
    decide
  have hw₂ := next_watches hw₁ hpossible₂ fun _ => by decide
  have hpossible₃ : Possible (next (next (start ∅ false) (.addCategory "iso"))
      (.addTorrent 1 "iso")) (.removeCategory "iso" []) := by decide
  have hw₃ := next_watches hw₂ hpossible₃ trivial
  have hpossible₄ : Possible (next (next (next (start ∅ false) (.addCategory "iso"))
      (.addTorrent 1 "iso")) (.removeCategory "iso" [])) (.finishLoading [1]) := by decide
  have hfailed := failed_of_missing 1 hw₃.sound ⟨by decide, by decide⟩ (by decide)
  have hright := ((((h.2 _ (hstep trivial)).2 _ (hstep hpossible₂)).2 _ (hstep hpossible₃)).2 _
    (hstep hpossible₄)).now.notFailed
  rw [hfailed] at hright
  cases hright

end QBittorrent.CategoryFilter
