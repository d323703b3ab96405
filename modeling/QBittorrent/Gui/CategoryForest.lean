import QBittorrent.Gui.CategoryFilter

/-!
# The tree of categories

`Forest` says that a tree has the items of some categories, with sums of given numbers for those
below them; `Shown` that the model has such a tree.

* `Shown.categoryAdded`, `Shown.categoryRemoved`, `Shown.increaseItem` : **what the model makes of
  it for a category that comes or goes, and for a torrent.**
-/

namespace QBittorrent.CategoryFilter

open List CountTree CategoryFilterModel Option

variable {ι : Type} [DecidableEq ι]

section paths

variable {subs : Bool} {c d p : String}

/-- What the item of a category is called. -/
def itemName (subs : Bool) (category : String) : String :=
  if subs then shortName category else category

theorem itemPath_true (c : String) :
    itemPath true c = (segments '/' c.toList).map String.ofList := by
  rw [itemPath, if_pos rfl, expandCategory, segments, List.map_map, List.map_map]
  simp [shortName, subcategoryName]

theorem itemPath_ne_nil : itemPath subs c ≠ [] := by
  cases subs with
  | false => exact cons_ne_nil _ _
  | true =>
    rw [itemPath_true]
    exact fun h => segments_ne_nil _ (map_eq_nil_iff.1 h)

theorem ofList_injective : Function.Injective String.ofList := fun l l' h => by
  simpa using congrArg String.toList h

theorem itemPath_prefix_iff :
    itemPath subs c <+: itemPath subs d ↔ belongsToCategory subs c d = true := by
  have hsymm : decide (d = c) = decide (c = d) := decide_eq_decide.2 eq_comm
  cases subs with
  | false =>
    rw [itemPath, itemPath, if_neg Bool.false_ne_true, if_neg Bool.false_ne_true]
    by_cases hd : d = ""
    · subst hd
      simp [belongsToCategory]
    · simp [belongsToCategory, hd, hsymm]
  | true =>
    rw [itemPath_true, itemPath_true, prefix_map_iff_of_injective ofList_injective,
      segments_prefix_iff, mem_expansions_iff]
    have hlist : c.toList = d.toList ↔ d = c := by
      rw [String.toList_inj, eq_comm]
    rw [hlist]
    by_cases hd : d = ""
    · subst hd
      have hnot : ¬ c.toList ++ ['/'] <+: "".toList := by simp
      rw [or_iff_left hnot, belongsToCategory, if_pos rfl, decide_eq_true_iff, eq_comm]
    · simp [belongsToCategory, hd, isBelow, isPrefixOf_iff_prefix]

theorem itemPath_injective (h : itemPath subs c = itemPath subs d) : c = d := by
  cases subs with
  | false =>
    exact singleton_inj.1 h
  | true =>
    rw [itemPath_true, itemPath_true] at h
    exact String.toList_inj.1 (segments_injective (map_injective_iff.2 ofList_injective h))

theorem expandCategory_of_mem (hc : '/' ∈ c.toList) :
    expandCategory c = expandCategory (parentCategoryName c) ++ [c] := by
  rw [expandCategory, expandCategory, parentCategoryName, String.toList_ofList]
  conv_lhs => rw [← beforeLast_append_afterLast hc, expansions_append (notMem_afterLast _),
    beforeLast_append_afterLast hc, map_append, map_singleton, String.ofList_toList]

theorem expandCategory_of_notMem (hc : '/' ∉ c.toList) : expandCategory c = [c] := by
  rw [expandCategory, expansions_of_notMem hc, map_singleton, String.ofList_toList]

theorem getLast?_expandCategory (c : String) : (expandCategory c).getLast? = some c := by
  rw [expandCategory, expansions, map_append, map_singleton, getLast?_concat,
    String.ofList_toList]

theorem parentName_of_mem (hc : '/' ∈ c.toList) :
    parentName true c = some (parentCategoryName c) := by
  have hpos := length_pos_of_ne_nil (ne_nil_of_mem
    (mem_expandCategory_self (parentCategoryName c)))
  have hindex : (expandCategory (parentCategoryName c)).length + 1 - 2 =
      (expandCategory (parentCategoryName c)).length - 1 := by omega
  rw [parentName, expandCategory_of_mem hc, length_append, length_singleton,
    Bool.true_and, if_pos (decide_eq_true (by omega)), hindex,
    getElem?_append_left (by omega), ← getLast?_eq_getElem?, getLast?_expandCategory]

theorem parentName_of_notMem (hc : '/' ∉ c.toList) : parentName true c = none := by
  rw [parentName, expandCategory_of_notMem hc]
  rfl

theorem itemPath_eq (subs : Bool) (c : String) :
    itemPath subs c = ((parentName subs c).elim [] (itemPath subs)) ++ [itemName subs c] := by
  cases subs with
  | false => rfl
  | true =>
    by_cases hc : '/' ∈ c.toList
    · rw [parentName_of_mem hc, elim_some, itemPath_true, segments_of_mem hc, itemPath_true,
        parentCategoryName, String.toList_ofList, map_append, map_singleton]
      rfl
    · rw [parentName_of_notMem hc, itemPath, if_pos rfl, expandCategory_of_notMem hc]
      rfl

theorem mem_expandCategory_iff : p ∈ expandCategory c ↔ itemPath true p <+: itemPath true c := by
  rw [itemPath_true, itemPath_true, prefix_map_iff_of_injective ofList_injective,
    segments_prefix_iff, mem_expandCategory]

end paths

section forest

variable {subs : Bool} {C : Finset String} {w : String → ℤ} {all : ℤ} {root : CategoryModelItem}
  {c d x : String}

/-- The item of a category is neither one of the two others nor below one. -/
def Free (subs : Bool) (c : String) : Prop :=
  (itemPath subs c).head? ≠ some UID_ALL ∧ (itemPath subs c).head? ≠ some UID_UNCATEGORIZED

/-- Categories whose items can stand together. -/
structure Names (subs : Bool) (C : Finset String) : Prop where
  free : ∀ c ∈ C, Free subs c
  closed : ∀ c ∈ C, ∀ p, belongsToCategory subs p c = true → p ∈ C

/-- The category above one that comes is there already. -/
theorem Names.parent_mem (hC' : Names subs (insert c C)) (hname : parentName subs c = some p) :
    p ∈ C := by
  have hpath := itemPath_eq subs c
  rw [hname, elim_some] at hpath
  have hp : itemPath subs p <+: itemPath subs c := hpath ▸ prefix_append _ _
  have hmem := hC'.closed c (Finset.mem_insert_self c C) p (itemPath_prefix_iff.1 hp)
  refine (Finset.mem_insert.1 hmem).resolve_left ?_
  rintro rfl
  have := congrArg length hpath
  rw [length_append, length_singleton] at this
  omega

/-- The tree of some categories; `w` says how many torrents an item has of its own. -/
structure Forest (subs : Bool) (C : Finset String) (w : String → ℤ) (all : ℤ)
    (root : CategoryModelItem) : Prop where
  first : ∃ uids, root.keys = UID_ALL :: UID_UNCATEGORIZED :: uids
  all : root.seen [UID_ALL] = some ⟨"All", all, []⟩
  uncategorized : root.seen [UID_UNCATEGORIZED] = some ⟨"Uncategorized", w "", []⟩
  items : ∀ path : List String, path ≠ [] → path ≠ [UID_ALL] → path ≠ [UID_UNCATEGORIZED] →
    ((root.seen path).isSome ↔ ∃ c ∈ C, itemPath subs c = path)
  once : ∀ path n, root.seen path = some n → n.keys.Nodup
  counts : ∀ c ∈ C, ∃ uids, root.seen (itemPath subs c) =
    some ⟨itemName subs c, ∑ d ∈ C.filter fun d => belongsToCategory subs c d = true, w d, uids⟩

section

variable (h : Free subs c)

include h

theorem Free.not_all : ¬ [UID_ALL] <+: itemPath subs c :=
  fun hp => h.1 (singleton_prefix_iff_head?_eq_some.1 hp)

theorem Free.not_uncategorized : ¬ [UID_UNCATEGORIZED] <+: itemPath subs c :=
  fun hp => h.2 (singleton_prefix_iff_head?_eq_some.1 hp)

theorem Free.ne_all : itemPath subs c ≠ [UID_ALL] :=
  fun he => h.not_all (he ▸ prefix_rfl)

theorem Free.ne_uncategorized : itemPath subs c ≠ [UID_UNCATEGORIZED] :=
  fun he => h.not_uncategorized (he ▸ prefix_rfl)

theorem Free.ne_empty : c ≠ "" := by
  rintro rfl
  refine h.2 ?_
  cases subs <;> decide

end

theorem not_prefix_singleton {uid : String} (hne : itemPath subs c ≠ [uid]) :
    ¬ itemPath subs c <+: [uid] := fun hp => by
  rcases prefix_cons_iff.1 hp with hnil | ⟨t, ht, hpre⟩
  · exact itemPath_ne_nil hnil
  · rw [prefix_nil.1 hpre] at ht
    exact hne ht

theorem belongsToCategory_self (subs : Bool) (c : String) : belongsToCategory subs c c = true :=
  itemPath_prefix_iff.1 prefix_rfl

theorem belongsToCategory_trans (h : belongsToCategory subs c d = true)
    (h' : belongsToCategory subs d x = true) : belongsToCategory subs c x = true :=
  itemPath_prefix_iff.1 ((itemPath_prefix_iff.2 h).trans (itemPath_prefix_iff.2 h'))

theorem belongsToCategory_total (h : belongsToCategory subs c x = true)
    (h' : belongsToCategory subs d x = true) :
    belongsToCategory subs c d = true ∨ belongsToCategory subs d c = true := by
  rw [← itemPath_prefix_iff] at h h' ⊢
  rw [← itemPath_prefix_iff]
  exact prefix_or_prefix_of_prefix h h'

theorem sum_increase (hx : x ∈ C) (w : String → ℤ) (δ : ℤ) :
    ∑ y ∈ C.filter fun y => belongsToCategory subs c y = true, (w y + if y = x then δ else 0) =
      (∑ y ∈ C.filter fun y => belongsToCategory subs c y = true, w y) +
        if belongsToCategory subs c x = true then δ else 0 := by
  rw [Finset.sum_add_distrib, Finset.sum_ite_eq']
  by_cases hb : belongsToCategory subs c x = true
  · rw [if_pos hb, if_pos (Finset.mem_filter.2 ⟨hx, hb⟩)]
  · rw [if_neg hb, if_neg fun hm : x ∈ C.filter _ => hb (Finset.mem_filter.1 hm).2]

theorem sum_delete {e : String} (C : Finset String) (w : String → ℤ)
    (hnot : belongsToCategory subs c e = false) :
    ∑ d ∈ (C.filter fun d => belongsToCategory subs c d = false).filter fun d =>
        belongsToCategory subs e d = true, w d =
      (∑ d ∈ C.filter fun d => belongsToCategory subs e d = true, w d) -
        if belongsToCategory subs e c = true then
          ∑ d ∈ C.filter fun d => belongsToCategory subs c d = true, w d else 0 := by
  by_cases hb : belongsToCategory subs e c = true
  · rw [if_pos hb, eq_sub_iff_add_eq, ← Finset.sum_union]
    · refine Finset.sum_congr ?_ fun _ _ => rfl
      ext d
      simp only [Finset.mem_union, Finset.mem_filter]
      constructor
      · rintro (⟨⟨hd, -⟩, hed⟩ | ⟨hd, hcd⟩)
        · exact ⟨hd, hed⟩
        · exact ⟨hd, belongsToCategory_trans hb hcd⟩
      · rintro ⟨hd, hed⟩
        cases hcd : belongsToCategory subs c d with
        | true => exact .inr ⟨hd, rfl⟩
        | false => exact .inl ⟨⟨hd, rfl⟩, hed⟩
    · rw [Finset.disjoint_left]
      intro d hd hd'
      have := (Finset.mem_filter.1 (Finset.mem_filter.1 hd).1).2
      rw [(Finset.mem_filter.1 hd').2] at this
      cases this
  · rw [if_neg hb, sub_zero]
    refine Finset.sum_congr ?_ fun _ _ => rfl
    ext d
    simp only [Finset.mem_filter]
    constructor
    · rintro ⟨⟨hd, -⟩, hed⟩
      exact ⟨hd, hed⟩
    · rintro ⟨hd, hed⟩
      refine ⟨⟨hd, Bool.eq_false_iff.2 fun hcd => ?_⟩, hed⟩
      rcases belongsToCategory_total hed hcd with h | h
      · exact hb h
      · rw [hnot] at h
        cases h

namespace Forest

theorem isSome_seen (h : Forest subs C w all root) (hfree : Free subs c) :
    (root.seen (itemPath subs c)).isSome ↔ c ∈ C := by
  rw [h.items _ itemPath_ne_nil hfree.ne_all hfree.ne_uncategorized]
  exact ⟨fun ⟨c', hc', hpath⟩ => itemPath_injective hpath ▸ hc', fun hc => ⟨c, hc, rfl⟩⟩

section

variable (h : Forest subs C w all root) (d : ℤ) (target : List String)

include h

theorem first_adjust : ∃ uids, (root.adjust d target).keys = UID_ALL :: UID_UNCATEGORIZED :: uids := by
  rw [keys_adjust]
  exact h.first

theorem items_adjust (path : List String) (h₁ : path ≠ []) (h₂ : path ≠ [UID_ALL])
    (h₃ : path ≠ [UID_UNCATEGORIZED]) :
    ((root.adjust d target).seen path).isSome ↔ ∃ c ∈ C, itemPath subs c = path := by
  rw [seen_adjust, isSome_map]
  exact h.items path h₁ h₂ h₃

theorem once_adjust (path : List String) (n : Seen String String)
    (hn : (root.adjust d target).seen path = some n) : n.keys.Nodup := by
  rw [seen_adjust, map_eq_some_iff] at hn
  obtain ⟨n', hn', rfl⟩ := hn
  have := h.once path n' hn'
  split_ifs <;> exact this

end

theorem increase (hC : Names subs C) (h : Forest subs C w all root) (hx : x ∈ C) (d : ℤ)
    (hempty : x ≠ "") :
    Forest subs C (fun y => w y + if y = x then d else 0) all
      (root.adjust d (itemPath subs x)) where
  first := h.first_adjust d _
  all := by
    rw [seen_adjust, h.all, map_some, if_neg (hC.free x hx).not_all]
  uncategorized := by
    rw [seen_adjust, h.uncategorized, map_some,
      if_neg (hC.free x hx).not_uncategorized, if_neg (Ne.symm hempty), add_zero]
  items := h.items_adjust d _
  once := h.once_adjust d _
  counts c hc := by
    obtain ⟨uids, hseen⟩ := h.counts c hc
    refine ⟨uids, ?_⟩
    rw [seen_adjust, hseen, map_some, sum_increase hx]
    by_cases hp : itemPath subs c <+: itemPath subs x
    · rw [if_pos hp, if_pos (itemPath_prefix_iff.1 hp)]
    · rw [if_neg hp, if_neg fun hb => hp (itemPath_prefix_iff.2 hb), add_zero]

theorem increase_uncategorized (hC : Names subs C) (h : Forest subs C w all root) (d : ℤ) :
    Forest subs C (fun y => w y + if y = "" then d else 0) all
      (root.adjust d [UID_UNCATEGORIZED]) where
  first := h.first_adjust d _
  all := by rw [seen_adjust, h.all, map_some, if_neg (by decide)]
  uncategorized := by
    rw [seen_adjust, h.uncategorized, map_some, if_pos prefix_rfl, if_pos rfl]
  items := h.items_adjust d _
  once := h.once_adjust d _
  counts c hc := by
    obtain ⟨uids, hseen⟩ := h.counts c hc
    have hsum : ∑ x ∈ C.filter fun x => belongsToCategory subs c x = true,
        (w x + if x = "" then d else 0) =
          ∑ x ∈ C.filter fun x => belongsToCategory subs c x = true, w x :=
      Finset.sum_congr rfl fun x hx => by
        rw [if_neg (hC.free x (Finset.mem_filter.1 hx).1).ne_empty, add_zero]
    refine ⟨uids, ?_⟩
    rw [seen_adjust, hseen, map_some,
      if_neg (not_prefix_singleton (hC.free c hc).ne_uncategorized), hsum]

theorem increase_all (hC : Names subs C) (h : Forest subs C w all root) (d : ℤ) :
    Forest subs C w (all + d) (root.adjust d [UID_ALL]) where
  first := h.first_adjust d _
  all := by rw [seen_adjust, h.all, map_some, if_pos prefix_rfl]
  uncategorized := by
    rw [seen_adjust, h.uncategorized, map_some, if_neg (by decide)]
  items := h.items_adjust d _
  once := h.once_adjust d _
  counts c hc := by
    obtain ⟨uids, hseen⟩ := h.counts c hc
    refine ⟨uids, ?_⟩
    rw [seen_adjust, hseen, map_some,
      if_neg (not_prefix_singleton (hC.free c hc).ne_all)]

theorem isSome_seen_parent (hC : Names subs C) (hC' : Names subs (insert c C))
    (h : Forest subs C w all root) :
    (root.seen ((parentName subs c).elim [] (itemPath subs))).isSome := by
  cases hname : parentName subs c with
  | none => rfl
  | some p =>
    have hpC := hC'.parent_mem hname
    exact (h.isSome_seen (hC.free p hpC)).2 hpC

theorem itemName_notMem (hfree : Free subs c) (hc : c ∉ C) (h : Forest subs C w all root) :
    ∀ n, root.seen ((parentName subs c).elim [] (itemPath subs)) = some n →
      itemName subs c ∉ n.keys := by
  intro n hn hk
  refine hc ((h.isSome_seen hfree).1 ?_)
  rw [itemPath_eq]
  exact isSome_seen_concat.2 ⟨n, hn, hk⟩

theorem add (hC : Names subs C) (hC' : Names subs (insert c C)) (hc : c ∉ C)
    (h : Forest subs C w all root) :
    Forest subs (insert c C) w all
      ((root.appendAt ((parentName subs c).elim [] (itemPath subs)) (itemName subs c)
        (.node (itemName subs c) (w c) [])).adjust (w c)
          ((parentName subs c).elim [] (itemPath subs))) := by
  have hpath := itemPath_eq subs c
  have hfree := hC'.free c (Finset.mem_insert_self c C)
  set parent := (parentName subs c).elim [] (itemPath subs) with hparent
  have hnew := h.itemName_notMem hfree hc
  have hsome := h.isSome_seen_parent hC hC'
  rw [← hparent] at hnew hsome
  have hnot : ¬ itemPath subs c <+: parent := fun hp => by
    have := hp.length_le
    rw [hpath, length_append, length_singleton] at this
    omega
  have hseen : ∀ q, ((root.appendAt parent (itemName subs c)
      (.node (itemName subs c) (w c) [])).adjust (w c) parent).seen q =
      if q = itemPath subs c then some ⟨itemName subs c, w c, []⟩
      else (root.seen q).map fun n =>
        ⟨n.label, if q <+: parent then n.count + w c else n.count,
          if q = parent then n.keys ++ [itemName subs c] else n.keys⟩ := by
    intro q
    rw [seen_adjust, seen_appendAt hnew, ← hpath]
    obtain ⟨n, hn⟩ := isSome_iff_exists.1 hsome
    by_cases hq : q = itemPath subs c
    · rw [if_pos hq, if_pos hq, hn, map_some, map_some, hq, if_neg hnot]
    · rw [if_neg hq, if_neg hq, Option.map_map]
      refine congrArg₂ _ (funext fun n => ?_) rfl
      by_cases hqp : q = parent
      · simp [hqp]
      · by_cases hpre : q <+: parent
        · simp [hqp, hpre]
        · simp [hqp, hpre]
  have hpre : parent <+: itemPath subs c := ⟨_, hpath.symm⟩
  -- the two other items are not on the way
  have hother : ∀ uid n, ¬ [uid] <+: itemPath subs c → root.seen [uid] = some n →
      ((root.appendAt parent (itemName subs c)
        (.node (itemName subs c) (w c) [])).adjust (w c) parent).seen [uid] = some n := by
    intro uid n huid hn
    have hnot : ¬ [uid] <+: parent := fun hp => huid (hp.trans hpre)
    have hne : [uid] ≠ parent := fun he => hnot (he ▸ prefix_rfl)
    have hself : [uid] ≠ itemPath subs c := fun he => huid (he ▸ prefix_rfl)
    rw [hseen, if_neg hself, hn, map_some, if_neg hnot, if_neg hne]
  have hbelow : ∀ d ∈ C, ¬ belongsToCategory subs c d = true := fun d hd hb =>
    hc (hC.closed d hd c hb)
  constructor
  · obtain ⟨uids, huids⟩ := h.first
    rw [keys_adjust, keys_appendAt, huids]
    split_ifs
    · exact ⟨uids ++ [itemName subs c], rfl⟩
    · exact ⟨uids, rfl⟩
  · exact hother _ _ hfree.not_all h.all
  · exact hother _ _ hfree.not_uncategorized h.uncategorized
  · intro path h₁ h₂ h₃
    rw [hseen]
    by_cases hq : path = itemPath subs c
    · rw [if_pos hq]
      exact iff_of_true rfl ⟨c, Finset.mem_insert_self c C, hq.symm⟩
    · rw [if_neg hq, isSome_map, h.items path h₁ h₂ h₃]
      constructor
      · rintro ⟨d, hd, hdp⟩
        exact ⟨d, Finset.mem_insert_of_mem hd, hdp⟩
      · rintro ⟨d, hd, hdp⟩
        obtain rfl | hd := Finset.mem_insert.1 hd
        · exact (hq hdp.symm).elim
        · exact ⟨d, hd, hdp⟩
  · intro path n hn
    rw [hseen] at hn
    by_cases hq : path = itemPath subs c
    · rw [if_pos hq] at hn
      cases hn
      exact nodup_nil
    · rw [if_neg hq, map_eq_some_iff] at hn
      obtain ⟨n', hn', rfl⟩ := hn
      by_cases hp : path = parent
      · rw [if_pos hp]
        exact nodup_append.2 ⟨h.once path n' hn', nodup_singleton _, fun a ha b hb hab =>
          hnew n' (hp ▸ hn') (by rw [← mem_singleton.1 hb, ← hab]; exact ha)⟩
      · rw [if_neg hp]
        exact h.once path n' hn'
  · intro e he
    by_cases hec : e = c
    · subst hec
      have hfilter : (insert e C).filter (fun d => belongsToCategory subs e d = true) = {e} := by
        ext d
        rw [Finset.mem_filter, Finset.mem_insert, Finset.mem_singleton]
        constructor
        · rintro ⟨rfl | hd, hb⟩
          · rfl
          · exact (hbelow d hd hb).elim
        · rintro rfl
          exact ⟨.inl rfl, belongsToCategory_self subs d⟩
      exact ⟨[], by rw [hseen, if_pos rfl, hfilter, Finset.sum_singleton]⟩
    · obtain ⟨uids, huids⟩ := h.counts e (Finset.mem_of_mem_insert_of_ne he hec)
      refine ⟨if itemPath subs e = parent then uids ++ [itemName subs c] else uids, ?_⟩
      rw [hseen, if_neg fun hp => hec (itemPath_injective hp), huids, map_some,
        Finset.filter_insert]
      have hiff : itemPath subs e <+: parent ↔ belongsToCategory subs e c = true := by
        rw [← itemPath_prefix_iff, hpath, prefix_concat_iff, ← hpath, or_iff_right]
        exact fun hp => hec (itemPath_injective hp)
      by_cases hb : belongsToCategory subs e c = true
      · have hnotMem : c ∉ C.filter fun d => belongsToCategory subs e d = true :=
          fun hm => hc (Finset.mem_filter.1 hm).1
        rw [if_pos (hiff.2 hb), if_pos hb, Finset.sum_insert hnotMem, add_comm]
      · rw [if_neg fun hp => hb (hiff.1 hp), if_neg hb]

theorem delete (hC : Names subs C) (hc : c ∈ C) (h : Forest subs C w all root)
    {item : CategoryModelItem} (hitem : root.find (itemPath subs c) = some item) :
    Forest subs (C.filter fun d => belongsToCategory subs c d = false) w all
      ((root.adjust (-item.takenOff) ((parentName subs c).elim [] (itemPath subs))).eraseAt
        ((parentName subs c).elim [] (itemPath subs)) (itemName subs c)) := by
  have hpath := itemPath_eq subs c
  have hfree := hC.free c hc
  set parent := (parentName subs c).elim [] (itemPath subs) with hparent
  have hpre : parent <+: itemPath subs c := ⟨_, hpath.symm⟩
  have htaken : item.takenOff = ∑ d ∈ C.filter fun d => belongsToCategory subs c d = true, w d := by
    obtain ⟨uids, huids⟩ := h.counts c hc
    rw [seen, hitem, map_some] at huids
    rw [takenOff_eq]
    exact congrArg CountTree.Seen.count (some.inj huids)
  have hseen : ∀ q,
      ((root.adjust (-item.takenOff) parent).eraseAt parent (itemName subs c)).seen q =
      if itemPath subs c <+: q then none
      else (root.seen q).map fun n =>
        ⟨n.label, if q <+: parent then n.count - item.takenOff else n.count,
          if q = parent then n.keys.filter fun k => decide (k ≠ itemName subs c) else n.keys⟩ := by
    intro q
    rw [seen_eraseAt, seen_adjust, ← hpath, Option.map_map]
    refine if_congr Iff.rfl rfl (congrArg₂ _ (funext fun n => ?_) rfl)
    by_cases hqp : q = parent
    · simp [hqp, sub_eq_add_neg]
    · by_cases hq : q <+: parent
      · simp [hqp, hq, sub_eq_add_neg]
      · simp [hqp, hq]
  have hother : ∀ uid n, ¬ [uid] <+: itemPath subs c → root.seen [uid] = some n →
      ((root.adjust (-item.takenOff) parent).eraseAt parent (itemName subs c)).seen [uid] =
        some n := by
    intro uid n huid hn
    have hnot : ¬ [uid] <+: parent := fun hp => huid (hp.trans hpre)
    have hne : [uid] ≠ parent := fun he => hnot (he ▸ prefix_rfl)
    have hbelow : ¬ itemPath subs c <+: [uid] :=
      not_prefix_singleton fun he => huid (he ▸ prefix_rfl)
    rw [hseen, if_neg hbelow, hn, map_some, if_neg hnot, if_neg hne]
  constructor
  · obtain ⟨uids, huids⟩ := h.first
    rw [keys_eraseAt, keys_adjust, huids]
    split_ifs with hroot
    · rw [hroot, nil_append] at hpath
      have hall : UID_ALL ≠ itemName subs c := fun he => hfree.ne_all (by rw [hpath, he])
      have huncategorized : UID_UNCATEGORIZED ≠ itemName subs c := fun he =>
        hfree.ne_uncategorized (by rw [hpath, he])
      exact ⟨uids.filter fun k => decide (k ≠ itemName subs c), by
        simp [hall, huncategorized]⟩
    · exact ⟨uids, rfl⟩
  · exact hother _ _ hfree.not_all h.all
  · exact hother _ _ hfree.not_uncategorized h.uncategorized
  · intro path h₁ h₂ h₃
    rw [hseen]
    by_cases hq : itemPath subs c <+: path
    · rw [if_pos hq]
      refine iff_of_false (fun hn => by cases hn) ?_
      rintro ⟨d, hd, rfl⟩
      have := (Finset.mem_filter.1 hd).2
      rw [itemPath_prefix_iff.1 hq] at this
      cases this
    · rw [if_neg hq, isSome_map, h.items path h₁ h₂ h₃]
      constructor
      · rintro ⟨d, hd, rfl⟩
        refine ⟨d, Finset.mem_filter.2 ⟨hd, Bool.eq_false_iff.2 fun hb => ?_⟩, rfl⟩
        exact hq (itemPath_prefix_iff.2 hb)
      · rintro ⟨d, hd, rfl⟩
        exact ⟨d, (Finset.mem_filter.1 hd).1, rfl⟩
  · intro path n hn
    rw [hseen] at hn
    by_cases hq : itemPath subs c <+: path
    · rw [if_pos hq] at hn
      cases hn
    · rw [if_neg hq, map_eq_some_iff] at hn
      obtain ⟨n', hn', rfl⟩ := hn
      have := h.once path n' hn'
      dsimp only
      split_ifs
      · exact this.filter _
      · exact this
  · intro e he
    obtain ⟨heC, hnotb⟩ := Finset.mem_filter.1 he
    obtain ⟨uids, huids⟩ := h.counts e heC
    have hec : ¬ itemPath subs c <+: itemPath subs e := fun hp => by
      rw [itemPath_prefix_iff.1 hp] at hnotb
      cases hnotb
    refine ⟨if itemPath subs e = parent then uids.filter fun k => decide (k ≠ itemName subs c)
      else uids, ?_⟩
    rw [hseen, if_neg hec, huids, map_some, htaken]
    have hiff : itemPath subs e <+: parent ↔ belongsToCategory subs e c = true := by
      rw [← itemPath_prefix_iff, hpath, prefix_concat_iff, ← hpath, or_iff_right]
      exact fun hp => hec (hp ▸ prefix_rfl)
    rw [sum_delete (c := c) C w hnotb]
    by_cases hb : belongsToCategory subs e c = true
    · rw [if_pos (hiff.2 hb), if_pos hb]
    · rw [if_neg fun hp => hb (hiff.1 hp), if_neg hb, sub_zero]

end Forest

end forest

/-! ### What the model does with its tree -/

/-- The model shows a tree of categories. -/
structure Shown (subs : Bool) (C : Finset String) (w : String → ℤ) (all : ℤ)
    (m : CategoryFilterModel) : Prop where
  notFailed : m.failed = false
  mode : m.isSubcategoriesEnabled = subs
  forest : Forest subs C w all m.rootItem

namespace Shown

variable {subs : Bool} {C : Finset String} {w : String → ℤ} {all : ℤ} {m : CategoryFilterModel}
  {c x : String}

theorem findItem_empty (h : Shown subs C w all m) : m.findItem "" = some [UID_UNCATEGORIZED] := by
  obtain ⟨uids, huids⟩ := h.forest.first
  rw [findItem, if_pos rfl, childAt, huids]
  rfl

theorem childAt_zero (h : Shown subs C w all m) : m.childAt 0 = some [UID_ALL] := by
  obtain ⟨uids, huids⟩ := h.forest.first
  rw [childAt, huids]
  rfl

theorem findItem_of_mem (hC : Names subs C) (h : Shown subs C w all m) (hc : c ∈ C) :
    m.findItem c = some (itemPath subs c) := by
  rw [findItem, if_neg (hC.free c hc).ne_empty, h.mode,
    if_pos ((h.forest.isSome_seen (hC.free c hc)).2 hc)]

theorem findItem_of_notMem (hfree : Free subs c) (h : Shown subs C w all m) (hc : c ∉ C) :
    m.findItem c = none := by
  rw [findItem, if_neg hfree.ne_empty, h.mode,
    if_neg fun hs => hc ((h.forest.isSome_seen hfree).1 hs)]

section

variable (hC : Names subs C)

include hC

theorem increaseItem (h : Shown subs C w all m) (hx : x = "" ∨ x ∈ C) (d : ℤ) :
    Shown subs C (fun y => w y + if y = x then d else 0) all (m.increaseItem d (m.findItem x)) := by
  rcases hx with rfl | hx
  · rw [h.findItem_empty]
    exact ⟨h.notFailed, h.mode, h.forest.increase_uncategorized hC d⟩
  · rw [h.findItem_of_mem hC hx]
    exact ⟨h.notFailed, h.mode, h.forest.increase hC hx d (hC.free x hx).ne_empty⟩

theorem increaseAll (h : Shown subs C w all m) (d : ℤ) :
    Shown subs C w (all + d) (m.increaseItem d (m.childAt 0)) := by
  rw [h.childAt_zero]
  exact ⟨h.notFailed, h.mode, h.forest.increase_all hC d⟩

theorem addChild (hC' : Names subs (insert c C)) (hc : c ∉ C) (h : Shown subs C w all m) :
    Shown subs (insert c C) w all (m.addChild ((parentName subs c).elim [] (itemPath subs))
      (itemName subs c) (itemName subs c) (w c)) := by
  obtain ⟨n, hn⟩ := isSome_iff_exists.1 (h.forest.isSome_seen_parent hC hC')
  have hnew := h.forest.itemName_notMem (hC'.free c (Finset.mem_insert_self c C)) hc n hn
  rw [CategoryFilterModel.addChild, hn]
  dsimp only
  rw [if_neg hnew]
  exact ⟨h.notFailed, h.mode, h.forest.add hC hC' hc⟩

theorem categoryAdded (hC' : Names subs (insert c C)) (hc : c ∉ C) (hw : w c = 0)
    (h : Shown subs C w all m) : Shown subs (insert c C) w all (m.categoryAdded c) := by
  have hadd := h.addChild hC hC' hc
  rw [hw] at hadd
  have hmodel : m.categoryAdded c = m.addChild ((parentName subs c).elim [] (itemPath subs))
      (itemName subs c) (itemName subs c) 0 := by
    rw [CategoryFilterModel.categoryAdded, h.mode]
    cases hname : parentName subs c with
    | none => rfl
    | some p =>
      dsimp only
      rw [h.findItem_of_mem hC (hC'.parent_mem hname)]
      rfl
  rw [hmodel]
  exact hadd

theorem categoryRemoved (hfree : Free subs c) (h : Shown subs C w all m) :
    Shown subs (C.filter fun d => belongsToCategory subs c d = false) w all
      (m.categoryRemoved c) := by
  rw [CategoryFilterModel.categoryRemoved]
  by_cases hc : c ∈ C
  · obtain ⟨n, hn⟩ := isSome_iff_exists.1 ((h.forest.isSome_seen hfree).2 hc)
    rw [seen, map_eq_some_iff] at hn
    obtain ⟨item, hitem, -⟩ := hn
    have hpath := itemPath_eq subs c
    have hlast : (itemPath subs c).getLast? = some (itemName subs c) := by
      rw [hpath, getLast?_concat]
    have hdrop : (itemPath subs c).dropLast = (parentName subs c).elim [] (itemPath subs) := by
      rw [hpath, dropLast_concat]
    rw [h.findItem_of_mem hC hc]
    dsimp only
    rw [CategoryFilterModel.delete, hitem, hlast, hdrop]
    exact ⟨h.notFailed, h.mode, h.forest.delete hC hc hitem⟩
  · have hsame : C.filter (fun d => belongsToCategory subs c d = false) = C := by
      refine Finset.filter_true_of_mem fun d hd => Bool.eq_false_iff.2 fun hb => ?_
      exact hc (hC.closed d hd c hb)
    rw [h.findItem_of_notMem hfree hc, hsame]
    exact h

end

end Shown

variable {C : Finset String}

theorem Names.filter {subs : Bool} (hC : Names subs C) (c : String) :
    Names subs (C.filter fun d => belongsToCategory subs c d = false) where
  free d hd := hC.free d (Finset.mem_filter.1 hd).1
  closed d hd p hp := by
    obtain ⟨hdC, hnot⟩ := Finset.mem_filter.1 hd
    refine Finset.mem_filter.2 ⟨hC.closed d hdC p hp, Bool.eq_false_iff.2 fun hb => ?_⟩
    rw [belongsToCategory_trans hb hp] at hnot
    cases hnot

theorem Names.insert {subs : Bool} {c : String} (hC : Names subs C) (hfree : Free subs c)
    (habove : ∀ p, belongsToCategory subs p c = true → p ≠ c → p ∈ C) :
    Names subs (insert c C) where
  free d hd := by
    obtain rfl | hd := Finset.mem_insert.1 hd
    · exact hfree
    · exact hC.free d hd
  closed d hd p hp := by
    by_cases hpc : p = c
    · exact hpc ▸ Finset.mem_insert_self c C
    · refine Finset.mem_insert_of_mem ?_
      obtain rfl | hd := Finset.mem_insert.1 hd
      · exact habove p hp hpc
      · exact hC.closed d hd p hp

end QBittorrent.CategoryFilter
