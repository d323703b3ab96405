import QBittorrent.Gui.CategoryForest

/-!
# Signals to the filter of categories

* `Inv.categoryAdded`, `Inv.categoryRemoved`, `Inv.torrentCategoryChanged`, `Inv.torrentsLoaded`,
  `Inv.torrentAboutToBeRemoved`, `Inv.populate` : **each signal keeps it.**
-/

namespace QBittorrent.CategoryFilter

open Finset CategoryFilterModel Finmap Dict Option

variable {ι : Type} [DecidableEq ι]

/-! ### Numbers of torrents -/

/-- The torrents that are in a category, not below it. -/
def weight (torrents : Dict ι String) (category : String) : ℤ :=
  Dict.count (fun c => decide (c = category)) torrents

/-- The categories of the torrents are among some categories. -/
def Within (torrents : Dict ι String) (C : Finset String) : Prop :=
  ∀ id category, torrents.lookup id = some category → category = "" ∨ category ∈ C

section weights

variable {torrents : Dict ι String} {id : ι} {old new c : String} {C : Finset String} {subs : Bool}

theorem sum_weight (hwithin : Within torrents C) (hc : c ≠ "") :
    ∑ d ∈ C.filter fun d => belongsToCategory subs c d = true, weight torrents d =
      Dict.count (belongsToCategory subs c) torrents := by
  have hmaps : ∀ id ∈ torrents.keys.filter fun id =>
      (torrents.lookup id).any (belongsToCategory subs c),
      (torrents.lookup id).getD "" ∈ C.filter fun d => belongsToCategory subs c d = true := by
    intro id hid
    have hany := (mem_filter.1 hid).2
    cases hlookup : torrents.lookup id with
    | none =>
      rw [hlookup] at hany
      cases hany
    | some d =>
      rw [hlookup, any_some] at hany
      refine mem_filter.2 ⟨(hwithin id d hlookup).resolve_left fun hd => ?_, hany⟩
      rw [hd, belongsToCategory, if_pos rfl, decide_eq_true_iff] at hany
      exact hc hany
  rw [count, card_eq_sum_card_fiberwise hmaps, Nat.cast_sum]
  refine sum_congr rfl fun d hd => ?_
  rw [weight, count]
  congr 2
  ext id
  rw [mem_filter, mem_filter, mem_filter]
  cases hlookup : torrents.lookup id with
  | none => simp
  | some e =>
    simp only [any_some, getD_some, decide_eq_true_eq]
    constructor
    · rintro ⟨hid, rfl⟩
      exact ⟨⟨hid, (mem_filter.1 hd).2⟩, rfl⟩
    · rintro ⟨⟨hid, -⟩, rfl⟩
      exact ⟨hid, rfl⟩

theorem weight_eq_zero (hwithin : Within torrents C) (hc : c ∉ C) (hne : c ≠ "") :
    weight torrents c = 0 := by
  rw [weight, count, Nat.cast_eq_zero, card_eq_zero, filter_eq_empty_iff]
  intro id _ hany
  cases hlookup : torrents.lookup id with
  | none => rw [hlookup] at hany; cases hany
  | some d =>
    rw [hlookup, any_some, decide_eq_true_iff] at hany
    subst hany
    rcases hwithin id d hlookup with h | h
    · exact hne h
    · exact hc h

theorem weight_insert_of_lookup (h : torrents.lookup id = some old) (d : String) :
    weight (torrents.insert id new) d =
      (weight torrents d + if d = old then -1 else 0) + if d = new then 1 else 0 := by
  have := count_insert_add (fun c => decide (c = d)) torrents id new
  rw [h, any_some] at this
  simp only [decide_eq_true_eq, @eq_comm _ old d, @eq_comm _ new d] at this
  rw [weight, weight]
  split_ifs at this ⊢ <;> omega

theorem weight_insert_of_notMem (h : id ∉ torrents) (d : String) :
    weight (torrents.insert id new) d = weight torrents d + if d = new then 1 else 0 := by
  have := count_insert (fun c => decide (c = d)) new h
  simp only [decide_eq_true_eq, @eq_comm _ new d] at this
  rw [weight, weight, this]
  split_ifs <;> simp

theorem weight_erase (h : torrents.lookup id = some old) (d : String) :
    weight (torrents.erase id) d = weight torrents d + if d = old then -1 else 0 := by
  have := count_erase (fun c => decide (c = d)) h
  simp only [decide_eq_true_eq, @eq_comm _ old d] at this
  rw [weight, weight]
  split_ifs at this ⊢ <;> omega

theorem card_keys_insert_of_notMem (h : id ∉ torrents) :
    (torrents.insert id new).keys.card = torrents.keys.card + 1 := by
  have hkeys : (torrents.insert id new).keys = insert id torrents.keys := by
    ext x
    simp [mem_keys, Finmap.mem_insert]
  rw [hkeys, card_insert_of_notMem fun hm => h (mem_keys.1 hm)]

end weights

/-! ### Signals -/

/-- The model shows the categories that remain, and the torrents are in them. -/
structure Inv (s : Session ι) (announced : List String) (m : CategoryFilterModel) : Prop where
  names : Names s.isSubcategoriesEnabled (remaining s announced)
  within : Within s.torrents (remaining s announced)
  shown : Shown s.isSubcategoriesEnabled (remaining s announced) (weight s.torrents)
    s.torrents.keys.card m

section

omit [DecidableEq ι]

theorem remaining_nil (s : Session ι) : remaining s [] = s.categories := by
  simp [remaining]

theorem remaining_cons (s : Session ι) (c : String) (announced : List String) :
    remaining s (c :: announced) = (remaining s announced).filter fun d =>
      belongsToCategory s.isSubcategoriesEnabled c d = false := by
  ext d
  simp only [remaining, mem_filter, List.forall_mem_cons]
  tauto

end

variable {m : CategoryFilterModel}

theorem Shown.torrentsLoaded {subs : Bool} {C : Finset String} {ids : List ι} {f : ι → String}
    {torrents : Dict ι String} (hC : Names subs C) (hnodup : ids.Nodup)
    (hnew : ∀ id ∈ ids, id ∉ torrents) (hcategories : ∀ id ∈ ids, f id = "" ∨ f id ∈ C)
    (hwithin : Within torrents C) (h : Shown subs C (weight torrents) torrents.keys.card m) :
    Within (ids.foldl (fun torrents id => torrents.insert id (f id)) torrents) C ∧
      Shown subs C (weight (ids.foldl (fun torrents id => torrents.insert id (f id)) torrents))
        (ids.foldl (fun torrents id => torrents.insert id (f id)) torrents).keys.card
        (m.torrentsLoaded (ids.map f)) := by
  induction ids generalizing torrents m with
  | nil => exact ⟨hwithin, h⟩
  | cons id ids ih =>
    obtain ⟨hid, hnodup⟩ := List.nodup_cons.1 hnodup
    obtain ⟨hidnew, hnew⟩ := List.forall_mem_cons.1 hnew
    obtain ⟨hcategory, hcategories⟩ := List.forall_mem_cons.1 hcategories
    have hweight : weight (torrents.insert id (f id)) = fun d =>
        weight torrents d + if d = f id then 1 else 0 :=
      funext fun d => weight_insert_of_notMem hidnew d
    refine ih hnodup (fun id' hid' hmem => ?_) hcategories (fun id' d hd => ?_) ?_
    · rcases mem_insert.1 hmem with rfl | hmem
      · exact hid hid'
      · exact hnew id' hid' hmem
    · rw [lookup_insert_eq] at hd
      split at hd
      · cases hd
        exact hcategory
      · exact hwithin id' d hd
    · rw [hweight, card_keys_insert_of_notMem hidnew, Nat.cast_add, Nat.cast_one]
      exact (h.increaseItem hC hcategory 1).increaseAll hC 1

namespace Inv

variable {s : Session ι} {announced : List String} {m : CategoryFilterModel} {c old new : String}
  {id : ι}

theorem mirrors (h : Inv s announced m) : Mirrors s announced m where
  notFailed := h.shown.notFailed
  mode := h.shown.mode
  first := h.shown.forest.first
  all := h.shown.forest.all
  uncategorized := h.shown.forest.uncategorized
  items := h.shown.forest.items
  once := h.shown.forest.once
  counts c hc := by
    obtain ⟨uids, huids⟩ := h.shown.forest.counts c hc
    rw [sum_weight h.within (h.names.free c hc).ne_empty] at huids
    exact ⟨uids, huids⟩

theorem categoryAdded (h : Inv s [] m) (hc : c ∉ s.categories)
    (hfree : Free s.isSubcategoriesEnabled c)
    (habove : ∀ p, belongsToCategory s.isSubcategoriesEnabled p c = true → p ≠ c →
      p ∈ s.categories) (stored : Finset String) :
    Inv { s with categories := insert c s.categories, storedCategories := stored } []
      (m.categoryAdded c) := by
  have hnames := h.names
  have hwithin := h.within
  have hshown := h.shown
  rw [remaining_nil] at hnames hwithin hshown
  have hnames' := hnames.insert hfree habove
  refine ⟨?_, ?_, ?_⟩
  · rw [remaining_nil]
    exact hnames'
  · rw [remaining_nil]
    exact fun id d hd => (hwithin id d hd).imp_right Finset.mem_insert_of_mem
  · rw [remaining_nil]
    exact hshown.categoryAdded hnames hnames' hc (weight_eq_zero hwithin hc hfree.ne_empty)

section

variable (h : Inv s announced m)

include h

theorem categoryRemoved (hfree : Free s.isSubcategoriesEnabled c)
    (hnone : ∀ id d, s.torrents.lookup id = some d → d ≠ "" →
      belongsToCategory s.isSubcategoriesEnabled c d = false) :
    Inv s (c :: announced) (m.categoryRemoved c) := by
  refine ⟨?_, ?_, ?_⟩
  · rw [remaining_cons]
    exact h.names.filter c
  · rw [remaining_cons]
    intro id d hd
    by_cases hempty : d = ""
    · exact .inl hempty
    · exact .inr (mem_filter.2
        ⟨(h.within id d hd).resolve_left hempty, hnone id d hd hempty⟩)
  · rw [remaining_cons]
    exact h.shown.categoryRemoved h.names hfree

theorem torrentCategoryChanged (hold : s.torrents.lookup id = some old)
    (hnew : new = "" ∨ new ∈ remaining s announced) :
    Inv { s with torrents := s.torrents.insert id new } announced
      (m.torrentCategoryChanged new old) := by
  have hmem : id ∈ s.torrents := mem_of_lookup_eq_some hold
  have hkeys : (s.torrents.insert id new).keys = s.torrents.keys := by
    ext x
    rw [mem_keys, mem_keys, Finmap.mem_insert]
    exact ⟨fun hx => hx.elim (fun he => he ▸ hmem) fun hx => hx, .inr⟩
  have hweight : weight (s.torrents.insert id new) = fun d =>
      (weight s.torrents d + if d = old then -1 else 0) + if d = new then 1 else 0 :=
    funext fun d => weight_insert_of_lookup hold d
  refine ⟨h.names, fun id' d hd => ?_, ?_⟩
  · rw [lookup_insert_eq] at hd
    split at hd
    · cases hd
      exact hnew
    · exact h.within id' d hd
  · rw [hweight, hkeys]
    exact (h.shown.increaseItem h.names (h.within id old hold) (-1)).increaseItem h.names hnew 1

theorem torrentAboutToBeRemoved (hold : s.torrents.lookup id = some old) :
    Inv { s with torrents := s.torrents.erase id } announced (m.torrentAboutToBeRemoved old) := by
  have hmem : id ∈ s.torrents.keys := mem_keys.2 (mem_of_lookup_eq_some hold)
  have hcard : ((s.torrents.erase id).keys.card : ℤ) = s.torrents.keys.card + -1 := by
    rw [keys_erase, card_erase_of_mem hmem]
    have := card_pos.2 ⟨id, hmem⟩
    omega
  have hweight : weight (s.torrents.erase id) = fun d =>
      weight s.torrents d + if d = old then -1 else 0 :=
    funext fun d => weight_erase hold d
  refine ⟨h.names, fun id' d hd => ?_, ?_⟩
  · rw [lookup_erase_eq] at hd
    split at hd
    · cases hd
    · exact h.within id' d hd
  · rw [hweight, hcard]
    exact (h.shown.increaseItem h.names (h.within id old hold) (-1)).increaseAll h.names (-1)

theorem torrentsLoaded {ids : List ι} {f : ι → String} (hnodup : ids.Nodup)
    (hnew : ∀ id ∈ ids, id ∉ s.torrents)
    (hcategories : ∀ id ∈ ids, f id = "" ∨ f id ∈ remaining s announced) (loading : Dict ι String) :
    Inv { s with
        torrents := ids.foldl (fun torrents id => torrents.insert id (f id)) s.torrents
        loadingTorrents := loading } announced (m.torrentsLoaded (ids.map f)) := by
  obtain ⟨hwithin, hshown⟩ := h.shown.torrentsLoaded h.names hnodup hnew hcategories h.within
  exact ⟨h.names, hwithin, hshown⟩

end

end Inv

/-! ### Reading the session -/

theorem mem_expandCategory_iff_belongs {p c : String} :
    p ∈ expandCategory c ↔ belongsToCategory true p c = true := by
  rw [mem_expandCategory_iff, itemPath_prefix_iff]

namespace CategoryFilterModel

variable {torrents : Dict ι String} {m : CategoryFilterModel}

theorem populateSubcategories_append (as bs path : List String) :
    populateSubcategories torrents (as ++ bs) path m =
      populateSubcategories torrents bs (path ++ as.map shortName)
        (populateSubcategories torrents as path m) := by
  induction as generalizing path m with
  | nil => simp [populateSubcategories]
  | cons a as ih =>
    rw [List.cons_append, populateSubcategories, ih, populateSubcategories, List.map_cons,
      List.append_assoc, List.singleton_append]

def populateCategory (s : Session ι) (m : CategoryFilterModel) (categoryName : String) :
    CategoryFilterModel :=
  if m.isSubcategoriesEnabled then
    populateSubcategories s.torrents (expandCategory categoryName) [] m
  else m.addChild [] categoryName categoryName
    (Dict.count (belongsToCategory s.isSubcategoriesEnabled categoryName) s.torrents)

end CategoryFilterModel

theorem Forest.empty (subs : Bool) (w : String → ℤ) (all : ℤ) (label : String) (count : ℤ) :
    Forest subs ∅ w all (.node label count
      [(UID_ALL, .node "All" all []), (UID_UNCATEGORIZED, .node "Uncategorized" (w "") [])]) := by
  have hne : UID_UNCATEGORIZED ≠ UID_ALL := by decide
  have hseen : ∀ k path, CountTree.seen (k :: path) (.node label count
      [(UID_ALL, .node "All" all []), (UID_UNCATEGORIZED, .node "Uncategorized" (w "") [])] :
        CategoryModelItem) =
      if k = UID_ALL then CountTree.seen path (.node "All" all [])
      else if k = UID_UNCATEGORIZED then CountTree.seen path (.node "Uncategorized" (w "") [])
      else none := by
    intro k path
    rw [CountTree.seen_cons, CountTree.child, CountTree.children_node, CountTree.lookup_cons_eq,
      CountTree.lookup_cons_eq]
    split_ifs <;> rfl
  have hleaf : ∀ (name : String) (n : ℤ) (k : String) (path : List String),
      CountTree.seen (k :: path) (.node name n [] : CategoryModelItem) = none := fun _ _ _ _ => rfl
  constructor
  · exact ⟨[], rfl⟩
  · rfl
  · rfl
  · intro path h₁ h₂ h₃
    have hempty : ¬ ∃ c ∈ (∅ : Finset String), itemPath subs c = path := by
      rintro ⟨c, hc, -⟩
      exact notMem_empty c hc
    refine iff_of_false ?_ hempty
    cases path with
    | nil => exact (h₁ rfl).elim
    | cons k path =>
      rw [hseen]
      split_ifs with hall huncategorized
      · cases path with
        | nil => exact (h₂ (by rw [hall])).elim
        | cons k' path => rw [hleaf]; exact fun h => by cases h
      · cases path with
        | nil => exact (h₃ (by rw [huncategorized])).elim
        | cons k' path => rw [hleaf]; exact fun h => by cases h
      · exact fun h => by cases h
  · intro path n hn
    cases path with
    | nil =>
      cases hn
      exact List.nodup_cons.2 ⟨by simpa using Ne.symm hne, List.nodup_singleton _⟩
    | cons k path =>
      rw [hseen] at hn
      cases path with
      | nil =>
        split_ifs at hn
        · cases hn
          exact List.nodup_nil
        · cases hn
          exact List.nodup_nil
      | cons k' path =>
        rw [hleaf, hleaf] at hn
        split_ifs at hn
  · exact fun c hc => absurd hc (notMem_empty c)

namespace Shown

variable {torrents : Dict ι String} {m : CategoryFilterModel} {C D : Finset String} {all : ℤ}
  {c : String} {s : Session ι} {l : List String}

theorem populateSubcategories_singleton (hC : Names true C) (hfree : Free true c)
    (habove : ∀ p ∈ expandCategory c, p ≠ c → p ∈ C) (h : Shown true C (weight torrents) all m) :
    Names true (insert c C) ∧ Shown true (insert c C) (weight torrents) all
      (CategoryFilterModel.populateSubcategories torrents [c]
        ((parentName true c).elim [] (itemPath true)) m) := by
  have hC' := hC.insert hfree fun p hp => habove p (mem_expandCategory_iff_belongs.2 hp)
  refine ⟨hC', ?_⟩
  rw [CategoryFilterModel.populateSubcategories, CategoryFilterModel.populateSubcategories]
  have hpath : (parentName true c).elim [] (itemPath true) ++ [shortName c] = itemPath true c :=
    (itemPath_eq true c).symm
  rw [hpath]
  by_cases hc : c ∈ C
  · rw [if_pos ((h.forest.isSome_seen hfree).2 hc), insert_eq_of_mem hc]
    exact h
  · rw [if_neg fun hs => hc ((h.forest.isSome_seen hfree).1 hs)]
    exact h.addChild hC hC' hc

theorem populateSubcategories (hD : Names true D) (hc : c ∈ D) (hC : Names true C)
    (h : Shown true C (weight torrents) all m) :
    Names true (C ∪ (expandCategory c).toFinset) ∧
      Shown true (C ∪ (expandCategory c).toFinset) (weight torrents) all
        (CategoryFilterModel.populateSubcategories torrents (expandCategory c) [] m) := by
  induction hn : c.toList.length using Nat.strong_induction_on generalizing c with
  | _ n ih =>
    by_cases hsep : '/' ∈ c.toList
    · have hparent : parentCategoryName c ∈ expandCategory c := by
        rw [expandCategory_of_mem hsep]
        exact List.mem_append_left _ (mem_expandCategory_self _)
      have hlt : (parentCategoryName c).toList.length < n :=
        hn ▸ length_parentCategoryName_lt (hD.free c hc).ne_empty
      obtain ⟨hC', h'⟩ := ih _ hlt
        (hD.closed c hc _ (mem_expandCategory_iff_belongs.1 hparent)) rfl
      have hpath : (expandCategory (parentCategoryName c)).map shortName =
          (parentName true c).elim [] (itemPath true) := by
        rw [parentName_of_mem hsep, elim_some, itemPath, if_pos rfl]
      have hone := populateSubcategories_singleton hC' (hD.free c hc) (fun p hp hne => ?_) h'
      · rw [expandCategory_of_mem hsep, populateSubcategories_append,
          List.nil_append, hpath, List.toFinset_append, ← Finset.union_assoc]
        have hset : C ∪ (expandCategory (parentCategoryName c)).toFinset ∪ [c].toFinset =
            insert c (C ∪ (expandCategory (parentCategoryName c)).toFinset) := by
          rw [List.toFinset_cons, List.toFinset_nil, insert_empty_eq, union_comm,
            ← insert_eq]
        rw [hset]
        exact hone
      · rw [expandCategory_of_mem hsep, List.mem_append, List.mem_singleton] at hp
        exact mem_union_right _ (List.mem_toFinset.2 (hp.resolve_right hne))
    · have hone := populateSubcategories_singleton hC (hD.free c hc) (fun p hp hne => ?_) h
      · rw [parentName_of_notMem hsep, elim_none] at hone
        rw [expandCategory_of_notMem hsep, List.toFinset_cons, List.toFinset_nil, insert_empty_eq,
          union_comm, ← insert_eq]
        exact hone
      · rw [expandCategory_of_notMem hsep, List.mem_singleton] at hp
        exact (hne hp).elim

theorem populate_flat (hs : s.isSubcategoriesEnabled = false) (hfree : ∀ c ∈ l, Free false c)
    (hnodup : l.Nodup) (hnew : ∀ c ∈ l, c ∉ C) (hC : Names false C)
    (h : Shown false C (weight s.torrents) all m) :
    Shown false (C ∪ l.toFinset) (weight s.torrents) all
      (l.foldl (CategoryFilterModel.populateCategory s) m) := by
  induction l generalizing C m with
  | nil =>
    rw [List.toFinset_nil, Finset.union_empty]
    exact h
  | cons c l ih =>
    obtain ⟨hfreec, hfree⟩ := List.forall_mem_cons.1 hfree
    obtain ⟨hcl, hnodup⟩ := List.nodup_cons.1 hnodup
    obtain ⟨hc, hnew⟩ := List.forall_mem_cons.1 hnew
    have hC' : Names false (insert c C) := hC.insert hfreec fun p hp hne => by
      rw [← itemPath_prefix_iff] at hp
      exact (hne (itemPath_injective (hp.eq_of_length rfl))).elim
    have hcount : (count (belongsToCategory s.isSubcategoriesEnabled c) s.torrents : ℤ) =
        weight s.torrents c := by
      have hfun : belongsToCategory s.isSubcategoriesEnabled c = fun d => decide (d = c) := by
        funext d
        rw [hs, belongsToCategory, Bool.false_and, Bool.or_false]
        split_ifs with hd
        · rw [hd]
          exact decide_eq_decide.2 eq_comm
        · rfl
      rw [hfun, weight]
    have hturn : populateCategory s m c =
        m.addChild [] c c (weight s.torrents c) := by
      rw [populateCategory, h.mode, if_neg Bool.false_ne_true, hcount]
    rw [List.foldl_cons, hturn, List.toFinset_cons, union_insert, ← Finset.insert_union]
    refine ih hfree hnodup (fun d hd hmem => ?_) hC' (h.addChild hC hC' hc)
    rcases mem_insert.1 hmem with rfl | hmem
    · exact hcl hd
    · exact hnew d hd hmem

theorem populate_nested (hD : Names true D) (hl : ∀ c ∈ l, c ∈ D) (hsub : C ⊆ D) (hC : Names true C)
    (h : Shown true C (weight s.torrents) all m) :
    ∃ C', (∀ c ∈ l, c ∈ C') ∧ C ⊆ C' ∧ C' ⊆ D ∧ Shown true C' (weight s.torrents) all
      (l.foldl (CategoryFilterModel.populateCategory s) m) := by
  induction l generalizing C m with
  | nil => exact ⟨C, (fun _ h => by cases h), Subset.refl C, hsub, h⟩
  | cons c l ih =>
    obtain ⟨hc, hl⟩ := List.forall_mem_cons.1 hl
    have hsub' : C ∪ (expandCategory c).toFinset ⊆ D :=
      union_subset hsub fun p hp => hD.closed c hc p
        (mem_expandCategory_iff_belongs.1 (List.mem_toFinset.1 hp))
    obtain ⟨hC', h'⟩ := h.populateSubcategories hD hc hC
    have hturn : populateCategory s m c =
        CategoryFilterModel.populateSubcategories s.torrents (expandCategory c) [] m := by
      rw [populateCategory, h.mode, if_pos rfl]
    rw [List.foldl_cons, hturn]
    obtain ⟨C', hlC, hCC, hCD, hshown⟩ := ih hl hsub' hC' h'
    refine ⟨C', List.forall_mem_cons.2 ⟨hCC (mem_union_right _ (List.mem_toFinset.2
      (mem_expandCategory_self c))), hlC⟩, subset_union_left.trans hCC, hCD, hshown⟩

end Shown

/-- A model with the two first items only. -/
def CategoryFilterModel.ofRows (s : Session ι) (label : String) (count : ℤ) :
    CategoryFilterModel where
  rootItem := .node label count
    [(UID_ALL, .node "All" s.torrents.keys.card []),
      (UID_UNCATEGORIZED, .node "Uncategorized" (weight s.torrents "") [])]
  isSubcategoriesEnabled := s.isSubcategoriesEnabled

theorem CategoryFilterModel.populate_eq (s : Session ι) (hfailed : m.failed = false) :
    ∃ count, m.populate s =
      (ascending s.categories).foldl (populateCategory s) (ofRows s m.rootItem.label count) := by
  have hne : UID_UNCATEGORIZED ≠ UID_ALL := by decide
  refine ⟨m.rootItem.count - CountTree.takenOffList m.rootItem.children + s.torrents.keys.card +
    weight s.torrents "", ?_⟩
  rw [populate, hfailed]
  rfl

theorem Inv.populate {s : Session ι} (hC : Names s.isSubcategoriesEnabled s.categories)
    (hwithin : Within s.torrents s.categories) (hfailed : m.failed = false) :
    Inv s [] (m.populate s) := by
  suffices hshown : Shown s.isSubcategoriesEnabled s.categories (weight s.torrents)
      s.torrents.keys.card (m.populate s) by
    refine ⟨?_, ?_, ?_⟩ <;> rw [remaining_nil]
    exacts [hC, hwithin, hshown]
  have hempty : ∀ subs, Names subs ∅ := fun subs =>
    ⟨fun c hc => absurd hc (notMem_empty c), fun c hc => absurd hc (notMem_empty c)⟩
  obtain ⟨count, hpopulate⟩ := populate_eq s hfailed
  have hforest := Forest.empty s.isSubcategoriesEnabled (weight s.torrents) s.torrents.keys.card
    m.rootItem.label count
  rw [hpopulate]
  have hshown : Shown s.isSubcategoriesEnabled ∅ (weight s.torrents) s.torrents.keys.card
      (ofRows s m.rootItem.label count) := ⟨rfl, rfl, hforest⟩
  cases hs : s.isSubcategoriesEnabled with
  | false =>
    rw [hs] at hC hshown
    have h := hshown.populate_flat hs (fun c hc => hC.free c (mem_ascending.1 hc))
      (sort_nodup _ _) (fun c _ => notMem_empty c) (hempty false)
    rw [Finset.empty_union, ascending, sort_toFinset] at h
    exact h
  | true =>
    rw [hs] at hC hshown
    obtain ⟨C', hl, -, hsub, h⟩ := hshown.populate_nested hC
      (fun c hc => mem_ascending.1 hc) (empty_subset _) (hempty true)
    have hC' : C' = s.categories :=
      Subset.antisymm hsub fun c hc => hl c (mem_ascending.2 hc)
    rw [hC'] at h
    exact h

end QBittorrent.CategoryFilter
