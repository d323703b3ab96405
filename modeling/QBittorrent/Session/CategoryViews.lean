import QBittorrent.Session.Category

/-!
# Categories and tags through whole runs

A view of the categories, such as a list on the screen, starts from the categories that are there
and follows the signals: a name is added, a name is removed, and after `subcategoriesSupportChanged`
everything is read again.

* `consistent_iff` : all stays consistent exactly if every request is settled.
-/

namespace QBittorrent

open SessionImpl Finmap List Finset Dict String

/-! ### Views -/

/-- A view after some signals; `keys` is what there is to read again. -/
def replay (keys : Finset String) (view : Finset String) (signals : List Signal) : Finset String :=
  signals.foldl (fun view signal =>
    match signal with
    | .categoryAdded name => insert name view
    | .categoryRemoved name => view.erase name
    | .subcategoriesSupportChanged => keys
    | _ => view) view

variable {keys view : Finset String}

theorem replay_append (as bs : List Signal) :
    replay keys view (as ++ bs) = replay keys (replay keys view as) bs := foldl_append

theorem mem_replay_added (names : List String) (x : String) :
    x ∈ replay keys view (names.map .categoryAdded) ↔ x ∈ view ∨ x ∈ names := by
  induction names generalizing view with
  | nil => simp [replay]
  | cons name names ih =>
    have hstep : replay keys view ((name :: names).map .categoryAdded) =
        replay keys (insert name view) (names.map .categoryAdded) := rfl
    rw [hstep, ih, Finset.mem_insert, List.mem_cons]
    tauto

theorem mem_replay_removed (names : List String) (x : String) :
    x ∈ replay keys view (names.map .categoryRemoved) ↔ x ∈ view ∧ x ∉ names := by
  induction names generalizing view with
  | nil => simp [replay]
  | cons name names ih =>
    have hstep : replay keys view ((name :: names).map .categoryRemoved) =
        replay keys (view.erase name) (names.map .categoryRemoved) := rfl
    rw [hstep, ih, Finset.mem_erase, List.mem_cons]
    tauto

/-! ### The machine -/

/-- The session, the categories put back while torrents are restored, and a view. -/
structure Watched where
  session : SessionImpl
  recovered : Finset String
  view : Finset String

/-- What the user, the start of the session and libtorrent ask of the session. -/
inductive SessionRequest where
  | addCategory (name : String) (options : CategoryOptions)
  | editCategory (name : String) (options : CategoryOptions)
  | removeCategory (name : String)
  | setSubcategoriesEnabled (value : Bool)
  | addTag (tag : Tag)
  | removeTag (tag : Tag)
  | restoreTorrent (id : TorrentID) (params : LoadParams) (storageLocation : String)
  | addTorrent (id : TorrentID) (params : SessionImpl.AddTorrentParams)
  | addTorrentAlert (id : TorrentID) (status : SessionImpl.NativeStatus)
  | addTorrentError (id : TorrentID)
  | removeTorrent (id : TorrentID)
  | torrentSetCategory (id : TorrentID) (category : String)
  | torrentAddTag (id : TorrentID) (tag : Tag)
  | torrentRemoveTag (id : TorrentID) (tag : Tag)

namespace Watched

variable (Q : PathSettings) (fileSize : Dict String CategoryOptions → ℕ) (w : Watched)

def after (r : Outcome) : Watched :=
  { w with session := r.session, view := replay r.session.categories.keys w.view r.signals }

/-- What a request makes of the session. -/
def handle : SessionRequest → Outcome
  | .addCategory name options => (w.session.addCategory name options).getD { session := w.session }
  | .editCategory name options =>
    (w.session.editCategory Q name options).getD { session := w.session }
  | .removeCategory name => w.session.removeCategory Q name
  | .setSubcategoriesEnabled value => w.session.setSubcategoriesEnabled Q fileSize value
  | .addTag tag => (w.session.addTag tag).getD { session := w.session }
  | .removeTag tag => w.session.removeTag tag
  | .restoreTorrent id params storageLocation =>
    (w.session.restoreTorrent Q w.recovered id params storageLocation).1
  | .addTorrent id params => w.session.addTorrent Q id params
  | .addTorrentAlert id status => w.session.handleAddTorrentAlert id status
  | .addTorrentError id =>
    { session := { w.session with loadingTorrents := w.session.loadingTorrents.erase id } }
  | .removeTorrent id => { session := { w.session with torrents := w.session.torrents.erase id } }
  | .torrentSetCategory id category => w.session.torrentSetCategory Q id category
  | .torrentAddTag id tag => w.session.torrentAddTag id tag
  | .torrentRemoveTag id tag => w.session.torrentRemoveTag id tag

/-- The categories put back after a request. -/
def recoveredAfter : SessionRequest → Finset String
  | .restoreTorrent id params storageLocation =>
    (w.session.restoreTorrent Q w.recovered id params storageLocation).2
  | _ => w.recovered

end Watched

/-- Requests are handled one at a time. -/
def sessionMachine (Q : PathSettings) (fileSize : Dict String CategoryOptions → ℕ) :
    Machine Watched SessionRequest where
  step w request :=
    some { w.after (w.handle Q fileSize request) with recovered := w.recoveredAfter Q request }

/-- The session when its constructor is done; categories are expanded, but not stored. -/
def SessionImpl.start (Q : PathSettings) (fileSize : Dict String CategoryOptions → ℕ)
    (settings : SessionImpl) : SessionImpl :=
  let s : SessionImpl :=
    { settings.loadCategories Q fileSize with
      tags := settings.tags.filter Tag.isValid
      torrents := ∅
      loadingTorrents := ∅ }
  if s.isSubcategoriesEnabled then { s with categories := expandCategories s.categories } else s

/-- A view opened at the start. -/
def Watched.start (Q : PathSettings) (fileSize : Dict String CategoryOptions → ℕ)
    (settings : SessionImpl) : Watched where
  session := settings.start Q fileSize
  recovered := ∅
  view := (settings.start Q fileSize).categories.keys

namespace SessionImpl

/-- A torrent may have the category and the tags. -/
def Known (s : SessionImpl) (params : LoadParams) : Prop :=
  (params.category = "" ∨ params.category ∈ s.categories) ∧ params.tags ⊆ s.tags

def HasParents (categories : Dict String CategoryOptions) : Prop :=
  ∀ name ∈ categories, '/' ∈ name.toList → parentCategoryName name ∈ categories

end SessionImpl

structure Watched.Consistent (w : Watched) : Prop where
  parents : w.session.isSubcategoriesEnabled = true → SessionImpl.HasParents w.session.categories
  known : ∀ id t, w.session.torrents.lookup id = some t → w.session.Known t.toLoadParams
  view : w.view = w.session.categories.keys

/-- The request leaves the session consistent. -/
def Settled (fileSize : Dict String CategoryOptions → ℕ) (w : Watched) : SessionRequest → Prop
  | .addTorrentAlert id _ =>
    ∀ params, w.session.loadingTorrents.lookup id = some params → w.session.Known params
  | .setSubcategoriesEnabled value =>
    w.session.isSubcategoriesEnabled = true → value = false →
      ∀ id t, w.session.torrents.lookup id = some t →
        t.category = "" ∨ (t.category ∈ w.session.storedCategories ∧
          fileSize w.session.storedCategories ≤ 1024 * 1024)
  | _ => True

/-! ### Names -/

theorem mem_expandCategory {name x : String} :
    x ∈ expandCategory name ↔ x.toList ∈ expansions '/' name.toList := by
  rw [expandCategory, List.mem_map]
  constructor
  · rintro ⟨l, hl, rfl⟩
    rwa [toList_ofList]
  · intro h
    exact ⟨x.toList, h, ofList_toList⟩

theorem isBelow_iff {category name : String} :
    isBelow category name = true ↔ category.toList ++ ['/'] <+: name.toList := by
  rw [isBelow, isPrefixOf_iff_prefix]

theorem mem_expandCategory_self (name : String) : name ∈ expandCategory name :=
  mem_expandCategory.2 (mem_expansions_iff.2 (.inl rfl))

def names (categories : Dict String CategoryOptions) : Finset (List Char) :=
  categories.keys.image String.toList

variable {categories : Dict String CategoryOptions}

theorem mem_names {l : List Char} : l ∈ names categories ↔ String.ofList l ∈ categories := by
  rw [names, mem_image]
  constructor
  · rintro ⟨x, hx, rfl⟩
    rw [ofList_toList]
    exact mem_keys.1 hx
  · intro h
    exact ⟨ofList l, mem_keys.2 h, toList_ofList⟩

theorem hasParents_iff :
    SessionImpl.HasParents categories ↔ ParentClosed '/' (names categories) := by
  constructor
  · intro h l hl hsep
    rw [mem_names] at hl ⊢
    simpa [parentCategoryName] using h _ hl (by simpa using hsep)
  · intro h name hname hsep
    have := h name.toList (mem_names.2 (by simpa using hname)) hsep
    exact mem_names.1 this

namespace SessionImpl

variable (Q : PathSettings) {s : SessionImpl} {r r' : Outcome}

/-- Categories and tags are added, with the parents and the signals that go with them; torrents stay
as they are. -/
structure Grows (s : SessionImpl) (r : Outcome) : Prop where
  torrents : r.session.torrents = s.torrents
  isSubcategoriesEnabled : r.session.isSubcategoriesEnabled = s.isSubcategoriesEnabled
  categories : ∀ name ∈ s.categories, name ∈ r.session.categories
  parents : s.isSubcategoriesEnabled = true → HasParents s.categories →
    HasParents r.session.categories
  tags : s.tags ⊆ r.session.tags
  signals : ∀ keys, replay keys s.categories.keys r.signals = r.session.categories.keys

namespace Grows

theorem refl (s : SessionImpl) : Grows s { session := s } :=
  ⟨rfl, rfl, fun _ h => h, fun _ h => h, Finset.Subset.refl _, fun _ => rfl⟩

theorem trans {r'' : Outcome} (h : Grows s r) (h' : Grows r.session r')
    (hsession : r''.session = r'.session) (hsignals : r''.signals = r.signals ++ r'.signals) :
    Grows s r'' where
  torrents := by rw [hsession, h'.torrents, h.torrents]
  isSubcategoriesEnabled := by rw [hsession, h'.isSubcategoriesEnabled, h.isSubcategoriesEnabled]
  categories name hname := by
    rw [hsession]
    exact h'.categories name (h.categories name hname)
  parents hsub hparents := by
    rw [hsession]
    exact h'.parents (h.isSubcategoriesEnabled.trans hsub) (h.parents hsub hparents)
  tags := by
    rw [hsession]
    exact h.tags.trans h'.tags
  signals keys := by rw [hsession, hsignals, replay_append, h.signals, h'.signals]

theorem known (h : Grows s r) {params : LoadParams} (hp : s.Known params) :
    r.session.Known params :=
  ⟨hp.1.imp id (h.categories _), hp.2.trans h.tags⟩

end Grows

theorem mem_foldl_insert (parents : List String) (categories : Dict String CategoryOptions)
    (x : String) :
    x ∈ parents.foldl (fun categories parent => categories.insert parent {}) categories ↔
      x ∈ categories ∨ x ∈ parents := by
  rw [foldl_insert, Finmap.mem_union, mem_ofFinset, mem_toFinset, or_comm]

theorem addCategory_grows {name : String} {options : CategoryOptions}
    (h : s.addCategory name options = some r) : Grows s r := by
  rw [addCategory] at h
  split_ifs at h with h₁ h₂ hsub
  · -- the missing parents come first
    cases h
    set parents := (expandCategory name).filter fun parent =>
      parent ≠ name ∧ parent ∉ s.categories with hparents
    have hmem : ∀ x, x ∈ (parents.foldl (fun c parent => c.insert parent {}) s.categories).insert
        name options ↔ x ∈ s.categories ∨ x ∈ expandCategory name := by
      intro x
      rw [Finmap.mem_insert, mem_foldl_insert, hparents, mem_filter]
      have hself := mem_expandCategory_self name
      by_cases hx : x = name
      · simp [hx, hself]
      · by_cases hin : x ∈ s.categories <;> simp [hx, hin]
    refine ⟨rfl, rfl, fun x hx => (hmem x).2 (.inl hx), fun _ hclosed => ?_, Finset.Subset.refl _,
      fun keys => ext fun x => ?_⟩
    · refine hasParents_iff.2 ?_
      have hunion := (hasParents_iff.1 hclosed).union_expansions name.toList
      convert hunion using 1
      ext l
      rw [mem_names, Finset.mem_union, mem_names, mem_toFinset]
      refine (hmem _).trans ?_
      rw [mem_expandCategory, toList_ofList]
    · rw [replay_append, Finmap.mem_keys]
      refine Iff.trans ?_ (mem_insert.trans (or_congr Iff.rfl (mem_foldl_insert _ _ _))).symm
      have hlast : ∀ view, replay keys view [.categoryAdded name] = insert name view := fun _ => rfl
      rw [hlast, Finset.mem_insert, mem_replay_added, Finmap.mem_keys]
  · -- without subcategories only the name itself is added
    cases h
    refine ⟨rfl, rfl, fun x hx => mem_insert.2 (.inr hx), fun hs => (hsub hs).elim,
      Finset.Subset.refl _, fun keys => ext fun x => ?_⟩
    refine Iff.trans ?_ mem_insert.symm
    show x ∈ insert name s.categories.keys ↔ _
    rw [Finset.mem_insert, Finmap.mem_keys]
    rfl

theorem addTag_grows {tag : Tag} (h : s.addTag tag = some r) : Grows s r := by
  rw [addTag] at h
  split_ifs at h
  cases h
  exact ⟨rfl, rfl, fun _ hx => hx, fun _ hp => hp, subset_insert _ _, fun _ => rfl⟩

theorem addTag_mem {tag : Tag} (h : s.addTag tag = some r) : tag ∈ r.session.tags := by
  rw [addTag] at h
  split_ifs at h
  cases h
  exact mem_insert_self _ _

theorem foldl_grows {f : Outcome × Finset Tag → Tag → Outcome × Finset Tag}
    (hf : ∀ r tag, Grows s r.1 → Grows s (f r tag).1) (tags : List Tag) {r : Outcome × Finset Tag}
    (hr : Grows s r.1) : Grows s (tags.foldl f r).1 := by
  induction tags generalizing r with
  | nil => exact hr
  | cons tag tags ih =>
    exact ih (hf r tag hr)

theorem addTags_grows (tags : List Tag) : Grows s (s.addTags tags).1 := by
  refine foldl_grows (fun r tag hr => ?_) tags (.refl s)
  split_ifs with hmem
  · exact hr
  · cases hadd : r.1.session.addTag tag with
    | none => exact hr
    | some r' => exact hr.trans (addTag_grows hadd) rfl rfl

theorem getD_addCategory_grows (name : String) (options : CategoryOptions) :
    Grows s ((s.addCategory name options).getD { session := s }) := by
  cases h : s.addCategory name options with
  | none => exact .refl s
  | some r => exact addCategory_grows h

theorem getD_addTag_grows (tag : Tag) : Grows s ((s.addTag tag).getD { session := s }) := by
  cases h : s.addTag tag with
  | none => exact .refl s
  | some r => exact addTag_grows h

theorem takeCategory_grows (category : String) : Grows s (s.takeCategory category).1 := by
  rw [takeCategory]
  split_ifs
  · cases h : s.addCategory category {} with
    | none => exact .refl s
    | some r => exact addCategory_grows h
  · exact .refl s

theorem restoreCategory_grows (recovered : Finset String) (category : String) :
    Grows s (s.restoreCategory recovered category).1 := by
  rw [restoreCategory]
  split_ifs
  · cases h : s.addCategory category {} with
    | none => exact .refl s
    | some r => exact addCategory_grows h
  · exact .refl s

theorem initLoadTorrentParams_grows (params : AddTorrentParams) :
    Grows s (s.initLoadTorrentParams Q params).1 :=
  (takeCategory_grows params.category).trans (addTags_grows params.tags) rfl rfl

theorem recoverCategory_grows (recovered : Finset String) (params : LoadParams)
    (storageLocation : String) :
    Grows s (s.recoverCategory Q recovered params storageLocation).1 :=
  (restoreCategory_grows recovered params.category).trans (addTags_grows _) rfl rfl

theorem Grows.withLoading (h : Grows s r) (loading : Dict TorrentID LoadParams) :
    Grows s { r with session := { r.session with loadingTorrents := loading } } :=
  { h with }

theorem addTorrent_grows (id : TorrentID) (params : AddTorrentParams) :
    Grows s (s.addTorrent Q id params) :=
  (initLoadTorrentParams_grows Q params).withLoading _

theorem restoreTorrent_grows (recovered : Finset String) (id : TorrentID) (params : LoadParams)
    (storageLocation : String) :
    Grows s (s.restoreTorrent Q recovered id params storageLocation).1 :=
  (recoverCategory_grows Q recovered params storageLocation).withLoading _

end SessionImpl

namespace Watched.Consistent

variable {w : Watched} {r : Outcome}

theorem of_grows (h : w.Consistent) (hr : SessionImpl.Grows w.session r) :
    (w.after r).Consistent where
  parents hsub := hr.parents (hr.isSubcategoriesEnabled.symm.trans hsub)
    (h.parents (hr.isSubcategoriesEnabled.symm.trans hsub))
  known id t ht := hr.known (h.known id t (by rwa [← hr.torrents]))
  view := by
    show replay _ w.view r.signals = _
    rw [h.view, hr.signals]
    rfl

theorem of_names (h : w.Consistent)
    (hnames : ∀ x, x ∈ r.session.categories ↔ x ∈ w.session.categories)
    (hsub : r.session.isSubcategoriesEnabled = w.session.isSubcategoriesEnabled)
    (hsignals : ∀ keys view, replay keys view r.signals = view)
    (hknown : ∀ id t, r.session.torrents.lookup id = some t → r.session.Known t.toLoadParams) :
    (w.after r).Consistent where
  parents hs name hname hsep :=
    (hnames _).2 (h.parents (hsub.symm.trans hs) name ((hnames _).1 hname) hsep)
  known := hknown
  view := by
    show replay _ w.view r.signals = r.session.categories.keys
    rw [hsignals, h.view]
    exact ext fun x => by rw [Finmap.mem_keys, Finmap.mem_keys, hnames]

theorem of_torrents (h : w.Consistent) {torrents : Dict TorrentID TorrentImpl}
    (hsession : r.session = { w.session with torrents := torrents })
    (hsignals : r.signals = [])
    (hknown : ∀ id t, torrents.lookup id = some t → w.session.Known t.toLoadParams) :
    (w.after r).Consistent := by
  refine h.of_names (fun x => by rw [hsession]) (by rw [hsession])
    (fun _ _ => by rw [hsignals]; rfl) fun id t ht => ?_
  rw [hsession] at ht ⊢
  exact hknown id t ht

end Watched.Consistent

namespace TorrentImpl

variable (Q : PathSettings) (s : SessionImpl) (t : TorrentImpl)

@[simp] theorem disableAutoTMM_category : (t.disableAutoTMM Q s).1.category = t.category := by
  rw [disableAutoTMM]
  split <;> rfl

@[simp] theorem disableAutoTMM_tags : (t.disableAutoTMM Q s).1.tags = t.tags := by
  rw [disableAutoTMM]
  split <;> rfl

@[simp] theorem setCategory_tags (category : String) :
    (t.setCategory Q s category).1.tags = t.tags := by
  rw [setCategory]
  split_ifs <;> simp

theorem setCategory_category (category : String) :
    (t.setCategory Q s category).1.category = t.category ∨
      ((t.setCategory Q s category).1.category = category ∧
        (category = "" ∨ category ∈ s.categories)) := by
  rw [setCategory]
  split_ifs with h₁ h₂
  · exact .inl rfl
  · exact .inl rfl
  all_goals exact .inr ⟨rfl, by tauto⟩

theorem setCategory_empty : (t.setCategory Q s "").1.category = "" := by
  rw [setCategory]
  split_ifs with h₁ h₂
  · exact h₁
  · exact absurd rfl h₂.1
  all_goals rfl

end TorrentImpl

namespace SessionImpl

variable (Q : PathSettings) {s : SessionImpl} {r : Outcome}

theorem lookup_forTorrents {f : TorrentImpl → TorrentImpl × Option String} {id : TorrentID}
    {t' : TorrentImpl} (h : (s.forTorrents f).session.torrents.lookup id = some t') :
    ∃ t, s.torrents.lookup id = some t ∧ t' = (f t).1 := by
  obtain ⟨t, ht, hf⟩ := Option.bind_eq_some_iff.1 ((lookup_filterMap _ _ _).symm.trans h)
  exact ⟨t, ht, (Option.some.inj hf).symm⟩

theorem mem_insert_of_mem {categories : Dict String CategoryOptions} {name : String}
    (h : name ∈ categories) (options : CategoryOptions) (x : String) :
    x ∈ categories.insert name options ↔ x ∈ categories := by
  rw [Finmap.mem_insert]
  exact ⟨fun hx => hx.elim (fun hn => hn ▸ h) id, .inr⟩

theorem HasParents.removeCategory {c c' : Dict String CategoryOptions} (h : HasParents c)
    (name : String) (hc : ∀ x, x ∈ c' ↔ x ∈ c ∧ x ≠ name ∧ ¬ isBelow name x = true) :
    HasParents c' := by
  have hnames : ∀ l, l ∈ names c' ↔
      l ∈ names c ∧ l ≠ name.toList ∧ ¬ name.toList ++ ['/'] <+: l := by
    intro l
    rw [mem_names, mem_names, hc, isBelow_iff, toList_ofList]
    refine and_congr_right' (and_congr_left' ?_)
    constructor
    · rintro hne rfl
      exact hne ofList_toList
    · rintro hne rfl
      exact hne (toList_ofList).symm
  exact hasParents_iff.2 ((hasParents_iff.1 h).removeSubtree hnames)

theorem hasParents_expandCategories (c : Dict String CategoryOptions) :
    HasParents (expandCategories c) := by
  refine hasParents_iff.2 (parentClosed_expansions (s := names c) fun l => ?_)
  rw [mem_names, expandCategories, Finmap.mem_union, mem_ofFinset, Finset.mem_biUnion]
  constructor
  · rintro (h | ⟨name, hname, hl⟩)
    · exact ⟨l, mem_names.2 h, mem_expansions_iff.2 (.inl rfl)⟩
    · refine ⟨name.toList, mem_names.2 (by simpa using mem_keys.1 hname), ?_⟩
      simpa using mem_expandCategory.1 (mem_toFinset.1 hl)
  · rintro ⟨l', hl', hl⟩
    refine .inr ⟨ofList l', mem_keys.2 (mem_names.1 hl'), mem_toFinset.2 ?_⟩
    rw [mem_expandCategory]
    simpa using hl

theorem mem_loadCategories (fileSize : Dict String CategoryOptions → ℕ) (x : String) :
    x ∈ (s.loadCategories Q fileSize).categories ↔
      x ∈ s.storedCategories ∧ fileSize s.storedCategories ≤ 1024 * 1024 := by
  rw [loadCategories]
  split_ifs with h
  · exact ⟨fun hx => absurd hx notMem_empty, fun hx => by omega⟩
  · rw [mem_filterMap_some]
    exact ⟨fun hx => ⟨hx, by omega⟩, And.left⟩

end SessionImpl

namespace Watched.Consistent

variable (Q : PathSettings) {w : Watched} {r : Outcome}

section

variable (h : w.Consistent) {id : TorrentID}

include h

theorem editCategory {name : String} {options : CategoryOptions}
    (hr : w.session.editCategory Q name options = some r) : (w.after r).Consistent := by
  rw [SessionImpl.editCategory] at hr
  cases hname : w.session.categories.lookup name with
  | none => simp [hname] at hr
  | some currentOptions =>
    have hmem := mem_insert_of_mem (mem_of_lookup_eq_some hname) options
    have hknown : ∀ t : TorrentImpl, w.session.Known t.toLoadParams →
        (t.category = "" ∨ t.category ∈ w.session.categories.insert name options) ∧
          t.tags ⊆ w.session.tags := fun t ht => ⟨ht.1.imp_right (hmem _).2, ht.2⟩
    simp only [hname] at hr
    rw [disableAffected] at hr
    split_ifs at hr with hsame hdisable
    · cases hr
      refine h.of_names hmem rfl (fun _ _ => rfl) fun id t' ht' => ?_
      obtain ⟨t, ht, rfl⟩ := lookup_forTorrents ht'
      refine hknown _ ?_
      have := h.known id t ht
      split_ifs
      · exact ⟨by simpa using this.1, by simpa using this.2⟩
      · exact this
    · cases hr
      exact h.of_names hmem rfl (fun _ _ => rfl) fun id t ht => hknown t (h.known id t ht)

theorem removeCategory (name : String) :
    (w.after (w.session.removeCategory Q name)).Consistent := by
  set s := w.session with hs
  set subcategories := s.subcategoriesOf name with hsubcategories
  have hmemSub : ∀ x, x ∈ subcategories ↔
      s.isSubcategoriesEnabled = true ∧ x ∈ s.categories ∧ isBelow name x = true := by
    intro x
    rw [hsubcategories, subcategoriesOf]
    split_ifs with hsub <;> simp [hsub, Finmap.mem_keys]
  have hmem : ∀ x, x ∈ (s.categories.eraseAll subcategories).erase name ↔
      x ∈ s.categories ∧ x ≠ name ∧ x ∉ subcategories := by
    intro x
    rw [Finmap.mem_erase, mem_eraseAll]
    tauto
  -- the torrents of the removed categories lose theirs
  have hknown : ∀ id t', (s.forTorrents fun t =>
      if t.belongsToCategory s name then t.setCategory Q s "" else (t, none)).session.torrents.lookup
        id = some t' →
      (t'.category = "" ∨ (t'.category ∈ s.categories ∧ t'.category ≠ name ∧
        t'.category ∉ subcategories)) ∧ t'.tags ⊆ s.tags := by
    intro id t' ht'
    obtain ⟨t, ht, rfl⟩ := lookup_forTorrents ht'
    have hold := h.known id t ht
    by_cases hbelongs : t.belongsToCategory s name
    · rw [if_pos hbelongs]
      exact ⟨.inl (t.setCategory_empty Q s), by simpa using hold.2⟩
    · rw [if_neg hbelongs]
      refine ⟨?_, hold.2⟩
      by_cases hempty : t.category = ""
      · exact .inl hempty
      · rw [TorrentImpl.belongsToCategory, if_neg hempty] at hbelongs
        simp only [Bool.or_eq_true, decide_eq_true_eq, Bool.and_eq_true, not_or, not_and] at hbelongs
        refine .inr ⟨hold.1.resolve_left hempty, hbelongs.1, fun hin => ?_⟩
        obtain ⟨hsub, -, hbelow⟩ := (hmemSub _).1 hin
        exact hbelongs.2 hsub hbelow
  rw [SessionImpl.removeCategory]
  split_ifs with hnone
  · -- nothing is removed
    have hsame : ∀ x, x ∈ s.categories ∧ x ≠ name ∧ x ∉ subcategories → x ∈ s.categories :=
      fun _ hx => hx.1
    exact h.of_torrents rfl rfl fun id t' ht' =>
      ⟨(hknown id t' ht').1.imp_right (hsame _), (hknown id t' ht').2⟩
  · refine ⟨fun hsub => (h.parents hsub).removeCategory name fun x => ?_, fun id t' ht' => ?_, ?_⟩
    · refine (hmem x).trans (and_congr_right fun hx => and_congr_right' (not_congr ?_))
      rw [hmemSub]
      exact ⟨fun hin => hin.2.2, fun hbelow => ⟨hsub, hx, hbelow⟩⟩
    · exact ⟨(hknown id t' ht').1.imp_right (hmem _).2, (hknown id t' ht').2⟩
    · show replay _ w.view _ = ((s.categories.eraseAll subcategories).erase name).keys
      rw [h.view]
      refine ext fun x => ?_
      rw [replay_append, Finmap.mem_keys, hmem]
      show x ∈ erase (replay _ _ _) name ↔ _
      rw [Finset.mem_erase, mem_replay_removed, mem_sort, Finmap.mem_keys]
      tauto

theorem setSubcategoriesEnabled (fileSize : Dict String CategoryOptions → ℕ) {value : Bool}
    (hC : Settled fileSize w (.setSubcategoriesEnabled value)) :
    (w.after (w.session.setSubcategoriesEnabled Q fileSize value)).Consistent := by
  rw [SessionImpl.setSubcategoriesEnabled]
  by_cases hsame : w.session.isSubcategoriesEnabled = value
  · rw [if_pos hsame]
    exact h.of_grows (.refl _)
  · rw [if_neg hsame]
    cases value with
    | true =>
      refine ⟨fun _ => hasParents_expandCategories _, fun id t ht => ?_, rfl⟩
      refine ⟨(h.known id t ht).1.imp_right fun hin => ?_, (h.known id t ht).2⟩
      exact mem_union.2 (.inl hin)
    | false =>
      refine ⟨fun hsub => absurd hsub (by simp [Watched.after]), fun id t ht => ?_, rfl⟩
      have hsub : w.session.isSubcategoriesEnabled = true := by simpa using hsame
      exact ⟨(hC hsub rfl id t ht).imp_right (mem_loadCategories Q fileSize _).2,
        (h.known id t ht).2⟩

theorem removeTag (tag : Tag) : (w.after (w.session.removeTag tag)).Consistent := by
  rw [SessionImpl.removeTag]
  split_ifs with htag
  · refine h.of_names (fun _ => Iff.rfl) rfl (fun _ _ => rfl) fun id t' ht' => ?_
    obtain ⟨t, ht, hf⟩ := Option.bind_eq_some_iff.1 ((lookup_filterMap _ _ _).symm.trans ht')
    obtain rfl := Option.some.inj hf
    exact ⟨(h.known id t ht).1, erase_subset_erase tag (h.known id t ht).2⟩
  · exact h.of_grows (.refl _)

theorem insert_torrent {t : TorrentImpl} (hr : r.session =
    { w.session with torrents := w.session.torrents.insert id t }) (hsignals : r.signals = [])
    (ht : w.session.Known t.toLoadParams) : (w.after r).Consistent := by
  refine h.of_torrents hr hsignals fun id' t' ht' => ?_
  rw [lookup_insert_eq] at ht'
  split_ifs at ht' with hid
  · cases ht'
    exact ht
  · exact h.known id' t' ht'

theorem torrentSetCategory (id : TorrentID) (category : String) :
    (w.after (w.session.torrentSetCategory Q id category)).Consistent := by
  rw [SessionImpl.torrentSetCategory]
  cases hid : w.session.torrents.lookup id with
  | none => exact h.of_grows (.refl _)
  | some t =>
    have hold := h.known id t hid
    refine h.insert_torrent rfl rfl ⟨?_, by simpa using hold.2⟩
    obtain hkeep | ⟨hnew, hin⟩ := t.setCategory_category Q w.session category
    · rw [hkeep]
      exact hold.1
    · rw [hnew]
      exact hin

theorem torrentRemoveTag (id : TorrentID) (tag : Tag) :
    (w.after (w.session.torrentRemoveTag id tag)).Consistent := by
  rw [SessionImpl.torrentRemoveTag]
  cases hid : w.session.torrents.lookup id with
  | none => exact h.of_grows (.refl _)
  | some t =>
    have hold := h.known id t hid
    exact h.insert_torrent rfl rfl ⟨hold.1, (erase_subset _ _).trans hold.2⟩

theorem torrentAddTag (id : TorrentID) (tag : Tag) :
    (w.after (w.session.torrentAddTag id tag)).Consistent := by
  rw [SessionImpl.torrentAddTag]
  cases hid : w.session.torrents.lookup id with
  | none => exact h.of_grows (.refl _)
  | some t =>
    have hold := h.known id t hid
    simp only
    split_ifs with hrefused htag
    · exact h.of_grows (.refl _)
    · exact h.insert_torrent rfl rfl ⟨hold.1, insert_subset htag hold.2⟩
    · -- the session takes the tag first
      cases hadd : w.session.addTag tag with
      | none => exact h.of_grows (.refl _)
      | some r =>
        have hgrows := addTag_grows hadd
        have hnew := hgrows.known hold
        refine ⟨fun hsub => (h.of_grows hgrows).parents hsub, fun id' t' ht' => ?_,
          (h.of_grows hgrows).view⟩
        have ht := (lookup_insert_eq _ _ _ _).symm.trans ht'
        split_ifs at ht with hsame
        · cases ht
          exact ⟨hnew.1, insert_subset (addTag_mem hadd) hnew.2⟩
        · exact (h.of_grows hgrows).known id' t' ht

theorem addTorrentAlert (fileSize : Dict String CategoryOptions → ℕ)
    {status : SessionImpl.NativeStatus} (hC : Settled fileSize w (.addTorrentAlert id status)) :
    (w.after (w.session.handleAddTorrentAlert id status)).Consistent := by
  rw [handleAddTorrentAlert]
  cases hid : w.session.loadingTorrents.lookup id with
  | none => exact h.of_grows (.refl _)
  | some params =>
    refine h.of_names (fun _ => Iff.rfl) rfl (fun _ _ => rfl) fun id' t' ht' => ?_
    have ht := (lookup_insert_eq _ _ _ _).symm.trans ht'
    by_cases hsame : id' = id
    · rw [if_pos hsame] at ht
      cases ht
      exact hC params hid
    · rw [if_neg hsame] at ht
      exact h.known id' t' ht

theorem removeTorrent (id : TorrentID) : (w.after { session :=
      { w.session with torrents := w.session.torrents.erase id } }).Consistent := by
  refine h.of_torrents rfl rfl fun id' t' ht' => ?_
  rw [lookup_erase_eq] at ht'
  split_ifs at ht'
  exact h.known id' t' ht'

theorem handle {fileSize : Dict String CategoryOptions → ℕ} {request : SessionRequest}
    (hC : Settled fileSize w request) : (w.after (w.handle Q fileSize request)).Consistent := by
  cases request with
  | addCategory name options => exact h.of_grows (getD_addCategory_grows name options)
  | editCategory name options =>
    rw [Watched.handle]
    cases hr : w.session.editCategory Q name options with
    | none => exact h.of_grows (.refl _)
    | some r => exact h.editCategory Q hr
  | removeCategory name => exact h.removeCategory Q name
  | setSubcategoriesEnabled value => exact h.setSubcategoriesEnabled Q fileSize hC
  | addTag tag => exact h.of_grows (getD_addTag_grows tag)
  | removeTag tag => exact h.removeTag tag
  | restoreTorrent id params storageLocation =>
    exact h.of_grows (restoreTorrent_grows Q w.recovered id params storageLocation)
  | addTorrent id params => exact h.of_grows (addTorrent_grows Q id params)
  | addTorrentAlert id status => exact h.addTorrentAlert fileSize hC
  | addTorrentError id => exact h.of_grows ((Grows.refl _).withLoading _)
  | removeTorrent id => exact h.removeTorrent id
  | torrentSetCategory id category => exact h.torrentSetCategory Q id category
  | torrentAddTag id tag => exact h.torrentAddTag id tag
  | torrentRemoveTag id tag => exact h.torrentRemoveTag id tag

end

end Watched.Consistent

section Runs

variable (Q : PathSettings) (fileSize : Dict String CategoryOptions → ℕ)

theorem Watched.start_consistent (settings : SessionImpl) :
    (Watched.start Q fileSize settings).Consistent := by
  refine ⟨fun hsub => ?_, fun id t ht => ?_, rfl⟩
  · rw [Watched.start, SessionImpl.start] at hsub ⊢
    split_ifs at hsub ⊢ with h
    · exact hasParents_expandCategories _
    · exact absurd hsub h
  · have hnone : (Watched.start Q fileSize settings).session.torrents = ∅ := by
      rw [Watched.start, SessionImpl.start]
      split_ifs <;> rfl
    rw [hnone] at ht
    simp at ht

theorem Watched.not_consistent_of_not_settled {w : Watched} {request : SessionRequest}
    (h : ¬ Settled fileSize w request) : ¬ (w.after (w.handle Q fileSize request)).Consistent := by
  intro hafter
  cases request with
  | addTorrentAlert id status =>
    refine h fun params hid => ?_
    have ht : (w.session.handleAddTorrentAlert id status).session.torrents.lookup id =
        some
          { params with
            hasMetadata := status.hasMetadata
            isFinished := status.isFinished
            hasFinishedStatus := status.hasFinishedStatus
            isMoveInProgress := false
            actualStorageLocation := if status.hasMetadata then status.savePath else "" } := by
      rw [handleAddTorrentAlert, hid]
      exact lookup_insert _
    have hknown := hafter.known id _ ht
    rw [Watched.handle, handleAddTorrentAlert, hid] at hknown
    exact hknown
  | setSubcategoriesEnabled value =>
    refine h fun hsub hvalue id t ht => ?_
    subst hvalue
    have hchange : ¬ w.session.isSubcategoriesEnabled = false := by simp [hsub]
    rw [Watched.handle, setSubcategoriesEnabled, if_neg hchange] at hafter
    exact (hafter.known id t ht).1.imp_right (mem_loadCategories Q fileSize _).1
  | _ => exact h trivial

/-- **Categories, tags and views.**  From the start of the session, parents, torrents and views stay
as they should be in a run exactly when its requests are settled. -/
theorem consistent_iff (settings : SessionImpl) (requests : List SessionRequest) :
    (sessionMachine Q fileSize).Always Watched.Consistent (Watched.start Q fileSize settings)
        requests ↔
      (sessionMachine Q fileSize).Meets (Settled fileSize) (Watched.start Q fileSize settings)
        requests := by
  have hsome : ∀ (l : List SessionRequest) (w : Watched),
      ((sessionMachine Q fileSize).run w l).isSome := by
    intro l
    induction l with
    | nil => exact fun _ => rfl
    | cons request l ih => exact fun w => ih _
  refine Machine.always_iff_meets (I := Watched.Consistent) (Watched.start_consistent Q fileSize _)
    (fun _ h => h) (fun w request w' h hC hstep => ?_) (fun w request w' _ hC hstep hP => ?_)
    (hsome _ _)
  · cases hstep
    have := h.handle Q hC
    exact ⟨this.parents, this.known, this.view⟩
  · cases hstep
    exact Watched.not_consistent_of_not_settled Q fileSize hC { hP with }

end Runs

/-- A category is removed while a torrent of it is being loaded. -/
theorem category_removed_while_loading :
    ¬ ∀ (Q : PathSettings) (fileSize : Dict String CategoryOptions → ℕ) (settings : SessionImpl)
      (requests : List SessionRequest), (sessionMachine Q fileSize).Always Watched.Consistent
        (Watched.start Q fileSize settings) requests := by
  intro h
  let Q : PathSettings := ⟨id, "/home/user/Downloads"⟩
  have hend := (h Q (fun _ => 0) (.initial Q)
    [.addTorrent "8a19577fb5f690970ca43a57ff1011ae202244b8" ⟨"films", [], none, "", "", none⟩,
      .removeCategory "films",
      .addTorrentAlert "8a19577fb5f690970ca43a57ff1011ae202244b8"
        ⟨true, false, false, "/home/user/Downloads"⟩]).at_end rfl
  have hknown := hend.known "8a19577fb5f690970ca43a57ff1011ae202244b8" _ rfl
  exact absurd hknown.1 (by decide)

end QBittorrent
