import QBittorrent.Lib.Json
import QBittorrent.Rss.ItemPath
import Mathlib.Data.List.Sort

/-!
# The file of the feeds

The tree of folders and feeds is stored as JSON: a folder is an object with a member for each of its
items, a feed an object with its UID and its URL.  The loader tells them apart by the key `url`.

* `loads_insertItems` : a folder;
* `load_store_iff` : when the tree comes back.
-/

namespace QBittorrent.Rss.FeedsFile

open JsonObject JsonValue ItemPath List

inductive Item (U : Type) where
  | feed (path : List Char) (uid : U) (url : String)
  | folder (path : List Char) (items : List (Item U))

variable {U : Type}

/-- What is used of Qt: UIDs as text, the order of keys in an object, and JSON as text, which is
read back as it was written or refused. -/
structure FeedsFormat (U : Type) where
  toText : U → String
  ofText : String → U
  ofText_toText : ∀ uid, ofText (toText uid) = uid
  null : U
  generateUID : List U → U
  keyLe : String → String → Bool
  toJson : JsonValue → List UInt8
  fromJson : List UInt8 → Option JsonValue
  fromJson_toJson : ∀ v, fromJson (toJson v) = none ∨ fromJson (toJson v) = some v

namespace Item

def path : Item U → List Char
  | feed path _ _ => path
  | folder path _ => path

def name (item : Item U) : List Char := relativeName item.path

/-- The name as a key of an object. -/
def key (item : Item U) : String := String.ofList item.name

theorem relativeName_joinPath_key (folder : List Char) (item : Item U) :
    relativeName (joinPath folder item.key.toList) = item.name := by
  rw [key, String.toList_ofList]
  exact relativeName_joinPath folder (not_mem_relativeName item.path)

theorem induction {P : Item U → Prop} (hfeed : ∀ path uid url, P (.feed path uid url))
    (hfolder : ∀ path items, (∀ item ∈ items, P item) → P (.folder path items))
    (item : Item U) : P item :=
  Item.rec (motive_1 := P) (motive_2 := fun items => ∀ item ∈ items, P item) hfeed hfolder nofun
    (fun _ _ hitem hitems => forall_mem_cons.2 ⟨hitem, hitems⟩) item

end Item

variable (F : FeedsFormat U)

/-! ### Writing -/

/-- `QJsonObject::insert`: one member for each key, in the order of the keys. -/
def insertMember (key : String) (value : JsonValue) (jsonObj : JsonObject) : JsonObject :=
  (jsonObj.filter fun member => member.1 ≠ key).orderedInsert
    (fun a b => F.keyLe a.1 b.1 = true) (key, value)

mutual

def Item.toJsonValue : Item U → JsonValue
  | .feed _ uid url => .object [("uid", .string (F.toText uid)), ("url", .string url)]
  | .folder _ items => .object (insertItems items [])
termination_by structural item => item

/-- The loop over the items of a folder. -/
def insertItems : List (Item U) → JsonObject → JsonObject
  | [], jsonObj => jsonObj
  | item :: items, jsonObj =>
    insertItems items (insertMember F item.key item.toJsonValue jsonObj)
termination_by structural items => items

end

/-- `store`, for the items of the root folder. -/
def store (items : List (Item U)) : List UInt8 := F.toJson (.object (insertItems F items []))

/-! ### Reading -/

variable [DecidableEq U]

mutual

/-- `loadFolder` for the folder at a path, with the UIDs that are known: the items, the UIDs, and
whether something was repaired. -/
def loadFolder : JsonObject → List Char → List U → List (Item U) × List U × Bool
  | [], _, known => ([], known, false)
  | member :: members, folder, known =>
    let first := loadMember member folder known
    let rest := loadFolder members folder first.2.1
    (first.1 ++ rest.1, rest.2.1, first.2.2 || rest.2.2)
termination_by structural members => members

def loadMember : String × JsonValue → List Char → List U → List (Item U) × List U × Bool
  | (key, value), folder, known => loadValue value key folder known
termination_by structural member => member

def loadValue : JsonValue → String → List Char → List U → List (Item U) × List U × Bool
  | .string url, key, folder, known =>
    -- the previous format, without UID
    let uid := F.generateUID known
    ([.feed (joinPath folder key.toList) uid (if url = "" then key else url)], known ++ [uid], true)
  | .object valObj, key, folder, known =>
    let path := joinPath folder key.toList
    match JsonObject.value valObj "url" with
    | some (.string url) =>
      match JsonObject.value valObj "uid" with
      | some uidValue =>
        let uid := F.ofText (JsonValue.toText (some uidValue))
        if uid = F.null then ([], known, false)
        else if uid ∈ known then ([], known, false)
        else ([.feed path uid url], known ++ [uid], false)
      | none =>
        let uid := F.generateUID known
        ([.feed path uid url], known ++ [uid], true)
    | some _ => ([], known, false)
    | none =>
      let sub := loadFolder valObj path known
      ([.folder path sub.1], sub.2.1, sub.2.2)
  | _, _, _, known => ([], known, false)
termination_by structural value => value

end

/-- The largest size of the file that is read. -/
def fileMaxSize : ℕ := 10 * 1024 * 1024

/-- `load`: the items of the root folder, and whether the file is to be written again. -/
def load (file : List UInt8) : List (Item U) × Bool :=
  if fileMaxSize < file.length then ([], false)
  else
    match F.fromJson file with
    | some (.object members) =>
      let loaded := loadFolder F members [] []
      (loaded.1, loaded.2.2)
    | _ => ([], false)

/-! ### What is meant -/

/-- The names on the way to an item, and the UID and the URL of a feed. -/
abbrev Entry (U : Type) := List (List Char) × Option (U × String)

mutual

def Item.entries (above : List (List Char)) : Item U → List (Entry U)
  | .feed path uid url => [(above ++ [relativeName path], some (uid, url))]
  | .folder path items =>
    (above ++ [relativeName path], none) :: entriesOf (above ++ [relativeName path]) items
termination_by structural item => item

/-- The items of a tree. -/
def entriesOf (above : List (List Char)) : List (Item U) → List (Entry U)
  | [] => []
  | item :: items => item.entries above ++ entriesOf above items
termination_by structural items => items

end

def uidsOf (entries : List (Entry U)) : List U :=
  entries.filterMap fun entry => entry.2.map Prod.fst

def namesOf (items : List (Item U)) : List String := items.map Item.key

mutual

/-- The names in the folders below are different, and none of them is `url`. -/
def Item.Sound : Item U → Prop
  | .feed _ _ _ => True
  | .folder _ items => "url" ∉ namesOf items ∧ (namesOf items).Nodup ∧ AllSound items
termination_by structural item => item

def AllSound : List (Item U) → Prop
  | [] => True
  | item :: items => item.Sound ∧ AllSound items
termination_by structural items => items

end

/-- UIDs that are all read: they are different, none is null and none is known. -/
def Fresh (known uids : List U) : Prop :=
  uids.Nodup ∧ ∀ uid ∈ uids, uid ≠ F.null ∧ uid ∉ known

/-- What is to be read: the same items, with nothing to repair. -/
def Same (items : List (Item U)) (loaded : List (Item U) × Bool) : Prop :=
  (entriesOf [] loaded.1).Perm (entriesOf [] items) ∧ loaded.2 = false

/-- A tree that is read back: its file is not too large and nested no deeper than Qt reads, names
in one folder are different, no folder but the root holds an item named `url`, and UIDs are
different and not null. -/
structure ReadBack (items : List (Item U)) : Prop where
  size : (store F items).length ≤ fileMaxSize
  json : F.fromJson (store F items) = some (.object (insertItems F items []))
  names : (namesOf items).Nodup
  sound : AllSound items
  uids : Fresh F [] (uidsOf (entriesOf [] items))

section Trees

variable {F} {items others : List (Item U)} {item : Item U} {above : List (List Char)}
  {key : String}

omit [DecidableEq U]

theorem entriesOf_eq_flatMap (above : List (List Char)) (items : List (Item U)) :
    entriesOf above items = items.flatMap (Item.entries above) := by
  induction items with
  | nil => rfl
  | cons item items ih => rw [entriesOf, ih, flatMap_cons]

theorem allSound_iff : AllSound items ↔ ∀ item ∈ items, item.Sound := by
  induction items with
  | nil => exact iff_of_true trivial fun _ h => absurd h not_mem_nil
  | cons item items ih => rw [AllSound, ih, forall_mem_cons]

theorem entries_ne_nil (item : Item U) (above : List (List Char)) : item.entries above ≠ [] := by
  cases item <;> exact cons_ne_nil _ _

theorem entriesOf_perm (above : List (List Char)) (h : items.Perm others) :
    (entriesOf above items).Perm (entriesOf above others) := by
  rw [entriesOf_eq_flatMap, entriesOf_eq_flatMap]
  exact h.flatMap_right _

theorem entriesOf_append (above : List (List Char)) (items others : List (Item U)) :
    entriesOf above (items ++ others) = entriesOf above items ++ entriesOf above others := by
  rw [entriesOf_eq_flatMap, entriesOf_eq_flatMap, entriesOf_eq_flatMap, flatMap_append]

theorem uidsOf_append (entries others : List (Entry U)) :
    uidsOf (entries ++ others) = uidsOf entries ++ uidsOf others := filterMap_append

theorem uidsOf_perm {entries others : List (Entry U)} (h : entries.Perm others) :
    (uidsOf entries).Perm (uidsOf others) := h.filterMap _

theorem entriesOf_sublist (above : List (List Char)) (h : items.Sublist others) :
    (entriesOf above items).Sublist (entriesOf above others) := by
  rw [entriesOf_eq_flatMap, entriesOf_eq_flatMap]
  exact h.flatMap _

theorem length_entriesOf_lt (above : List (List Char)) (h : items.Sublist others)
    (hne : items ≠ others) :
    (entriesOf above items).length < (entriesOf above others).length := by
  induction h with
  | slnil => exact absurd rfl hne
  | cons item h ih =>
    have hle := (entriesOf_sublist above h).length_le
    have hpos := length_pos_iff.2 (entries_ne_nil item above)
    rw [entriesOf, length_append]
    omega
  | cons_cons item h ih =>
    have := ih fun heq => hne (by rw [heq])
    rw [entriesOf, entriesOf, length_append, length_append]
    omega

/-! ### Members and items -/

/-- The member that stands for an item. -/
def memberOf (F : FeedsFormat U) (item : Item U) : String × JsonValue :=
  (item.key, item.toJsonValue F)

/-- The place of an item among others whose members are in the order of the keys. -/
def insertItem (F : FeedsFormat U) (item : Item U) (items : List (Item U)) : List (Item U) :=
  (items.filter fun other => other.key ≠ item.key).orderedInsert
    (fun a b => F.keyLe a.key b.key = true) item

def arranged (F : FeedsFormat U) (items others : List (Item U)) : List (Item U) :=
  others.foldl (fun items item => insertItem F item items) items

theorem insertMember_map (item : Item U) (items : List (Item U)) :
    insertMember F item.key (item.toJsonValue F) (items.map (memberOf F)) =
      (insertItem F item items).map (memberOf F) := by
  have hordered : ∀ l : List (Item U), (l.map (memberOf F)).orderedInsert
      (fun a b => F.keyLe a.1 b.1 = true) (memberOf F item) =
        (l.orderedInsert (fun a b => F.keyLe a.key b.key = true) item).map (memberOf F) := by
    intro l
    induction l with
    | nil => rfl
    | cons other l ih =>
      rw [map_cons, orderedInsert_cons, orderedInsert_cons]
      change (if F.keyLe item.key other.key = true then _ else _) = _
      split_ifs
      · rfl
      · rw [map_cons, ih]
  rw [insertMember, insertItem, ← hordered, filter_map]
  rfl

theorem insertItems_map (items others : List (Item U)) :
    insertItems F others (items.map (memberOf F)) =
      (arranged F items others).map (memberOf F) := by
  induction others generalizing items with
  | nil => rfl
  | cons item others ih => rw [insertItems, insertMember_map, ih]; rfl

theorem insertItem_perm (item : Item U) (items : List (Item U)) :
    (insertItem F item items).Perm (item :: items.filter fun other => other.key ≠ item.key) :=
  perm_orderedInsert _ _ _

theorem filter_name_eq_self (h : item.key ∉ namesOf items) :
    items.filter (fun other => other.key ≠ item.key) = items := by
  refine filter_eq_self.2 fun other hother => decide_eq_true fun heq => h ?_
  rw [← heq]
  exact mem_map.2 ⟨other, hother, rfl⟩

theorem nodup_namesOf_insertItem (h : (namesOf items).Nodup) (item : Item U) :
    (namesOf (insertItem F item items)).Nodup := by
  refine ((insertItem_perm item items).map Item.key).nodup_iff.2 ?_
  rw [map_cons, nodup_cons]
  refine ⟨fun hmem => ?_, h.sublist (filter_sublist.map _)⟩
  obtain ⟨other, hother, heq⟩ := mem_map.1 hmem
  exact of_decide_eq_true (mem_filter.1 hother).2 heq

theorem arranged_perm (items others : List (Item U))
    (h : (namesOf (items ++ others)).Nodup) :
    (arranged F items others).Perm (items ++ others) := by
  induction others generalizing items with
  | nil => rw [append_nil]; exact Perm.refl _
  | cons item others ih =>
    rw [namesOf, map_append, map_cons, nodup_middle, nodup_cons,
      mem_append, not_or] at h
    have hperm : (insertItem F item items).Perm (item :: items) := by
      have := insertItem_perm (F := F) item items
      rwa [filter_name_eq_self h.1.1] at this
    have happend : (insertItem F item items ++ others).Perm (items ++ item :: others) :=
      (hperm.append_right others).trans perm_middle.symm
    refine (ih _ ?_).trans happend
    rw [namesOf, (happend.map Item.key).nodup_iff, map_append, map_cons,
      nodup_middle, nodup_cons, mem_append, not_or]
    exact h

theorem insertItem_subset : ∀ other ∈ insertItem F item items, other = item ∨ other ∈ items := by
  intro other hother
  rcases mem_cons.1 ((insertItem_perm item items).mem_iff.1 hother) with heq | hmem
  · exact .inl heq
  · exact .inr (mem_filter.1 hmem).1

theorem arranged_subset : ∀ item ∈ arranged F items others, item ∈ items ∨ item ∈ others := by
  induction others generalizing items with
  | nil => exact fun item hitem => .inl hitem
  | cons other others ih =>
    intro item hitem
    rcases ih item hitem with hmem | hmem
    · rcases insertItem_subset item hmem with rfl | hold
      · exact .inr mem_cons_self
      · exact .inl hold
    · exact .inr (mem_cons_of_mem _ hmem)

theorem entriesOf_arranged (above : List (List Char)) (items others : List (Item U))
    (hitems : (namesOf items).Nodup) :
    (entriesOf above (arranged F items others)).Subperm (entriesOf above (items ++ others)) ∧
      (¬ (namesOf (items ++ others)).Nodup →
        (entriesOf above (arranged F items others)).length <
          (entriesOf above (items ++ others)).length) := by
  induction others generalizing items with
  | nil =>
    rw [append_nil]
    exact ⟨Subperm.refl _, fun h => absurd hitems h⟩
  | cons item others ih =>
    obtain ⟨hsub, hlt⟩ := ih _ (nodup_namesOf_insertItem (F := F) hitems item)
    have hinsert : (entriesOf above (insertItem F item items ++ others)).Subperm
        (entriesOf above (items ++ item :: others)) := by
      have hperm := (insertItem_perm (F := F) item items).append_right others
      have hsublist : (item :: items.filter (fun other => other.key ≠ item.key) ++
          others).Sublist (item :: (items ++ others)) :=
        (filter_sublist.append_right others).cons_cons item
      have hmiddle : (item :: (items ++ others)).Perm (items ++ item :: others) :=
        perm_middle.symm
      exact ((entriesOf_perm above hperm).subperm.trans
        (entriesOf_sublist above hsublist).subperm).trans (entriesOf_perm above hmiddle).subperm
    refine ⟨hsub.trans hinsert, fun hnodup => ?_⟩
    by_cases hname : item.key ∈ namesOf items
    · refine hsub.length_le.trans_lt ?_
      have hne : items.filter (fun other => other.key ≠ item.key) ++ others ≠
          items ++ others := by
        intro heq
        obtain ⟨other, hother, hsame⟩ := mem_map.1 hname
        have hkept := append_cancel_right heq
        rw [filter_eq_self] at hkept
        exact of_decide_eq_true (hkept other hother) hsame
      have hshort := length_entriesOf_lt above
        (filter_sublist.append_right others) hne
      have hperm := (entriesOf_perm above
        ((insertItem_perm (F := F) item items).append_right others)).length_eq
      have hmiddle := (entriesOf_perm above
        (show (items ++ item :: others).Perm (item :: (items ++ others)) from
          perm_middle)).length_eq
      rw [hperm, hmiddle, cons_append, entriesOf, entriesOf, length_append,
        length_append]
      omega
    · refine (hlt fun hnodup' => hnodup ?_).trans_le hinsert.length_le
      have hperm : (insertItem F item items ++ others).Perm (items ++ item :: others) := by
        have := insertItem_perm (F := F) item items
        rw [filter_name_eq_self hname] at this
        exact (this.append_right others).trans perm_middle.symm
      exact (hperm.map Item.key).nodup_iff.1 hnodup'

theorem mem_namesOf_insertItem :
    key ∈ namesOf (insertItem F item items) ↔ key = item.key ∨ key ∈ namesOf items := by
  rw [namesOf, ((insertItem_perm item items).map Item.key).mem_iff, map_cons,
    mem_cons, namesOf]
  refine or_congr_right' fun hkey => ?_
  rw [mem_map, mem_map]
  refine exists_congr fun other => and_congr_left fun hother => ?_
  rw [mem_filter, and_iff_left]
  exact decide_eq_true fun heq => hkey (hother.symm.trans heq)

theorem mem_namesOf_arranged :
    key ∈ namesOf (arranged F items others) ↔ key ∈ namesOf items ∨ key ∈ namesOf others := by
  induction others generalizing items with
  | nil => exact ⟨.inl, fun h => h.resolve_right not_mem_nil⟩
  | cons item others ih =>
    rw [arranged, foldl_cons, ← arranged, ih, mem_namesOf_insertItem, namesOf, namesOf,
      namesOf, map_cons, mem_cons]
    tauto

theorem exists_toJsonValue_eq (item : Item U) : ∃ obj, item.toJsonValue F = .object obj := by
  cases item with
  | feed path uid url => exact ⟨_, rfl⟩
  | folder path items => exact ⟨_, rfl⟩

theorem value_map_memberOf (items : List (Item U)) (key : String) :
    value (items.map (memberOf F)) key =
      (items.find? fun item => item.key = key).map (Item.toJsonValue F) := by
  rw [value, List.find?_map, Option.map_map]
  rfl

theorem insertItems_eq (items : List (Item U)) :
    insertItems F items [] = (arranged F [] items).map (memberOf F) := insertItems_map [] items

theorem value_url_of_mem (h : "url" ∈ namesOf items) :
    ∃ obj, value (insertItems F items []) "url" = some (.object obj) := by
  have hmem : "url" ∈ namesOf (arranged F [] items) := mem_namesOf_arranged.2 (.inr h)
  obtain ⟨item, hitem, hname⟩ := mem_map.1 hmem
  have hfound : ((arranged F [] items).find? fun item => item.key = "url").isSome = true :=
    List.find?_isSome.2 ⟨item, hitem, decide_eq_true hname⟩
  obtain ⟨found, hfound⟩ := Option.isSome_iff_exists.1 hfound
  obtain ⟨obj, hobj⟩ := exists_toJsonValue_eq (F := F) found
  exact ⟨obj, by rw [insertItems_eq, value_map_memberOf, hfound, Option.map_some, hobj]⟩

theorem value_url_of_not_mem (h : "url" ∉ namesOf items) :
    value (insertItems F items []) "url" = none := by
  rw [insertItems_eq, value_map_memberOf, Option.map_eq_none_iff, List.find?_eq_none]
  intro item hitem hname
  have hmem : "url" ∈ namesOf (arranged F [] items) :=
    mem_map.2 ⟨item, hitem, of_decide_eq_true hname⟩
  rcases mem_namesOf_arranged.1 hmem with hnil | hmem
  · exact not_mem_nil hnil
  · exact h hmem

end Trees

section Loading

variable {F} {items others : List (Item U)} {item : Item U} {above : List (List Char)}
  {known uids : List U}

section

omit [DecidableEq U]

theorem fresh_append_iff {others : List U} :
    Fresh F known (uids ++ others) ↔ Fresh F known uids ∧ Fresh F (known ++ uids) others := by
  rw [Fresh, Fresh, Fresh, nodup_append]
  constructor
  · rintro ⟨⟨huids, hothers, hdisjoint⟩, hall⟩
    refine ⟨⟨huids, fun uid h => hall uid (mem_append_left _ h)⟩, hothers, fun uid h => ?_⟩
    have hnew := hall uid (mem_append_right _ h)
    refine ⟨hnew.1, fun hmem => ?_⟩
    rcases mem_append.1 hmem with hknown | hfirst
    · exact hnew.2 hknown
    · exact hdisjoint uid hfirst uid h rfl
  · rintro ⟨⟨huids, hall⟩, hothers, hall'⟩
    refine ⟨⟨huids, hothers, ?_⟩, ?_⟩
    · rintro uid hmem _ hmem' rfl
      exact (hall' uid hmem').2 (mem_append_right _ hmem)
    · intro uid hmem
      rcases mem_append.1 hmem with h | h
      · exact hall uid h
      · exact ⟨(hall' uid h).1, fun hknown => (hall' uid h).2 (mem_append_left _ hknown)⟩

theorem fresh_congr {known' uids' : List U} (hknown : ∀ uid, uid ∈ known ↔ uid ∈ known')
    (huids : uids.Perm uids') : Fresh F known uids ↔ Fresh F known' uids' := by
  rw [Fresh, Fresh, huids.nodup_iff]
  simp only [huids.mem_iff, hknown]

end

/-- What reading makes of entries, where `good` says that it finds them all. -/
structure Loads (above : List (List Char)) (known : List U) (entries : List (Entry U)) (good : Prop)
    (loaded : List (Item U) × List U × Bool) : Prop where
  updated : loaded.2.2 = false
  uids : loaded.2.1 = known ++ uidsOf (entriesOf above loaded.1)
  subperm : (entriesOf above loaded.1).Subperm entries
  perm : good → (entriesOf above loaded.1).Perm entries
  lt : ¬ good → (entriesOf above loaded.1).length < entries.length

namespace Loads

variable {entries others : List (Entry U)} {good : Prop} {loaded : List (Item U) × List U × Bool}

omit [DecidableEq U]

theorem dropped (hgood : ¬ good) (hne : entries ≠ []) :
    Loads above known entries good ([], known, false) where
  updated := rfl
  uids := (append_nil _).symm
  subperm := nil_subperm
  perm h := absurd h hgood
  lt _ := length_pos_iff.2 hne

theorem append {good₁ good₂ : Prop} {rest : List (Item U) × List U × Bool}
    (h₁ : Loads above known entries good₁ loaded) (h₂ : Loads above loaded.2.1 others good₂ rest)
    (hgood : good ↔ good₁ ∧ good₂) :
    Loads above known (entries ++ others) good
      (loaded.1 ++ rest.1, rest.2.1, loaded.2.2 || rest.2.2) where
  updated := by rw [h₁.updated, h₂.updated]; rfl
  uids := by rw [h₂.uids, h₁.uids, entriesOf_append, uidsOf_append, append_assoc]
  subperm := by
    rw [entriesOf_append]
    exact h₁.subperm.append h₂.subperm
  perm h := by
    rw [entriesOf_append]
    exact (h₁.perm (hgood.1 h).1).append (h₂.perm (hgood.1 h).2)
  lt h := by
    rw [entriesOf_append, length_append, length_append]
    have hle₁ := h₁.subperm.length_le
    have hle₂ := h₂.subperm.length_le
    by_cases hgood₁ : good₁
    · have hlt := h₂.lt fun hgood₂ => h (hgood.2 ⟨hgood₁, hgood₂⟩)
      omega
    · have hlt := h₁.lt hgood₁
      omega

theorem widen {good' : Prop} (h : Loads above known entries good loaded)
    (hsub : entries.Subperm others) (hperm : good' → good ∧ entries.Perm others)
    (hlt : ¬ good' → good → entries.length < others.length) :
    Loads above known others good' loaded := { h with
  subperm := h.subperm.trans hsub
  perm hgood' := (h.perm (hperm hgood').1).trans (hperm hgood').2
  lt hgood' := by
    by_cases hgood : good
    · exact h.subperm.length_le.trans_lt (hlt hgood' hgood)
    · exact (h.lt hgood).trans_le hsub.length_le }

theorem folder {path name : List Char} (hname : relativeName path = name)
    (h : Loads (above ++ [name]) known entries good loaded) :
    Loads above known ((above ++ [name], none) :: entries) good
      ([.folder path loaded.1], loaded.2.1, loaded.2.2) := by
  subst hname
  have hentries : entriesOf above [.folder path loaded.1] =
      (above ++ [relativeName path], none) :: entriesOf (above ++ [relativeName path]) loaded.1 :=
    append_nil _
  exact {
    updated := h.updated
    uids := by rw [hentries]; exact h.uids
    subperm := by rw [hentries]; exact (subperm_cons _).2 h.subperm
    perm := fun hgood => by rw [hentries]; exact (h.perm hgood).cons _
    lt := fun hgood => by rw [hentries]; exact Nat.succ_lt_succ (h.lt hgood) }

theorem fresh_iff (h : Loads above known entries good loaded) (hgood : good) :
    Fresh F loaded.2.1 uids ↔ Fresh F (known ++ uidsOf entries) uids := by
  refine fresh_congr (fun uid => ?_) (Perm.refl _)
  rw [h.uids, mem_append, mem_append, (uidsOf_perm (h.perm hgood)).mem_iff]

end Loads

theorem loads_loadFolder (items : List (Item U)) (above : List (List Char)) (folder : List Char)
    (known : List U)
    (hitems : ∀ item ∈ items, ∀ known, Loads above known (item.entries above)
      (item.Sound ∧ Fresh F known (uidsOf (item.entries above)))
      (loadMember F (memberOf F item) folder known)) :
    Loads above known (entriesOf above items)
      (AllSound items ∧ Fresh F known (uidsOf (entriesOf above items)))
      (loadFolder F (items.map (memberOf F)) folder known) := by
  induction items generalizing known with
  | nil =>
    have hgood : AllSound ([] : List (Item U)) ∧ Fresh F known (uidsOf (entriesOf above [])) :=
      ⟨trivial, nodup_nil, fun _ h => absurd h not_mem_nil⟩
    exact ⟨rfl, (append_nil _).symm, Subperm.refl _, fun _ => Perm.refl _,
      fun h => absurd hgood h⟩
  | cons item items ih =>
    have hitem := hitems item mem_cons_self known
    have hrest := ih (loadMember F (memberOf F item) folder known).2.1 fun other hother =>
      hitems other (mem_cons_of_mem _ hother)
    refine hitem.append hrest ?_
    rw [AllSound, entriesOf, uidsOf_append, fresh_append_iff]
    constructor
    · rintro ⟨⟨hsound, hall⟩, hfresh, hothers⟩
      exact ⟨⟨hsound, hfresh⟩, hall, (hitem.fresh_iff ⟨hsound, hfresh⟩).2 hothers⟩
    · rintro ⟨⟨hsound, hfresh⟩, hall, hothers⟩
      exact ⟨⟨hsound, hall⟩, hfresh, (hitem.fresh_iff ⟨hsound, hfresh⟩).1 hothers⟩

theorem loads_insertItems (above : List (List Char)) (folder : List Char) (known : List U)
    (hitems : ∀ item ∈ items, ∀ known, Loads above known (item.entries above)
      (item.Sound ∧ Fresh F known (uidsOf (item.entries above)))
      (loadMember F (memberOf F item) folder known)) :
    Loads above known (entriesOf above items)
      (((namesOf items).Nodup ∧ AllSound items) ∧ Fresh F known (uidsOf (entriesOf above items)))
      (loadFolder F (insertItems F items []) folder known) := by
  have hload := loads_loadFolder (arranged F [] items) above folder known fun item hitem =>
    hitems item ((arranged_subset item hitem).resolve_left not_mem_nil)
  obtain ⟨hsub, hlt⟩ := entriesOf_arranged (F := F) above [] items nodup_nil
  have hall : (namesOf items).Nodup → (AllSound (arranged F [] items) ↔ AllSound items) ∧
      (entriesOf above (arranged F [] items)).Perm (entriesOf above items) := by
    intro hnames
    have hperm := arranged_perm (F := F) [] items hnames
    refine ⟨?_, entriesOf_perm above hperm⟩
    rw [allSound_iff, allSound_iff]
    exact forall_congr' fun item => by rw [hperm.mem_iff, nil_append]
  have hfresh : (namesOf items).Nodup →
      (Fresh F known (uidsOf (entriesOf above (arranged F [] items))) ↔
        Fresh F known (uidsOf (entriesOf above items))) := fun hnames =>
    fresh_congr (fun _ => Iff.rfl) (uidsOf_perm (hall hnames).2)
  rw [insertItems_eq]
  refine hload.widen hsub ?_ ?_
  · rintro ⟨⟨hnames, hsound⟩, hnew⟩
    exact ⟨⟨(hall hnames).1.2 hsound, (hfresh hnames).2 hnew⟩, (hall hnames).2⟩
  · rintro hnot ⟨hsound, hnew⟩
    refine hlt fun hnames => hnot ⟨⟨hnames, ?_⟩, ?_⟩
    · exact (hall hnames).1.1 hsound
    · exact (hfresh hnames).1 hnew

theorem loadMember_feed (path : List Char) (uid : U) (url : String) (folder : List Char)
    (known : List U) :
    loadMember F (memberOf F (.feed path uid url)) folder known =
      if uid = F.null then ([], known, false)
      else if uid ∈ known then ([], known, false)
      else ([.feed (joinPath folder (Item.feed path uid url).key.toList) uid url],
        known ++ [uid], false) := by
  have hurl : value [("uid", .string (F.toText uid)), ("url", .string url)] "url" =
      some (.string url) := by
    rw [value_cons_ne (by decide), value_cons_self]
  have huid : value [("uid", .string (F.toText uid)), ("url", .string url)] "uid" =
      some (.string (F.toText uid)) := value_cons_self _ _ _
  rw [memberOf, loadMember, Item.toJsonValue, loadValue, hurl, huid]
  have htext : F.ofText (toText (some (.string (F.toText uid)))) = uid := F.ofText_toText uid
  dsimp only
  rw [htext]

theorem loadMember_folder_of_mem (path folder : List Char) (known : List U)
    (h : "url" ∈ namesOf items) :
    loadMember F (memberOf F (.folder path items)) folder known = ([], known, false) := by
  obtain ⟨obj, hobj⟩ := value_url_of_mem (F := F) h
  rw [memberOf, loadMember, Item.toJsonValue, loadValue, hobj]

theorem loadMember_folder_of_not_mem (path folder : List Char) (known : List U)
    (h : "url" ∉ namesOf items) :
    loadMember F (memberOf F (.folder path items)) folder known =
      let path' := joinPath folder (Item.folder path items).key.toList
      ([.folder path' (loadFolder F (insertItems F items []) path' known).1],
        (loadFolder F (insertItems F items []) path' known).2.1,
        (loadFolder F (insertItems F items []) path' known).2.2) := by
  rw [memberOf, loadMember, Item.toJsonValue, loadValue, value_url_of_not_mem h]

theorem loads_loadMember (item : Item U) :
    ∀ (above : List (List Char)) (folder : List Char) (known : List U),
      Loads above known (item.entries above)
        (item.Sound ∧ Fresh F known (uidsOf (item.entries above)))
        (loadMember F (memberOf F item) folder known) := by
  induction item using Item.induction with
  | hfeed path uid url =>
    intro above folder known
    have hmem : uid ∈ uidsOf (Item.entries above (.feed path uid url)) := mem_cons_self
    rw [loadMember_feed]
    split_ifs with hnull hknown
    · exact .dropped (fun h => (h.2.2 uid hmem).1 hnull) (entries_ne_nil _ _)
    · exact .dropped (fun h => (h.2.2 uid hmem).2 hknown) (entries_ne_nil _ _)
    · have hentries : entriesOf above [.feed (joinPath folder
          (Item.feed path uid url).key.toList) uid url] =
            Item.entries above (.feed path uid url) := by
        rw [entriesOf, entriesOf, Item.entries, Item.entries, Item.relativeName_joinPath_key]
        rfl
      refine ⟨rfl, by rw [hentries]; rfl, by rw [hentries], fun _ => by rw [hentries],
        fun h => absurd ?_ h⟩
      refine ⟨trivial, nodup_singleton _, fun other hother => ?_⟩
      obtain rfl := mem_singleton.1 hother
      exact ⟨hnull, hknown⟩
  | hfolder path items ih =>
    intro above folder known
    by_cases hurl : "url" ∈ namesOf items
    · rw [loadMember_folder_of_mem path folder known hurl]
      exact .dropped (fun h => h.1.1 hurl) (entries_ne_nil _ _)
    · rw [loadMember_folder_of_not_mem path folder known hurl]
      have hitems := loads_insertItems (above ++ [relativeName path])
        (joinPath folder (Item.folder path items).key.toList) known fun item hitem =>
          ih item hitem (above ++ [relativeName path]) _
      refine (hitems.folder (Item.relativeName_joinPath_key folder
        (.folder path items))).widen (Subperm.refl _) ?_ ?_
      · rintro ⟨⟨-, hnames, hsound⟩, hfresh⟩
        exact ⟨⟨⟨hnames, hsound⟩, hfresh⟩, Perm.refl _⟩
      · rintro hnot ⟨⟨hnames, hsound⟩, hfresh⟩
        exact absurd ⟨⟨hurl, hnames, hsound⟩, hfresh⟩ hnot

end Loading

/-! ### The round trip -/

omit [DecidableEq U] in
variable {items : List (Item U)}

theorem same_nil_iff : Same items ([], false) ↔ items = [] := by
  constructor
  · rintro ⟨hperm, -⟩
    cases items with
    | nil => rfl
    | cons item items =>
      exact absurd (append_eq_nil_iff.1 hperm.symm.eq_nil).1 (entries_ne_nil _ _)
  · rintro rfl
    exact ⟨Perm.refl _, rfl⟩

theorem loads_store (items : List (Item U)) :
    Loads [] [] (entriesOf [] items)
      (((namesOf items).Nodup ∧ AllSound items) ∧ Fresh F [] (uidsOf (entriesOf [] items)))
      (loadFolder F (insertItems F items []) [] []) :=
  loads_insertItems [] [] [] fun item _ => loads_loadMember item [] []

theorem readBack_of_same (h : Same items (load F (store F items))) :
    items = [] ∨ ReadBack F items := by
  rw [load] at h
  split_ifs at h with hsize
  · exact .inl (same_nil_iff.1 h)
  · rw [store] at h hsize
    rcases F.fromJson_toJson (.object (insertItems F items [])) with hnone | hsome
    · rw [hnone] at h
      exact .inl (same_nil_iff.1 h)
    · rw [hsome] at h
      by_contra hnot
      refine absurd h.1.length_eq ((loads_store F items).lt fun hgood => hnot (.inr ?_)).ne
      exact ⟨not_lt.1 hsize, hsome, hgood.1.1, hgood.1.2, hgood.2⟩

/-- **The feeds are read back as they were stored** if and only if there are none, or the file can
be read, the names in each folder are different, no folder below the root holds an item named
`url`, and the UIDs are different. -/
theorem load_store_iff (items : List (Item U)) :
    Same items (load F (store F items)) ↔ items = [] ∨ ReadBack F items := by
  refine ⟨readBack_of_same F, ?_⟩
  rintro (rfl | h)
  · have hnil : load F (store F ([] : List (Item U))) = ([], false) := by
      rw [load, store]
      split_ifs
      · rfl
      · rcases F.fromJson_toJson (.object (insertItems F ([] : List (Item U)) [])) with
          hnone | hsome
        · rw [hnone]
        · rw [hsome]
          rfl
    rw [hnil]
    exact same_nil_iff.2 rfl
  · rw [load, if_neg (not_lt.2 h.size), h.json]
    have hload := loads_store F items
    exact ⟨hload.perm ⟨⟨h.names, h.sound⟩, h.uids⟩, hload.updated⟩

/-! ### A feed named `url` -/

def feedUid : String := "\x7b5d1e0c4a-0000-4000-8000-000000000001\x7d"

/-- A folder `a` with the feed `a\url`. -/
def feedNamedUrl : List (Item String) :=
  [.folder ['a'] [.feed ['a', '\\', 'u', 'r', 'l'] feedUid "http://b/"]]

/-- The text that Qt writes for it. -/
def feedNamedUrlText : List UInt8 :=
  123 :: (("\n    \"a\": \x7b\n        \"url\": \x7b\n            \"uid\": \"" ++ feedUid ++
    "\",\n            \"url\": \"http://b/\"\n        \x7d\n    \x7d\n\x7d\n").toList).map fun c =>
      UInt8.ofNat c.toNat

/-- Whether a value is that of the folder. -/
def isFeedNamedUrl : JsonValue → Bool
  | .object [(folder, .object [(feed, .object [(k₁, .string uid), (k₂, .string url)])])] =>
    (folder, feed, k₁, uid, k₂, url) = ("a", "url", "uid", feedUid, "url", "http://b/")
  | _ => false

theorem eq_of_isFeedNamedUrl {v : JsonValue} (h : isFeedNamedUrl v = true) :
    v = .object [("a", .object [("url", .object
      [("uid", .string feedUid), ("url", .string "http://b/")])])] := by
  unfold isFeedNamedUrl at h
  split at h
  · obtain ⟨rfl, rfl, rfl, rfl, rfl, rfl⟩ := by simpa using h
    rfl
  · cases h

/-- Qt on this file: UIDs are taken as the texts that they are written as. -/
def textFormat : FeedsFormat String where
  toText uid := uid
  ofText text := text
  ofText_toText _ := rfl
  null := "\x7b00000000-0000-0000-0000-000000000000\x7d"
  generateUID _ := feedUid
  keyLe _ _ := true
  toJson v := if isFeedNamedUrl v then feedNamedUrlText else []
  fromJson file :=
    if file = feedNamedUrlText then
      some (.object [("a", .object [("url", .object
        [("uid", .string feedUid), ("url", .string "http://b/")])])])
    else none
  fromJson_toJson v := by
    by_cases h : isFeedNamedUrl v = true
    · rw [if_pos h, if_pos rfl, ← eq_of_isFeedNamedUrl h]
      exact .inr rfl
    · rw [if_neg h]
      exact .inl (if_neg (List.cons_ne_nil _ _).symm)

/-- The folder is taken for a feed without URL and is lost. -/
theorem folder_lost : ¬ Same feedNamedUrl (load textFormat (store textFormat feedNamedUrl)) := by
  intro h
  rcases readBack_of_same textFormat h with hnil | hback
  · exact cons_ne_nil _ _ hnil
  · exact hback.sound.1.1 (mem_singleton.2 (by decide))

end QBittorrent.Rss.FeedsFile
