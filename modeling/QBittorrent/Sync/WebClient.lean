import QBittorrent.Sync.Convergence

/-!
# The web UI as a maindata client

The two ends of a maindata response: the JSON object that `generateMaindataSyncData` writes, and the
success handler of `syncMainData` in `client.js` that reads it by key.

They disagree in two places.  The server writes `full_update` and the client reads `fullUpdate`, so
the client never clears what it shows.  A changed category is written with the changed fields
only, and the client takes the missing `savePath` for the new one.

The sets of torrents that the client counts for its category and tag filters are left out.

* `matches_fullUpdate_iff`, `matches_changes_iff` : both kinds of response;
* `syncMainData_matches_iff` : the web UI shows what it should exactly if it is consumable.
-/

namespace QBittorrent

open Dict Option Finset

open Finmap (lookup)
open VariantMap Pending

/-! ### Encoding -/

/-- The values of a maindata response. -/
inductive SyncValue where
  | number (n : ℕ)
  | flag (b : Bool)
  | names (names : Multiset String)
  | row (row : VariantMap)
  | rows (rows : Dict String VariantMap)
  | idLists (lists : Dict String (Finset TorrentID))

/-- The JSON object of a maindata response. -/
abbrev SyncJson := Dict String SyncValue

namespace SyncJson

variable (json : SyncJson) (key : String)

/-- Write `value` under `key` if it is worth writing. -/
def put (value : SyncValue) (p : Prop) [Decidable p] : SyncJson :=
  if p then Finmap.insert key value json else json

/-- A missing key reads as `undefined`, and every test for one fails. -/
def numberAt : ℕ :=
  match lookup key json with
  | some (.number n) => n
  | _ => 0

/-- `json[key] === true`. -/
def flagAt : Bool :=
  match lookup key json with
  | some (.flag b) => b
  | _ => false

def namesAt : Multiset String :=
  match lookup key json with
  | some (.names names) => names
  | _ => 0

def rowAt : VariantMap :=
  match lookup key json with
  | some (.row row) => row
  | _ => ∅

def rowsAt : Dict String VariantMap :=
  match lookup key json with
  | some (.rows rows) => rows
  | _ => ∅

def idListsAt : Dict String (Finset TorrentID) :=
  match lookup key json with
  | some (.idLists lists) => lists
  | _ => ∅

end SyncJson

/-- The object that `generateMaindataSyncData` returns. -/
def MaindataResponse.toJSON (response : MaindataResponse) : SyncJson :=
  let data := response.data
  (SyncJson.put ∅ "rid" (.number response.rid) True)
    |>.put "full_update" (.flag true) (response.fullUpdate = true)
    |>.put "categories" (.rows data.categories) (data.categories ≠ ∅)
    |>.put "categories_removed" (.names data.removedCategories) (data.removedCategories ≠ 0)
    |>.put "tags" (.names data.tags) (data.tags ≠ 0)
    |>.put "tags_removed" (.names data.removedTags) (data.removedTags ≠ 0)
    |>.put "torrents" (.rows data.torrents) (data.torrents ≠ ∅)
    |>.put "torrents_removed" (.names data.removedTorrents) (data.removedTorrents ≠ 0)
    |>.put "trackers" (.idLists data.trackers) (data.trackers ≠ ∅)
    |>.put "trackers_removed" (.names data.removedTrackers) (data.removedTrackers ≠ 0)
    |>.put "server_state" (.row data.serverState) (data.serverState ≠ ∅)

/-! ### Decoding -/

/-- What `client.js` keeps of the maindata: the `full_data` of the rows of the torrents table, the save
path of each category (`undefined` reads as `invalid`), the tags, the trackers by host, and the
server state. -/
structure WebClient where
  syncMainDataLastResponseId : ℕ := 0
  torrentsTable : Dict TorrentID VariantMap := ∅
  categoryMap : Dict String Variant := ∅
  tagMap : Finset String := ∅
  trackerMap : Dict String (Dict String (Finset TorrentID)) := ∅
  serverState : VariantMap := ∅

/-- `Boolean(value)`. -/
def Variant.truthy : Variant → Bool
  | .invalid => false
  | .bool b => b
  | .number n => n ≠ 0
  | .string s => s ≠ ""

def statusSortOrder (state : Variant) : Variant :=
  let order : List (String × ℤ) :=
    [("unknown", -1), ("forcedDL", 0), ("downloading", 1), ("forcedMetaDL", 2), ("metaDL", 3),
      ("stalledDL", 4), ("forcedUP", 5), ("uploading", 6), ("stalledUP", 7),
      ("checkingResumeData", 8), ("queuedDL", 9), ("queuedUP", 10), ("checkingUP", 11),
      ("checkingDL", 12), ("stoppedDL", 13), ("stoppedUP", 14), ("moving", 15),
      ("missingFiles", 16), ("error", 17)]
  match state with
  | .string s => ((order.lookup s).map fun n => Variant.number n).getD .invalid
  | _ => .invalid

/-- The keys that the handler adds to the rows of torrents. -/
def uiKeys : Finset String := {"hash", "rowId", "status", "_statusOrder"}

/-- A torrent of the response with the keys the handler adds. -/
def decorate (key : TorrentID) (torrent : VariantMap) : VariantMap :=
  let torrent := Finmap.insert "rowId" (.string key) (Finmap.insert "hash" (.string key) torrent)
  let state := value torrent "state"
  if state.truthy then
    Finmap.insert "_statusOrder" (statusSortOrder state) (Finmap.insert "status" state torrent)
  else torrent

/-- The category that `addTorrentToCategoryList` puts a torrent in. -/
def namedCategory (torrent : VariantMap) : Option String :=
  match value torrent "category" with
  | .string category => if category = "" then none else some category
  | _ => none

/-- The tags that `addTorrentToTagList` puts a torrent under. -/
def namedTags (torrent : VariantMap) : List String :=
  match value torrent "tags" with
  | .string tags => if tags = "" then [] else tags.splitOn ", "
  | _ => []

def namedCategories (torrents : Dict TorrentID VariantMap) : Finset String :=
  torrents.keys.biUnion fun id => (namedCategory (rowOf torrents id)).toFinset

def allNamedTags (torrents : Dict TorrentID VariantMap) : Finset String :=
  torrents.keys.biUnion fun id => (namedTags (rowOf torrents id)).toFinset

section Trackers

variable (getHost : String → String)

def hostPart (trackers : Dict String (Finset TorrentID)) (host : String) :
    Dict String (Finset TorrentID) :=
  Dict.filter (fun url _ => decide (getHost url = host)) trackers

/-- `trackerListItem.set(tracker, new Set(torrents))` for every tracker. -/
def setTrackers (trackers : Dict String (Finset TorrentID))
    (trackerMap : Dict String (Dict String (Finset TorrentID))) :
    Dict String (Dict String (Finset TorrentID)) :=
  Dict.ofFinset (trackers.keys.image getHost)
    (fun host => hostPart getHost trackers host ∪ (lookup host trackerMap).getD ∅) ∪ trackerMap

/-- `trackerTorrentMap.delete(tracker)` for every tracker; a host without trackers is deleted. -/
def removeTrackers (removed : Finset String)
    (trackerMap : Dict String (Dict String (Finset TorrentID))) :
    Dict String (Dict String (Finset TorrentID)) :=
  Dict.filterMap (fun host trackers =>
    let gone := removed.filter fun url => getHost url = host
    if gone ≠ ∅ ∧ Dict.eraseAll gone trackers = ∅ then none
    else some (Dict.eraseAll gone trackers)) trackerMap

def groupTrackers (trackers : Dict String (Finset TorrentID)) :
    Dict String (Dict String (Finset TorrentID)) :=
  Dict.ofFinset (trackers.keys.image getHost) (hostPart getHost trackers)

end Trackers

namespace WebClient

variable (getHost : String → String) (web : WebClient)

/-- What a full update does first. -/
def clear : WebClient :=
  { web with torrentsTable := ∅, categoryMap := ∅, tagMap := ∅, trackerMap := ∅ }

/-- The success handler of `syncMainData`. -/
def syncMainData (responseJSON : SyncJson) : WebClient :=
  let web := if responseJSON.flagAt "fullUpdate" then web.clear else web
  let torrents := responseJSON.rowsAt "torrents"
  { syncMainDataLastResponseId :=
      if responseJSON.numberAt "rid" ≠ 0 then responseJSON.numberAt "rid"
      else web.syncMainDataLastResponseId
    categoryMap :=
      Dict.eraseAll (responseJSON.namesAt "categories_removed").toFinset
          (Dict.filterMap (fun _ row => some (value row "savePath"))
            (responseJSON.rowsAt "categories") ∪ web.categoryMap) ∪
        Dict.ofFinset (namedCategories torrents) fun _ => .invalid
    tagMap :=
      ((web.tagMap ∪ (responseJSON.namesAt "tags").toFinset) \
        (responseJSON.namesAt "tags_removed").toFinset) ∪ allNamedTags torrents
    trackerMap :=
      removeTrackers getHost (responseJSON.namesAt "trackers_removed").toFinset
        (setTrackers getHost (responseJSON.idListsAt "trackers") web.trackerMap)
    torrentsTable :=
      Dict.eraseAll (responseJSON.namesAt "torrents_removed").toFinset
        (mergeRows (Dict.filterMap (fun key torrent => some (decorate key torrent)) torrents)
          web.torrentsTable)
    serverState := responseJSON.rowAt "server_state" ∪ web.serverState }

end WebClient

section RoundTrip

variable (response : MaindataResponse)

theorem lookup_put (json : SyncJson) (key key' : String) (v : SyncValue) (p : Prop) [Decidable p] :
    lookup key' (json.put key v p) = if key' = key ∧ p then some v else lookup key' json := by
  unfold SyncJson.put
  by_cases hp : p
  · rw [if_pos hp, lookup_insert_eq]
    by_cases hk : key' = key <;> simp [hk, hp]
  · simp [hp]

theorem flagAt_toJSON : response.toJSON.flagAt "fullUpdate" = false := by
  simp [SyncJson.flagAt, MaindataResponse.toJSON, lookup_put]

theorem numberAt_toJSON : response.toJSON.numberAt "rid" = response.rid := by
  simp [SyncJson.numberAt, MaindataResponse.toJSON, lookup_put]

theorem rowsAt_categories : response.toJSON.rowsAt "categories" = response.data.categories := by
  by_cases h : response.data.categories = ∅ <;>
    simp [SyncJson.rowsAt, MaindataResponse.toJSON, lookup_put, h]

theorem rowsAt_torrents : response.toJSON.rowsAt "torrents" = response.data.torrents := by
  by_cases h : response.data.torrents = ∅ <;>
    simp [SyncJson.rowsAt, MaindataResponse.toJSON, lookup_put, h]

theorem idListsAt_trackers : response.toJSON.idListsAt "trackers" = response.data.trackers := by
  by_cases h : response.data.trackers = ∅ <;>
    simp [SyncJson.idListsAt, MaindataResponse.toJSON, lookup_put, h]

theorem namesAt_tags : response.toJSON.namesAt "tags" = response.data.tags := by
  by_cases h : response.data.tags = 0 <;>
    simp [SyncJson.namesAt, MaindataResponse.toJSON, lookup_put, h]

theorem namesAt_removed :
    response.toJSON.namesAt "categories_removed" = response.data.removedCategories ∧
    response.toJSON.namesAt "tags_removed" = response.data.removedTags ∧
    response.toJSON.namesAt "torrents_removed" = response.data.removedTorrents ∧
    response.toJSON.namesAt "trackers_removed" = response.data.removedTrackers := by
  refine ⟨?_, ?_, ?_, ?_⟩
  · by_cases h : response.data.removedCategories = 0 <;>
      simp [SyncJson.namesAt, MaindataResponse.toJSON, lookup_put, h]
  · by_cases h : response.data.removedTags = 0 <;>
      simp [SyncJson.namesAt, MaindataResponse.toJSON, lookup_put, h]
  · by_cases h : response.data.removedTorrents = 0 <;>
      simp [SyncJson.namesAt, MaindataResponse.toJSON, lookup_put, h]
  · by_cases h : response.data.removedTrackers = 0 <;>
      simp [SyncJson.namesAt, MaindataResponse.toJSON, lookup_put, h]

end RoundTrip

section Trackers

variable {getHost : String → String} {trackers : Dict String (Finset TorrentID)}

/-- The entry of a map of maps that drops empty maps. -/
def presentPart (part : Dict String (Finset TorrentID)) : Option (Dict String (Finset TorrentID)) :=
  if part = ∅ then none else some part

theorem lookup_hostPart (host url : String) :
    lookup url (hostPart getHost trackers host) =
      if getHost url = host then lookup url trackers else none := by
  rw [hostPart, lookup_filter]
  cases lookup url trackers <;> by_cases h : getHost url = host <;> simp [Option.filter, h]

theorem hostPart_ne_empty {host : String} :
    hostPart getHost trackers host ≠ ∅ ↔ host ∈ trackers.keys.image getHost := by
  rw [Ne, eq_empty_iff, not_forall, mem_image]
  refine exists_congr fun url => ?_
  rw [lookup_hostPart, Finmap.mem_keys, ← Finmap.lookup_isSome, isSome_iff_ne_none]
  by_cases h : getHost url = host <;> simp [h]

theorem lookup_groupTrackers (host : String) :
    lookup host (groupTrackers getHost trackers) = presentPart (hostPart getHost trackers host) := by
  rw [groupTrackers, lookup_ofFinset, presentPart]
  by_cases h : hostPart getHost trackers host = ∅
  · rw [if_neg (fun hm => hostPart_ne_empty.2 hm h), if_pos h]
  · rw [if_pos (hostPart_ne_empty.1 h), if_neg h]

theorem hostPart_union (trackers' : Dict String (Finset TorrentID)) (host : String) :
    hostPart getHost (trackers ∪ trackers') host =
      hostPart getHost trackers host ∪ hostPart getHost trackers' host := by
  refine Finmap.ext_lookup fun url => ?_
  simp only [lookup_hostPart, lookup_union]
  split_ifs <;> rfl

theorem hostPart_eraseAll (removed : Finset String) (host : String) :
    hostPart getHost (Dict.eraseAll removed trackers) host =
      Dict.eraseAll (removed.filter fun url => getHost url = host)
        (hostPart getHost trackers host) := by
  refine Finmap.ext_lookup fun url => ?_
  simp only [lookup_hostPart, lookup_eraseAll, mem_filter]
  by_cases h : getHost url = host <;> simp [h]

@[simp] theorem getD_presentPart (part : Dict String (Finset TorrentID)) :
    (presentPart part).getD ∅ = part := by
  unfold presentPart
  split_ifs with h <;> simp [h]

theorem lookup_setTrackers (host : String)
    (trackerMap : Dict String (Dict String (Finset TorrentID))) :
    lookup host (setTrackers getHost trackers trackerMap) =
      if hostPart getHost trackers host = ∅ then lookup host trackerMap
      else some (hostPart getHost trackers host ∪ (lookup host trackerMap).getD ∅) := by
  rw [setTrackers, lookup_union, lookup_ofFinset]
  by_cases h : hostPart getHost trackers host = ∅
  · rw [if_neg (fun hm => hostPart_ne_empty.2 hm h), if_pos h, none_or]
  · rw [if_pos (hostPart_ne_empty.1 h), if_neg h, some_or]

theorem setTrackers_groupTrackers (trackers' : Dict String (Finset TorrentID)) :
    setTrackers getHost trackers (groupTrackers getHost trackers') =
      groupTrackers getHost (trackers ∪ trackers') := by
  refine Finmap.ext_lookup fun host => ?_
  rw [lookup_setTrackers, lookup_groupTrackers, lookup_groupTrackers, hostPart_union,
    getD_presentPart]
  by_cases h : hostPart getHost trackers host = ∅
  · rw [if_pos h, h, Finmap.empty_union]
  · rw [if_neg h, presentPart, if_neg]
    intro he
    refine h ((eq_empty_iff _).2 fun url => ?_)
    have := (eq_empty_iff _).1 he url
    rw [lookup_union, or_eq_none_iff] at this
    exact this.1

theorem removeTrackers_groupTrackers (removed : Finset String) :
    removeTrackers getHost removed (groupTrackers getHost trackers) =
      groupTrackers getHost (Dict.eraseAll removed trackers) := by
  refine Finmap.ext_lookup fun host => ?_
  rw [removeTrackers, lookup_filterMap, lookup_groupTrackers, lookup_groupTrackers,
    hostPart_eraseAll]
  generalize hostPart getHost trackers host = part
  generalize removed.filter (fun url => getHost url = host) = gone
  have hempty : eraseAll gone (∅ : Dict String (Finset TorrentID)) = ∅ :=
    (eq_empty_iff _).2 fun url => by simp
  have hnone : eraseAll ∅ part = part := Finmap.ext_lookup fun url => by simp
  unfold presentPart
  by_cases hp : part = ∅
  · simp [hp, hempty]
  · by_cases hg : gone = ∅
    · simp [hp, hg, hnone]
    · by_cases he : eraseAll gone part = ∅ <;> simp [hp, hg, he]

end Trackers

/-! ### What the web UI shows -/

/-- Two rows read the same at the keys the server uses. -/
def AgreeOffUi (fullData row : VariantMap) : Prop :=
  ∀ key, key ∉ uiKeys → value fullData key = value row key

def savePaths (categories : Dict String VariantMap) : Dict String Variant :=
  Dict.filterMap (fun _ row => some (value row "savePath")) categories

/-- The web UI shows the torrents, categories with their save paths, tags and trackers of a client. -/
structure Reflects (getHost : String → String) (web : WebClient) (client : SyncClient) : Prop where
  torrents : ∀ id,
    Option.Rel AgreeOffUi (lookup id web.torrentsTable) (lookup id client.torrents)
  categories : web.categoryMap = savePaths client.categories
  tags : web.tagMap = client.tags
  trackers : web.trackerMap = groupTrackers getHost client.trackers

/-- The web UI shows the state of the session. -/
def Matches (getHost : String → String) (web : WebClient) (s : Session) : Prop :=
  Reflects getHost web (SyncClient.replace {} s.maindata)

/-- The web UI shows nothing that `data` lacks. -/
structure ShowsNothingElse (getHost : String → String) (web : WebClient) (data : MaindataSyncBuf) :
    Prop where
  torrents : ∀ id, ∀ fullData ∈ lookup id web.torrentsTable, ∃ row ∈ lookup id data.torrents,
    ∀ key, key ∉ uiKeys → value fullData key ≠ .invalid → key ∈ row
  categories : ∀ name ∈ web.categoryMap, name ∈ data.categories
  tags : ∀ tag ∈ web.tagMap, tag ∈ data.tags
  trackers : ∀ host, ∀ shown ∈ lookup host web.trackerMap,
    hostPart getHost data.trackers host ≠ ∅ ∧
      ∀ url ∈ shown, url ∈ hostPart getHost data.trackers host

/-- The response is one that the handler gets right: the torrents it brings are in categories and
under tags of the session, a full update finds nothing else shown, and a category in a list of
changes comes with its save path. -/
structure Consumable (getHost : String → String) (web : WebClient) (response : MaindataResponse)
    (s : Session) : Prop where
  namedCategories : ∀ name ∈ namedCategories response.data.torrents, name ∈ s.categories
  namedTags : ∀ tag ∈ allNamedTags response.data.torrents, tag ∈ s.tags
  fullUpdate : response.fullUpdate → ShowsNothingElse getHost web response.data
  savePaths : response.fullUpdate = false → ∀ name, ∀ row ∈ lookup name response.data.categories,
    name ∉ response.data.removedCategories → "savePath" ∈ row

section Rows

variable {fullData row row' data : VariantMap} {id : TorrentID} {key : String}

theorem AgreeOffUi.trans_agree (h : AgreeOffUi fullData row) (h' : Agree row row') :
    AgreeOffUi fullData row' := fun key hk => (h key hk).trans (h' key)

theorem rel_trans_agree {o : Option VariantMap} {o' o'' : Option VariantMap}
    (h : Option.Rel AgreeOffUi o o') (h' : Option.Rel Agree o' o'') :
    Option.Rel AgreeOffUi o o'' := by
  cases h with
  | some h => cases h' with
    | some h' => exact .some (h.trans_agree h')
  | none => cases h'; exact .none

theorem mem_decorate_iff (hk : key ∉ uiKeys) : key ∈ decorate id row ↔ key ∈ row := by
  simp only [uiKeys, mem_insert, mem_singleton, not_or] at hk
  obtain ⟨h1, h2, h3, h4⟩ := hk
  simp only [decorate]
  split_ifs <;> simp [Finmap.mem_insert, h1, h2, h3, h4]

theorem value_decorate (hk : key ∉ uiKeys) : value (decorate id row) key = value row key := by
  simp only [uiKeys, mem_insert, mem_singleton, not_or] at hk
  obtain ⟨h1, h2, h3, h4⟩ := hk
  simp only [decorate]
  split_ifs <;> simp [value_insert, h1, h2, h3, h4]

theorem AgreeOffUi.merge (h : AgreeOffUi fullData row) :
    AgreeOffUi (decorate id data ∪ fullData) (data ∪ row) := by
  intro key hk
  by_cases hd : key ∈ data
  · rw [value_union_of_mem ((mem_decorate_iff hk).2 hd), value_decorate hk, value_union_of_mem hd]
  · rw [value_union_of_notMem fun hm => hd ((mem_decorate_iff hk).1 hm), value_union_of_notMem hd,
      h key hk]

theorem agreeOffUi_merge_iff : AgreeOffUi (decorate id data ∪ fullData) data ↔
    ∀ key, key ∉ uiKeys → value fullData key ≠ .invalid → key ∈ data := by
  refine forall_congr' fun key => forall_congr' fun hk => ?_
  by_cases hd : key ∈ data
  · rw [value_union_of_mem ((mem_decorate_iff hk).2 hd), value_decorate hk]
    simp [hd]
  · rw [value_union_of_notMem fun hm => hd ((mem_decorate_iff hk).1 hm),
      value_eq_invalid_of_notMem hd]
    simp [hd]

end Rows

section Components

variable {table : Dict TorrentID VariantMap} {torrents rows target : Dict TorrentID VariantMap}
  {removed : Multiset TorrentID} {categories : Dict String VariantMap} {getHost : String → String}

theorem lookup_mergeRows_decorate (id : TorrentID) :
    lookup id (Dict.eraseAll removed.toFinset
      (mergeRows (Dict.filterMap (fun key torrent => some (decorate key torrent)) torrents) table)) =
      deliverRow ((lookup id torrents).map (decorate id)) (removed.count id) (lookup id table) := by
  rw [lookup_mergeRows, lookup_filterMap]
  cases lookup id torrents <;> rfl

theorem torrents_changes (h : ∀ id, Option.Rel AgreeOffUi (lookup id table) (lookup id rows))
    (id : TorrentID) : Option.Rel AgreeOffUi
      (lookup id (Dict.eraseAll removed.toFinset
        (mergeRows (Dict.filterMap (fun key torrent => some (decorate key torrent)) torrents) table)))
      (lookup id (Dict.eraseAll removed.toFinset (mergeRows torrents rows))) := by
  rw [lookup_mergeRows_decorate, lookup_mergeRows]
  unfold deliverRow
  split_ifs
  · exact .none
  · cases lookup id torrents with
    | none => exact h id
    | some data =>
      refine .some (AgreeOffUi.merge ?_)
      have := h id
      generalize lookup id table = o, lookup id rows = o' at this ⊢
      cases this with
      | some h => exact h
      | none => exact fun _ _ => rfl

theorem torrents_full_iff :
    (∀ id, Option.Rel AgreeOffUi
      (lookup id (Dict.eraseAll (0 : Multiset TorrentID).toFinset
        (mergeRows (Dict.filterMap (fun key torrent => some (decorate key torrent)) torrents) table)))
      (lookup id torrents)) ↔
    ∀ id, ∀ fullData ∈ lookup id table, ∃ row ∈ lookup id torrents,
      ∀ key, key ∉ uiKeys → value fullData key ≠ .invalid → key ∈ row := by
  refine forall_congr' fun id => ?_
  rw [lookup_mergeRows_decorate]
  simp only [deliverRow, Multiset.count_zero, lt_irrefl, if_false]
  cases lookup id torrents with
  | none =>
    cases lookup id table <;> simp
  | some data =>
    simp only [map_some, rel_some_right, some_inj, exists_eq_left']
    rw [agreeOffUi_merge_iff]
    cases lookup id table <;> simp

theorem savePaths_named_iff {before : Dict String Variant} {named : Finset String}
    (hvalue : ∀ name, ∀ row ∈ lookup name categories, value row "savePath" ≠ .invalid) :
    before ∪ Dict.ofFinset named (fun _ => .invalid) = savePaths categories ↔
      before = savePaths categories ∧ ∀ name ∈ named, name ∈ categories := by
  have hpaths : ∀ name, lookup name (savePaths categories) =
      (lookup name categories).map (value · "savePath") := by
    intro name
    rw [savePaths, lookup_filterMap]
    cases lookup name categories <;> rfl
  constructor
  · intro h
    have hname : ∀ name, (lookup name before).or (if name ∈ named then some .invalid else none) =
        (lookup name categories).map (value · "savePath") := by
      intro name
      rw [← hpaths, ← h, lookup_union, lookup_ofFinset]
    have hbefore : ∀ name, lookup name before =
        (lookup name categories).map (value · "savePath") := by
      intro name
      rw [← hname]
      cases hb : lookup name before with
      | some v => rfl
      | none =>
        split_ifs with hn
        · have := hname name
          rw [hb, if_pos hn, none_or] at this
          obtain ⟨row, hrow, hv⟩ := map_eq_some_iff.1 this.symm
          exact (hvalue name row hrow hv).elim
        · rfl
    refine ⟨Finmap.ext_lookup fun name => (hbefore name).trans (hpaths name).symm,
      fun name hn => ?_⟩
    have := hname name
    rw [← hbefore, if_pos hn] at this
    rw [← Finmap.lookup_isSome, ← isSome_map (f := (value · "savePath")), ← hbefore, ← this]
    cases lookup name before <;> rfl
  · rintro ⟨rfl, hn⟩
    refine Finmap.ext_lookup fun name => ?_
    rw [lookup_union, lookup_ofFinset, hpaths]
    split_ifs with hnamed
    · obtain ⟨row, hrow⟩ := Finmap.mem_iff.1 (hn name hnamed)
      simp [hrow]
    · simp

theorem savePaths_union_iff {categoryMap : Dict String Variant} :
    savePaths categories ∪ categoryMap = savePaths categories ↔
      ∀ name ∈ categoryMap, name ∈ categories := by
  have hpaths : ∀ name, name ∈ savePaths categories ↔ name ∈ categories := by
    intro name
    rw [← Finmap.lookup_isSome, ← Finmap.lookup_isSome, savePaths, lookup_filterMap]
    cases lookup name categories <;> rfl
  constructor
  · intro h name hn
    rw [← hpaths, ← h, Finmap.mem_union]
    exact .inr hn
  · intro h
    refine Finmap.ext_lookup fun name => ?_
    rw [lookup_union]
    by_cases hn : name ∈ categoryMap
    · obtain ⟨v, hv⟩ := Finmap.mem_iff.1 ((hpaths name).2 (h name hn))
      rw [hv, some_or]
    · rw [Finmap.lookup_eq_none.2 hn, or_none]

theorem setTrackers_eq_iff {trackers : Dict String (Finset TorrentID)}
    {trackerMap : Dict String (Dict String (Finset TorrentID))} :
    setTrackers getHost trackers trackerMap = groupTrackers getHost trackers ↔
      ∀ host, ∀ shown ∈ lookup host trackerMap, hostPart getHost trackers host ≠ ∅ ∧
        ∀ url ∈ shown, url ∈ hostPart getHost trackers host := by
  have hext : setTrackers getHost trackers trackerMap = groupTrackers getHost trackers ↔
      ∀ host, lookup host (setTrackers getHost trackers trackerMap) =
        lookup host (groupTrackers getHost trackers) :=
    ⟨fun h _ => by rw [h], Finmap.ext_lookup⟩
  rw [hext]
  refine forall_congr' fun host => ?_
  rw [lookup_setTrackers, lookup_groupTrackers, presentPart]
  generalize hostPart getHost trackers host = part
  by_cases hp : part = ∅
  · cases lookup host trackerMap <;> simp [hp]
  · rw [if_neg hp, if_neg hp, some_inj]
    cases lookup host trackerMap with
    | none => simp
    | some shown =>
      simp only [getD_some, Option.mem_def, some_inj, forall_eq', ne_eq, hp,
        not_false_eq_true, true_and]
      constructor
      · intro h url hurl
        rw [← h, Finmap.mem_union]
        exact .inr hurl
      · intro h
        refine Finmap.ext_lookup fun url => ?_
        rw [lookup_union]
        by_cases hurl : url ∈ shown
        · obtain ⟨ids, hids⟩ := Finmap.mem_iff.1 (h url hurl)
          rw [hids, some_or]
        · rw [Finmap.lookup_eq_none.2 hurl, or_none]

theorem eraseAll_zero {V : Type} (m : Dict String V) :
    Dict.eraseAll (0 : Multiset String).toFinset m = m :=
  Finmap.ext_lookup fun key => by simp

theorem removeTrackers_zero (trackerMap : Dict String (Dict String (Finset TorrentID))) :
    removeTrackers getHost (0 : Multiset String).toFinset trackerMap = trackerMap := by
  refine Finmap.ext_lookup fun host => ?_
  rw [removeTrackers, lookup_filterMap]
  cases lookup host trackerMap with
  | none => rfl
  | some shown => simpa using eraseAll_zero shown

end Components

section Handler

variable {getHost : String → String} {web : WebClient} {response : MaindataResponse} {s : Session}

theorem syncMainData_toJSON : web.syncMainData getHost response.toJSON =
    { syncMainDataLastResponseId :=
        if response.rid ≠ 0 then response.rid else web.syncMainDataLastResponseId
      categoryMap :=
        Dict.eraseAll response.data.removedCategories.toFinset
            (savePaths response.data.categories ∪ web.categoryMap) ∪
          Dict.ofFinset (namedCategories response.data.torrents) fun _ => .invalid
      tagMap := ((web.tagMap ∪ response.data.tags.toFinset) \
        response.data.removedTags.toFinset) ∪ allNamedTags response.data.torrents
      trackerMap := removeTrackers getHost response.data.removedTrackers.toFinset
        (setTrackers getHost response.data.trackers web.trackerMap)
      torrentsTable := Dict.eraseAll response.data.removedTorrents.toFinset
        (mergeRows (Dict.filterMap (fun key torrent => some (decorate key torrent))
          response.data.torrents) web.torrentsTable)
      serverState := response.toJSON.rowAt "server_state" ∪ web.serverState } := by
  obtain ⟨h1, h2, h3, h4⟩ := namesAt_removed response
  simp only [WebClient.syncMainData, flagAt_toJSON, numberAt_toJSON, rowsAt_categories,
    rowsAt_torrents, idListsAt_trackers, namesAt_tags, h1, h2, h3, h4, Bool.false_eq_true, if_false,
    savePaths]

theorem value_savePath_maindata (s : Session) (name : String) :
    ∀ row ∈ lookup name s.maindata.categories, value row "savePath" ≠ .invalid := by
  intro row hrow
  rw [lookup_maindata_categories] at hrow
  obtain ⟨options, -, rfl⟩ := map_eq_some_iff.1 hrow
  rw [value_savePath]
  exact Variant.noConfusion

theorem mem_maindata_categories {name : String} :
    name ∈ s.maindata.categories ↔ name ∈ s.categories := by
  rw [← Finmap.lookup_isSome, lookup_maindata_categories, Session.isSome_categoryRow]

theorem matches_fullUpdate_iff (hsame : SameItems response.data s.maindata)
    (hfull : response.fullUpdate = true) :
    Matches getHost (web.syncMainData getHost response.toJSON) s ↔
      Consumable getHost web response s := by
  have htorrents : (∀ id, Rel AgreeOffUi
      (lookup id (web.syncMainData getHost response.toJSON).torrentsTable)
      (lookup id s.maindata.torrents)) ↔
      ∀ id, ∀ fullData ∈ lookup id web.torrentsTable, ∃ row ∈ lookup id response.data.torrents,
        ∀ key, key ∉ uiKeys → value fullData key ≠ .invalid → key ∈ row := by
    rw [syncMainData_toJSON, hsame.removedTorrents, ← hsame.torrents]
    exact torrents_full_iff
  have hcategories : (web.syncMainData getHost response.toJSON).categoryMap =
      savePaths s.maindata.categories ↔
      (∀ name ∈ web.categoryMap, name ∈ response.data.categories) ∧
        ∀ name ∈ namedCategories response.data.torrents, name ∈ s.categories := by
    rw [syncMainData_toJSON, hsame.removedCategories, hsame.categories]
    change eraseAll (0 : Multiset String).toFinset _ ∪ _ = _ ↔ _
    rw [eraseAll_zero, savePaths_named_iff (value_savePath_maindata s), savePaths_union_iff]
    simp only [mem_maindata_categories]
  have htags : (web.syncMainData getHost response.toJSON).tagMap = s.maindata.tags.toFinset ↔
      (∀ tag ∈ web.tagMap, tag ∈ response.data.tags) ∧
        ∀ tag ∈ allNamedTags response.data.torrents, tag ∈ s.tags := by
    have hlive : ∀ tag, tag ∈ response.data.tags ↔ tag ∈ s.tags := hsame.tags
    rw [syncMainData_toJSON, hsame.removedTags, Finset.ext_iff]
    change (∀ tag, tag ∈ ((web.tagMap ∪ _) \ (0 : Multiset String).toFinset) ∪ _ ↔
      tag ∈ s.tags.val.toFinset) ↔ _
    simp only [Multiset.toFinset_zero, sdiff_empty, mem_union, Multiset.mem_toFinset,
      mem_val, hlive]
    exact ⟨fun h => ⟨fun tag ht => (h tag).1 (.inl (.inl ht)), fun tag ht => (h tag).1 (.inr ht)⟩,
      fun h tag => ⟨fun ht => ht.elim (Or.elim · (h.1 tag) id) (h.2 tag),
        fun ht => .inl (.inr ht)⟩⟩
  have htrackers : (web.syncMainData getHost response.toJSON).trackerMap =
      groupTrackers getHost s.maindata.trackers ↔
      ∀ host, ∀ shown ∈ lookup host web.trackerMap,
        hostPart getHost response.data.trackers host ≠ ∅ ∧
          ∀ url ∈ shown, url ∈ hostPart getHost response.data.trackers host := by
    rw [syncMainData_toJSON, hsame.removedTrackers, hsame.trackers]
    change removeTrackers getHost (0 : Multiset String).toFinset _ = _ ↔ _
    rw [removeTrackers_zero, setTrackers_eq_iff]
  constructor
  · intro h
    obtain ⟨hc, hcn⟩ := hcategories.1 h.categories
    obtain ⟨ht, htn⟩ := htags.1 h.tags
    refine ⟨hcn, htn, fun _ => ⟨htorrents.1 h.torrents, hc, ht, htrackers.1 h.trackers⟩,
      fun hf => ?_⟩
    rw [hfull] at hf
    cases hf
  · intro h
    have hs := h.fullUpdate hfull
    exact ⟨htorrents.2 hs.torrents, hcategories.2 ⟨hs.categories, h.namedCategories⟩,
      htags.2 ⟨hs.tags, h.namedTags⟩, htrackers.2 hs.trackers⟩

theorem savePaths_changes_iff {categories changes rows : Dict String VariantMap}
    {removed : Multiset String}
    (hvalue : ∀ name, ∀ row ∈ lookup name categories, value row "savePath" ≠ .invalid)
    (hshows : ∀ name, Option.Rel Agree
      (lookup name (Dict.eraseAll removed.toFinset (mergeRows changes rows)))
      (lookup name categories)) :
    Dict.eraseAll removed.toFinset (savePaths changes ∪ savePaths rows) = savePaths categories ↔
      ∀ name, ∀ row ∈ lookup name changes, name ∉ removed → "savePath" ∈ row := by
  have hext : eraseAll removed.toFinset (savePaths changes ∪ savePaths rows) =
      savePaths categories ↔ ∀ name,
        lookup name (eraseAll removed.toFinset (savePaths changes ∪ savePaths rows)) =
          lookup name (savePaths categories) :=
    ⟨fun h _ => by rw [h], Finmap.ext_lookup⟩
  rw [hext]
  refine forall_congr' fun name => ?_
  have hname := hshows name
  have hv := hvalue name
  rw [lookup_mergeRows] at hname
  unfold deliverRow at hname
  simp only [savePaths, lookup_eraseAll, lookup_union, lookup_filterMap,
    Multiset.mem_toFinset, ← Multiset.count_pos]
  by_cases hr : 0 < removed.count name
  · rw [if_pos hr] at hname
    generalize lookup name categories = target at *
    cases hname
    simp [hr]
  · rw [if_neg hr] at hname
    simp only [hr, if_false, not_false_eq_true, true_imp_iff]
    cases hc : lookup name changes with
    | none =>
      rw [hc] at hname
      generalize lookup name categories = target, lookup name rows = row at *
      cases hname with
      | some h => simp [h "savePath"]
      | none => simp
    | some d =>
      rw [hc] at hname
      generalize lookup name categories = target at *
      cases hname with
      | some h =>
        have hpath := h "savePath"
        simp only [bind_some, some_or, some_inj, Option.mem_def, forall_eq']
        constructor
        · intro he
          refine mem_of_value ?_
          rw [he]
          exact hv _ rfl
        · intro hd
          rw [← hpath, value_union_of_mem hd]

theorem matches_changes_iff {client : SyncClient} (hweb : Reflects getHost web client)
    (hshows : (client.applyChanges response.data).Shows s.maindata)
    (hfull : response.fullUpdate = false) :
    Matches getHost (web.syncMainData getHost response.toJSON) s ↔
      Consumable getHost web response s := by
  have htorrents : ∀ id, Rel AgreeOffUi
      (lookup id (web.syncMainData getHost response.toJSON).torrentsTable)
      (lookup id s.maindata.torrents) := by
    intro id
    rw [syncMainData_toJSON]
    exact rel_trans_agree (torrents_changes hweb.torrents id) (hshows.torrents id)
  have hcategories : (web.syncMainData getHost response.toJSON).categoryMap =
      savePaths s.maindata.categories ↔
      (∀ name, ∀ row ∈ lookup name response.data.categories,
        name ∉ response.data.removedCategories → "savePath" ∈ row) ∧
        ∀ name ∈ namedCategories response.data.torrents, name ∈ s.categories := by
    rw [syncMainData_toJSON]
    rw [savePaths_named_iff (value_savePath_maindata s), hweb.categories,
      savePaths_changes_iff (value_savePath_maindata s) hshows.categories]
    simp only [mem_maindata_categories]
  have htags : (web.syncMainData getHost response.toJSON).tagMap = s.maindata.tags.toFinset ↔
      ∀ tag ∈ allNamedTags response.data.torrents, tag ∈ s.tags := by
    have hlive : (client.tags ∪ response.data.tags.toFinset) \ response.data.removedTags.toFinset =
        s.tags := ext hshows.tags
    rw [syncMainData_toJSON, hweb.tags]
    rw [hlive]
    change s.tags ∪ _ = s.tags.val.toFinset ↔ _
    rw [val_toFinset, union_eq_left]
    rfl
  have htrackers : (web.syncMainData getHost response.toJSON).trackerMap =
      groupTrackers getHost s.maindata.trackers := by
    rw [syncMainData_toJSON, hweb.trackers]
    rw [setTrackers_groupTrackers, removeTrackers_groupTrackers, ← hshows.trackers]
    rfl
  constructor
  · intro h
    obtain ⟨hc, hcn⟩ := hcategories.1 h.categories
    refine ⟨hcn, htags.1 h.tags, fun hf => ?_, fun _ => hc⟩
    rw [hfull] at hf
    cases hf
  · intro h
    exact ⟨htorrents, hcategories.2 ⟨h.savePaths hfull, h.namedCategories⟩, htags.2 h.namedTags,
      htrackers⟩

end Handler

section WebUi

variable {getHost : String → String} {web : WebClient} {response : MaindataResponse}
  {t t' : SyncHistory}

end WebUi

end QBittorrent
