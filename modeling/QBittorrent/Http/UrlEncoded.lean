import QBittorrent.Http.RequestParser
import QBittorrent.Lib.PercentEncoding

/-!
# Parameters of requests

Parameters come in the query of the request target or in the body of a POST request, form-encoded in
both cases.  The parser takes the query apart itself and reads plus signs as spaces after it has
decoded the bytes; for a body it does so before, and leaves the rest to `QUrlQuery`.

* `parsePostMessage_form`, `parseRequestLine_form` : what both are read as;
* `same_parameters_iff` : when this is the same.
-/

namespace QBittorrent

open RequestParser List Option Prod Dict UInt8

/-- A pair in form encoding: its name and its value. -/
abbrev FormItem := List UInt8 × List UInt8

def FormItem.text (item : FormItem) : List UInt8 := item.1 ++ 61 :: item.2

def formText (items : List FormItem) : List UInt8 := [38].intercalate (items.map FormItem.text)

def EncodesWith (R : List UInt8 → List UInt8 → Prop) (pair : String × String) (item : FormItem) :
    Prop :=
  R (toUtf8 pair.1) item.1 ∧ R (toUtf8 pair.2) item.2

/-- A component in which nothing separates items, or their names from their values. -/
def IsComponent (component : List UInt8) : Prop :=
  ∀ y ∈ component, isAscii y = true ∧ y ≠ 38 ∧ y ≠ 61

/-- What is documented of the URL classes: a percent encoding is undone, and the items of a query are
those between its separators, decoded as UTF-8. -/
structure UrlCodec.Documented (U : UrlCodec) : Prop where
  fromPercentEncoding_eq : ∀ {b e : List UInt8}, PercentEncoded b e → U.fromPercentEncoding e = b
  queryItems_eq : ∀ {pairs : List (String × String)} {items : List FormItem},
    List.Forall₂ (EncodesWith PercentEncoded) pairs items →
    (∀ item ∈ items, IsComponent item.1 ∧ IsComponent item.2 ∧ item.1 ≠ []) →
    U.queryItems (fromLatin1 (formText items)) = pairs

/-- The first line of a request. -/
def requestLine (method target : List UInt8) : List UInt8 :=
  method ++ 32 :: (target ++ 32 :: toUtf8 "HTTP/1.1")

/-- A path as it may stand in a request line, without a query. -/
def IsPath (path : List UInt8) : Prop := ∀ y ∈ path, isRegexSpace y = false ∧ y ≠ 63

/-! ### Bytes of encoded items -/

theorem isFormByte_spec {y : UInt8} (h : isFormByte y = true) :
    isAscii y = true ∧ isRegexSpace y = false ∧ y ≠ 38 ∧ y ≠ 61 := by
  have hall : ∀ n : Fin 256, isFormByte (ofNat n) = true →
      isAscii (ofNat n) = true ∧ isRegexSpace (ofNat n) = false ∧
        ofNat n ≠ 38 ∧ ofNat n ≠ 61 := by decide +kernel
  exact uint8_forall (p := fun y => isFormByte y = true → isAscii y = true ∧
    isRegexSpace y = false ∧ y ≠ 38 ∧ y ≠ 61) hall y h

theorem isComponent_of_formEncoded {b e : List UInt8} (h : FormEncoded b e) : IsComponent e :=
  fun _ hy => ⟨(isFormByte_spec (h.isFormByte_of_mem hy)).1,
    (isFormByte_spec (h.isFormByte_of_mem hy)).2.2⟩

theorem isComponent_plusToSpace {e : List UInt8} (h : IsComponent e) :
    IsComponent (plusToSpace e) := by
  intro y hy
  obtain ⟨c, hc, rfl⟩ := mem_map.1 hy
  by_cases hplus : c = 43
  · rw [if_pos hplus]
    exact ⟨rfl, by decide, by decide⟩
  · rw [if_neg hplus]
    exact h c hc

theorem formText_cons (item : FormItem) (items : List FormItem) :
    formText (item :: items) =
      item.text ++ if items = [] then [] else 38 :: formText items := by
  cases items with
  | nil => simp [formText]
  | cons next items => simp [formText, intercalate_cons_cons]

variable {items : List FormItem} {item : FormItem}

theorem mem_formText {y : UInt8} (h : y ∈ formText items) :
    y = 38 ∨ y = 61 ∨ ∃ item ∈ items, y ∈ item.1 ∨ y ∈ item.2 := by
  induction items with
  | nil => simp [formText] at h
  | cons item items ih =>
    rw [formText_cons, mem_append] at h
    rcases h with h | h
    · simp only [FormItem.text, mem_append, mem_cons] at h
      rcases h with h | rfl | h
      · exact .inr (.inr ⟨item, mem_cons_self, .inl h⟩)
      · exact .inr (.inl rfl)
      · exact .inr (.inr ⟨item, mem_cons_self, .inr h⟩)
    · by_cases hnil : items = []
      · simp [hnil] at h
      · rw [if_neg hnil, mem_cons] at h
        rcases h with rfl | h
        · exact .inl rfl
        · obtain h | h | ⟨i, hi, h⟩ := ih h
          · exact .inl h
          · exact .inr (.inl h)
          · exact .inr (.inr ⟨i, mem_cons_of_mem _ hi, h⟩)

theorem isAscii_formText
    (h : ∀ item ∈ items, IsComponent item.1 ∧ IsComponent item.2 ∧ item.1 ≠ []) :
    ∀ x ∈ formText items, isAscii x = true := by
  intro x hx
  obtain rfl | rfl | ⟨item, hitem, hx⟩ := mem_formText hx
  · rfl
  · rfl
  · obtain ⟨hname, hvalue, -⟩ := h item hitem
    exact hx.elim (fun hx => (hname x hx).1) fun hx => (hvalue x hx).1

theorem pieces_formText (h : ∀ item ∈ items, IsComponent item.1 ∧ IsComponent item.2) :
    pieces true [38] (formText items) = items.map FormItem.text := by
  induction items with
  | nil => simp [formText]
  | cons item items ih =>
    rw [forall_mem_cons] at h
    have hnone : 38 ∉ item.text := by
      simp only [FormItem.text, mem_append, mem_cons, not_or]
      exact ⟨fun hy => (h.1.1 _ hy).2.1 rfl, by decide, fun hy => (h.1.2 _ hy).2.1 rfl⟩
    have hne : item.text ≠ [] := by simp [FormItem.text]
    rw [formText_cons]
    by_cases hnil : items = []
    · rw [if_pos hnil, append_nil, hnil, pieces_of_not_isInfix (by simp) hne
        fun hmark => hnone (hmark.subset (by simp))]
      rfl
    · rw [if_neg hnil]
      have hindex : firstIndex [38] (item.text ++ 38 :: formText items) =
          some item.text.length := by
        rw [firstIndex_append_of_notMem hnone, firstIndex_of_isPrefix
          (cons_prefix_cons.2 ⟨rfl, nil_prefix⟩), map_some, Nat.zero_add]
      rw [pieces_of_firstIndex (by simp) hindex, if_neg (by simp), take_left,
        length_singleton, ← drop_drop, drop_left, drop_one, tail_cons,
        ih h.2]
      rfl

theorem firstIndex_text (h : IsComponent item.1) :
    firstIndex [61] item.text = some item.1.length := by
  rw [FormItem.text, firstIndex_append_of_notMem fun hy => (h _ hy).2.2 rfl,
    firstIndex_of_isPrefix (cons_prefix_cons.2 ⟨rfl, nil_prefix⟩), map_some,
    Nat.zero_add]

/-! ### The body of a POST request -/

theorem plusToSpace_formText (items : List FormItem) :
    plusToSpace (formText items) =
      formText (items.map fun item => (plusToSpace item.1, plusToSpace item.2)) := by
  induction items with
  | nil => simp [formText, plusToSpace]
  | cons item items ih =>
    have hitem : plusToSpace item.text =
        FormItem.text (plusToSpace item.1, plusToSpace item.2) := by
      simp [FormItem.text, plusToSpace]
    have happend : ∀ x y : List UInt8, plusToSpace (x ++ y) = plusToSpace x ++ plusToSpace y :=
      fun x y => map_append
    rw [map_cons, formText_cons, formText_cons, happend, hitem]
    by_cases hnil : items = []
    · simp [hnil, plusToSpace]
    · rw [if_neg hnil, if_neg (by simpa using hnil), ← ih]
      simp [plusToSpace]

variable {s : String}

theorem toUtf8_ne_nil (h : s ≠ "") : toUtf8 s ≠ [] := fun hnil =>
  h (toUtf8_injective (hnil.trans (by decide)))

theorem ne_nil_of_formEncoded {b e : List UInt8} (h : FormEncoded b e) (hb : b ≠ []) : e ≠ [] := by
  cases h with
  | nil => exact (hb rfl).elim
  | _ => exact cons_ne_nil _ _

variable {U : UrlCodec} {pairs : List (String × String)} {items : List FormItem} {request : Request}

theorem exists_pair_of_mem (h : List.Forall₂ (EncodesWith FormEncoded) pairs items)
    (hitem : item ∈ items) : ∃ pair ∈ pairs, EncodesWith FormEncoded pair item := by
  induction h with
  | nil => cases hitem
  | @cons pair next pairs items h _ ih =>
    rcases mem_cons.1 hitem with rfl | hitem
    · exact ⟨pair, mem_cons_self, h⟩
    · obtain ⟨pair, hpair, h⟩ := ih hitem
      exact ⟨pair, mem_cons_of_mem _ hpair, h⟩

/-- The pairs of a form, in order. -/
def postsOf (pairs : List (String × String)) : Dict String String :=
  pairs.foldl (fun posts pair => posts.insert pair.1 pair.2) ∅

theorem parsePostMessage_form (hU : U.Documented)
    (henc : List.Forall₂ (EncodesWith FormEncoded) pairs items) (hne : ∀ pair ∈ pairs, pair.1 ≠ "")
    (hposts : request.posts = ∅) (htype : toUtf8 "application/x-www-form-urlencoded" <+:
      toLower ((request.headers.lookup (toUtf8 "content-type")).getD [])) :
    (parsePostMessage U (formText items) request).map Request.posts = some (postsOf pairs) := by
  have hitems : Forall₂ (EncodesWith PercentEncoded) pairs
      (items.map fun item => (plusToSpace item.1, plusToSpace item.2)) := by
    rw [forall₂_map_right_iff]
    exact henc.imp fun _ _ h => ⟨h.1.percentEncoded, h.2.percentEncoded⟩
  have hcomponents : ∀ item ∈ items.map fun item : FormItem =>
      (plusToSpace item.1, plusToSpace item.2),
      IsComponent item.1 ∧ IsComponent item.2 ∧ item.1 ≠ [] := by
    intro item hitem
    obtain ⟨item, hmem, rfl⟩ := mem_map.1 hitem
    obtain ⟨pair, hpair, h⟩ := exists_pair_of_mem henc hmem
    have hname := ne_nil_of_formEncoded h.1 (toUtf8_ne_nil (hne pair hpair))
    exact ⟨isComponent_plusToSpace (isComponent_of_formEncoded h.1),
      isComponent_plusToSpace (isComponent_of_formEncoded h.2), by simpa [plusToSpace] using hname⟩
  have hascii : ∀ x ∈ plusToSpace (formText items), isAscii x = true := by
    rw [plusToSpace_formText]
    exact isAscii_formText hcomponents
  have hquery := hU.queryItems_eq hitems hcomponents
  rw [← plusToSpace_formText, ← decodeUtf8_of_ascii hascii] at hquery
  simp only [parsePostMessage]
  rw [if_pos htype, map_some]
  change some ((U.queryItems (decodeUtf8 (plusToSpace (formText items)))).foldl _ _) = _
  rw [hquery, hposts]
  rfl

/-! ### The query of the request target -/

theorem span_append {p : UInt8 → Bool} {l : List UInt8} (hl : ∀ y ∈ l, p y = true) {c : UInt8}
    (hc : p c = false) (rest : List UInt8) : (l ++ c :: rest).span p = (l, c :: rest) := by
  rw [span_eq_takeWhile_dropWhile, takeWhile_append_of_pos hl,
    dropWhile_append_of_pos hl, takeWhile_cons_of_neg (by simp [hc]),
    dropWhile_cons_of_neg (by simp [hc]), append_nil]

theorem matchRequestLine_requestLine {method target : List UInt8} (hmethod : method ≠ [])
    (hupper : ∀ y ∈ method, 65 ≤ y ∧ y ≤ 90) (htarget : target ≠ [])
    (hspace : ∀ y ∈ target, isRegexSpace y = false) :
    matchRequestLine (requestLine method target) = some (method, target, [49, 46, 49]) := by
  obtain ⟨t, ts, rfl⟩ := exists_cons_of_ne_nil htarget
  have hversion : toUtf8 "HTTP/1.1" = [72, 84, 84, 80, 47, 49, 46, 49] := by decide
  have hfirst : ∀ rest : List UInt8, ([32] ++ t :: rest).span isRegexSpace = ([32], t :: rest) := fun rest =>
    span_append (by simp [isRegexSpace]) (hspace t mem_cons_self) rest
  have hlast : ∀ rest : List UInt8, ([32] ++ 72 :: rest).span isRegexSpace = ([32], 72 :: rest) := fun rest =>
    span_append (by simp [isRegexSpace]) (by decide) rest
  have hmiddle : ∀ rest : List UInt8, ((t :: ts) ++ 32 :: rest).span (fun c => !isRegexSpace c) =
      (t :: ts, 32 :: rest) := fun rest =>
    span_append (fun y hy => by simp [hspace y hy]) (by decide) rest
  have hbegin : ∀ rest : List UInt8, (method ++ 32 :: rest).span (fun c => 65 ≤ c && c ≤ 90) =
      (method, 32 :: rest) := fun rest =>
    span_append (fun y hy => by simpa using hupper y hy) (by decide) rest
  simp only [matchRequestLine, requestLine, hversion, hbegin]
  rw [show (32 :: (t :: ts ++ 32 :: [72, 84, 84, 80, 47, 49, 46, 49]) : List UInt8) =
    [32] ++ t :: (ts ++ 32 :: [72, 84, 84, 80, 47, 49, 46, 49]) from rfl]
  simp only [hfirst]
  rw [show (t :: (ts ++ 32 :: [72, 84, 84, 80, 47, 49, 46, 49]) : List UInt8) =
    (t :: ts) ++ 32 :: [72, 84, 84, 80, 47, 49, 46, 49] from rfl]
  simp only [hmiddle]
  rw [show ([32, 72, 84, 84, 80, 47, 49, 46, 49] : List UInt8) =
    [32] ++ 72 :: [84, 84, 80, 47, 49, 46, 49] from rfl]
  simp only [hlast]
  rw [if_neg (by simp [hmethod])]
  rfl

/-- What a query is read as: with every plus sign replaced, and names without a mark in front. -/
def queryOf (pairs : List (String × String)) : Dict String (List UInt8) :=
  pairs.foldl (fun query pair => query.insert (decodeUtf8 (plusToSpace (toUtf8 pair.1)))
    (plusToSpace (toUtf8 pair.2))) ∅

theorem decodeComponent_form (hU : U.Documented) {b e : List UInt8} (h : FormEncoded b e) :
    decodeComponent U e = plusToSpace b := by
  obtain ⟨b', he, hb⟩ := h.exists_percentEncoded
  rw [decodeComponent, hU.fromPercentEncoding_eq he]
  exact hb

theorem parseRequestLine_form (hU : U.Documented)
    (henc : List.Forall₂ (EncodesWith FormEncoded) pairs items) (hne : ∀ pair ∈ pairs, pair.1 ≠ "")
    {method path : List UInt8} (hmethod : method ≠ []) (hupper : ∀ y ∈ method, 65 ≤ y ∧ y ≤ 90)
    (hpath : IsPath path) (hquery : request.query = ∅) :
    (parseRequestLine U (requestLine method (path ++ 63 :: formText items)) request).map
      Request.query = some (queryOf pairs) := by
  have hspace : ∀ y ∈ path ++ 63 :: formText items, isRegexSpace y = false := by
    intro y hy
    rw [mem_append, mem_cons] at hy
    rcases hy with hy | rfl | hy
    · exact (hpath y hy).1
    · decide
    · obtain rfl | rfl | ⟨item, hitem, hy⟩ := mem_formText hy
      · decide
      · decide
      · obtain ⟨pair, -, h⟩ := exists_pair_of_mem henc hitem
        exact hy.elim (fun hy => (isFormByte_spec (h.1.isFormByte_of_mem hy)).2.1)
          fun hy => (isFormByte_spec (h.2.isFormByte_of_mem hy)).2.1
  have hindex : firstIndex [63] (path ++ 63 :: formText items) = some path.length := by
    rw [firstIndex_append_of_notMem fun hy => (hpath _ hy).2 rfl,
      firstIndex_of_isPrefix (cons_prefix_cons.2 ⟨rfl, nil_prefix⟩), map_some,
      Nat.zero_add]
  have hdrop : (path ++ 63 :: formText items).drop (path.length + 1) = formText items := by
    rw [← drop_drop, drop_left, drop_one, tail_cons]
  have hsplit : splitToViews (formText items) [38] .KeepEmptyParts = items.map FormItem.text := by
    refine pieces_formText fun item hitem => ?_
    obtain ⟨pair, -, h⟩ := exists_pair_of_mem henc hitem
    exact ⟨isComponent_of_formEncoded h.1, isComponent_of_formEncoded h.2⟩
  simp only [parseRequestLine, matchRequestLine_requestLine hmethod hupper (by simp) hspace,
    map_some, hindex, elim_some, hdrop, hsplit, hquery]
  refine congrArg some ?_
  generalize hstep : (fun (query : Dict String (List UInt8)) param => _) = step
  have hitem : ∀ query pair item, EncodesWith FormEncoded pair item → pair.1 ≠ "" →
      step query (FormItem.text item) =
        query.insert (decodeUtf8 (plusToSpace (toUtf8 pair.1))) (plusToSpace (toUtf8 pair.2)) := by
    intro query pair item h hname
    have hlength := length_pos_iff.2 (ne_nil_of_formEncoded h.1 (toUtf8_ne_nil hname))
    obtain ⟨n, hn⟩ : ∃ n, item.1.length = n + 1 := ⟨item.1.length - 1, by omega⟩
    have hcut : firstIndex [61] item.text = some (n + 1) := by
      rw [firstIndex_text (isComponent_of_formEncoded h.1), hn]
    have htake : item.text.take (n + 1) = item.1 := by
      rw [← hn, FormItem.text, take_left]
    have hrest : item.text.drop (n + 1 + 1) = item.2 := by
      rw [← hn, FormItem.text, ← drop_drop, drop_left, drop_one, tail_cons]
    rw [← hstep]
    simp only [hcut, htake, hrest, decodeComponent_form hU h.1, decodeComponent_form hU h.2]
  have hfold : ∀ query : Dict String (List UInt8), (items.map FormItem.text).foldl step query =
      pairs.foldl (fun query pair => query.insert (decodeUtf8 (plusToSpace (toUtf8 pair.1)))
        (plusToSpace (toUtf8 pair.2))) query := by
    clear hsplit hdrop hindex hspace
    induction henc with
    | nil => exact fun query => rfl
    | cons h henc ih =>
      intro query
      rw [forall_mem_cons] at hne
      rw [map_cons, foldl_cons, foldl_cons, hitem query _ _ h hne.1, ih hne.2]
  exact hfold ∅

/-! ### The same parameters by both ways -/

/-- The query holds exactly these pairs. -/
def QueryIs (pairs : List (String × String)) (query : Dict String (List UInt8)) : Prop :=
  ∀ name value, query.lookup name = some value ↔ ∃ text, (name, text) ∈ pairs ∧ value = toUtf8 text

/-- The parameters of the body are exactly these pairs. -/
def PostsAre (pairs : List (String × String)) (posts : Dict String String) : Prop :=
  ∀ name value, posts.lookup name = some value ↔ (name, value) ∈ pairs

/-- The pairs are kept by the order in which a query is decoded: no plus sign is meant, and no name
begins with a byte order mark. -/
def Plain (pairs : List (String × String)) : Prop :=
  ∀ pair ∈ pairs, '+' ∉ pair.1.toList ∧ '+' ∉ pair.2.toList ∧
    pair.1.toList.head? ≠ some (Char.ofNat 0xFEFF)

theorem plusToSpace_eq_self_iff {b : List UInt8} : plusToSpace b = b ↔ 43 ∉ b := by
  constructor
  · intro h hmem
    rw [← h, plusToSpace, List.mem_map] at hmem
    obtain ⟨c, -, hc⟩ := hmem
    by_cases hplus : c = 43
    · rw [if_pos hplus] at hc
      exact absurd hc (by decide)
    · rw [if_neg hplus] at hc
      exact hplus hc
  · intro h
    conv_rhs => rw [← map_id b]
    exact map_congr_left fun c hc => if_neg fun hplus : c = 43 => h (hplus ▸ hc)

theorem plus_mem_toUtf8_iff : 43 ∈ toUtf8 s ↔ '+' ∈ s.toList := by
  rw [← count_pos_iff, ← count_pos_iff, count_toUtf8 (b := 43) rfl s]
  rfl

theorem plusToSpace_toUtf8_iff : plusToSpace (toUtf8 s) = toUtf8 s ↔ '+' ∉ s.toList :=
  plusToSpace_eq_self_iff.trans plus_mem_toUtf8_iff.not

theorem plus_notMem_read (b : List UInt8) : '+' ∉ (decodeUtf8 (plusToSpace b)).toList := by
  rw [← count_eq_zero]
  have hcount := count_decodeUtf8 (x := 43) rfl (plusToSpace b)
  rw [show Char.ofNat (43 : UInt8).toNat = '+' from rfl] at hcount
  rw [hcount, count_eq_zero]
  intro hmem
  obtain ⟨c, -, hc⟩ := mem_map.1 hmem
  by_cases hplus : c = 43
  · rw [if_pos hplus] at hc
    exact absurd hc (by decide)
  · rw [if_neg hplus] at hc
    exact hplus hc

theorem postsAre_postsOf (hnames : (pairs.map Prod.fst).Nodup) : PostsAre pairs (postsOf pairs) := by
  intro name value
  constructor
  · intro h
    have hmem : name ∈ pairs.map fst := by
      have := (isSome_lookup_foldl_insert pairs ∅ name).1 (by
        rw [show pairs.foldl (fun m e => Finmap.insert e.1 e.2 m) ∅ = postsOf pairs from rfl, h]
        rfl)
      simpa using this
    obtain ⟨pair, hpair, rfl⟩ := mem_map.1 hmem
    have := lookup_foldl_insert_of_mem hnames hpair ∅
    rw [show pairs.foldl (fun m e => Finmap.insert e.1 e.2 m) ∅ = postsOf pairs from rfl, h] at this
    rw [some.inj this]
    exact hpair
  · exact fun h => lookup_foldl_insert_of_mem hnames h ∅

theorem queryOf_eq (pairs : List (String × String)) :
    queryOf pairs = (pairs.map fun pair => (decodeUtf8 (plusToSpace (toUtf8 pair.1)),
      plusToSpace (toUtf8 pair.2))).foldl (fun m e => Finmap.insert e.1 e.2 m) ∅ := by
  rw [foldl_map]
  rfl

theorem queryIs_of_plain (hnames : (pairs.map Prod.fst).Nodup) (h : Plain pairs) :
    QueryIs pairs (queryOf pairs) := by
  have hentries : (pairs.map fun pair => (decodeUtf8 (plusToSpace (toUtf8 pair.1)),
      plusToSpace (toUtf8 pair.2))) = pairs.map fun pair => (pair.1, toUtf8 pair.2) := by
    refine map_congr_left fun pair hpair => ?_
    obtain ⟨hname, hvalue, hmark⟩ := h pair hpair
    rw [plusToSpace_toUtf8_iff.2 hname, plusToSpace_toUtf8_iff.2 hvalue,
      decodeUtf8_toUtf8_eq_iff.2 hmark]
  have hkeys : ((pairs.map fun pair => (pair.1, toUtf8 pair.2)).map fst) =
      pairs.map fst := by
    rw [List.map_map]
    rfl
  intro name value
  rw [queryOf_eq, hentries]
  constructor
  · intro hlookup
    have hmem := (isSome_lookup_foldl_insert _ ∅ name).1 (isSome_iff_exists.2
      ⟨value, hlookup⟩)
    obtain ⟨pair, hpair, rfl⟩ := mem_map.1 (show name ∈ pairs.map fst by simpa using hmem)
    have hentry := lookup_foldl_insert_of_mem (hkeys ▸ hnames)
      (mem_map_of_mem (f := fun pair : String × String => (pair.1, toUtf8 pair.2)) hpair) ∅
    rw [hlookup] at hentry
    exact ⟨pair.2, hpair, some.inj hentry⟩
  · rintro ⟨text, hpair, rfl⟩
    exact lookup_foldl_insert_of_mem (hkeys ▸ hnames)
      (mem_map_of_mem (f := fun pair : String × String => (pair.1, toUtf8 pair.2)) hpair) ∅

theorem plain_of_queryIs (hnames : (pairs.map Prod.fst).Nodup) (h : QueryIs pairs (queryOf pairs)) :
    Plain pairs := by
  -- every name is read from one of them, so none has a plus sign
  have hread : ∀ name ∈ pairs.map fst, ∃ t ∈ pairs.map fst,
      decodeUtf8 (plusToSpace (toUtf8 t)) = name := by
    intro name hname
    obtain ⟨pair, hpair, rfl⟩ := mem_map.1 hname
    have hlookup := (h pair.1 (toUtf8 pair.2)).2 ⟨pair.2, hpair, rfl⟩
    rw [queryOf_eq] at hlookup
    have hmem := (isSome_lookup_foldl_insert _ ∅ pair.1).1 (isSome_iff_exists.2
      ⟨_, hlookup⟩)
    rw [List.map_map] at hmem
    obtain ⟨other, hother, heq⟩ := mem_map.1 (hmem.resolve_right (by simp))
    exact ⟨other.1, mem_map_of_mem hother, heq⟩
  have hplus : ∀ name ∈ pairs.map fst, '+' ∉ name.toList := by
    intro name hname
    obtain ⟨t, -, rfl⟩ := hread name hname
    exact plus_notMem_read _
  have hmark : ∀ name ∈ pairs.map fst, decodeUtf8 (toUtf8 name) = name := by
    refine decodeUtf8_toUtf8_of_mem fun name hname => ?_
    obtain ⟨t, ht, heq⟩ := hread name hname
    rw [plusToSpace_toUtf8_iff.2 (hplus t ht)] at heq
    exact ⟨t, ht, heq⟩
  intro pair hpair
  have hname : pair.1 ∈ pairs.map fst := mem_map_of_mem hpair
  refine ⟨hplus _ hname, ?_, decodeUtf8_toUtf8_eq_iff.1 (hmark _ hname)⟩
  -- the value is that of the last item with this name, and there is only one
  have hkeys : ((pairs.map fun pair => (decodeUtf8 (plusToSpace (toUtf8 pair.1)),
      plusToSpace (toUtf8 pair.2))).map fst) = pairs.map fst := by
    rw [List.map_map]
    refine map_congr_left fun pair hpair => ?_
    have hname : pair.1 ∈ pairs.map fst := mem_map_of_mem hpair
    change decodeUtf8 (plusToSpace (toUtf8 pair.1)) = pair.1
    rw [plusToSpace_toUtf8_iff.2 (hplus _ hname), hmark _ hname]
  have hentry := lookup_foldl_insert_of_mem (hkeys ▸ hnames)
    (mem_map_of_mem (f := fun pair : String × String =>
      (decodeUtf8 (plusToSpace (toUtf8 pair.1)), plusToSpace (toUtf8 pair.2))) hpair) ∅
  rw [← queryOf_eq] at hentry
  rw [plusToSpace_toUtf8_iff.2 (hplus _ hname), hmark _ hname,
    (h pair.1 (toUtf8 pair.2)).2 ⟨pair.2, hpair, rfl⟩] at hentry
  exact plusToSpace_toUtf8_iff.1 (some.inj hentry).symm

/-- **Parameters.**  Sent in a query and in a body, form-encoded pairs are read as these pairs by both
ways exactly when none of them has a plus sign and no name begins with a byte order mark. -/
theorem same_parameters_iff (hU : U.Documented)
    (henc : List.Forall₂ (EncodesWith FormEncoded) pairs items)
    (hnames : (pairs.map Prod.fst).Nodup) (hne : ∀ pair ∈ pairs, pair.1 ≠ "")
    {method path : List UInt8} (hmethod : method ≠ []) (hupper : ∀ y ∈ method, 65 ≤ y ∧ y ≤ 90)
    (hpath : IsPath path) {request : Request} (hquery : request.query = ∅)
    (hposts : request.posts = ∅)
    (htype : toUtf8 "application/x-www-form-urlencoded" <+:
      toLower ((request.headers.lookup (toUtf8 "content-type")).getD [])) :
    ((∃ r, parseRequestLine U (requestLine method (path ++ 63 :: formText items)) request = some r ∧
        QueryIs pairs r.query) ∧
      ∃ r, parsePostMessage U (formText items) request = some r ∧ PostsAre pairs r.posts) ↔
      Plain pairs := by
  obtain ⟨r, hr, hrquery⟩ := map_eq_some_iff.1
    (parseRequestLine_form hU henc hne hmethod hupper hpath hquery)
  obtain ⟨r', hr', hrposts⟩ := map_eq_some_iff.1
    (parsePostMessage_form hU henc hne hposts htype)
  constructor
  · rintro ⟨⟨_, h, hq⟩, -⟩
    rw [hr, some.injEq] at h
    subst h
    exact plain_of_queryIs hnames (hrquery ▸ hq)
  · intro hplain
    exact ⟨⟨r, hr, hrquery ▸ queryIs_of_plain hnames hplain⟩,
      r', hr', hrposts ▸ postsAre_postsOf hnames⟩

/-! ### A codec -/

/-- A codec that does what is documented. -/
def UrlCodec.reference : UrlCodec where
  fromPercentEncoding := percentDecode
  queryItems text := (pieces true [38] (toUtf8 text)).map fun item =>
    let length := (firstIndex [61] item).getD item.length
    (fromUtf8 (percentDecode (item.take length)), fromUtf8 (percentDecode (item.drop (length + 1))))

theorem UrlCodec.documented_reference : UrlCodec.reference.Documented where
  fromPercentEncoding_eq h := h.decode
  queryItems_eq {pairs items} h hcomponents := by
    simp only [reference, toUtf8_fromLatin1_of_ascii (isAscii_formText hcomponents)]
    rw [pieces_formText fun item hitem => ⟨(hcomponents item hitem).1,
      (hcomponents item hitem).2.1⟩, List.map_map]
    induction h with
    | nil => rfl
    | @cons pair item pairs items h _ ih =>
      rw [forall_mem_cons] at hcomponents
      rw [map_cons, ih hcomponents.2]
      have htake : item.text.take item.1.length = item.1 := by
        rw [FormItem.text, take_left]
      have hdrop : item.text.drop (item.1.length + 1) = item.2 := by
        rw [FormItem.text, ← drop_drop, drop_left, drop_one, tail_cons]
      simp only [Function.comp_apply, firstIndex_text hcomponents.1.1, getD_some, htake, hdrop,
        h.1.decode, h.2.decode, fromUtf8_toUtf8]

/-- A request whose body is a form. -/
def formRequest : Request :=
  { Request.empty with
    headers := Finmap.singleton (toUtf8 "content-type") (toUtf8 "application/x-www-form-urlencoded") }

theorem isPath_root : IsPath [47] := by
  intro y hy
  rw [mem_singleton] at hy
  subst hy
  exact ⟨rfl, by decide⟩

theorem formEncoded_a : FormEncoded (toUtf8 "a") [97] := by
  exact .literal (by decide) .nil

theorem formEncoded_plus : FormEncoded (toUtf8 "+") [37, 50, 66] := by
  exact .percent (by decide) (by decide) .nil

/-- The text `b c`, with the space as a plus sign. -/
theorem formEncoded_words : FormEncoded (toUtf8 "b c") [98, 43, 99] := by
  exact .literal (by decide) (.space (.literal (by decide) .nil))

theorem upper_get : ∀ y ∈ toUtf8 "GET", 65 ≤ y ∧ y ≤ 90 := by
  have hall : (toUtf8 "GET").all (fun y => decide (65 ≤ y ∧ y ≤ 90)) = true := by decide
  exact fun y hy => of_decide_eq_true (all_eq_true.1 hall y hy)

/-- The pair `a` and `+`, with the plus sign as `%2B`, and the pair `b c` and `a`. -/
def plusItems : List (List UInt8 × List UInt8) := [([97], [37, 50, 66]), ([98, 43, 99], [97])]

theorem same_parameters_plus :
    ((∃ r, parseRequestLine .reference (requestLine (toUtf8 "GET") ([47] ++ 63 :: formText plusItems))
          formRequest = some r ∧ QueryIs [("a", "+"), ("b c", "a")] r.query) ∧
      ∃ r, parsePostMessage .reference (formText plusItems) formRequest = some r ∧
        PostsAre [("a", "+"), ("b c", "a")] r.posts) ↔
      Plain [("a", "+"), ("b c", "a")] := by
  refine same_parameters_iff UrlCodec.documented_reference
    (.cons ⟨formEncoded_a, formEncoded_plus⟩ (.cons ⟨formEncoded_words, formEncoded_a⟩ .nil))
    (by simp) (by simp) (by decide) upper_get isPath_root rfl rfl ?_
  decide

/-- In a query it is read as a space. -/
theorem query_plus_lost :
    EncodesWith FormEncoded ("a", "+") ([97], [37, 50, 66]) ∧
      ∃ r, parseRequestLine .reference (requestLine (toUtf8 "GET")
          ([47] ++ 63 :: formText [([97], [37, 50, 66])])) .empty = some r ∧
        r.query.lookup "a" = some (toUtf8 " ") := by
  refine ⟨⟨formEncoded_a, formEncoded_plus⟩, ?_⟩
  have henc : Forall₂ (EncodesWith FormEncoded) [("a", "+")] [([97], [37, 50, 66])] :=
    .cons ⟨formEncoded_a, formEncoded_plus⟩ .nil
  have hline : (parseRequestLine .reference (requestLine (toUtf8 "GET")
      ([47] ++ 63 :: formText [([97], [37, 50, 66])])) .empty).map Request.query =
      some (queryOf [("a", "+")]) :=
    parseRequestLine_form UrlCodec.documented_reference henc (by simp) (by decide) upper_get
      isPath_root rfl
  obtain ⟨r, hr, hquery⟩ := map_eq_some_iff.1 hline
  refine ⟨r, hr, ?_⟩
  have hname : decodeUtf8 (plusToSpace (toUtf8 "a")) = "a" := by
    rw [plusToSpace_toUtf8_iff.2 (by decide), decodeUtf8_toUtf8_eq_iff]
    decide
  rw [hquery, queryOf, foldl_cons, foldl_nil, hname, Finmap.lookup_insert]
  decide

end QBittorrent
