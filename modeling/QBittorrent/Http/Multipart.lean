import QBittorrent.Http.FormPieces

/-!
# Reading multipart forms back

What `parsePostMessage` makes of the body that encodes a form.

* `encodeForm_decodes_iff` : exactly when a form is read back.
-/

namespace QBittorrent

open RequestParser List FormPart Boundary Prod

namespace FormPart

/-- The posts and files after the parts. -/
def addAll (parts : List FormPart) (request : Request) : Request :=
  parts.foldl (fun request p => p.addTo request) request

/-- The posts and files after parts are read with some payloads. -/
def receiveAll (parts : List (FormPart × List UInt8)) (request : Request) : Request :=
  parts.foldl (fun request p => p.1.receive p.2 request) request

/-- Reading a part with this payload gives the part. -/
def Received (p : FormPart) (payload : List UInt8) : Prop :=
  match p with
  | field name value => fromLatin1 (toUtf8 name.text) = name.text ∧ decodeUtf8 payload = value
  | file _ filename _ data =>
    fromLatin1 (toUtf8 filename.text) = filename.text ∧ payload = data

/-- The names that are read are ASCII and the value begins with no byte order mark. -/
def Plain : FormPart → Prop
  | field name value =>
    (∀ c ∈ name.text.toList, c.val < 128) ∧ value.toList.head? ≠ some (Char.ofNat 0xFEFF)
  | file _ filename _ _ => ∀ c ∈ filename.text.toList, c.val < 128

variable {p : FormPart} {parts : List (FormPart × List UInt8)} {payload : List UInt8}

theorem received_payload_iff : p.Received p.payload ↔ p.Plain := by
  cases p with
  | field name value =>
    exact and_congr fromLatin1_toUtf8_eq_iff decodeUtf8_toUtf8_eq_iff
  | file name filename type data =>
    exact (and_iff_left rfl).trans fromLatin1_toUtf8_eq_iff

theorem Received.filter_ascii (h : p.Received payload) :
    payload.filter isAscii = p.payload.filter isAscii := by
  cases p with
  | field name value =>
    change payload.filter isAscii = (toUtf8 value).filter isAscii
    rw [← h.2, filter_ascii_decodeUtf8]
  | file name filename type data =>
    rw [h.2]
    rfl

theorem receive_eq_addTo (h : p.Received payload) (request : Request) :
    p.receive payload request = p.addTo request := by
  cases p with
  | field name value => rw [receive, addTo, h.1, h.2]
  | file name filename type data =>
    rw [receive, addTo, h.1, h.2, fromLatin1_toUtf8_eq_iff.2 type.ascii]

theorem receiveAll_eq_addAll (h : ∀ p ∈ parts, p.1.Received p.2) (request : Request) :
    receiveAll parts request = addAll (parts.map Prod.fst) request := by
  induction parts generalizing request with
  | nil => rfl
  | cons p parts ih =>
    rw [receiveAll, foldl_cons, receive_eq_addTo (h p mem_cons_self), map_cons, addAll,
      foldl_cons]
    exact ih (fun q hq => h q (mem_cons_of_mem _ hq)) _

/-! #### Files -/

def file? : FormPart → Option UploadedFile
  | field _ _ => none
  | file _ filename type data => some ⟨filename.text, type.text, data⟩

def receivedFile? (p : FormPart) (payload : List UInt8) : Option UploadedFile :=
  match p with
  | field _ _ => none
  | file _ filename type _ =>
    some ⟨fromLatin1 (toUtf8 filename.text), fromLatin1 (toUtf8 type.text), payload⟩

theorem files_addAll (parts : List FormPart) (request : Request) :
    (addAll parts request).files = request.files ++ parts.filterMap file? := by
  induction parts generalizing request with
  | nil => simp [addAll]
  | cons p parts ih =>
    change (addAll parts (p.addTo request)).files = _
    rw [ih]
    cases p <;> simp [addTo, file?, filterMap_cons]

theorem files_receiveAll (parts : List (FormPart × List UInt8)) (request : Request) :
    (receiveAll parts request).files =
      request.files ++ parts.filterMap fun p => p.1.receivedFile? p.2 := by
  induction parts generalizing request with
  | nil => simp [receiveAll]
  | cons p parts ih =>
    change (receiveAll parts (p.1.receive p.2 request)).files = _
    rw [ih]
    obtain ⟨p, payload⟩ := p
    cases p <;> simp [receive, receivedFile?]

theorem receivedFile?_eq
    (h : parts.filterMap (fun p => p.1.receivedFile? p.2) = (parts.map Prod.fst).filterMap file?) :
    ∀ p ∈ parts, p.1.receivedFile? p.2 = p.1.file? := by
  induction parts with
  | nil => simp
  | cons p parts ih =>
    obtain ⟨p, payload⟩ := p
    intro q hq
    cases p with
    | field name value =>
      obtain rfl | hq := mem_cons.1 hq
      · rfl
      · exact ih h q hq
    | file name filename type data =>
      obtain ⟨hhead, htail⟩ := cons.inj h
      obtain rfl | hq := mem_cons.1 hq
      · exact congrArg some hhead
      · exact ih htail q hq

/-! #### Posts -/

def post? : FormPart → Option (String × String)
  | field name value => some (name.text, value)
  | file _ _ _ _ => none

def receivedPost? (p : FormPart) (payload : List UInt8) : Option (String × String) :=
  match p with
  | field name _ => some (fromLatin1 (toUtf8 name.text), decodeUtf8 payload)
  | file _ _ _ _ => none

theorem posts_addAll (parts : List FormPart) (request : Request) :
    (addAll parts request).posts =
      (parts.filterMap post?).foldl (fun m e => Finmap.insert e.1 e.2 m) request.posts := by
  induction parts generalizing request with
  | nil => rfl
  | cons p parts ih =>
    change (addAll parts (p.addTo request)).posts = _
    rw [ih]
    cases p <;> rfl

theorem posts_receiveAll (parts : List (FormPart × List UInt8)) (request : Request) :
    (receiveAll parts request).posts = (parts.filterMap fun p => p.1.receivedPost? p.2).foldl
      (fun m e => Finmap.insert e.1 e.2 m) request.posts := by
  induction parts generalizing request with
  | nil => rfl
  | cons p parts ih =>
    change (receiveAll parts (p.1.receive p.2 request)).posts = _
    rw [ih]
    obtain ⟨p, payload⟩ := p
    cases p <;> rfl

theorem receivedPost?_eq (hnodup : (((parts.map Prod.fst).filterMap post?).map Prod.fst).Nodup)
    (h : (parts.filterMap fun p => p.1.receivedPost? p.2).foldl
        (fun m e => Finmap.insert e.1 e.2 m) (∅ : Dict String String) =
      ((parts.map Prod.fst).filterMap post?).foldl (fun m e => Finmap.insert e.1 e.2 m) ∅) :
    ∀ p ∈ parts, p.1.receivedPost? p.2 = p.1.post? := by
  have hmap : (parts.filterMap fun p => p.1.receivedPost? p.2).map fst =
      (((parts.map fst).filterMap post?).map fst).map fun s => fromLatin1 (toUtf8 s) := by
    clear h hnodup
    induction parts with
    | nil => rfl
    | cons p parts ih =>
      obtain ⟨p, payload⟩ := p
      cases p with
      | field name value => exact congrArg _ ih
      | file name filename type data => exact ih
  have hkeys : ∀ k, k ∈ (parts.filterMap fun p => p.1.receivedPost? p.2).map fst ↔
      k ∈ ((parts.map fst).filterMap post?).map fst := by
    intro k
    have h₁ := Dict.isSome_lookup_foldl_insert
      (parts.filterMap fun p => p.1.receivedPost? p.2) ∅ k
    have h₂ := Dict.isSome_lookup_foldl_insert ((parts.map fst).filterMap post?) ∅ k
    rw [h] at h₁
    simpa using h₁.symm.trans h₂
  have hascii : ∀ s ∈ ((parts.map fst).filterMap post?).map fst,
      fromLatin1 (toUtf8 s) = s := by
    refine fromLatin1_toUtf8_of_mem fun s hs => ?_
    rw [← hkeys, hmap]
    exact mem_map_of_mem hs
  have hsame : (parts.filterMap fun p => p.1.receivedPost? p.2).map fst =
      ((parts.map fst).filterMap post?).map fst := by
    rw [hmap, map_congr_left hascii, List.map_id']
  rintro ⟨p, payload⟩ hp
  cases p with
  | file name filename type data => rfl
  | field name value =>
    have hpost : (name.text, value) ∈ (parts.map fst).filterMap post? :=
      mem_filterMap.2 ⟨_, mem_map_of_mem hp, rfl⟩
    have hreceived : (fromLatin1 (toUtf8 name.text), decodeUtf8 payload) ∈
        parts.filterMap fun p => p.1.receivedPost? p.2 := mem_filterMap.2 ⟨_, hp, rfl⟩
    have hname : fromLatin1 (toUtf8 name.text) = name.text := hascii _ (mem_map_of_mem hpost)
    -- both maps have the value of this part at its name
    have h₁ := Dict.lookup_foldl_insert_of_mem (hsame ▸ hnodup) hreceived ∅
    have h₂ := Dict.lookup_foldl_insert_of_mem hnodup hpost ∅
    rw [h, hname] at h₁
    have hvalue : decodeUtf8 payload = value := by
      rw [h₂] at h₁
      exact (Option.some.inj h₁).symm
    change some (fromLatin1 (toUtf8 name.text), decodeUtf8 payload) = some (name.text, value)
    rw [hname, hvalue]

theorem received_of_receiveAll_eq {request : Request} (hposts : request.posts = ∅)
    (hfiles : request.files = []) (hnodup : ((parts.map Prod.fst).filterMap fieldName?).Nodup)
    (h : receiveAll parts request = addAll (parts.map Prod.fst) request) :
    ∀ p ∈ parts, p.1.Received p.2 := by
  have hnames : ((parts.map fst).filterMap post?).map fst =
      (parts.map fst).filterMap fieldName? := by
    rw [map_filterMap]
    congr 1
    funext p
    cases p <;> rfl
  have hp := congrArg Request.posts h
  have hf := congrArg Request.files h
  rw [posts_receiveAll, posts_addAll, hposts] at hp
  rw [files_receiveAll, files_addAll, hfiles] at hf
  have hfile := receivedFile?_eq hf
  have hpost := receivedPost?_eq (hnames ▸ hnodup) hp
  rintro ⟨p, payload⟩ hmem
  cases p with
  | field name value =>
    have := hpost _ hmem
    simp only [receivedPost?, post?, Option.some.injEq, Prod.mk.injEq] at this
    exact this
  | file name filename type data =>
    have := hfile _ hmem
    simp only [receivedFile?, file?, Option.some.injEq, UploadedFile.mk.injEq] at this
    exact ⟨this.1, this.2.2⟩

end FormPart

section RoundTrip

variable {U : UrlCodec} {B : Boundary} {quoted trailing : Bool} {request : Request}
  {init : List FormPart} {last p : FormPart}

theorem foldlM_parseFormData {parts : List (FormPart × List UInt8)}
    (hlen : ∀ p ∈ parts, (p.1.headers ++ (EOH ++ p.2)).length < 2 ^ 31) (request : Request) :
    (parts.map fun p => p.1.headers ++ (EOH ++ p.2)).foldlM
        (fun request part => parseFormData part request) request =
      some (FormPart.receiveAll (parts.map fun p => (p.1, viewWithoutEndingWith p.2 crlf))
        request) := by
  induction parts generalizing request with
  | nil => rfl
  | cons p parts ih =>
    rw [map_cons, foldlM_cons, p.1.parseFormData_eq _ _ (hlen p mem_cons_self)]
    exact ih (fun q hq => hlen q (mem_cons_of_mem _ hq)) _

theorem parsePostMessage_encodeForm
    (hct : Finmap.lookup (toUtf8 "content-type") request.headers = some (B.contentType quoted))
    {last' : List UInt8} {z : List UInt8}
    (hsize : ((encodeForm B trailing (init ++ [last])).length : ℤ) ≤ maxContentSize)
    (hinit : ∀ p ∈ init, ¬ p.HeaderBreaks B ∧ ¬ B.delimiter <:+: p.payload)
    (hlast : pieces false B.delimiter (last.encode ++ B.close trailing) = [last'])
    (hstrip : viewWithoutEndingWith last' (B.close true) = last.headers ++ (EOH ++ z)) :
    parsePostMessage U (encodeForm B trailing (init ++ [last])) request =
      some (FormPart.receiveAll
        (init.map (fun p => (p, viewWithoutEndingWith (p.tail B) crlf)) ++
          [(last, viewWithoutEndingWith z crlf)]) request) := by
  have hflat : init.flatMap (fun p => pieces false B.delimiter p.encode) =
      init.map fun p => p.headers ++ (EOH ++ p.tail B) := by
    clear hsize
    induction init with
    | nil => rfl
    | cons p init ih =>
      obtain ⟨hp, hp'⟩ := hinit p mem_cons_self
      rw [flatMap_cons, pieces_encode hp hp',
        ih fun q hq => hinit q (mem_cons_of_mem _ hq)]
      rfl
  have hpieces : pieces false B.delimiter (encodeForm B trailing (init ++ [last])) =
      init.map (fun p => p.headers ++ (EOH ++ p.tail B)) ++ [last'] := by
    rw [B.pieces_encodeForm, hflat, hlast]
  have hparts : multipart (encodeForm B trailing (init ++ [last])) B.bytes =
      (init.map (fun p => (p, p.tail B)) ++ [(last, z)]).map fun p => p.1.headers ++ (EOH ++ p.2) := by
    rw [B.multipart_eq_concat hpieces, hstrip, map_append, List.map_map]
    rfl
  -- the pieces are parts of the body, whose length fits
  have hlen : ∀ p ∈ init.map (fun p => (p, p.tail B)) ++ [(last, z)],
      (p.1.headers ++ (EOH ++ p.2)).length < 2 ^ 31 := by
    intro p hp
    have hinfix : p.1.headers ++ (EOH ++ p.2) <:+: encodeForm B trailing (init ++ [last]) := by
      obtain hp | hp := mem_append.1 hp
      · obtain ⟨q, hq, rfl⟩ := mem_map.1 hp
        have hmem : q.headers ++ (EOH ++ q.tail B) ∈
            pieces false B.delimiter (encodeForm B trailing (init ++ [last])) := by
          rw [hpieces]
          exact mem_append_left _ (mem_map_of_mem (f := fun p : FormPart =>
            p.headers ++ (EOH ++ p.tail B)) hq)
        exact (infix_of_mem_pieces hmem).2
      · have hmem : last' ∈ pieces false B.delimiter (encodeForm B trailing (init ++ [last])) := by
          rw [hpieces]
          simp
        rw [mem_singleton.1 hp, ← hstrip]
        exact (viewWithoutEndingWith_isPrefix _ _).isInfix.trans (infix_of_mem_pieces hmem).2
    have := hinfix.length_le
    unfold maxContentSize at hsize
    omega
  rw [B.parsePostMessage_form U hct, if_neg (by simp [hparts]), hparts, foldlM_parseFormData hlen,
    map_append, List.map_map]
  rfl

theorem viewWithoutEndingWith_tail (h : ¬ B.dashes <:+ p.payload) :
    viewWithoutEndingWith (p.tail B) crlf = p.payload := by
  rw [FormPart.tail, if_neg h, viewWithoutEndingWith_append]

theorem FormPart.Received.not_suffix (h : p.Received (viewWithoutEndingWith (p.tail B) crlf)) :
    ¬ B.dashes <:+ p.payload := by
  intro hs
  have hfilter := h.filter_ascii
  obtain ⟨q, hq⟩ := hs
  have htail : p.tail B = q := by
    rw [tail, if_pos ⟨q, hq⟩, ← hq]
    simp
  have hdashes : B.dashes.filter isAscii = B.dashes :=
    filter_eq_self.2 fun b hb => B.ascii_delimiter b (mem_append_left _ hb)
  have hle := ((viewWithoutEndingWith_isPrefix q crlf).sublist.filter isAscii).length_le
  rw [htail] at hfilter
  rw [hfilter, ← hq, filter_append, hdashes, length_append] at hle
  have : B.dashes ≠ [] := by simp [dashes, toUtf8]
  have := length_pos_iff.2 this
  omega

theorem FormPart.not_received_append (rest : List UInt8) :
    ¬ p.Received (viewWithoutEndingWith ((p.payload ++ crlf) ++ (rest ++ [45])) crlf) := by
  intro h
  have hdash : viewWithoutEndingWith ((p.payload ++ crlf) ++ (rest ++ [45])) crlf =
      (p.payload ++ crlf) ++ (rest ++ [45]) := by
    rw [← append_assoc]
    exact viewWithoutEndingWith_dash _ [13]
  have hlen := congrArg length h.filter_ascii
  rw [hdash, filter_append, filter_append, length_append, length_append] at hlen
  have : (crlf.filter isAscii).length = 2 := by decide
  omega

theorem FormPart.intact_of_not_isInfix (h : ¬ B.delimiter <:+: p.encode) :
    ¬ p.HeaderBreaks B ∧ ¬ B.delimiter <:+: p.payload ∧ ¬ B.dashes <:+ p.payload := by
  refine ⟨fun hp => ?_, fun hp => h (hp.trans ?_), fun hp => h ?_⟩
  · obtain ⟨x, hx⟩ := hp
    refine h ⟨x, crlf ++ (p.payload ++ crlf), ?_⟩
    rw [encode, ← hx]
    simp [delimiter, EOH]
  · exact ⟨p.headers ++ EOH, crlf, by simp [encode]⟩
  · rw [encode_eq_of_suffix hp, append_nil]
    exact (suffix_append _ _).isInfix

section

variable (hct : Finmap.lookup (toUtf8 "content-type") request.headers = some (B.contentType quoted))
  {parts : List FormPart}

include hct

theorem decodes_of_plain (hsize : ((encodeForm B true parts).length : ℤ) ≤ maxContentSize)
    (hne : parts ≠ []) (hB : ¬ B.AllDashes)
    (hparts : ∀ p ∈ parts, p.Plain ∧ ¬ B.delimiter <:+: p.encode) :
    parsePostMessage U (encodeForm B true parts) request = some (FormPart.addAll parts request) := by
  obtain ⟨init, last, rfl⟩ := (eq_nil_or_concat' parts).resolve_left hne
  have hintact : ∀ p ∈ init ++ [last], _ := fun p hp =>
    intact_of_not_isInfix (hparts p hp).2
  obtain ⟨hl₁, hl₂, hl₃⟩ := hintact last (by simp)
  have hlast := pieces_last hl₁ hl₂ hl₃ hB
  have hstrip : viewWithoutEndingWith (last.encode ++ B.close true) (B.close true) =
      last.headers ++ (EOH ++ (last.payload ++ crlf)) := viewWithoutEndingWith_append _ _
  rw [parsePostMessage_encodeForm hct hsize (fun p hp => ?_) hlast hstrip,
    receiveAll_eq_addAll]
  · rw [map_append, List.map_map, map_singleton]
    congr 3
    exact map_id' init
  · intro p hp
    obtain hp | hp := mem_append.1 hp
    · obtain ⟨q, hq, rfl⟩ := mem_map.1 hp
      have hq' := mem_append_left [last] hq
      rw [viewWithoutEndingWith_tail (hintact q hq').2.2]
      exact received_payload_iff.2 (hparts q hq').1
    · rw [mem_singleton.1 hp]
      rw [viewWithoutEndingWith_append]
      exact received_payload_iff.2 (hparts last (by simp)).1
  · have := hintact p (mem_append_left _ hp)
    exact ⟨this.1, this.2.1⟩

theorem not_infix_payload (hposts : request.posts = ∅) (hfiles : request.files = [])
    (hnodup : (parts.filterMap FormPart.fieldName?).Nodup) {data : List UInt8}
    (h : parsePostMessage U data request = some (FormPart.addAll parts request)) :
    ∀ p ∈ parts, ¬ B.delimiter <:+: p.payload := by
  have hstart : FromPieces B request :=
    ⟨fun name value hv => by simp [hposts] at hv, fun file hfile => by simp [hfiles] at hfile⟩
  obtain ⟨hvalues, hdata⟩ := fromPieces_of_parsePostMessage hct hstart h
  intro p hp hinfix
  cases p with
  | field name value =>
    have hnames : (parts.filterMap FormPart.post?).map fst =
        parts.filterMap fieldName? := by
      rw [map_filterMap]
      congr 1
      funext p
      cases p <;> rfl
    have hlookup := Dict.lookup_foldl_insert_of_mem (hnames ▸ hnodup)
      (mem_filterMap.2 ⟨_, hp, rfl⟩ : (name.text, value) ∈ _) request.posts
    rw [← posts_addAll] at hlookup
    obtain ⟨x, hx, rfl⟩ := hvalues _ _ hlookup
    exact hx (infix_of_infix_decodeUtf8 B.ascii_delimiter B.isTerminated_delimiter.ne_nil hinfix)
  | file name filename type data' =>
    refine hdata ⟨filename.text, type.text, data'⟩ ?_ hinfix
    rw [files_addAll]
    exact mem_append_right _ (mem_filterMap.2 ⟨_, hp, rfl⟩)

section

variable (h : parsePostMessage U (encodeForm B trailing (init ++ [last])) request ≠ none)

include h

theorem not_headerBreaks :
    ∀ p ∈ init ++ [last], ¬ p.HeaderBreaks B := by
  intro p hp hbreak
  refine h ?_
  obtain hp | hp := mem_append.1 hp
  · obtain ⟨x, hx, hE⟩ := exists_piece_of_headerBreaks hbreak []
    rw [append_nil] at hx
    refine B.parsePostMessage_eq_none U hct ?_ hE
    rw [B.pieces_encodeForm]
    exact mem_append_left _ (mem_flatMap.2 ⟨p, hp, hx⟩)
  · obtain ⟨x, hx, hE⟩ := exists_piece_of_headerBreaks hbreak (B.close trailing)
    refine B.parsePostMessage_eq_none U hct ?_ hE
    rw [B.pieces_encodeForm]
    exact mem_append_right _ (mem_singleton.1 hp ▸ hx)

theorem not_suffix_last :
    ¬ B.dashes <:+ last.payload := by
  intro hs
  refine h ?_
  obtain ⟨x, hx, hE⟩ := B.exists_piece_close trailing
  refine B.parsePostMessage_eq_none U hct ?_ hE
  rw [B.pieces_encodeForm, encode_eq_of_suffix hs, append_nil, append_assoc,
    B.isTerminated_delimiter.pieces_append]
  exact mem_append_right _ (mem_append_right _ hx)

end

theorem received_of_decodes (hposts : request.posts = ∅) (hfiles : request.files = [])
    {last' z : List UInt8} (hnodup : ((init ++ [last]).filterMap FormPart.fieldName?).Nodup)
    (hsize : ((encodeForm B trailing (init ++ [last])).length : ℤ) ≤ maxContentSize)
    (h : parsePostMessage U (encodeForm B trailing (init ++ [last])) request =
      some (FormPart.addAll (init ++ [last]) request))
    (hinit : ∀ p ∈ init, ¬ p.HeaderBreaks B ∧ ¬ B.delimiter <:+: p.payload)
    (hlast : pieces false B.delimiter (last.encode ++ B.close trailing) = [last'])
    (hstrip : viewWithoutEndingWith last' (B.close true) = last.headers ++ (EOH ++ z)) :
    (∀ p ∈ init, p.Received (viewWithoutEndingWith (p.tail B) crlf)) ∧
      last.Received (viewWithoutEndingWith z crlf) := by
  have hparts : (init.map (fun p : FormPart => (p, viewWithoutEndingWith (p.tail B) crlf)) ++
      [(last, viewWithoutEndingWith z crlf)]).map fst = init ++ [last] := by
    rw [map_append, List.map_map]
    congr 1
    exact map_id' init
  rw [parsePostMessage_encodeForm hct hsize hinit hlast hstrip, Option.some.injEq] at h
  have hread := received_of_receiveAll_eq hposts hfiles (by rwa [hparts])
    (by rw [hparts, h])
  refine ⟨fun p hp => ?_, hread _ (mem_append_right _ (mem_singleton_self _))⟩
  exact hread _ (mem_append_left _ (mem_map_of_mem (f := fun p : FormPart =>
    (p, viewWithoutEndingWith (p.tail B) crlf)) hp))

end

theorem close_of_decodes (init : List FormPart) (last : FormPart)
    (hct : Finmap.lookup (toUtf8 "content-type") request.headers = some (B.contentType quoted))
    (hposts : request.posts = ∅) (hfiles : request.files = [])
    (hnodup : ((init ++ [last]).filterMap FormPart.fieldName?).Nodup)
    (hsize : ((encodeForm B trailing (init ++ [last])).length : ℤ) ≤ maxContentSize)
    (h : parsePostMessage U (encodeForm B trailing (init ++ [last])) request =
      some (FormPart.addAll (init ++ [last]) request)) :
    trailing = true ∧ ¬ B.AllDashes := by
  have hsome : parsePostMessage U (encodeForm B trailing (init ++ [last])) request ≠ none := by
    simp [h]
  have hpayload := not_infix_payload hct hposts hfiles hnodup h
  have hbreaks := not_headerBreaks hct hsome
  have hmem : last ∈ init ++ [last] := by simp
  by_contra hclose
  -- some of the close delimiter would be in the last payload
  have hdashes : trailing = true → B.AllDashes := fun ht => by_contra fun hB => hclose ⟨ht, hB⟩
  obtain ⟨rest, hrest⟩ := pieces_last_rest (hbreaks last hmem) (hpayload last hmem)
    (not_suffix_last hct hsome) hdashes
  have hstrip := B.viewWithoutEndingWith_close_dash
    (last.headers ++ (EOH ++ ((last.payload ++ crlf) ++ rest)))
  simp only [append_assoc] at hstrip hrest
  have hlast := (received_of_decodes hct hposts hfiles hnodup hsize h (fun p hp =>
    ⟨hbreaks p (mem_append_left _ hp), hpayload p (mem_append_left _ hp)⟩) hrest hstrip).2
  have hnot := not_received_append (p := last) rest
  rw [append_assoc] at hnot
  exact hnot hlast

/-- **Exactly when a form is read back from its body.** -/
theorem encodeForm_decodes_iff (U : UrlCodec) (B : Boundary) (quoted trailing : Bool)
    (parts : List FormPart) (request : Request)
    (hct : Finmap.lookup (toUtf8 "content-type") request.headers = some (B.contentType quoted))
    (hposts : request.posts = ∅) (hfiles : request.files = [])
    (hnodup : (parts.filterMap FormPart.fieldName?).Nodup)
    (hsize : ((encodeForm B trailing parts).length : ℤ) ≤ maxContentSize) :
    parsePostMessage U (encodeForm B trailing parts) request =
        some (FormPart.addAll parts request) ↔
      trailing = true ∧ parts ≠ [] ∧ ¬ B.AllDashes ∧
        ∀ p ∈ parts, p.Plain ∧ ¬ B.delimiter <:+: p.encode := by
  constructor
  · intro h
    have hsome : parsePostMessage U (encodeForm B trailing parts) request ≠ none := by simp [h]
    have hpayload := not_infix_payload hct hposts hfiles hnodup h
    obtain rfl | ⟨init, last, rfl⟩ := eq_nil_or_concat' parts
    · -- the close delimiter alone
      obtain ⟨x, hx, hE⟩ := B.exists_piece_close trailing
      exact absurd (B.parsePostMessage_eq_none U hct hx hE) hsome
    obtain ⟨rfl, hB⟩ := close_of_decodes init last hct hposts hfiles hnodup hsize h
    have hbreaks := not_headerBreaks hct hsome
    have hs := not_suffix_last hct hsome
    have hmem : last ∈ init ++ [last] := by simp
    have hinit : ∀ p ∈ init, ¬ p.HeaderBreaks B ∧ ¬ B.delimiter <:+: p.payload := fun p hp =>
      ⟨hbreaks p (mem_append_left _ hp), hpayload p (mem_append_left _ hp)⟩
    refine ⟨rfl, by simp, hB, ?_⟩
    obtain ⟨hread, hlast⟩ := received_of_decodes hct hposts hfiles hnodup hsize h hinit
      (pieces_last (hbreaks last hmem) (hpayload last hmem) hs hB)
      (z := last.payload ++ crlf) (viewWithoutEndingWith_append _ _)
    rw [viewWithoutEndingWith_append] at hlast
    intro p hp
    have hreceived : ¬ B.dashes <:+ p.payload ∧ p.Received p.payload := by
      obtain hp | hp := mem_append.1 hp
      · have hr := hread p hp
        have hns := hr.not_suffix
        rw [viewWithoutEndingWith_tail hns] at hr
        exact ⟨hns, hr⟩
      · obtain rfl := mem_singleton.1 hp
        exact ⟨hs, hlast⟩
    refine ⟨received_payload_iff.1 hreceived.2, fun hinfix => ?_⟩
    obtain hinfix | hinfix := infix_headers_append B p hinfix
    · exact hbreaks p hp hinfix
    · exact (B.infix_append_crlf hinfix).elim hreceived.1 (hpayload p hp)
  · rintro ⟨rfl, hne, hB, hparts⟩
    exact decodes_of_plain hct hsize hne hB hparts

end RoundTrip

/-! ### A small form -/

def Boundary.x : Boundary := ⟨[88], by simp, by simp [isAscii], by simp⟩

/-- A field `a` with the value `b`. -/
def FormPart.small : FormPart := .field ⟨"a", by simp⟩ "b"

/-- A text file of two lines. -/
def FormPart.lines : FormPart :=
  .file ⟨"f", by simp⟩ ⟨"g.txt", by simp⟩
    ⟨"text/plain", by simp, by simp, by decide +kernel, by decide +kernel⟩ [49, 13, 10, 50]

/-- Two fields and a file. -/
def FormPart.several : List FormPart := [.small, .field ⟨"c", by simp⟩ "d e", .lines]

def Request.small : Request :=
  { Request.empty with
    headers := Finmap.insert (toUtf8 "content-type") (Boundary.x.contentType true) ∅ }

theorem encodeForm_decodes_iff_small :
    parsePostMessage UrlCodec.identity (encodeForm Boundary.x true FormPart.several) Request.small =
      some (FormPart.addAll FormPart.several Request.small) :=
  (encodeForm_decodes_iff UrlCodec.identity x true true FormPart.several Request.small
    (Finmap.lookup_insert _) rfl rfl (by decide) (by decide +kernel)).2
    ⟨rfl, by simp [several], by decide, forall_mem_cons.2 ⟨⟨⟨by simp, by decide⟩, by decide⟩,
      forall_mem_cons.2 ⟨⟨⟨by simp, by decide⟩, by decide⟩,
        forall_mem_singleton.2 ⟨(by simp : ∀ c ∈ "g.txt".toList, c.val < 128), by decide +kernel⟩⟩⟩⟩

theorem encodeForm_without_line_break :
    Boundary.x.Allows [FormPart.small] ∧
      parsePostMessage UrlCodec.identity (encodeForm Boundary.x false [FormPart.small])
        Request.small ≠ some (FormPart.addAll [FormPart.small] Request.small) := by
  constructor
  · intro p hp
    obtain rfl := mem_singleton.1 hp
    exact ⟨by decide, by decide⟩
  · intro h
    have hclose := close_of_decodes [] FormPart.small
      (Finmap.lookup_insert _ : Finmap.lookup _ Request.small.headers = _) rfl rfl (by decide)
      (by decide) h
    cases hclose.1

end QBittorrent
