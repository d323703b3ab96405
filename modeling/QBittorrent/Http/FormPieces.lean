import QBittorrent.Http.FormData

/-!
# The pieces of a multipart form

The decoder splits the body of a form at the delimiter lines and takes the close delimiter away from
the last piece.

* `Boundary.fromPieces_of_parsePostMessage` : **nothing that is read contains the delimiter line**.
-/

namespace QBittorrent

open RequestParser List

namespace Boundary

variable (B : Boundary) {request : Request} {quoted : Bool} {data x : List UInt8}
  {xs : List (List UInt8)}

/-! ### The message -/

theorem unquote_boundary (quoted : Bool) :
    unquote (if quoted then toUtf8 "\"" ++ (B.bytes ++ toUtf8 "\"") else B.bytes) = B.bytes := by
  cases quoted with
  | true => exact unquote_quoted B.bytes
  | false =>
    simp only [Bool.false_eq_true, if_false]
    unfold unquote
    split_ifs with h₁ h₂
    · rfl
    · exact absurd rfl (B.plain 34 (mem_of_head? h₂.1)).2.2
    · rfl

theorem firstIndex_contentType (rest : List UInt8) :
    firstIndex (toUtf8 "boundary=") (toUtf8 "multipart/form-data; boundary=" ++ rest) = some 21 :=
  firstIndex_append (by decide)

theorem parsePostMessage_form (U : UrlCodec)
    (hct : Finmap.lookup (toUtf8 "content-type") request.headers = some (B.contentType quoted))
    (data : List UInt8) :
    parsePostMessage U data request =
      if multipart data B.bytes = [] then none
      else (multipart data B.bytes).foldlM (fun request part => parseFormData part request)
        request := by
  have hencoded : ¬ toUtf8 "application/x-www-form-urlencoded" <+: toLower (B.contentType quoted) := by
    rw [contentType, toLower, map_append]
    intro h
    have := prefix_of_prefix_length_le
      ((by decide : toUtf8 "a" <+: toUtf8 "application/x-www-form-urlencoded").trans h)
      (prefix_append _ _) (by decide)
    exact absurd this (by decide)
  have hform : toUtf8 "multipart/form-data" <+: toLower (B.contentType quoted) := by
    rw [contentType, toLower, map_append]
    exact IsPrefix.trans (by decide) (prefix_append _ _)
  have hdrop : (B.contentType quoted).drop (21 + (toUtf8 "boundary=").length) =
      if quoted then toUtf8 "\"" ++ (B.bytes ++ toUtf8 "\"") else B.bytes := by
    have hlen : 21 + (toUtf8 "boundary=").length =
      (toUtf8 "multipart/form-data; boundary=").length := by decide
    rw [contentType, hlen, drop_left]
  unfold parsePostMessage
  rw [hct, Option.getD_some, if_neg hencoded, if_pos hform, contentType, firstIndex_contentType]
  dsimp only
  rw [← contentType, hdrop, unquote_boundary, if_neg B.ne_nil]

theorem multipart_eq_concat {last : List UInt8} {init : List (List UInt8)}
    (h : pieces false B.delimiter data = init ++ [last]) :
    multipart data B.bytes = init ++ [viewWithoutEndingWith last (B.close true)] := by
  have hsplit : splitToViews data (toUtf8 "--" ++ B.bytes ++ crlf) .SkipEmptyParts = init ++ [last] := by
    exact h
  have hclose : toUtf8 "--" ++ B.bytes ++ toUtf8 "--" ++ crlf = B.close true := by
    simp [close, dashes]
  unfold multipart
  dsimp only
  rw [hsplit, getLast?_concat, dropLast_concat, hclose]

theorem multipart_eq_nil (h : pieces false B.delimiter data = []) :
    multipart data B.bytes = [] := by
  have hsplit : splitToViews data (toUtf8 "--" ++ B.bytes ++ crlf) .SkipEmptyParts = [] := by
    exact h
  unfold multipart
  dsimp only
  rw [hsplit]
  rfl

/-! ### Pieces without headers -/

theorem parseFormData_of_not_isInfix (h : ¬ EOH <:+: x) (request : Request) :
    parseFormData x request = none := by
  have : toInt (indexOf x EOH) = -1 := by
    rw [indexOf, firstIndex_eq_none.2 h]
    decide
  unfold parseFormData
  rw [this]
  rfl

theorem foldlM_eq_none (hx : x ∈ xs) (h : ¬ EOH <:+: x) (request : Request) :
    xs.foldlM (fun request part => parseFormData part request) request = none := by
  induction xs generalizing request with
  | nil => cases hx
  | cons y xs ih =>
    rw [foldlM_cons]
    obtain rfl | hx := mem_cons.1 hx
    · rw [parseFormData_of_not_isInfix h]
      rfl
    · cases parseFormData y request with
      | none => rfl
      | some request => exact ih hx request

theorem viewWithoutEndingWith_isPrefix (data str : List UInt8) :
    viewWithoutEndingWith data str <+: data := by
  unfold viewWithoutEndingWith
  split_ifs
  · exact take_prefix _ _
  · exact prefix_rfl

theorem exists_mem_multipart (hx : x ∈ pieces false B.delimiter data) :
    ∃ y ∈ multipart data B.bytes, y <+: x := by
  obtain ⟨init, last, h⟩ := (eq_nil_or_concat' _).resolve_left (ne_nil_of_mem hx)
  rw [B.multipart_eq_concat h]
  rw [h] at hx
  obtain hx | hx := mem_append.1 hx
  · exact ⟨x, mem_append_left _ hx, prefix_rfl⟩
  · rw [mem_singleton.1 hx]
    exact ⟨_, mem_append_right _ (mem_singleton_self _), viewWithoutEndingWith_isPrefix _ _⟩

theorem parsePostMessage_eq_none (U : UrlCodec)
    (hct : Finmap.lookup (toUtf8 "content-type") request.headers = some (B.contentType quoted))
    (hx : x ∈ pieces false B.delimiter data) (h : ¬ EOH <:+: x) :
    parsePostMessage U data request = none := by
  obtain ⟨y, hy, hyx⟩ := B.exists_mem_multipart hx
  rw [B.parsePostMessage_form U hct, foldlM_eq_none hy fun h' => h (h'.trans hyx.isInfix)]
  exact ite_self _

/-! ### The values come from pieces -/

/-- The values and the files come from texts without the delimiter line. -/
structure FromPieces (B : Boundary) (request : Request) : Prop where
  posts : ∀ name value, Finmap.lookup name request.posts = some value →
    ∃ x, ¬ B.delimiter <:+: x ∧ value = decodeUtf8 x
  files : ∀ file ∈ request.files, ¬ B.delimiter <:+: file.data

variable {B} {request' : Request}

theorem FromPieces.parseFormData (hx : ¬ B.delimiter <:+: x) (hr : FromPieces B request)
    (h : parseFormData x request = some request') : FromPieces B request' := by
  have hpayload : ∀ pos len str, ¬ B.delimiter <:+: viewWithoutEndingWith (mid x pos len) str := by
    intro pos len str h'
    refine hx ((h'.trans (viewWithoutEndingWith_isPrefix _ _).isInfix).trans ?_)
    unfold mid
    split_ifs
    · exact nil_infix
    · exact infix_rfl
    · exact nil_infix
    · exact (List.take_prefix _ _).isInfix
    · exact (drop_suffix _ _).isInfix
    · exact (List.take_prefix _ _).isInfix.trans (drop_suffix _ _).isInfix
  unfold RequestParser.parseFormData at h
  dsimp only at h
  split_ifs at h
  obtain ⟨headersMap, -, h⟩ := Option.bind_eq_some_iff.1 h
  split at h
  · cases h
    refine ⟨hr.posts, fun file hfile => ?_⟩
    obtain hfile | hfile := mem_append.1 hfile
    · exact hr.files file hfile
    · rw [mem_singleton.1 hfile]
      exact hpayload _ _ _
  · cases h
    refine ⟨fun name value hvalue => ?_, hr.files⟩
    rw [Dict.lookup_insert_eq] at hvalue
    split_ifs at hvalue with hname
    · cases hvalue
      exact ⟨_, hpayload _ _ _, rfl⟩
    · exact hr.posts name value hvalue
  · cases h

theorem FromPieces.foldlM (hxs : ∀ x ∈ xs, ¬ B.delimiter <:+: x) (hr : FromPieces B request)
    (h : xs.foldlM (fun request part => RequestParser.parseFormData part request) request =
      some request') : FromPieces B request' := by
  induction xs generalizing request with
  | nil =>
    cases h
    exact hr
  | cons x xs ih =>
    obtain ⟨request₁, h₁, h⟩ := Option.bind_eq_some_iff.1 h
    exact ih (fun y hy => hxs y (mem_cons_of_mem _ hy))
      (hr.parseFormData (hxs x mem_cons_self) h₁) h

theorem fromPieces_of_parsePostMessage {U : UrlCodec}
    (hct : Finmap.lookup (toUtf8 "content-type") request.headers = some (B.contentType quoted))
    (hr : FromPieces B request) (h : parsePostMessage U data request = some request') :
    FromPieces B request' := by
  rw [B.parsePostMessage_form U hct] at h
  split_ifs at h
  refine hr.foldlM ?_ h
  intro y hy
  obtain hnil | ⟨init, last, hpieces⟩ := eq_nil_or_concat' (pieces false B.delimiter data)
  · rw [B.multipart_eq_nil hnil] at hy
    cases hy
  · have hmem : ∀ x ∈ init ++ [last], ¬ B.delimiter <:+: x := fun x hx =>
      (infix_of_mem_pieces (hpieces ▸ hx : x ∈ pieces false B.delimiter data)).1
    rw [B.multipart_eq_concat hpieces] at hy
    obtain hy | hy := mem_append.1 hy
    · exact hmem y (mem_append_left _ hy)
    · rw [mem_singleton.1 hy]
      exact fun h' => hmem last (by simp) (h'.trans (viewWithoutEndingWith_isPrefix _ _).isInfix)

end Boundary

namespace FormPart

variable (B : Boundary) (p : FormPart)

/-- The headers end in the characters of the delimiter line, which then takes their line break. -/
def HeaderBreaks : Prop := B.dashes <:+ p.headers

/-- What is left of the payload and its line break in the piece. -/
def tail : List UInt8 :=
  if B.dashes <:+ p.payload then p.payload.take (p.payload.length - B.dashes.length)
  else p.payload ++ crlf

variable {B p}

theorem pieces_headers_append {z : List UInt8} (hp : ¬ p.HeaderBreaks B) (hz : ¬ B.delimiter <:+: z) :
    pieces false B.delimiter (p.headers ++ (EOH ++ z)) = [p.headers ++ (EOH ++ z)] := by
  refine pieces_of_not_isInfix B.isTerminated_delimiter.ne_nil (by simp [EOH, crlf]) ?_
  intro h
  exact (infix_headers_append B p h).elim hp hz

theorem encode_eq_of_suffix (h : B.dashes <:+ p.payload) :
    p.encode = (p.headers ++ (EOH ++ p.tail B)) ++ (B.delimiter ++ []) := by
  have htake : p.payload = p.tail B ++ B.dashes := by
    obtain ⟨q, hq⟩ := h
    rw [tail, if_pos ⟨q, hq⟩, ← hq]
    simp
  rw [encode]
  nth_rewrite 1 [htake]
  simp [Boundary.delimiter]

theorem encode_eq_of_not_suffix (h : ¬ B.dashes <:+ p.payload) :
    p.encode = p.headers ++ (EOH ++ p.tail B) := by
  rw [encode, tail, if_neg h]

theorem not_infix_tail (h : ¬ B.delimiter <:+: p.payload) : ¬ B.delimiter <:+: p.tail B := by
  intro h'
  unfold tail at h'
  split_ifs at h' with hs
  · exact h (h'.trans (List.take_prefix _ _).isInfix)
  · exact (B.infix_append_crlf h').elim hs h

theorem pieces_encode (hp : ¬ p.HeaderBreaks B) (h : ¬ B.delimiter <:+: p.payload) :
    pieces false B.delimiter p.encode = [p.headers ++ (EOH ++ p.tail B)] := by
  by_cases hs : B.dashes <:+ p.payload
  · rw [encode_eq_of_suffix hs, B.isTerminated_delimiter.pieces_append,
      pieces_headers_append hp (not_infix_tail h), pieces_nil, append_nil]
  · rw [encode_eq_of_not_suffix hs, pieces_headers_append hp (not_infix_tail h)]

theorem exists_piece_of_headerBreaks (hp : p.HeaderBreaks B) (y : List UInt8) :
    ∃ x ∈ pieces false B.delimiter (p.encode ++ y), ¬ EOH <:+: x := by
  obtain ⟨h, hh⟩ := hp
  have hne : h ≠ [] := by
    rintro rfl
    have hhead : p.headers.head? = some 67 := by cases p <;> rfl
    rw [← hh] at hhead
    cases hhead
  have hprefix : h <+: p.headers := ⟨B.dashes, hh⟩
  have hencode : p.encode ++ y = h ++ (B.delimiter ++ (crlf ++ (p.payload ++ (crlf ++ y)))) := by
    rw [encode, ← hh]
    simp [EOH, Boundary.delimiter]
  refine ⟨h, ?_, fun hE => ?_⟩
  · rw [hencode, B.isTerminated_delimiter.pieces_append, pieces_of_not_isInfix
      B.isTerminated_delimiter.ne_nil hne fun h' => not_infix_headers B p (h'.trans hprefix.isInfix)]
    exact mem_cons_self
  · exact not_infix_EOH_headers p (hE.trans hprefix.isInfix)

end FormPart

namespace Boundary

variable (B : Boundary)

theorem pieces_flatMap (parts : List FormPart) (y : List UInt8) :
    pieces false B.delimiter (parts.flatMap (fun p => B.delimiter ++ p.encode) ++
        (B.delimiter ++ y)) =
      parts.flatMap (fun p => pieces false B.delimiter p.encode) ++ pieces false B.delimiter y := by
  induction parts with
  | nil => exact B.isTerminated_delimiter.pieces_append_left
  | cons p parts ih =>
    -- the rest begins with a delimiter line
    obtain ⟨z, hz⟩ : ∃ z, parts.flatMap (fun p => B.delimiter ++ p.encode) ++ (B.delimiter ++ y) =
        B.delimiter ++ z := by
      cases parts with
      | nil => exact ⟨y, rfl⟩
      | cons p parts => exact ⟨_, by rw [flatMap_cons, append_assoc, append_assoc]⟩
    rw [flatMap_cons, flatMap_cons, append_assoc, append_assoc, append_assoc,
      ← ih, hz, B.isTerminated_delimiter.pieces_append_left,
      B.isTerminated_delimiter.pieces_append, B.isTerminated_delimiter.pieces_append_left]

theorem pieces_encodeForm (trailing : Bool) (init : List FormPart) (last : FormPart) :
    pieces false B.delimiter (encodeForm B trailing (init ++ [last])) =
      init.flatMap (fun p => pieces false B.delimiter p.encode) ++
        pieces false B.delimiter (last.encode ++ B.close trailing) := by
  rw [encodeForm, flatMap_append, flatMap_singleton, append_assoc,
    append_assoc, pieces_flatMap]

/-! ### The close delimiter -/

theorem not_infix_EOH_close (trailing : Bool) : ¬ EOH <:+: B.close trailing := by
  intro h
  have hcount := h.sublist.count_le 13
  have hdashes : B.dashes.count 13 = 0 := count_eq_zero.2 B.notMem_dashes.1
  rw [close, count_append, count_append, hdashes] at hcount
  revert hcount
  cases trailing <;> decide

theorem pieces_close_ne_nil (trailing : Bool) : pieces false B.delimiter (B.close trailing) ≠ [] := by
  refine pieces_ne_nil (by simp [close, dashes, toUtf8]) B.isTerminated_delimiter.ne_nil ?_
  rintro ⟨t, ht⟩
  rw [delimiter, close, append_assoc] at ht
  cases (congrArg head? (append_cancel_left ht) : some (13 : UInt8) = some 45)

theorem exists_piece_close (trailing : Bool) :
    ∃ x ∈ pieces false B.delimiter (B.close trailing), ¬ EOH <:+: x := by
  obtain ⟨x, hx⟩ := exists_mem_of_ne_nil _ (B.pieces_close_ne_nil trailing)
  exact ⟨x, hx, fun h => B.not_infix_EOH_close trailing (h.trans (infix_of_mem_pieces hx).2)⟩

/-- All the characters of the boundary are dashes. -/
def AllDashes : Prop := ∀ b ∈ B.bytes, b = 45

instance : Decidable B.AllDashes := List.decidableBAll _ _

theorem eq_of_prefix {α : Type*} {c : α} : ∀ {r : List α}, r <+: c :: c :: r → ∀ b ∈ r, b = c
  | [], _ => by simp
  | [a], h => by
    have := (cons_prefix_cons.1 h).1
    simpa using this
  | a :: b :: r, h => by
    obtain ⟨rfl, h⟩ := cons_prefix_cons.1 h
    obtain ⟨rfl, h⟩ := cons_prefix_cons.1 h
    have := eq_of_prefix h
    simpa using this

theorem suffix_dashes_iff : B.dashes <:+ B.dashes ++ toUtf8 "--" ↔ B.AllDashes := by
  have htwo : toUtf8 "--" = [45, 45] := by decide
  constructor
  · intro h b hb
    rw [htwo, ← reverse_prefix, reverse_append] at h
    exact eq_of_prefix h b (by simp [dashes, hb])
  · intro h
    have hrep : B.bytes = replicate B.bytes.length 45 := eq_replicate_of_mem h
    refine ⟨toUtf8 "--", ?_⟩
    rw [dashes, htwo, hrep, append_assoc]
    congr 1
    rw [show ([45, 45] : List UInt8) = replicate 2 45 from rfl, replicate_append_replicate,
      replicate_append_replicate, Nat.add_comm]

theorem viewWithoutEndingWith_append (x str : List UInt8) :
    viewWithoutEndingWith (x ++ str) str = x := by
  rw [viewWithoutEndingWith, if_pos (suffix_append x str)]
  simp

theorem viewWithoutEndingWith_dash (x str : List UInt8) :
    viewWithoutEndingWith (x ++ [45]) (str ++ [10]) = x ++ [45] := by
  rw [viewWithoutEndingWith, if_neg]
  rintro ⟨t, ht⟩
  have := congrArg getLast? ht
  rw [← append_assoc, getLast?_concat, getLast?_concat] at this
  cases this

theorem viewWithoutEndingWith_close_dash (x : List UInt8) :
    viewWithoutEndingWith (x ++ [45]) (B.close true) = x ++ [45] := by
  have hclose : B.close true = (B.dashes ++ (toUtf8 "--" ++ [13])) ++ [10] := by
    simp [close, crlf]
  rw [hclose]
  exact viewWithoutEndingWith_dash _ _

theorem close_eq (trailing : Bool) : B.close trailing =
    (if trailing then B.dashes ++ toUtf8 "--" ++ crlf else B.dashes ++ toUtf8 "--") := by
  cases trailing <;> simp [close]

end Boundary

namespace FormPart

variable {B : Boundary} {p : FormPart}

theorem encode_append (y : List UInt8) :
    p.encode ++ y = p.headers ++ (EOH ++ ((p.payload ++ crlf) ++ y)) := by simp [encode]

theorem not_infix_append {y : List UInt8} (h : ¬ B.delimiter <:+: p.payload)
    (hs : ¬ B.dashes <:+ p.payload) (hy : ¬ B.delimiter <:+: y) :
    ¬ B.delimiter <:+: (p.payload ++ crlf) ++ y := fun h' =>
  (B.infix_or_infix h').elim (fun h' => (B.infix_append_crlf h').elim hs h) hy

theorem pieces_last (hp : ¬ p.HeaderBreaks B) (h : ¬ B.delimiter <:+: p.payload)
    (hs : ¬ B.dashes <:+ p.payload) (hB : ¬ B.AllDashes) :
    pieces false B.delimiter (p.encode ++ B.close true) = [p.encode ++ B.close true] := by
  have hclose : ¬ B.delimiter <:+: B.close true := by
    rw [B.close_eq]
    intro h'
    obtain h' | h' := B.infix_append_crlf h'
    · exact hB (B.suffix_dashes_iff.1 h')
    · refine not_infix_of_notMem B ?_ h'
      simp only [mem_append, B.notMem_dashes, false_or]
      decide
  rw [encode_append]
  exact pieces_headers_append hp (not_infix_append h hs hclose)

theorem pieces_last_rest (hp : ¬ p.HeaderBreaks B) (h : ¬ B.delimiter <:+: p.payload)
    (hs : ¬ B.dashes <:+ p.payload) {trailing : Bool} (hB : trailing = true → B.AllDashes) :
    ∃ rest, pieces false B.delimiter (p.encode ++ B.close trailing) =
      [p.headers ++ (EOH ++ ((p.payload ++ crlf) ++ (rest ++ [45])))] := by
  cases trailing with
  | false =>
    have hclose : B.close false = (B.dashes ++ [45]) ++ [45] := by
      have htwo : toUtf8 "--" = [45, 45] := by decide
      simp [B.close_eq, htwo]
    refine ⟨B.dashes ++ [45], ?_⟩
    rw [encode_append, hclose]
    refine pieces_headers_append hp (not_infix_append h hs (not_infix_of_notMem B ?_))
    simp [B.notMem_dashes]
  | true =>
    -- the delimiter line occurs at the end of the close delimiter
    obtain ⟨t, ht⟩ := B.suffix_dashes_iff.2 (hB rfl)
    have hdash : ∀ b ∈ toUtf8 "--", b = 45 := by
      have : toUtf8 "--" = [45, 45] := by decide
      simp [this]
    have htwo : t = [45] ++ [45] := by
      have hlen := congrArg length ht
      have : (toUtf8 "--").length = 2 := by decide
      simp only [length_append, this] at hlen
      have hmem : ∀ b ∈ t, b = 45 := by
        intro b hb
        have : b ∈ B.dashes ++ toUtf8 "--" := ht ▸ mem_append_left _ hb
        simp only [Boundary.dashes, mem_append] at this
        obtain (hb | hb) | hb := this
        · exact hdash b hb
        · exact hB rfl b hb
        · exact hdash b hb
      rw [eq_replicate_of_mem hmem, show t.length = 2 by omega]
      rfl
    refine ⟨[45], ?_⟩
    have hsplit : p.encode ++ B.close true =
        (p.headers ++ (EOH ++ ((p.payload ++ crlf) ++ ([45] ++ [45])))) ++ (B.delimiter ++ []) := by
      rw [encode_append, B.close_eq, if_pos rfl, ← ht, htwo]
      simp [Boundary.delimiter]
    rw [hsplit, B.isTerminated_delimiter.pieces_append, pieces_nil, append_nil]
    exact pieces_headers_append hp (not_infix_append h hs (not_infix_of_notMem B (by simp)))

end FormPart

end QBittorrent
