import QBittorrent.Http.RequestParser

/-!
# Multipart forms

The `multipart/form-data` bodies of RFC 2046 for a list of form fields and files, and what
`parsePostMessage` makes of their parts.

* `FormPart.parseFormData_eq` : a part is read with its names and its payload.
-/

namespace QBittorrent

open RequestParser List Option

/-! ### The encoding -/

/-- A boundary, in particular one of the characters that RFC 2046 allows. -/
structure Boundary where
  bytes : List UInt8
  ne_nil : bytes ≠ []
  ascii : ∀ b ∈ bytes, isAscii b
  plain : ∀ b ∈ bytes, b ≠ 13 ∧ b ≠ 10 ∧ b ≠ 34

/-- The name of a field or of a file: no quotes, line breaks or semicolons. -/
structure ParamText where
  text : String
  plain : ∀ c ∈ text.toList, c ≠ '"' ∧ c ≠ '\r' ∧ c ≠ '\n' ∧ c ≠ ';'

/-- The type of a file, an ASCII text without line breaks and without spaces at its ends. -/
structure MediaType where
  text : String
  ascii : ∀ c ∈ text.toList, c.val < 128
  plain : ∀ c ∈ text.toList, c ≠ '\r' ∧ c ≠ '\n'
  head : ∀ b ∈ (toUtf8 text).head?, isSpace b = false
  last : ∀ b ∈ (toUtf8 text).getLast?, isSpace b = false

inductive FormPart where
  | field (name : ParamText) (value : String)
  | file (name filename : ParamText) (type : MediaType) (data : List UInt8)

namespace FormPart

def payload : FormPart → List UInt8
  | field _ value => toUtf8 value
  | file _ _ _ data => data

/-- The `Content-Disposition` line. -/
def disposition : FormPart → List UInt8
  | field name _ =>
    toUtf8 "Content-Disposition: form-data; name=\"" ++ (toUtf8 name.text ++ toUtf8 "\"")
  | file name filename _ _ =>
    toUtf8 "Content-Disposition: form-data; name=\"" ++ (toUtf8 name.text ++
      (toUtf8 "\"; filename=\"" ++ (toUtf8 filename.text ++ toUtf8 "\"")))

/-- The lines after the `Content-Disposition`. -/
def otherHeaders : FormPart → List UInt8
  | field _ _ => []
  | file _ _ type _ => crlf ++ (toUtf8 "Content-Type: " ++ toUtf8 type.text)

def headers (p : FormPart) : List UInt8 := p.disposition ++ p.otherHeaders

/-- The part after its delimiter line. -/
def encode (p : FormPart) : List UInt8 := p.headers ++ (EOH ++ (p.payload ++ crlf))

def addTo (p : FormPart) (request : Request) : Request :=
  match p with
  | field name value => { request with posts := request.posts.insert name.text value }
  | file _ filename type data =>
    { request with files := request.files ++ [⟨filename.text, type.text, data⟩] }

/-- The posts and files with one part more, as it is read from its headers and `payload`. -/
def receive (p : FormPart) (payload : List UInt8) (request : Request) : Request :=
  match p with
  | field name _ =>
    { request with
      posts := request.posts.insert (fromLatin1 (toUtf8 name.text)) (decodeUtf8 payload) }
  | file _ filename type _ =>
    { request with
      files := request.files ++
        [⟨fromLatin1 (toUtf8 filename.text), fromLatin1 (toUtf8 type.text), payload⟩] }

def fieldName? : FormPart → Option String
  | field name _ => some name.text
  | file _ _ _ _ => none

end FormPart

namespace Boundary

variable (B : Boundary)

/-- The delimiter without its line break. -/
def dashes : List UInt8 := toUtf8 "--" ++ B.bytes

/-- The delimiter line in front of a part. -/
def delimiter : List UInt8 := B.dashes ++ crlf

/-- The close delimiter, with a line break after it or without. -/
def close (trailing : Bool) : List UInt8 :=
  B.dashes ++ (toUtf8 "--" ++ if trailing then crlf else [])

/-- The value of the `Content-Type` header of the message. -/
def contentType (quoted : Bool) : List UInt8 :=
  toUtf8 "multipart/form-data; boundary=" ++
    if quoted then toUtf8 "\"" ++ (B.bytes ++ toUtf8 "\"") else B.bytes

/-- What RFC 2046 requires of a boundary. -/
def Allows (parts : List FormPart) : Prop :=
  ∀ p ∈ parts, ¬ crlf ++ B.dashes <:+: p.payload ∧ ¬ B.dashes <+: p.payload

end Boundary

/-- The body for a form. -/
def encodeForm (B : Boundary) (trailing : Bool) (parts : List FormPart) : List UInt8 :=
  parts.flatMap (fun p => B.delimiter ++ p.encode) ++ B.close trailing

/-! ### Header lines -/

theorem ParamText.notMem (n : ParamText) :
    34 ∉ toUtf8 n.text ∧ 13 ∉ toUtf8 n.text ∧ 10 ∉ toUtf8 n.text ∧ 59 ∉ toUtf8 n.text := by
  refine ⟨fun h => ?_, fun h => ?_, fun h => ?_, fun h => ?_⟩
  · exact (n.plain _ (mem_of_mem_toUtf8 (by decide) h)).1 (by decide)
  · exact (n.plain _ (mem_of_mem_toUtf8 (by decide) h)).2.1 (by decide)
  · exact (n.plain _ (mem_of_mem_toUtf8 (by decide) h)).2.2.1 (by decide)
  · exact (n.plain _ (mem_of_mem_toUtf8 (by decide) h)).2.2.2 (by decide)

theorem MediaType.notMem (t : MediaType) : 13 ∉ toUtf8 t.text ∧ 10 ∉ toUtf8 t.text := by
  refine ⟨fun h => ?_, fun h => ?_⟩
  · exact (t.plain _ (mem_of_mem_toUtf8 (by decide) h)).1 (by decide)
  · exact (t.plain _ (mem_of_mem_toUtf8 (by decide) h)).2 (by decide)

theorem trimmed_quoted (v : List UInt8) : trimmed (34 :: (v ++ [34])) = 34 :: (v ++ [34]) := by
  refine trim_eq_self ?_ ?_
  · intro a ha
    cases ha
    decide
  · intro a ha
    rw [← cons_append, getLast?_concat] at ha
    cases ha
    decide

theorem unquote_quoted (v : List UInt8) : unquote (34 :: (v ++ [34])) = v := by
  rw [unquote, if_neg (by simp), if_pos ⟨rfl, by rw [← cons_append, getLast?_concat]⟩,
    drop_succ_cons, drop_zero, dropLast_concat]

theorem parseDirective_eq {pre key : List UInt8} {i : ℕ} (hi : firstIndex [61] pre = some i)
    (hkey : toLower (trimmed (pre.take i)) = key) (hquote : pre.drop (i + 1) = [34])
    (v : List UInt8) (headersMap : HeaderMap) :
    parseDirective headersMap (pre ++ (v ++ toUtf8 "\"")) = headersMap.insert key v := by
  have hle := firstIndex_add_le hi
  rw [parseDirective, firstIndex_append hi]
  dsimp only
  rw [take_append_of_le_length (by simp at hle; omega), hkey,
    drop_append_of_le_length (by simpa using hle), hquote]
  congr 1
  exact (congrArg unquote (trimmed_quoted v)).trans (unquote_quoted v)

theorem parseDirective_first (headersMap : HeaderMap) :
    parseDirective headersMap (toUtf8 "Content-Disposition: form-data") = headersMap := by
  have : firstIndex [61] (toUtf8 "Content-Disposition: form-data") = none := by decide
  rw [parseDirective, this]

theorem parseDirective_name (v : List UInt8) (headersMap : HeaderMap) :
    parseDirective headersMap (toUtf8 " name=\"" ++ (v ++ toUtf8 "\"")) =
      headersMap.insert (toUtf8 "name") v :=
  parseDirective_eq (i := 5) (by decide) (by decide) (by decide) v headersMap

theorem parseDirective_filename (v : List UInt8) (headersMap : HeaderMap) :
    parseDirective headersMap (toUtf8 " filename=\"" ++ (v ++ toUtf8 "\"")) =
      headersMap.insert (toUtf8 "filename") v :=
  parseDirective_eq (i := 9) (by decide) (by decide) (by decide) v headersMap

theorem isTerminated_semicolon : IsTerminated [(59 : UInt8)] := ⟨[], 59, rfl, by simp⟩

theorem pieces_semicolon {l : List UInt8} (hl : l ≠ []) (h : 59 ∉ l) :
    pieces false [59] l = [l] :=
  pieces_of_not_isInfix (by simp) hl fun h' => h (h'.subset (by simp))

namespace FormPart

/-- The headers that the parser finds. -/
def headersMap (p : FormPart) : HeaderMap :=
  match p with
  | field name _ => Finmap.insert (toUtf8 "name") (toUtf8 name.text) ∅
  | file name filename type _ =>
    Finmap.insert (toUtf8 "content-type") (toUtf8 type.text)
      (Finmap.insert (toUtf8 "filename") (toUtf8 filename.text)
        (Finmap.insert (toUtf8 "name") (toUtf8 name.text) ∅))

theorem parsePartHeader_disposition {rest : List UInt8} (headersMap : HeaderMap)
    (hlast : rest.getLast? = some 34) :
    parsePartHeader headersMap (toUtf8 "Content-Disposition: form-data; name=\"" ++ rest) =
      some ((splitToViews (toUtf8 "Content-Disposition: form-data; name=\"" ++ rest) [59]
        .SkipEmptyParts).foldl parseDirective headersMap) := by
  have htrim : trimmed (toUtf8 "Content-Disposition: form-data; name=\"" ++ rest) =
      toUtf8 "Content-Disposition: form-data; name=\"" ++ rest := by
    refine trim_eq_self ?_ ?_
    · intro a ha
      cases ha
      decide
    · intro a ha
      rw [getLast?_append, hlast] at ha
      cases ha
      decide
  rw [parsePartHeader, htrim, if_pos]
  rw [toLower, map_append]
  exact (List.prefix_append_of_prefix (by decide)).trans prefix_rfl

theorem foldl_parseDirective_field (name : ParamText) (headersMap : HeaderMap) :
    (splitToViews (toUtf8 "Content-Disposition: form-data; name=\"" ++
        (toUtf8 name.text ++ toUtf8 "\"")) [59] .SkipEmptyParts).foldl parseDirective headersMap =
      headersMap.insert (toUtf8 "name") (toUtf8 name.text) := by
  have hline : toUtf8 "Content-Disposition: form-data; name=\"" ++
        (toUtf8 name.text ++ toUtf8 "\"") =
      toUtf8 "Content-Disposition: form-data" ++ ([59] ++
        (toUtf8 " name=\"" ++ (toUtf8 name.text ++ toUtf8 "\""))) := by
    simp only [← append_assoc]
    congr 2
  have hname : 59 ∉ toUtf8 " name=\"" ++ (toUtf8 name.text ++ toUtf8 "\"") := by
    intro h
    simp only [mem_append, name.notMem.2.2.2, false_or] at h
    exact absurd h (by decide)
  rw [hline, splitToViews_skip (by simp), isTerminated_semicolon.pieces_append,
    pieces_semicolon (by decide) (by decide), pieces_semicolon (by simp [toUtf8]) hname,
    foldl_append, foldl_cons, foldl_nil, foldl_cons, foldl_nil,
    parseDirective_first, parseDirective_name]

theorem foldl_parseDirective_file (name filename : ParamText) (headersMap : HeaderMap) :
    (splitToViews (toUtf8 "Content-Disposition: form-data; name=\"" ++ (toUtf8 name.text ++
        (toUtf8 "\"; filename=\"" ++ (toUtf8 filename.text ++ toUtf8 "\"")))) [59]
        .SkipEmptyParts).foldl parseDirective headersMap =
      (headersMap.insert (toUtf8 "name") (toUtf8 name.text)).insert (toUtf8 "filename")
        (toUtf8 filename.text) := by
  have hline : toUtf8 "Content-Disposition: form-data; name=\"" ++ (toUtf8 name.text ++
        (toUtf8 "\"; filename=\"" ++ (toUtf8 filename.text ++ toUtf8 "\""))) =
      toUtf8 "Content-Disposition: form-data" ++ ([59] ++
        ((toUtf8 " name=\"" ++ (toUtf8 name.text ++ toUtf8 "\"")) ++ ([59] ++
          (toUtf8 " filename=\"" ++ (toUtf8 filename.text ++ toUtf8 "\""))))) := by
    have h₁ : toUtf8 "Content-Disposition: form-data; name=\"" =
      toUtf8 "Content-Disposition: form-data" ++ ([59] ++ toUtf8 " name=\"") := by decide
    have h₂ : toUtf8 "\"; filename=\"" = toUtf8 "\"" ++ ([59] ++ toUtf8 " filename=\"") := by decide
    rw [h₁, h₂]
    simp only [append_assoc]
  have hname : ∀ n : ParamText, 59 ∉ toUtf8 " name=\"" ++ (toUtf8 n.text ++ toUtf8 "\"") ∧
      59 ∉ toUtf8 " filename=\"" ++ (toUtf8 n.text ++ toUtf8 "\"") := by
    intro n
    constructor
    all_goals
      intro h
      simp only [mem_append, n.notMem.2.2.2, false_or] at h
      exact absurd h (by decide)
  rw [hline, splitToViews_skip (by simp), isTerminated_semicolon.pieces_append,
    isTerminated_semicolon.pieces_append, pieces_semicolon (by decide) (by decide),
    pieces_semicolon (by simp [toUtf8]) (hname name).1,
    pieces_semicolon (by simp [toUtf8]) (hname filename).2]
  simp only [singleton_append, foldl_cons, foldl_nil]
  rw [parseDirective_first, parseDirective_name, parseDirective_filename]

theorem parsePartHeader_type (type : MediaType) (headersMap : HeaderMap) :
    parsePartHeader headersMap (toUtf8 "Content-Type: " ++ toUtf8 type.text) =
      some (headersMap.insert (toUtf8 "content-type") (toUtf8 type.text)) := by
  have hne : ¬ toUtf8 "content-disposition" <+:
      toLower (trimmed (toUtf8 "Content-Type: " ++ toUtf8 type.text)) := by
    intro h
    -- trimming can take away characters at the end only
    have htrim : trimmed (toUtf8 "Content-Type: " ++ toUtf8 type.text) <+:
        toUtf8 "Content-Type: " ++ toUtf8 type.text := by
      have hhead : (toUtf8 "Content-Type: " ++ toUtf8 type.text).dropWhile isSpace =
          toUtf8 "Content-Type: " ++ toUtf8 type.text := by
        have : toUtf8 "Content-Type: " = 67 :: toUtf8 "ontent-Type: " := by decide
        rw [this, cons_append, dropWhile_cons_of_neg (by decide)]
      exact rdropWhile_prefix _ _
    have hlower : toLower (trimmed (toUtf8 "Content-Type: " ++ toUtf8 type.text)) <+:
        toUtf8 "content-type: " ++ toLower (toUtf8 type.text) := by
      have hmap := htrim.map fun c : UInt8 =>
        if (65 ≤ c ∧ c ≤ 90) ∨ (0xC0 ≤ c ∧ c ≤ 0xDE ∧ c ≠ 0xD7) then c + 32 else c
      rwa [map_append] at hmap
    have h' : toUtf8 "content-disp" <+: toUtf8 "content-type: " ++ toLower (toUtf8 type.text) :=
      (by decide : toUtf8 "content-disp" <+: toUtf8 "content-disposition").trans (h.trans hlower)
    have := prefix_of_prefix_length_le h' (prefix_append (toUtf8 "content-type: ") _)
      (by decide)
    exact absurd this (by decide)
  have hcolon : firstIndex [58] (toUtf8 "Content-Type: " ++ toUtf8 type.text) = some 12 :=
    firstIndex_append (by decide)
  have hkey : toLower (trimmed ((toUtf8 "Content-Type: " ++ toUtf8 type.text).take 12)) =
      toUtf8 "content-type" := by
    rfl
  have hvalue : trimmed ((toUtf8 "Content-Type: " ++ toUtf8 type.text).drop 13) =
      toUtf8 type.text := by
    have : (toUtf8 "Content-Type: ").drop 13 = [32] := by decide
    exact trim_eq_self type.head type.last
  rw [parsePartHeader, if_neg hne, parseHeaderLine, hcolon]
  simp only [hkey, hvalue]

theorem notMem_disposition (p : FormPart) : 13 ∉ p.disposition ∧ 10 ∉ p.disposition := by
  cases p with
  | field name value =>
    constructor
    all_goals
      intro h
      simp only [disposition, mem_append, name.notMem, false_or] at h
      exact absurd h (by decide)
  | file name filename type data =>
    constructor
    all_goals
      intro h
      simp only [disposition, mem_append, name.notMem, filename.notMem, false_or] at h
      exact absurd h (by decide)

theorem disposition_ne_nil (p : FormPart) : p.disposition ≠ [] := by
  cases p <;> simp [disposition, toUtf8]

theorem foldlM_parsePartHeader (p : FormPart) :
    (splitToViews p.headers crlf .SkipEmptyParts).foldlM parsePartHeader ∅ = some p.headersMap := by
  have hline : ¬ crlf <:+: p.disposition := fun h => (notMem_disposition p).1 (h.subset (by decide))
  rw [splitToViews_skip (by decide)]
  cases p with
  | field name value =>
    have hlast : (toUtf8 name.text ++ toUtf8 "\"").getLast? = some 34 := getLast?_concat
    rw [headers, otherHeaders, append_nil, pieces_of_not_isInfix (by decide)
      (disposition_ne_nil _) hline, foldlM_cons, disposition, parsePartHeader_disposition _ hlast,
      foldl_parseDirective_field]
    rfl
  | file name filename type data =>
    have hlast : (toUtf8 name.text ++ (toUtf8 "\"; filename=\"" ++
        (toUtf8 filename.text ++ toUtf8 "\""))).getLast? = some 34 := by
      simp only [← append_assoc]
      exact getLast?_concat
    have htype : ¬ crlf <:+: toUtf8 "Content-Type: " ++ toUtf8 type.text := by
      intro h
      have : (13 : UInt8) ∈ toUtf8 "Content-Type: " ++ toUtf8 type.text := h.subset (by decide)
      simp only [mem_append, type.notMem, or_false] at this
      exact absurd this (by decide)
    rw [headers, otherHeaders, isTerminated_crlf.pieces_append,
      pieces_of_not_isInfix (by decide) (disposition_ne_nil _) hline,
      pieces_of_not_isInfix (by decide) (by simp [toUtf8]) htype, singleton_append,
      foldlM_cons, disposition, parsePartHeader_disposition _ hlast, foldl_parseDirective_file,
      bind_eq_bind, bind_some, foldlM_cons, parsePartHeader_type]
    rfl

theorem firstIndex_EOH (p : FormPart) (rest : List UInt8) :
    firstIndex EOH (p.headers ++ (EOH ++ rest)) = some p.headers.length := by
  have hend : firstIndex EOH (EOH ++ rest) = some 0 := firstIndex_of_isPrefix (prefix_append _ _)
  rw [headers, append_assoc, firstIndex_EOH_append (notMem_disposition p).1]
  cases p with
  | field name value => simp [otherHeaders, hend]
  | file name filename type data =>
    have htype : 13 ∉ toUtf8 "Content-Type: " ++ toUtf8 type.text := by
      intro h
      simp only [mem_append, type.notMem, or_false] at h
      exact absurd h (by decide)
    have hbreak : firstIndex EOH (crlf ++ ((toUtf8 "Content-Type: " ++ toUtf8 type.text) ++
        (EOH ++ rest))) = some (2 + (toUtf8 "Content-Type: " ++ toUtf8 type.text).length) := by
      -- the line break between the headers is no empty line
      change firstIndex EOH (13 :: 10 :: ((toUtf8 "Content-Type: " ++ toUtf8 type.text) ++ _)) = _
      have hC : toUtf8 "Content-Type: " = 67 :: toUtf8 "ontent-Type: " := by decide
      rw [firstIndex_cons_of_not_isPrefix (by simp [EOH, crlf, hC]),
        firstIndex_cons_of_not_isPrefix (by simp [EOH, crlf, hC]),
        firstIndex_EOH_append htype, hend]
      simp
      omega
    rw [otherHeaders, append_assoc, hbreak]
    have hcrlf : crlf.length = 2 := rfl
    simp only [map_some, length_append, hcrlf, some.injEq]
    omega

theorem not_infix_EOH_headers (p : FormPart) : ¬ EOH <:+: p.headers := by
  intro h
  cases hi : firstIndex EOH p.headers with
  | none => exact firstIndex_eq_none.1 hi h
  | some i =>
    have hle := firstIndex_add_le hi
    have hend := firstIndex_EOH p []
    rw [firstIndex_append hi] at hend
    cases hend
    have : EOH.length = 4 := rfl
    omega

theorem lookup_headersMap (p : FormPart) :
    Finmap.lookup (toUtf8 "filename") p.headersMap =
        (match p with
          | field _ _ => none
          | file _ filename _ _ => some (toUtf8 filename.text)) ∧
      Finmap.lookup (toUtf8 "name") p.headersMap =
        (match p with
          | field name _ => some (toUtf8 name.text)
          | file name _ _ _ => some (toUtf8 name.text)) ∧
      Finmap.lookup (toUtf8 "content-type") p.headersMap =
        (match p with
          | field _ _ => none
          | file _ _ type _ => some (toUtf8 type.text)) := by
  have h₁ : toUtf8 "filename" ≠ toUtf8 "name" := by decide
  have h₂ : toUtf8 "content-type" ≠ toUtf8 "name" := by decide
  have h₃ : toUtf8 "content-type" ≠ toUtf8 "filename" := by decide
  cases p with
  | field name value => simp [headersMap, h₁, h₂]
  | file name filename type data => simp [headersMap, h₂.symm, h₁.symm, h₃.symm]

theorem parseFormData_eq (p : FormPart) (payload : List UInt8) (request : Request)
    (hlen : (p.headers ++ (EOH ++ payload)).length < 2 ^ 31) :
    parseFormData (p.headers ++ (EOH ++ payload)) request =
      some (p.receive (viewWithoutEndingWith payload crlf) request) := by
  simp only [length_append] at hlen
  have hpos : toInt (indexOf (p.headers ++ (EOH ++ payload)) EOH) = p.headers.length := by
    rw [indexOf, firstIndex_EOH]
    exact toInt_eq_self (by simp) (by simp; omega)
  have hheaders : mid (p.headers ++ (EOH ++ payload)) 0 p.headers.length = p.headers := by
    rw [mid, if_neg (by omega), if_neg (by omega), if_neg (by omega)]
    simp
  have hpayload : mid (p.headers ++ (EOH ++ payload)) (p.headers.length + EOH.length)
      (p.headers ++ (EOH ++ payload)).length = payload := by
    have hdrop : (p.headers ++ (EOH ++ payload)).drop (p.headers ++ EOH).length = payload := by
      rw [← append_assoc, drop_left]
    have hnat : (p.headers.length + EOH.length : ℤ).toNat = (p.headers ++ EOH).length := by
      rw [length_append]
      omega
    rw [mid, if_neg (by simp), if_neg (by omega), if_neg (by omega), hnat, hdrop]
    refine take_of_length_le ?_
    simp only [length_append]
    omega
  obtain ⟨hfilename, hname, htype⟩ := lookup_headersMap p
  unfold parseFormData
  dsimp only
  rw [hpos, if_neg (by omega), hheaders, hpayload, foldlM_parsePartHeader, bind_some,
    hfilename, hname, htype]
  cases p with
  | field name value => rfl
  | file name filename type data => rfl

/-! ### The delimiter line in a part -/

end FormPart

namespace Boundary

variable (B : Boundary) {x y : List UInt8}

theorem notMem_dashes : 13 ∉ B.dashes ∧ 10 ∉ B.dashes ∧ 34 ∉ B.dashes := by
  refine ⟨fun h => ?_, fun h => ?_, fun h => ?_⟩
  all_goals
    obtain h | h := mem_append.1 h
    · exact absurd h (by decide)
    · exact absurd rfl (by first
        | exact (B.plain _ h).1 | exact (B.plain _ h).2.1 | exact (B.plain _ h).2.2)

theorem delimiter_eq : B.delimiter = (B.dashes ++ [13]) ++ [10] := by simp [delimiter, crlf]

theorem notMem_dashes_cr : 10 ∉ B.dashes ++ [13] := by simp [B.notMem_dashes.2.1]

theorem isTerminated_delimiter : IsTerminated B.delimiter :=
  ⟨B.dashes ++ [13], 10, B.delimiter_eq, B.notMem_dashes_cr⟩

theorem ascii_delimiter : ∀ b ∈ B.delimiter, isAscii b := by
  intro b hb
  simp only [delimiter, dashes, mem_append] at hb
  obtain (hb | hb) | hb := hb
  · exact all_eq_true.1 (by decide : (toUtf8 "--").all isAscii = true) b hb
  · exact B.ascii b hb
  · exact all_eq_true.1 (by decide : crlf.all isAscii = true) b hb

theorem infix_append_crlf (h : B.delimiter <:+: x ++ crlf) : B.dashes <:+ x ∨ B.delimiter <:+: x := by
  have hx : x ++ crlf = (x ++ [13]) ++ [10] := by simp [crlf]
  rw [hx] at h
  obtain h | h := infix_concat_iff.1 h
  · left
    rw [← hx, delimiter] at h
    obtain ⟨t, ht⟩ := h
    rw [← append_assoc] at ht
    exact ⟨t, append_cancel_right ht⟩
  · right
    rw [delimiter_eq] at h ⊢
    exact IsTerminated.infix_left (by simp) h

theorem infix_or_infix (h : B.delimiter <:+: (x ++ crlf) ++ y) :
    B.delimiter <:+: x ++ crlf ∨ B.delimiter <:+: y := by
  have hx : x ++ crlf = (x ++ [13]) ++ [10] := by simp [crlf]
  rw [hx, delimiter_eq] at h ⊢
  exact IsTerminated.infix_or_infix B.notMem_dashes_cr h

end Boundary

namespace FormPart

variable (B : Boundary) (p : FormPart)

theorem not_infix_of_notMem {x : List UInt8} (h : 10 ∉ x) : ¬ B.delimiter <:+: x := fun h' =>
  h (h'.subset (by simp [Boundary.delimiter, crlf]))

theorem not_suffix_disposition : ¬ B.dashes <:+ p.disposition := by
  rintro ⟨t, ht⟩
  have hlast : p.disposition.getLast? = some 34 := by
    cases p with
    | field name value =>
      simp only [disposition, ← append_assoc]
      exact getLast?_concat
    | file name filename type data =>
      simp only [disposition, ← append_assoc]
      exact getLast?_concat
  have hne : B.dashes ≠ [] := by simp [Boundary.dashes, toUtf8]
  rw [← ht, getLast?_append_of_ne_nil _ hne] at hlast
  exact B.notMem_dashes.2.2 (mem_of_getLast? hlast)

theorem not_infix_headers : ¬ B.delimiter <:+: p.headers := by
  have hline := not_infix_of_notMem B (notMem_disposition p).2
  cases hp : p with
  | field name value =>
    rw [← hp, headers, hp, otherHeaders, append_nil, ← hp]
    exact hline
  | file name filename type data =>
    intro h
    rw [← hp, headers, hp, otherHeaders, ← append_assoc, ← hp] at h
    obtain h | h := B.infix_or_infix h
    · obtain h | h := B.infix_append_crlf h
      · exact not_suffix_disposition B p h
      · exact hline h
    · refine not_infix_of_notMem B (x := toUtf8 "Content-Type: " ++ toUtf8 type.text) ?_ h
      intro h
      simp only [mem_append, type.notMem, or_false] at h
      exact absurd h (by decide)

theorem infix_headers_append {z : List UInt8} (h : B.delimiter <:+: p.headers ++ (EOH ++ z)) :
    B.dashes <:+ p.headers ∨ B.delimiter <:+: z := by
  have hsplit : p.headers ++ (EOH ++ z) = (p.headers ++ crlf) ++ (([] ++ crlf) ++ z) := by simp [EOH]
  have hne : B.dashes ≠ [] := by simp [Boundary.dashes, toUtf8]
  rw [hsplit] at h
  obtain h | h := B.infix_or_infix h
  · obtain h | h := B.infix_append_crlf h
    · exact Or.inl h
    · exact absurd h (not_infix_headers B p)
  · obtain h | h := B.infix_or_infix h
    · obtain h | h := B.infix_append_crlf h
      · exact absurd (suffix_nil.1 h) hne
      · exact absurd (infix_nil.1 h) B.isTerminated_delimiter.ne_nil
    · exact Or.inr h

end FormPart

end QBittorrent
