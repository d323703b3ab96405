import QBittorrent.Lib.Dict
import QBittorrent.Lib.Search
import QBittorrent.Lib.Text

/-!
# The HTTP request parser

`RequestParser::parse` on the bytes received so far.  The start lines are Latin-1, so their texts
are their bytes here.  The parser keeps positions in the message in `int`s (`toInt`); positions
inside the start lines, which are shorter than `2 ^ 31` bytes, fit.

* `RequestParser.parse_append` : **prefix stability**: any status but `Incomplete` stays, with its
  request and its frame size, whatever bytes follow.
-/

namespace QBittorrent

open List

/-! ### Data -/

/-- A file of a form. -/
structure UploadedFile where
  filename : String
  type : String
  data : List UInt8

/-- Header values by their names in lower case. -/
abbrev HeaderMap := Dict (List UInt8) (List UInt8)

structure Request where
  version : List UInt8
  method : List UInt8
  path : String
  headers : HeaderMap
  query : Dict String (List UInt8)
  posts : Dict String String
  files : List UploadedFile

def Request.empty : Request := ⟨[], [], "", ∅, ∅, ∅, []⟩

/-- What the parser uses of the URL classes of Qt. -/
structure UrlCodec where
  /-- `QByteArray::fromPercentEncoding`. -/
  fromPercentEncoding : List UInt8 → List UInt8
  /-- `QUrlQuery(text).queryItems(QUrl::FullyDecoded)`. -/
  queryItems : String → List (String × String)

/-- A codec that leaves everything as it is. -/
def UrlCodec.identity : UrlCodec := ⟨id, fun _ => []⟩

inductive ParseStatus where
  | OK | Incomplete | BadMethod | BadRequest

structure ParseResult where
  status : ParseStatus
  request : Request
  frameSize : ℤ

namespace RequestParser

def crlf : List UInt8 := [13, 10]

/-- The end of the headers. -/
def EOH : List UInt8 := crlf ++ crlf

def maxContentSize : ℤ := 64 * 1024 * 1024

/-- A number kept in an `int`. -/
def toInt (n : ℤ) : ℤ := n.bmod (2 ^ 32)

/-! ### Texts and views -/

/-- `QChar::isSpace` on Latin-1. -/
def isSpace (c : UInt8) : Bool := c = 32 || (9 ≤ c && c ≤ 13) || c = 0x85 || c = 0xA0

/-- `QString::toLower` on Latin-1. -/
def toLower (text : List UInt8) : List UInt8 :=
  text.map fun c =>
    if (65 ≤ c ∧ c ≤ 90) ∨ (0xC0 ≤ c ∧ c ≤ 0xDE ∧ c ≠ 0xD7) then c + 32 else c

def trimmed (text : List UInt8) : List UInt8 := trim isSpace text

/-- `indexOf` of the Qt classes, `-1` if there is no occurrence. -/
def indexOf (data pat : List UInt8) : ℤ := (firstIndex pat data).elim (-1) fun i => i

/-- `QByteArrayView::mid`. -/
def mid (data : List UInt8) (pos len : ℤ) : List UInt8 :=
  if data.length < pos then []
  else if pos < 0 then
    if len < 0 ∨ data.length ≤ len + pos then data
    else if len + pos ≤ 0 then []
    else data.take (len + pos).toNat
  else if len < 0 then data.drop pos.toNat
  else (data.drop pos.toNat).take len.toNat

/-- `Utils::String::unquote`. -/
def unquote (str : List UInt8) : List UInt8 :=
  if str.length < 2 then str
  else if str.head? = some 34 ∧ str.getLast? = some 34 then (str.drop 1).dropLast
  else str

def viewWithoutEndingWith (data str : List UInt8) : List UInt8 :=
  if str <:+ data then data.take (data.length - str.length) else data

inductive SplitBehavior where
  | KeepEmptyParts | SkipEmptyParts
  deriving DecidableEq

/-- `Utils::ByteArray::splitToViews`, which mimics `QStringView::split`. -/
def splitToViews (data sep : List UInt8) (behavior : SplitBehavior) : List (List UInt8) :=
  if sep = [] then [data] else pieces (behavior = .KeepEmptyParts) sep data

/-- `QString::toInt`: decimal digits with an optional sign, between spaces. -/
def parseInt (string : List UInt8) : Option ℤ :=
  let (negative, digits) := match trimmed string with
    | 43 :: digits => (false, digits)
    | 45 :: digits => (true, digits)
    | digits => (false, digits)
  if digits ≠ [] ∧ digits.all (fun c => 48 ≤ c && c ≤ 57) then
    let n : ℤ := digits.foldl (fun n c => 10 * n + (c.toNat - 48 : ℕ)) 0
    let n := if negative then -n else n
    if -2 ^ 31 ≤ n ∧ n < 2 ^ 31 then some n else none
  else none

/-! ### Start lines -/

def parseHeaderLine (line : List UInt8) (out : HeaderMap) : Option HeaderMap :=
  match firstIndex [58] line with
  | none | some 0 => none
  | some i => some (out.insert (toLower (trimmed (line.take i))) (trimmed (line.drop (i + 1))))

/-- A character that `\s` matches. -/
def isRegexSpace (c : UInt8) : Bool := c = 32 || (9 ≤ c && c ≤ 13)

def isDigit (c : UInt8) : Bool := 48 ≤ c && c ≤ 57

/-- The match of `^([A-Z]+)\s+(\S+)\s+HTTP\/(\d\.\d)$`: the next group starts where no more
characters fit the group before, so there is one way to match. -/
def matchRequestLine (line : List UInt8) : Option (List UInt8 × List UInt8 × List UInt8) :=
  let (method, line) := line.span fun c => 65 ≤ c && c ≤ 90
  let (space₁, line) := line.span isRegexSpace
  let (target, line) := line.span fun c => !isRegexSpace c
  let (space₂, line) := line.span isRegexSpace
  if method = [] ∨ space₁ = [] ∨ target = [] ∨ space₂ = [] then none
  else
    match line with
    | 72 :: 84 :: 84 :: 80 :: 47 :: major :: 46 :: minor :: rest =>
      -- `$` also matches before a line feed at the end
      if isDigit major ∧ isDigit minor ∧ (rest = [] ∨ rest = [10]) then
        some (method, target, [major, 46, minor])
      else none
    | _ => none

variable (U : UrlCodec) {data : List UInt8} {n : ℤ}

/-- The text of a component of the query. -/
def decodeComponent (component : List UInt8) : List UInt8 :=
  (U.fromPercentEncoding component).map fun c => if c = 43 then 32 else c

def parseRequestLine (line : List UInt8) (request : Request) : Option Request :=
  (matchRequestLine line).map fun (method, url, version) =>
    let sepPos := firstIndex [63] url
    let pathComponent := sepPos.elim url url.take
    let query := sepPos.elim request.query fun sepPos =>
      (splitToViews (url.drop (sepPos + 1)) [38] .KeepEmptyParts).foldl (fun query param =>
        match firstIndex [61] param with
        -- parameters without name are ignored
        | none | some 0 => query
        | some eqCharPos =>
          query.insert (decodeUtf8 (decodeComponent U (param.take eqCharPos)))
            (decodeComponent U (param.drop (eqCharPos + 1)))) request.query
    { request with
      method := method
      path := decodeUtf8 (U.fromPercentEncoding pathComponent)
      query := query
      version := version }

/-- The lines, each with its continuations. -/
def unfoldLines (lines : List (List UInt8)) : List (List UInt8) :=
  lines.foldl (fun requestLines line =>
    if (line.head?.any isSpace) ∧ requestLines ≠ [] then
      requestLines.dropLast ++ [requestLines.getLast?.getD [] ++ line]
    else requestLines ++ [line]) []

def parseStartLines (data : List UInt8) (request : Request) : Option Request :=
  match unfoldLines (splitToViews data crlf .SkipEmptyParts) with
  | [] => none
  | requestLine :: headerLines =>
    (parseRequestLine U requestLine request).bind fun request =>
      (headerLines.foldlM (fun headers line => parseHeaderLine line headers) request.headers).map
        fun headers => { request with headers := headers }

/-! ### Bodies -/

/-- One parameter of a `Content-Disposition` line. -/
def parseDirective (headersMap : HeaderMap) (directive : List UInt8) : HeaderMap :=
  match firstIndex [61] directive with
  | none => headersMap
  | some idx =>
    headersMap.insert (toLower (trimmed (directive.take idx)))
      (unquote (trimmed (directive.drop (idx + 1))))

def parsePartHeader (headersMap : HeaderMap) (line : List UInt8) : Option HeaderMap :=
  if toUtf8 "content-disposition" <+: toLower (trimmed line) then
    some ((splitToViews line [59] .SkipEmptyParts).foldl parseDirective headersMap)
  else parseHeaderLine line headersMap

def parseFormData (data : List UInt8) (request : Request) : Option Request :=
  let eohPos := toInt (indexOf data EOH)
  if eohPos < 0 then none
  else
    let headers := mid data 0 eohPos
    let payload := viewWithoutEndingWith (mid data (eohPos + EOH.length) data.length) crlf
    ((splitToViews headers crlf .SkipEmptyParts).foldlM parsePartHeader ∅).bind fun headersMap =>
      match Finmap.lookup (toUtf8 "filename") headersMap, Finmap.lookup (toUtf8 "name") headersMap with
      | some filename, _ =>
        some { request with
          files := request.files ++
            [{ filename := fromLatin1 filename
               type := fromLatin1 ((Finmap.lookup (toUtf8 "content-type") headersMap).getD [])
               data := payload }] }
      | none, some name =>
        some { request with
          posts := request.posts.insert (fromLatin1 name) (decodeUtf8 payload) }
      | none, none => none

/-- The parts of a form, the last one without the ending delimiter. -/
def multipart (data delimiter : List UInt8) : List (List UInt8) :=
  let dashDelimiter := toUtf8 "--" ++ delimiter ++ crlf
  let endDelimiter := toUtf8 "--" ++ delimiter ++ toUtf8 "--" ++ crlf
  let multipart := splitToViews data dashDelimiter .SkipEmptyParts
  match multipart.getLast? with
  | none => []
  | some last => multipart.dropLast ++ [viewWithoutEndingWith last endDelimiter]

def parsePostMessage (data : List UInt8) (request : Request) : Option Request :=
  let contentType := (Finmap.lookup (toUtf8 "content-type") request.headers).getD []
  let contentTypeLower := toLower contentType
  if toUtf8 "application/x-www-form-urlencoded" <+: contentTypeLower then
    let processedData := data.map fun c => if c = 43 then 32 else c
    let pairs := U.queryItems (decodeUtf8 processedData)
    some { request with
      posts := pairs.foldl (fun posts pair => posts.insert pair.1 pair.2) request.posts }
  else if toUtf8 "multipart/form-data" <+: contentTypeLower then
    match firstIndex (toUtf8 "boundary=") contentType with
    | none => none
    | some idx =>
      let delimiter := unquote (contentType.drop (idx + (toUtf8 "boundary=").length))
      if delimiter = [] then none
      else if multipart data delimiter = [] then none
      else (multipart data delimiter).foldlM (fun request part => parseFormData part request) request
  else none

/-! ### Messages -/

/-- The length of the body, `-1` if the header is no number. -/
def parseContentLength (headers : HeaderMap) : ℤ :=
  match Finmap.lookup (toUtf8 "content-length") headers with
  | none => 0
  | some rawValue => (parseInt rawValue).getD (-1)

/-- `doParse` of a message with the headers `data.take headerEnd`. -/
def parseMessage (data : List UInt8) (headerEnd : ℤ) (request : Request) : ParseResult :=
  let headerLength := toInt (headerEnd + EOH.length)
  if request.method = toUtf8 "GET" ∨ request.method = toUtf8 "HEAD" then
    ⟨.OK, request, headerLength⟩
  else if request.method = toUtf8 "POST" then
    let contentLength := parseContentLength request.headers
    if contentLength < 0 then ⟨.BadRequest, .empty, 0⟩
    else if contentLength > maxContentSize then ⟨.BadRequest, .empty, 0⟩
    else if contentLength > 0 then
      let httpBodyView := mid data headerLength contentLength
      if httpBodyView.length < contentLength then ⟨.Incomplete, .empty, 0⟩
      else
        match parsePostMessage U httpBodyView request with
        | none => ⟨.BadRequest, .empty, 0⟩
        | some request => ⟨.OK, request, toInt (headerLength + contentLength)⟩
    else ⟨.OK, request, toInt (headerLength + contentLength)⟩
  else ⟨.BadMethod, request, 0⟩

def parse (data : List UInt8) : ParseResult :=
  let headerEnd := toInt (indexOf data EOH)
  if headerEnd < 0 then ⟨.Incomplete, .empty, 0⟩
  else
    match parseStartLines U (data.take headerEnd.toNat) .empty with
    | none => ⟨.BadRequest, .empty, 0⟩
    | some request => parseMessage U data headerEnd request

/-! ### Prefix stability -/

theorem toInt_le (h : 0 ≤ n) : toInt n ≤ n := by
  rw [toInt, Int.bmod_def]
  split_ifs <;> omega

theorem toInt_eq_self (h : -2 ^ 31 ≤ n) (h' : n < 2 ^ 31) : toInt n = n := by
  rw [toInt, Int.bmod_def]
  split_ifs <;> omega

theorem firstIndex_EOH_append {l : List UInt8} (h : 13 ∉ l) (r : List UInt8) :
    firstIndex EOH (l ++ r) = (firstIndex EOH r).map (· + l.length) :=
  firstIndex_append_of_notMem h

theorem isTerminated_crlf : IsTerminated crlf := ⟨[13], 10, rfl, by decide⟩

theorem splitToViews_skip {sep : List UInt8} (h : sep ≠ []) (data : List UInt8) :
    splitToViews data sep .SkipEmptyParts = pieces false sep data := by
  rw [splitToViews, if_neg h]
  rfl

theorem exists_headerEnd (h : 0 ≤ toInt (indexOf data EOH)) :
    ∃ i, firstIndex EOH data = some i ∧ indexOf data EOH = i := by
  cases hi : firstIndex EOH data with
  | none =>
    rw [indexOf, hi] at h
    exact absurd h (by decide)
  | some i => exact ⟨i, rfl, by rw [indexOf, hi]; rfl⟩

theorem mid_append {pos len : ℤ} (hlen : 0 < len) (h : len ≤ (mid data pos len).length)
    (x : List UInt8) : mid (data ++ x) pos len = mid data pos len := by
  unfold mid at h ⊢
  rw [length_append]
  split_ifs at h with h₁ h₂ h₃ h₄ h₅
  · simp only [length_nil] at h
    omega
  · omega
  · simp only [length_nil] at h
    omega
  · rw [length_take] at h
    omega
  · omega
  · rw [length_take, length_drop] at h
    rw [if_neg (by omega), if_neg h₂, if_neg (by omega), if_neg h₁, if_neg h₂, if_neg (by omega),
      drop_append_of_le_length (by omega), take_append_of_le_length]
    rw [length_drop]
    omega

variable {U} {request : Request}

theorem parseMessage_append {headerEnd : ℤ}
    (h : (parseMessage U data headerEnd request).status ≠ .Incomplete) (x : List UInt8) :
    parseMessage U (data ++ x) headerEnd request = parseMessage U data headerEnd request := by
  unfold parseMessage at h ⊢
  by_cases hget : request.method = toUtf8 "GET" ∨ request.method = toUtf8 "HEAD"
  · rw [if_pos hget, if_pos hget]
  by_cases hpost : request.method = toUtf8 "POST"
  · simp only [if_neg hget, if_pos hpost] at h ⊢
    by_cases hneg : parseContentLength request.headers < 0
    · rw [if_pos hneg, if_pos hneg]
    by_cases hmax : parseContentLength request.headers > maxContentSize
    · rw [if_neg hneg, if_neg hneg, if_pos hmax, if_pos hmax]
    by_cases hpos : parseContentLength request.headers > 0
    · -- the body was there in full, or the message would be incomplete
      simp only [if_neg hneg, if_neg hmax, if_pos hpos] at h ⊢
      have hbody : ¬ ((mid data (toInt (headerEnd + EOH.length))
          (parseContentLength request.headers)).length : ℤ) <
            parseContentLength request.headers := by
        intro hlt
        rw [if_pos hlt] at h
        exact h rfl
      rw [mid_append hpos (not_lt.1 hbody)]
    · simp only [if_neg hneg, if_neg hmax, if_neg hpos]
  · simp only [if_neg hget, if_neg hpost]

theorem parse_append (h : (parse U data).status ≠ .Incomplete) (x : List UInt8) :
    parse U (data ++ x) = parse U data := by
  have hend : 0 ≤ toInt (indexOf data EOH) := by
    by_contra hlt
    rw [parse, if_pos (not_le.1 hlt)] at h
    exact h rfl
  obtain ⟨i, hi, hindex⟩ := exists_headerEnd hend
  have hindex' : indexOf (data ++ x) EOH = i := by
    rw [indexOf, firstIndex_append hi]
    rfl
  have hle : (toInt i).toNat ≤ data.length := by
    have := firstIndex_add_le hi
    have := toInt_le (n := i) (by omega)
    omega
  unfold parse at h ⊢
  rw [hindex] at h hend ⊢
  rw [hindex', if_neg (not_lt.2 hend), if_neg (not_lt.2 hend),
    take_append_of_le_length hle]
  rw [if_neg (not_lt.2 hend)] at h
  cases hstart : parseStartLines U (data.take (toInt i).toNat) .empty with
  | none => rfl
  | some request =>
    rw [hstart] at h
    exact parseMessage_append h x

theorem parseMessage_frameSize {i : ℕ} (hdata : data.length < 2 ^ 31)
    (hi : i + EOH.length ≤ data.length) (h : (parseMessage U data i request).status = .OK) :
    0 < (parseMessage U data i request).frameSize ∧
      (parseMessage U data i request).frameSize ≤ data.length := by
  have hEOH : EOH.length = 4 := rfl
  have hlength : toInt (i + EOH.length) = i + 4 := by
    exact toInt_eq_self (by omega) (by omega)
  unfold parseMessage at h ⊢
  simp only [hlength] at h ⊢
  by_cases hget : request.method = toUtf8 "GET" ∨ request.method = toUtf8 "HEAD"
  · simp only [if_pos hget]
    omega
  by_cases hpost : request.method = toUtf8 "POST"
  · simp only [if_neg hget, if_pos hpost] at h ⊢
    by_cases hneg : parseContentLength request.headers < 0
    · rw [if_pos hneg] at h
      cases h
    by_cases hmax : parseContentLength request.headers > maxContentSize
    · rw [if_neg hneg, if_pos hmax] at h
      cases h
    by_cases hpos : parseContentLength request.headers > 0
    · split_ifs at h ⊢ with hbody
      -- the body is a part of the message after its headers
      have hfit : (i + 4 + parseContentLength request.headers : ℤ) ≤ data.length := by
        rw [mid, if_neg (by omega), if_neg (by omega), if_neg (by omega), length_take,
          length_drop] at hbody
        omega
      cases hp : parsePostMessage U (mid data (i + 4) (parseContentLength request.headers))
        request with
      | none => simp [hp] at h
      | some request' =>
        simp only [toInt_eq_self (n := i + 4 + parseContentLength request.headers) (by omega)
          (by omega)]
        omega
    · simp only [if_neg hneg, if_neg hmax, if_neg hpos] at h ⊢
      rw [toInt_eq_self (by omega) (by omega)]
      omega
  · rw [if_neg hget, if_neg hpost] at h
    cases h

theorem frameSize_bounds (hdata : data.length < 2 ^ 31) (h : (parse U data).status = .OK) :
    0 < (parse U data).frameSize ∧ (parse U data).frameSize ≤ data.length := by
  have hend : 0 ≤ toInt (indexOf data EOH) := by
    by_contra hlt
    rw [parse, if_pos (not_le.1 hlt)] at h
    cases h
  obtain ⟨i, hi, hindex⟩ := exists_headerEnd hend
  have hle := firstIndex_add_le hi
  have hself : toInt (i : ℤ) = i := toInt_eq_self (by omega) (by omega)
  unfold parse at h ⊢
  rw [hindex, hself] at h hend ⊢
  rw [if_neg (not_lt.2 hend)] at h ⊢
  cases hstart : parseStartLines U (data.take (i : ℤ).toNat) .empty with
  | none =>
    rw [hstart] at h
    cases h
  | some request =>
    rw [hstart] at h
    exact parseMessage_frameSize hdata hle h

end RequestParser

end QBittorrent
