import QBittorrent.Http.RequestParser
import QBittorrent.Lib.Framing

/-!
# The HTTP connection

`Connection::read` appends the bytes that arrived to a buffer and handles the requests at its
front.  After an error it closes the socket, and nothing is read any more.

* `Connection.read_independent_of_cuts` : the cuts of the stream do not matter.
-/

namespace QBittorrent

open RequestParser List

/-- An error response; its headers are `connection: close`. -/
structure ErrorResponse where
  code : ℕ
  text : String

/-- A request as the handler gets it.  The answer to a `HEAD` request is that to the `GET` request
without its content. -/
structure Handled where
  request : Request
  head : Bool

namespace Connection

/-- The limit of what is buffered for one message, `MAX_CONTENT_SIZE * 1.1` as a `long`. -/
def bufferLimit : ℕ := 73819750

variable (U : UrlCodec)

/-- One turn of the loop in `read`. -/
def turn (receivedData : List UInt8) : Verdict Handled ErrorResponse :=
  let result := RequestParser.parse U receivedData
  match result.status with
  | .Incomplete =>
    if receivedData.length > bufferLimit then .reject ⟨413, "Payload Too Large"⟩ else .more
  | .BadMethod => .reject ⟨501, "Not Implemented"⟩
  | .BadRequest => .reject ⟨400, "Bad Request"⟩
  | .OK =>
    if result.request.method = toUtf8 "HEAD" then
      .frame ⟨{ result.request with method := toUtf8 "GET" }, true⟩ result.frameSize
    else .frame ⟨result.request, false⟩ result.frameSize

/-- The buffer of an open connection, or the response after which it was closed. -/
abbrev State := Remainder UInt8 ErrorResponse

/-- `read` of a new connection, for the bytes that are available each time: what the handler is given,
and the state after. -/
def readAll (reads : List (List UInt8)) : Option (List Handled × State) :=
  (Remainder.rest []).run (turn U) reads

def WithinLimit (reads : List (List UInt8)) : Prop :=
  Remainder.Within (turn U) bufferLimit (.rest []) reads

variable {U}

theorem turn_append {d : List UInt8} (h : (RequestParser.parse U d).status ≠ .Incomplete)
    (x : List UInt8) : turn U (d ++ x) = turn U d := by
  unfold turn
  dsimp only
  rw [parse_append h]
  cases hstatus : (RequestParser.parse U d).status with
  | Incomplete => exact absurd hstatus h
  | OK | BadMethod | BadRequest => rfl

theorem stable_turn : Stable (turn U) bufferLimit where
  frame := by
    intro d r size hd h
    have hOK : (RequestParser.parse U d).status = .OK := by
      unfold turn at h
      dsimp only at h
      split at h
      · split_ifs at h
      · cases h
      · cases h
      · assumption
    have hsize : size = (RequestParser.parse U d).frameSize := by
      simp only [turn, hOK] at h
      split_ifs at h <;> cases h <;> rfl
    have hlt : d.length < 2 ^ 31 := by
      unfold bufferLimit at hd
      omega
    obtain ⟨hpos, hle⟩ := frameSize_bounds hlt hOK
    refine ⟨hsize ▸ hpos, hsize ▸ hle, fun x => ?_⟩
    rw [turn_append (by simp [hOK]), h]
  reject := by
    intro d e hd h x
    have hne : (RequestParser.parse U d).status ≠ .Incomplete := by
      intro hstatus
      simp only [turn, hstatus, if_neg (not_lt.2 hd)] at h
      cases h
    rw [turn_append hne, h]

/-- **The connection is independent of how bytes arrive**, which rests on the prefix stability of
the parser. -/
theorem read_independent_of_cuts (U : UrlCodec) :
    (∀ d x, (RequestParser.parse U d).status ≠ .Incomplete →
      RequestParser.parse U (d ++ x) = RequestParser.parse U d) ∧
    (∀ d, d.length < 2 ^ 31 → (RequestParser.parse U d).status = .OK →
      0 < (RequestParser.parse U d).frameSize ∧
        (RequestParser.parse U d).frameSize ≤ d.length) ∧
    ∀ reads reads', reads.flatten = reads'.flatten → WithinLimit U reads → WithinLimit U reads' →
      (readAll U reads).isSome ∧ readAll U reads = readAll U reads' :=
  ⟨fun _ x h => parse_append h x, fun _ h h' => frameSize_bounds h h',
    fun _ _ hflatten hw hw' =>
      ⟨stable_turn.run_isSome hw, stable_turn.run_eq_run hflatten hw hw'⟩⟩

end Connection

namespace Connection

/-- The line of a request in two reads, cut inside its end. -/
theorem read_independent_of_cuts_pair :
    (readAll UrlCodec.identity [toUtf8 "GET / HTTP/1.1\r", toUtf8 "\n\r\n"]).isSome ∧
      readAll UrlCodec.identity [toUtf8 "GET / HTTP/1.1\r", toUtf8 "\n\r\n"] =
        readAll UrlCodec.identity [toUtf8 "GET / HTTP/1.1\r\n\r\n"] := by
  exact (read_independent_of_cuts UrlCodec.identity).2.2 _ _ (by decide)
    (Remainder.within_of_length_le (by decide)) (Remainder.within_of_length_le (by decide))

end Connection

namespace RequestParser

/-- A header line, `X:` with a value of `n` characters. -/
def longLine (n : ℕ) : List UInt8 := 88 :: 58 :: List.replicate n 97

/-- A request with that header. -/
def longRequest (n : ℕ) : List UInt8 :=
  toUtf8 "GET / HTTP/1.1" ++ (crlf ++ (longLine n ++ EOH))

theorem notMem_longLine (n : ℕ) : (13 : UInt8) ∉ longLine n := by
  intro h
  simp [longLine] at h

theorem length_longLine (n : ℕ) : (longLine n).length = n + 2 := by simp [longLine]

theorem firstIndex_longRequest (n : ℕ) : firstIndex EOH (longRequest n) = some (n + 18) := by
  have hend : firstIndex EOH EOH = some 0 := by decide
  have hheader : firstIndex EOH (crlf ++ (longLine n ++ EOH)) = some (n + 4) := by
    -- the line break before the header is none of the two of the end
    change firstIndex EOH (13 :: 10 :: (longLine n ++ EOH)) = some (n + 4)
    rw [firstIndex_cons_of_not_isPrefix (by simp [EOH, crlf, longLine]),
      firstIndex_cons_of_not_isPrefix (by simp [EOH, crlf]),
      firstIndex_EOH_append (notMem_longLine n), hend, length_longLine]
    simp
  rw [longRequest, firstIndex_EOH_append (by decide), hheader]
  rfl

theorem take_longRequest (n : ℕ) :
    (longRequest n).take (n + 18) = toUtf8 "GET / HTTP/1.1" ++ (crlf ++ longLine n) := by
  have hlen : (toUtf8 "GET / HTTP/1.1" ++ (crlf ++ longLine n)).length = n + 18 := by
    have h₁ : (toUtf8 "GET / HTTP/1.1").length = 14 := by decide
    have h₂ : crlf.length = 2 := rfl
    rw [length_append, length_append, length_longLine, h₁, h₂]
    omega
  rw [← hlen, longRequest, ← append_assoc, ← append_assoc, ← append_assoc,
    take_left]

theorem parseHeaderLine_longLine (n : ℕ) (out : HeaderMap) :
    ∃ headers, parseHeaderLine (longLine n) out = some headers := by
  have hcolon : firstIndex [58] (longLine n) = some 1 :=
    firstIndex_append (l := [88, 58]) (by decide)
  exact ⟨_, rfl⟩

theorem parseStartLines_longRequest (n : ℕ) : ∃ request,
    parseStartLines UrlCodec.identity ((longRequest n).take (n + 18)) .empty = some request ∧
      request.method = toUtf8 "GET" := by
  have hvalue : ¬ crlf <:+: longLine n := fun h => notMem_longLine n (h.subset (by decide))
  have hlines : splitToViews ((longRequest n).take (n + 18)) crlf .SkipEmptyParts =
      [toUtf8 "GET / HTTP/1.1", longLine n] := by
    rw [take_longRequest, splitToViews_skip (by decide), isTerminated_crlf.pieces_append,
      pieces_of_not_isInfix (by decide) (by decide) (by decide),
      pieces_of_not_isInfix (by decide) (by simp [longLine]) hvalue]
    rfl
  have hmatch : matchRequestLine (toUtf8 "GET / HTTP/1.1") =
      some (toUtf8 "GET", toUtf8 "/", toUtf8 "1.1") := by decide
  have hunfold : unfoldLines [toUtf8 "GET / HTTP/1.1", longLine n] =
      [toUtf8 "GET / HTTP/1.1", longLine n] := by
    have h₁ : isSpace 88 = false := by decide
    simp [unfoldLines, longLine, h₁]
  obtain ⟨headers, hheaders⟩ := parseHeaderLine_longLine n ∅
  simp only [parseStartLines, hlines, hunfold, parseRequestLine, hmatch, Option.map_some,
    Option.bind_some, foldlM_cons, foldlM_nil]
  exact ⟨_, rfl, rfl⟩

theorem frameSize_wraps :
    ¬ ∀ d, (parse UrlCodec.identity d).status = .OK →
      0 < (parse UrlCodec.identity d).frameSize ∧ (parse UrlCodec.identity d).frameSize ≤ d.length := by
  intro h
  obtain ⟨request, hrequest, hmethod⟩ := parseStartLines_longRequest (2 ^ 31 - 22)
  have hindex : toInt (indexOf (longRequest (2 ^ 31 - 22)) EOH) = 2 ^ 31 - 4 := by
    rw [indexOf, firstIndex_longRequest]
    decide
  have hend : (2 ^ 31 - 4 : ℤ).toNat = 2 ^ 31 - 22 + 18 := by decide
  have hparse : parse UrlCodec.identity (longRequest (2 ^ 31 - 22)) = ⟨.OK, request, -2 ^ 31⟩ := by
    unfold parse
    rw [hindex, if_neg (by decide), hend, hrequest]
    -- the four bytes of the end make the length `2 ^ 31`
    exact if_pos (Or.inl hmethod)
  have hbounds := h (longRequest (2 ^ 31 - 22)) (by rw [hparse])
  rw [hparse] at hbounds
  exact absurd hbounds.1 (by simp)

end RequestParser

end QBittorrent
