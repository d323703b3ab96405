import QBittorrent.Base.Text

/-!
# Output of the search process

The search process writes a result a line.  Its output is read piece by piece, and a line that is not
complete yet is kept, trimmed, for the next piece.

* `finished_results` : what is parsed;
* `results_eq_iff` : when these are the lines of the output.
-/

namespace QBittorrent

open QString List

/-- What a search plugin is looked up by. -/
structure SearchPlugin where
  name : List Char
  url : List Char

structure SearchResult where
  fileUrl : List Char
  fileName : List Char
  fileSize : ℤ
  nbSeeders : ℤ
  nbLeechers : ℤ
  engineName : List Char
  siteUrl : List Char
  descrLink : List Char
  pubDate : Option ℤ

namespace SearchHandler

variable (plugins : List SearchPlugin) {b : UInt8}

def pluginNameBySiteURL (siteURL : List Char) : List Char :=
  match plugins.find? fun plugin => plugin.url = siteURL with
  | some plugin => plugin.name
  | none => []

/-- A number of peers, or `-1`. -/
def peers (field : List Char) : ℤ :=
  match toLongLong field with
  | some n => if n < 0 then -1 else n
  | none => -1

/-- The fields of a line: link, name, size, seeds, leeches and engine URL, then a link to a
description and a date. -/
def parseSearchResult (line : List Char) : Option SearchResult :=
  let parts := line.splitOn '|'
  let nbFields := parts.length
  let field (n : ℕ) : List Char := trimmed (parts.getD n [])
  if nbFields ≤ 5 then none
  else
    some {
      fileUrl := field 0
      fileName := field 1
      fileSize := (toLongLong (field 2)).getD 0
      nbSeeders := peers (field 3)
      nbLeechers := peers (field 4)
      siteUrl := field 5
      engineName := pluginNameBySiteURL plugins (field 5)
      descrLink := if nbFields > 6 then field 6 else []
      pubDate := if nbFields > 7 then (toLongLong (field 7)).filter fun secs => 0 < secs else none }

/-- The result of a line of bytes. -/
def parseLine (line : List UInt8) : Option SearchResult :=
  parseSearchResult plugins (decodeUtf8 line).toList

/-- What the handler keeps: the results and the line that is not complete. -/
structure State where
  results : List SearchResult := []
  searchResultLineTruncated : List UInt8 := []

/-- The signal at the end of the process. -/
inductive Outcome where
  | finished (cancelled : Bool)
  | failed

def readSearchOutput (s : State) (chunk : List UInt8) : State :=
  let output := chunk.filter fun b => b ≠ 13
  let split := output.splitOn 10
  let lines :=
    if s.searchResultLineTruncated ≠ [] then
      (s.searchResultLineTruncated ++ split.headD []) :: split.tail
    else split
  { results := s.results ++ lines.dropLast.filterMap (parseLine plugins)
    searchResultLineTruncated := QByteArray.trimmed (lines.getLastD []) }

/-- The results stay as they are. -/
def processFinished (s : State) (searchCancelled normalExit : Bool) (exitcode : ℤ) :
    Outcome × State :=
  if searchCancelled then (.finished true, s)
  else if normalExit ∧ exitcode = 0 then (.finished false, s)
  else (.failed, s)

def finalResults (chunks : List (List UInt8)) (searchCancelled normalExit : Bool) (exitcode : ℤ) :
    List SearchResult :=
  (processFinished (chunks.foldl (readSearchOutput plugins) {}) searchCancelled normalExit
    exitcode).2.results

/-! ### What is meant -/

/-- The lines of an output, with the last one whether it ends in a line feed or not. -/
def outputLines (output : List UInt8) : List (List UInt8) :=
  (output.filter fun b => b ≠ 13).splitOn 10

def expected (output : List UInt8) : List SearchResult :=
  (outputLines output).filterMap (parseLine plugins)

/-! ### Lines in pieces -/

/-- The lines that some pieces of output make up, each as the list of its own pieces. -/
structure Lines where
  closed : List (List (List UInt8))
  last : List (List UInt8)

/-- The pieces of the lines that the next piece of output ends, and of those that it begins. -/
def Lines.step (ls : Lines) (chunk : List UInt8) : List (List (List UInt8)) :=
  let split := (chunk.filter fun b => b ≠ 13).splitOn 10
  (ls.last ++ [split.headD []]) :: split.tail.map fun p => [p]

def Lines.add (ls : Lines) (chunk : List UInt8) : Lines where
  closed := ls.closed ++ (ls.step chunk).dropLast
  last := (ls.step chunk).getLastD []

def linesOf (chunks : List (List UInt8)) : Lines := chunks.foldl Lines.add ⟨[], []⟩

/-- A line without the blanks that stand directly before a cut of it, and without those at its start
that stand before a cut. -/
def withoutBlanks (pieces : List (List UInt8)) : List UInt8 :=
  (pieces.dropLast.flatMap fun p => p.rdropWhile QByteArray.isSpace).dropWhile QByteArray.isSpace ++
    pieces.getLastD []

/-- The blanks before the cuts of a line make no difference to its result. -/
def CutsHarmless (pieces : List (List UInt8)) : Prop :=
  parseLine plugins (withoutBlanks pieces) = parseLine plugins pieces.flatten

/-- No line has a result that depends on blanks before its cuts, and what follows the last line feed
has too few fields to be a result. -/
def Harmless (chunks : List (List UInt8)) : Prop :=
  (∀ pieces ∈ (linesOf chunks).closed, CutsHarmless plugins pieces) ∧
    (linesOf chunks).last.flatten.count 124 < 5

/-! ### Gluing pieces -/

/-- The pieces of a line that is not complete, as the handler keeps them. -/
def kept (pieces : List (List UInt8)) : List UInt8 :=
  pieces.foldl (fun line p => QByteArray.trimmed (line ++ p)) []

/-- A complete line from its pieces. -/
def glue (pieces : List (List UInt8)) : List UInt8 := kept pieces.dropLast ++ pieces.getLastD []

theorem glue_concat (pieces : List (List UInt8)) (p : List UInt8) :
    glue (pieces ++ [p]) = kept pieces ++ p := by
  simp [glue]

theorem kept_concat (pieces : List (List UInt8)) (p : List UInt8) :
    kept (pieces ++ [p]) = QByteArray.trimmed (glue (pieces ++ [p])) := by
  rw [glue_concat, kept, foldl_append]
  rfl

theorem count_kept (hb : QByteArray.isSpace b = false) (pieces : List (List UInt8)) :
    (kept pieces).count b = pieces.flatten.count b := by
  induction pieces using reverseRecOn with
  | nil => rfl
  | append_singleton pieces p ih =>
    rw [kept_concat, glue_concat, QByteArray.count_trimmed hb, count_append, ih,
      flatten_append, count_append, flatten_singleton]

theorem count_glue (hb : QByteArray.isSpace b = false) (pieces : List (List UInt8)) :
    (glue pieces).count b = pieces.flatten.count b := by
  induction pieces using reverseRecOn with
  | nil => rfl
  | append_singleton pieces p _ =>
    rw [glue_concat, count_append, count_kept hb, flatten_append, count_append,
      flatten_singleton]

theorem kept_eq (pieces : List (List UInt8)) :
    kept pieces =
      (pieces.flatMap fun p => p.rdropWhile QByteArray.isSpace).dropWhile QByteArray.isSpace := by
  have hstripped : ∀ pieces : List (List UInt8),
      (pieces.flatMap fun p => p.rdropWhile QByteArray.isSpace).rdropWhile QByteArray.isSpace =
        pieces.flatMap fun p => p.rdropWhile QByteArray.isSpace := by
    intro pieces
    induction pieces with
    | nil => rfl
    | cons p pieces ih =>
      rw [flatMap_cons, rdropWhile_append, ih]
      split_ifs with hnil
      · rw [hnil, append_nil, rdropWhile_idempotent]
      · rfl
  induction pieces using reverseRecOn with
  | nil => rfl
  | append_singleton pieces p ih =>
    rw [kept_concat, glue_concat, ih, QByteArray.trimmed, trim_dropWhile_append (hstripped pieces),
      flatMap_append, flatMap_singleton]

theorem glue_eq (pieces : List (List UInt8)) : glue pieces = withoutBlanks pieces := by
  rw [glue, kept_eq, withoutBlanks]

/-! ### The state after some pieces of output -/

/-- The state is that of these lines. -/
structure State.Reads (s : State) (ls : Lines) : Prop where
  results : s.results = ls.closed.filterMap fun pieces => parseLine plugins (glue pieces)
  truncated : s.searchResultLineTruncated = kept ls.last

variable {plugins} {ls : Lines} {s : State}

theorem exists_split (output : List UInt8) : ∃ p back, output.splitOn 10 = p :: back :=
  exists_cons_of_ne_nil (splitOn_ne_nil 10 output)

theorem State.Reads.step (h : s.Reads plugins ls) (chunk : List UInt8) :
    (readSearchOutput plugins s chunk).Reads plugins (ls.add chunk) := by
  obtain ⟨p, back, hsplit⟩ := exists_split (chunk.filter fun b => b ≠ 13)
  have hstep : ls.step chunk = (ls.last ++ [p]) :: back.map fun p => [p] := by
    simp only [Lines.step, hsplit, headD_cons, tail_cons]
  -- an empty line that is kept makes no difference in front
  have hlines : (if s.searchResultLineTruncated ≠ [] then
      (s.searchResultLineTruncated ++ (p :: back).headD []) :: (p :: back).tail else p :: back) =
      (ls.step chunk).map glue := by
    have hback : (back.map fun p => [p]).map glue = back := by
      rw [map_map]
      conv_rhs => rw [← map_id back]
      exact map_congr_left fun q _ => by simp [glue, kept]
    rw [hstep, map_cons, glue_concat, hback, ← h.truncated]
    by_cases hnil : s.searchResultLineTruncated = []
    · rw [if_neg (not_not.2 hnil), hnil, nil_append]
    · rw [if_pos hnil]
      rfl
  have hne : ls.step chunk ≠ [] := by
    exact cons_ne_nil _ _
  constructor
  · simp only [readSearchOutput, hsplit, hlines, Lines.add, filterMap_append, h.results,
      ← map_dropLast, filterMap_map]
    rfl
  · simp only [readSearchOutput, hsplit, hlines, Lines.add]
    obtain ⟨front, pieces, hlast⟩ : ∃ front pieces, ls.step chunk = front ++ [pieces] :=
      ⟨_, _, (dropLast_concat_getLast hne).symm⟩
    have hpieces : ∃ front q, pieces = front ++ [q] := by
      have hmem : pieces ∈ ls.step chunk := by simp [hlast]
      rw [hstep, mem_cons, mem_map] at hmem
      rcases hmem with rfl | ⟨q, -, rfl⟩
      · exact ⟨_, _, rfl⟩
      · exact ⟨[], q, rfl⟩
    obtain ⟨front', q, rfl⟩ := hpieces
    rw [hlast]
    simp only [map_append, map_cons, map_nil, getLastD_concat]
    exact (kept_concat _ _).symm

theorem reads_foldl (h : s.Reads plugins ls) (chunks : List (List UInt8)) :
    (chunks.foldl (readSearchOutput plugins) s).Reads plugins (chunks.foldl Lines.add ls) := by
  induction chunks generalizing s ls with
  | nil => exact h
  | cons chunk chunks ih => exact ih (h.step chunk)

theorem finished_results (chunks : List (List UInt8)) (searchCancelled normalExit : Bool)
    (exitcode : ℤ) :
    finalResults plugins chunks searchCancelled normalExit exitcode =
      (linesOf chunks).closed.filterMap fun pieces => parseLine plugins (glue pieces) := by
  have hreads : (chunks.foldl (readSearchOutput plugins) {}).Reads plugins (linesOf chunks) :=
    reads_foldl ⟨rfl, rfl⟩ chunks
  simp only [finalResults, processFinished]
  split_ifs <;> exact hreads.results

/-! ### The lines of the whole output -/

/-- All lines, put together. -/
def Lines.texts (ls : Lines) : List (List UInt8) := (ls.closed ++ [ls.last]).map List.flatten

theorem Lines.texts_add {output : List UInt8} (h : ls.texts = output.splitOn 10)
    (chunk : List UInt8) :
    (ls.add chunk).texts = (output ++ chunk.filter fun b => b ≠ 13).splitOn 10 := by
  obtain ⟨p, back, hsplit⟩ := exists_split (chunk.filter fun b => b ≠ 13)
  have hstep : ls.step chunk = (ls.last ++ [p]) :: back.map fun p => [p] := by
    simp only [Lines.step, hsplit, headD_cons, tail_cons]
  have hadd : (ls.add chunk).closed ++ [(ls.add chunk).last] = ls.closed ++ ls.step chunk := by
    have hne : ls.step chunk ≠ [] := by
      exact cons_ne_nil _ _
    obtain ⟨front, pieces, hlast⟩ : ∃ front pieces, ls.step chunk = front ++ [pieces] :=
      ⟨_, _, (dropLast_concat_getLast hne).symm⟩
    simp [Lines.add, hlast]
  have hback : (back.map fun p => [p]).map flatten = back := by
    rw [map_map]
    conv_rhs => rw [← map_id back]
    exact map_congr_left fun q _ => by simp
  rw [Lines.texts, map_append, map_singleton] at h
  rw [Lines.texts, hadd, splitOn_append h.symm hsplit, hstep, map_append, map_cons, hback,
    flatten_append, flatten_singleton]

theorem texts_linesOf (chunks : List (List UInt8)) :
    (linesOf chunks).texts = outputLines chunks.flatten := by
  have hfold : ∀ (ls : Lines) (output : List UInt8), ls.texts = output.splitOn 10 →
      (chunks.foldl Lines.add ls).texts =
        (output ++ chunks.flatten.filter fun b => b ≠ 13).splitOn 10 := by
    induction chunks with
    | nil =>
      intro ls output h
      simpa using h
    | cons chunk chunks ih =>
      intro ls output h
      rw [foldl_cons, ih _ _ (Lines.texts_add h chunk), flatten_cons,
        filter_append, append_assoc]
  exact hfold ⟨[], []⟩ [] rfl

/-! ### The results -/

theorem parseLine_isSome_iff (line : List UInt8) :
    (parseLine plugins line).isSome ↔ 5 ≤ line.count 124 := by
  have hfields : ((decodeUtf8 line).toList.splitOn '|').length = line.count 124 + 1 := by
    rw [length_splitOn, ← count_decodeUtf8 (x := 124) rfl line]
    rfl
  simp only [parseLine, parseSearchResult, hfields]
  by_cases hcount : 5 ≤ line.count 124
  · rw [if_neg (by omega)]
    simp [hcount]
  · rw [if_pos (by omega)]
    simp [hcount]

theorem parseLine_glue_isSome (pieces : List (List UInt8)) :
    (parseLine plugins (glue pieces)).isSome = (parseLine plugins pieces.flatten).isSome := by
  rw [Bool.eq_iff_iff, parseLine_isSome_iff, parseLine_isSome_iff, count_glue (by decide)]

theorem filterMap_eq_iff {α β : Type*} {f g : α → Option β} {l : List α}
    (h : ∀ a ∈ l, (f a).isSome = (g a).isSome) (r : List β) :
    l.filterMap f = l.filterMap g ++ r ↔ (∀ a ∈ l, f a = g a) ∧ r = [] := by
  induction l with
  | nil => simp [eq_comm]
  | cons a l ih =>
    rw [forall_mem_cons] at h ⊢
    rw [filterMap_cons, filterMap_cons]
    cases hf : f a with
    | none =>
      have hg : g a = none := by simpa [hf] using h.1
      simp [hg, ih h.2]
    | some b =>
      obtain ⟨b', hg⟩ : ∃ b', g a = some b' := by
        rw [← Option.isSome_iff_exists, ← h.1, hf]
        rfl
      simp [hg, ih h.2, and_assoc]

/-- **Pieces of output.**  When the process has finished, the results are those of all lines of its
output, exactly when no cut takes something from a result and nothing is left behind the last line
feed. -/
theorem results_eq_iff (chunks : List (List UInt8)) (searchCancelled normalExit : Bool)
    (exitcode : ℤ) :
    finalResults plugins chunks searchCancelled normalExit exitcode =
        expected plugins chunks.flatten ↔ Harmless plugins chunks := by
  rw [finished_results, expected, ← texts_linesOf, Lines.texts, map_append,
    filterMap_append, filterMap_map]
  rw [filterMap_eq_iff (g := parseLine plugins ∘ flatten)
    fun pieces _ => parseLine_glue_isSome pieces]
  have hclosed : (∀ pieces ∈ (linesOf chunks).closed, CutsHarmless plugins pieces) ↔
      ∀ pieces ∈ (linesOf chunks).closed,
        parseLine plugins (glue pieces) = (parseLine plugins ∘ flatten) pieces := by
    simp only [CutsHarmless, glue_eq, Function.comp_apply]
  rw [Harmless, hclosed]
  refine and_congr Iff.rfl ?_
  have hlast : (parseLine plugins (linesOf chunks).last.flatten).isSome ↔
      5 ≤ (linesOf chunks).last.flatten.count 124 := parseLine_isSome_iff _
  cases hparse : parseLine plugins (linesOf chunks).last.flatten with
  | none =>
    simpa [hparse] using hlast
  | some result =>
    simpa [hparse] using hlast

/-- Five separators without a line feed: the result of the line is lost. -/
theorem last_line_lost :
    finalResults [] [[124, 124, 124, 124, 124]] false true 0 ≠
      expected [] [124, 124, 124, 124, 124] := by
  intro h
  have hlength := congrArg length h
  have hsome : (parseLine [] [124, 124, 124, 124, 124]).isSome := by
    rw [parseLine_isSome_iff]
    decide
  obtain ⟨result, hresult⟩ := Option.isSome_iff_exists.1 hsome
  rw [finished_results] at hlength
  have hlines : outputLines [124, 124, 124, 124, 124] = [[124, 124, 124, 124, 124]] := by decide
  have hclosed : (linesOf [[124, 124, 124, 124, 124]]).closed = [] := by decide
  rw [expected, hlines, filterMap_cons, hresult, hclosed] at hlength
  simp at hlength

end SearchHandler

end QBittorrent
