import QBittorrent.Base.Path
import QBittorrent.Base.Text

/-!
# Parameters for the running instance

A second instance hands its command line over to the first one as one text: the options as pieces
that begin with their names, then the sources of torrents, with bars between them.

* `parseParams_serializeParams_iff` : which parameters arrive as they are.
-/

namespace QBittorrent.CommandLine

open List QString QBittorrent.Path PathText

/-- Those members of `AddTorrentParams` that the command line sets. -/
structure AddTorrentParams where
  category : QString
  savePath : Path
  sequential : Bool
  firstLastPiecePriority : Bool
  addStopped : Option Bool
  skipChecking : Bool

structure QBtCommandLineParameters where
  skipDialog : Option Bool
  torrentSources : List QString
  addTorrentParams : AddTorrentParams

def paramsSeparator : Char := '|'

def paramAddStopped : QString := "@addStopped".toList

def paramCategory : QString := "@category".toList

def paramFirstLastPiecePriority : QString := "@firstLastPiecePriority".toList

def paramSavePath : QString := "@savePath".toList

def paramSequential : QString := "@sequential".toList

def paramSkipChecking : QString := "@skipChecking".toList

def paramSkipDialog : QString := "@skipDialog".toList

def bindParamValue (paramName paramValue : QString) : QString := paramName ++ '=' :: paramValue

def parseParam (param : QString) : QString × QString :=
  match param.idxOf? '=' with
  | some sepIndex => (param.take sepIndex, param.drop (sepIndex + 1))
  | none => (param, [])

/-- What becomes of a switch with two positions. -/
def bindSwitch (paramName : QString) : Option Bool → List QString
  | none => []
  | some on => [bindParamValue paramName (if on then ['1'] else ['0'])]

namespace QBtCommandLineParameters

variable (params : QBtCommandLineParameters)

/-- The options that are set, in the order in which they are written. -/
def options : List QString :=
  let addTorrentParams := params.addTorrentParams
  (if addTorrentParams.savePath.isEmpty then []
    else [bindParamValue paramSavePath addTorrentParams.savePath.pathStr]) ++
  bindSwitch paramAddStopped addTorrentParams.addStopped ++
  (if addTorrentParams.skipChecking then [paramSkipChecking] else []) ++
  (if addTorrentParams.category.isEmpty then []
    else [bindParamValue paramCategory addTorrentParams.category]) ++
  (if addTorrentParams.sequential then [paramSequential] else []) ++
  (if addTorrentParams.firstLastPiecePriority then [paramFirstLastPiecePriority] else []) ++
  bindSwitch paramSkipDialog params.skipDialog

/-- `result` before it is joined. -/
def pieces : List QString := params.options ++ params.torrentSources

end QBtCommandLineParameters

def serializeParams (params : QBtCommandLineParameters) : QString :=
  [paramsSeparator].intercalate params.pieces

/-- Parameters that nobody has set. -/
def unset : QBtCommandLineParameters := ⟨none, [], ⟨[], Path.empty, false, false, none, false⟩⟩

variable (Q : QtDir)

/-- Whether a number is read that is not zero. -/
def toSwitch (paramValue : QString) : Bool := (QString.toInt paramValue).getD 0 != 0

/-- One pass of the loop of `parseParams`. -/
def parsePiece (parsedParams : QBtCommandLineParameters) (piece : QString) :
    QBtCommandLineParameters :=
  let param := QString.trimmed piece
  let (paramName, paramValue) := parseParam param
  let addTorrentParams := parsedParams.addTorrentParams
  if paramName = paramSavePath then
    { parsedParams with addTorrentParams :=
        { addTorrentParams with savePath := Path.ofString Q paramValue } }
  else if paramName = paramAddStopped then
    { parsedParams with addTorrentParams :=
        { addTorrentParams with addStopped := some (toSwitch paramValue) } }
  else if paramName = paramSkipChecking then
    { parsedParams with addTorrentParams := { addTorrentParams with skipChecking := true } }
  else if paramName = paramCategory then
    { parsedParams with addTorrentParams := { addTorrentParams with category := paramValue } }
  else if paramName = paramSequential then
    { parsedParams with addTorrentParams := { addTorrentParams with sequential := true } }
  else if paramName = paramFirstLastPiecePriority then
    { parsedParams with addTorrentParams :=
        { addTorrentParams with firstLastPiecePriority := true } }
  else if paramName = paramSkipDialog then
    { parsedParams with skipDialog := some (toSwitch paramValue) }
  else { parsedParams with torrentSources := parsedParams.torrentSources ++ [param] }

def parseParams (str : QString) : QBtCommandLineParameters :=
  ((str.splitOn paramsSeparator).filter fun piece => decide (piece ≠ [])).foldl (parsePiece Q) unset

variable {Q} {params : QBtCommandLineParameters} {piece name value text : QString} {c : Char}

/-! ### One piece -/

/-- The names of the options. -/
def paramNames : List QString :=
  [paramSavePath, paramAddStopped, paramSkipChecking, paramCategory, paramSequential,
    paramFirstLastPiecePriority, paramSkipDialog]

theorem paramNames_plain : ∀ name ∈ paramNames,
    name.head? = some '@' ∧ '=' ∉ name ∧ paramsSeparator ∉ name ∧
      QString.trimmed name = name := by decide

theorem idxOf?_append_cons (h : '=' ∉ name) : (name ++ '=' :: value).idxOf? '=' = some name.length := by
  induction name with
  | nil => rfl
  | cons c name ih =>
    rw [mem_cons, not_or] at h
    obtain ⟨hc, hname⟩ := h
    rw [cons_append, idxOf?_cons, ih hname, if_neg (by simpa using Ne.symm hc)]
    rfl

theorem parseParam_bindParamValue (h : '=' ∉ name) :
    parseParam (bindParamValue name value) = (name, value) := by
  rw [parseParam, bindParamValue, idxOf?_append_cons h]
  simp

theorem parseParam_of_notMem (h : '=' ∉ name) : parseParam name = (name, []) := by
  rw [parseParam, idxOf?_eq_none_iff.2 h]

theorem trimmed_bindParamValue (h : name.head? = some '@') :
    QString.trimmed (bindParamValue name value) =
      bindParamValue name (value.rdropWhile QString.isSpace) := by
  have hfront : (bindParamValue name value).dropWhile isSpace = bindParamValue name value := by
    obtain ⟨rest, rfl⟩ := head?_eq_some_iff.1 h
    rw [bindParamValue, cons_append, dropWhile_cons_of_neg (by decide)]
  have hback : ('=' :: value).rdropWhile isSpace =
      '=' :: value.rdropWhile isSpace := by
    rw [← singleton_append, rdropWhile_append]
    split_ifs with hnil
    · rw [hnil]
      decide
    · rfl
  rw [trimmed, trim, hfront, bindParamValue, rdropWhile_append, hback,
    if_neg (cons_ne_nil _ _), bindParamValue]

theorem parsePiece_of_notMem (h : (parseParam (QString.trimmed piece)).1 ∉ paramNames) :
    parsePiece Q params piece =
      { params with torrentSources := params.torrentSources ++ [QString.trimmed piece] } := by
  simp only [paramNames, mem_cons, not_mem_nil, or_false, not_or] at h
  obtain ⟨h₁, h₂, h₃, h₄, h₅, h₆, h₇⟩ := h
  simp only [parsePiece]
  rw [if_neg h₁, if_neg h₂, if_neg h₃, if_neg h₄, if_neg h₅, if_neg h₆, if_neg h₇]

theorem torrentSources_parsePiece : (parsePiece Q params piece).torrentSources =
    params.torrentSources ++ if (parseParam (QString.trimmed piece)).1 ∈ paramNames then []
      else [QString.trimmed piece] := by
  by_cases h : (parseParam (trimmed piece)).1 ∈ paramNames
  · rw [if_pos h, append_nil, parsePiece]
    simp only
    split_ifs with h₁ h₂ h₃ h₄ h₅ h₆ h₇
    case neg =>
      refine absurd h ?_
      simp only [paramNames, mem_cons, not_mem_nil, or_false, not_or]
      exact ⟨h₁, h₂, h₃, h₄, h₅, h₆, h₇⟩
    all_goals rfl
  · rw [if_neg h, parsePiece_of_notMem h]

theorem torrentSources_foldl_parsePiece (pieces : List QString) :
    (pieces.foldl (parsePiece Q) params).torrentSources = params.torrentSources ++
      (pieces.map QString.trimmed).filter fun piece => decide ((parseParam piece).1 ∉ paramNames) := by
  induction pieces generalizing params with
  | nil => rw [foldl_nil, map_nil, filter_nil, append_nil]
  | cons piece pieces ih =>
    rw [foldl_cons, ih, torrentSources_parsePiece, map_cons, filter_cons,
      append_assoc]
    by_cases h : (parseParam (trimmed piece)).1 ∈ paramNames <;> simp [h]

theorem foldl_parsePiece_of_notMem {pieces : List QString}
    (h : ∀ piece ∈ pieces, (parseParam (QString.trimmed piece)).1 ∉ paramNames) :
    pieces.foldl (parsePiece Q) params =
      { params with torrentSources := params.torrentSources ++ pieces.map QString.trimmed } := by
  induction pieces generalizing params with
  | nil => rw [foldl_nil, map_nil, append_nil]
  | cons piece pieces ih =>
    obtain ⟨hpiece, hpieces⟩ := forall_mem_cons.1 h
    rw [foldl_cons, ih hpieces, parsePiece_of_notMem hpiece, map_cons, append_assoc,
      singleton_append]

/-! ### The options -/

theorem parsePiece_savePath : parsePiece Q params (bindParamValue paramSavePath value) =
    { params with addTorrentParams := { params.addTorrentParams with
        savePath := Path.ofString Q (value.rdropWhile QString.isSpace) } } := by
  rw [parsePiece, trimmed_bindParamValue (by decide), parseParam_bindParamValue (by decide)]
  simp only
  rw [if_pos trivial]

theorem parsePiece_category : parsePiece Q params (bindParamValue paramCategory value) =
    { params with addTorrentParams := { params.addTorrentParams with
        category := value.rdropWhile QString.isSpace } } := by
  rw [parsePiece, trimmed_bindParamValue (by decide), parseParam_bindParamValue (by decide)]
  simp only
  rw [if_neg (by decide), if_neg (by decide), if_neg (by decide), if_pos trivial]

theorem toSwitch_bindSwitch (on : Bool) :
    toSwitch ((if on then ['1'] else ['0'] : QString).rdropWhile QString.isSpace) = on := by
  cases on <;> decide

theorem foldl_addStopped (on : Option Bool) (h : params.addTorrentParams.addStopped = none) :
    (bindSwitch paramAddStopped on).foldl (parsePiece Q) params =
      { params with addTorrentParams := { params.addTorrentParams with addStopped := on } } := by
  cases on with
  | none =>
    rw [bindSwitch, foldl_nil, ← h]
  | some on =>
    rw [bindSwitch, foldl_cons, foldl_nil, parsePiece,
      trimmed_bindParamValue (by decide), parseParam_bindParamValue (by decide)]
    simp only
    rw [if_neg (by decide), if_pos trivial, toSwitch_bindSwitch]

theorem foldl_skipDialog (on : Option Bool) (h : params.skipDialog = none) :
    (bindSwitch paramSkipDialog on).foldl (parsePiece Q) params =
      { params with skipDialog := on } := by
  cases on with
  | none =>
    rw [bindSwitch, foldl_nil, ← h]
  | some on =>
    rw [bindSwitch, foldl_cons, foldl_nil, parsePiece,
      trimmed_bindParamValue (by decide), parseParam_bindParamValue (by decide)]
    simp only
    rw [if_neg (by decide), if_neg (by decide), if_neg (by decide), if_neg (by decide),
      if_neg (by decide), if_neg (by decide), if_pos trivial, toSwitch_bindSwitch]

theorem foldl_skipChecking (on : Bool) (h : params.addTorrentParams.skipChecking = false) :
    (if on then [paramSkipChecking] else []).foldl (parsePiece Q) params =
      { params with addTorrentParams := { params.addTorrentParams with skipChecking := on } } := by
  cases on with
  | false => rw [if_neg Bool.false_ne_true, foldl_nil, ← h]
  | true =>
    rw [if_pos rfl, foldl_cons, foldl_nil, parsePiece,
      (paramNames_plain _ (by decide)).2.2.2, parseParam_of_notMem (by decide)]
    simp only
    rw [if_neg (by decide), if_neg (by decide), if_pos trivial]

theorem foldl_sequential (on : Bool) (h : params.addTorrentParams.sequential = false) :
    (if on then [paramSequential] else []).foldl (parsePiece Q) params =
      { params with addTorrentParams := { params.addTorrentParams with sequential := on } } := by
  cases on with
  | false => rw [if_neg Bool.false_ne_true, foldl_nil, ← h]
  | true =>
    rw [if_pos rfl, foldl_cons, foldl_nil, parsePiece,
      (paramNames_plain _ (by decide)).2.2.2, parseParam_of_notMem (by decide)]
    simp only
    rw [if_neg (by decide), if_neg (by decide), if_neg (by decide), if_neg (by decide),
      if_pos trivial]

theorem foldl_firstLastPiecePriority (on : Bool)
    (h : params.addTorrentParams.firstLastPiecePriority = false) :
    (if on then [paramFirstLastPiecePriority] else []).foldl (parsePiece Q) params =
      { params with addTorrentParams :=
          { params.addTorrentParams with firstLastPiecePriority := on } } := by
  cases on with
  | false => rw [if_neg Bool.false_ne_true, foldl_nil, ← h]
  | true =>
    rw [if_pos rfl, foldl_cons, foldl_nil, parsePiece,
      (paramNames_plain _ (by decide)).2.2.2, parseParam_of_notMem (by decide)]
    simp only
    rw [if_neg (by decide), if_neg (by decide), if_neg (by decide), if_neg (by decide),
      if_neg (by decide), if_pos trivial]

theorem foldl_savePath (path : Path) (h : params.addTorrentParams.savePath = Path.empty) :
    (if path.isEmpty then [] else [bindParamValue paramSavePath path.pathStr]).foldl
      (parsePiece Q) params = { params with addTorrentParams := { params.addTorrentParams with
        savePath := Path.ofString Q (path.pathStr.rdropWhile QString.isSpace) } } := by
  split_ifs with hpath
  · have hempty : ofString Q [] = empty := rfl
    rw [isEmpty_iff.1 hpath, foldl_nil, rdropWhile_nil, hempty, ← h]
  · rw [foldl_cons, foldl_nil, parsePiece_savePath]

theorem foldl_category (category : QString) (h : params.addTorrentParams.category = []) :
    (if category.isEmpty then [] else [bindParamValue paramCategory category]).foldl
      (parsePiece Q) params = { params with addTorrentParams := { params.addTorrentParams with
        category := category.rdropWhile QString.isSpace } } := by
  split_ifs with hcategory
  · rw [isEmpty_iff.1 hcategory, foldl_nil, rdropWhile_nil, ← h]
  · rw [foldl_cons, foldl_nil, parsePiece_category]

/-- What the options are read as. -/
def QBtCommandLineParameters.received (Q : QtDir) (params : QBtCommandLineParameters) :
    QBtCommandLineParameters :=
  { params with
    torrentSources := []
    addTorrentParams := { params.addTorrentParams with
      category := params.addTorrentParams.category.rdropWhile QString.isSpace
      savePath := Path.ofString Q
        (params.addTorrentParams.savePath.pathStr.rdropWhile QString.isSpace) } }

theorem foldl_options : params.options.foldl (parsePiece Q) unset = params.received Q := by
  rw [QBtCommandLineParameters.options]
  simp only [foldl_append]
  rw [foldl_savePath _ rfl, foldl_addStopped _ rfl, foldl_skipChecking _ rfl, foldl_category _ rfl,
    foldl_sequential _ rfl, foldl_firstLastPiecePriority _ rfl, foldl_skipDialog _ rfl]
  rfl

/-! ### Bars -/

/-- Parameters without a bar. -/
structure Barless (params : QBtCommandLineParameters) : Prop where
  savePath : paramsSeparator ∉ params.addTorrentParams.savePath.pathStr
  category : paramsSeparator ∉ params.addTorrentParams.category
  torrentSources : ∀ source ∈ params.torrentSources, paramsSeparator ∉ source

theorem notMem_trimmed (h : c ∉ text) : c ∉ QString.trimmed text := by
  obtain ⟨before, after, hsplit, -, -⟩ := exists_eq_append_trim isSpace text
  rw [hsplit] at h
  exact fun hc => h (mem_append_right _ (mem_append_left _ hc))

theorem notMem_parseParam {param : QString} (h : c ∉ param) : c ∉ (parseParam param).2 := by
  rw [parseParam]
  split
  · exact fun hc => h (mem_of_mem_drop hc)
  · exact not_mem_nil

theorem notMem_ofString (h : paramsSeparator ∉ text) :
    paramsSeparator ∉ (Path.ofString Q text).pathStr := by
  rw [ofString_eq]
  intro hmem
  obtain hc | hc | hc := mem_clean hmem
  · exact h hc
  · exact absurd hc (by decide)
  · exact absurd hc (by decide)

theorem barless_parsePiece (h : Barless params) (hpiece : paramsSeparator ∉ piece) :
    Barless (parsePiece Q params piece) := by
  have hparam := notMem_trimmed hpiece
  have hvalue := notMem_parseParam hparam
  rw [parsePiece]
  simp only
  split_ifs
  · exact ⟨notMem_ofString hvalue, h.category, h.torrentSources⟩
  · exact { h with }
  · exact { h with }
  · exact ⟨h.savePath, hvalue, h.torrentSources⟩
  · exact { h with }
  · exact { h with }
  · exact { h with }
  · refine ⟨h.savePath, h.category, fun source hsource => ?_⟩
    obtain hold | hnew := mem_append.1 hsource
    · exact h.torrentSources source hold
    · rw [mem_singleton.1 hnew]
      exact hparam

theorem barless_parseParams (str : QString) : Barless (parseParams Q str) := by
  have hpieces : ∀ piece ∈ (str.splitOn paramsSeparator).filter fun piece => decide (piece ≠ []),
      paramsSeparator ∉ piece :=
    fun piece hpiece => notMem_of_mem_splitOn (mem_of_mem_filter hpiece)
  have hunset : Barless unset := ⟨not_mem_nil, not_mem_nil, by simp [unset]⟩
  rw [parseParams]
  generalize (str.splitOn paramsSeparator).filter _ = pieces at hpieces
  generalize unset = params at hunset
  induction pieces generalizing params with
  | nil => exact hunset
  | cons piece pieces ih =>
    obtain ⟨hpiece, hpieces⟩ := forall_mem_cons.1 hpieces
    exact ih hpieces _ (barless_parsePiece hunset hpiece)

theorem notMem_bindParamValue (hname : name ∈ paramNames) (hvalue : paramsSeparator ∉ value) :
    paramsSeparator ∉ bindParamValue name value := by
  rw [bindParamValue, mem_append, mem_cons, not_or, not_or]
  exact ⟨(paramNames_plain name hname).2.2.1, by decide, hvalue⟩

theorem Barless.options (h : Barless params) :
    ∀ piece ∈ params.options, piece ≠ [] ∧ paramsSeparator ∉ piece := by
  have hbound : ∀ {name value : QString}, bindParamValue name value ≠ [] := by
    intro name value
    simp [bindParamValue]
  have hswitch : ∀ {name : QString} {on : Option Bool}, name ∈ paramNames →
      ∀ piece ∈ bindSwitch name on, piece ≠ [] ∧ paramsSeparator ∉ piece := by
    intro name on hname piece hpiece
    cases on with
    | none => cases hpiece
    | some on =>
      rw [mem_singleton.1 hpiece]
      exact ⟨hbound, notMem_bindParamValue hname (by cases on <;> decide)⟩
  intro piece hpiece
  rw [QBtCommandLineParameters.options] at hpiece
  simp only [mem_append, mem_ite_nil_left, mem_ite_nil_right,
    mem_singleton] at hpiece
  obtain (((((⟨-, rfl⟩ | hmem) | ⟨-, rfl⟩) | ⟨-, rfl⟩) | ⟨-, rfl⟩) | ⟨-, rfl⟩) | hmem := hpiece
  · exact ⟨hbound, notMem_bindParamValue (by decide) h.savePath⟩
  · exact hswitch (by decide) piece hmem
  · decide
  · exact ⟨hbound, notMem_bindParamValue (by decide) h.category⟩
  · decide
  · decide
  · exact hswitch (by decide) piece hmem

/-! ### The way there and back -/

/-- Parameters that arrive as they are. -/
structure Passable (params : QBtCommandLineParameters) : Prop where
  barless : Barless params
  savePath : ∀ c ∈ params.addTorrentParams.savePath.pathStr.getLast?, QString.isSpace c = false
  category : ∀ c ∈ params.addTorrentParams.category.getLast?, QString.isSpace c = false
  torrentSources : ∀ source ∈ params.torrentSources,
    source ≠ [] ∧ QString.trimmed source = source ∧ (parseParam source).1 ∉ paramNames

theorem rdropWhile_eq_self_iff : text.rdropWhile QString.isSpace = text ↔
    ∀ c ∈ text.getLast?, QString.isSpace c = false := by
  rw [List.rdropWhile_eq_self_iff]
  constructor
  · intro h c hc
    obtain ⟨hne, rfl⟩ := mem_getLast?_eq_getLast hc
    exact Bool.eq_false_iff.2 (h hne)
  · intro h hne
    exact Bool.eq_false_iff.1 (h _ (getLast?_eq_getLast_of_ne_nil hne))

theorem parseParams_of_barless (h : Barless params) : parseParams Q (serializeParams params) =
    (params.torrentSources.filter fun source => decide (source ≠ [])).foldl (parsePiece Q)
      (params.received Q) := by
  have hpieces : ∀ piece ∈ params.pieces, paramsSeparator ∉ piece := by
    intro piece hpiece
    obtain hoption | hsource := mem_append.1 hpiece
    · exact (h.options piece hoption).2
    · exact h.torrentSources piece hsource
  have hsplit : (((serializeParams params).splitOn paramsSeparator).filter
      fun piece => decide (piece ≠ [])) = params.pieces.filter fun piece => decide (piece ≠ []) := by
    by_cases hnil : params.pieces = []
    · rw [serializeParams, hnil]
      rfl
    · rw [serializeParams, splitOn_intercalate _ hpieces hnil]
  have hoptions : params.options.filter (fun piece => decide (piece ≠ [])) = params.options :=
    filter_eq_self.2 fun piece hpiece => decide_eq_true (h.options piece hpiece).1
  rw [parseParams, hsplit, QBtCommandLineParameters.pieces, filter_append, hoptions,
    foldl_append, foldl_options]

theorem filter_map_eq_self_iff {α : Type*} {f : α → α} {p q : α → Bool} {l : List α} :
    ((l.filter p).map f).filter q = l ↔ ∀ a ∈ l, p a = true ∧ f a = a ∧ q a = true := by
  constructor
  · intro h
    have hlength := congrArg length h
    have hq := length_filter_le q ((l.filter p).map f)
    have hp := length_filter_le p l
    rw [length_map] at hq
    have hkept : l.filter p = l :=
      filter_eq_self.2 (length_filter_eq_length_iff.1 (by omega))
    rw [hkept] at h
    have hall := length_filter_eq_length_iff.1
      (show ((l.map f).filter q).length = (l.map f).length by rw [h, length_map])
    rw [filter_eq_self.2 hall] at h
    have hf : ∀ a ∈ l, f a = id a := map_inj_left.1 (by rw [h, map_id])
    intro a ha
    refine ⟨filter_eq_self.1 hkept a ha, hf a ha, hall a ?_⟩
    rw [h]
    exact ha
  · intro h
    have hf : l.map f = l := by
      conv_rhs => rw [← map_id l]
      exact map_inj_left.2 fun a ha => (h a ha).2.1
    rw [filter_eq_self.2 fun a ha => (h a ha).1, hf,
      filter_eq_self.2 fun a ha => (h a ha).2.2]

theorem ofString_pathStr (pathStr : QString) :
    Path.ofString Q (Path.ofString Q pathStr).pathStr = Path.ofString Q pathStr := by
  by_cases hnil : pathStr = []
  · rw [hnil]
    rfl
  · rw [ofString_eq, ofString_eq]
    exact congrArg mk (clean_of_isPath dot_ne_slash (isPath_clean hnil))

theorem ofString_rdropWhile_iff {path : Path} (hpath : ∃ pathStr, path = Path.ofString Q pathStr) :
    Path.ofString Q (path.pathStr.rdropWhile QString.isSpace) = path ↔
      ∀ c ∈ path.pathStr.getLast?, QString.isSpace c = false := by
  rw [← rdropWhile_eq_self_iff]
  constructor
  · intro h
    have hlength : path.pathStr.length ≤ (path.pathStr.rdropWhile isSpace).length := by
      conv_lhs => rw [← h, ofString_eq]
      exact length_clean_le _
    exact (List.rdropWhile_prefix ..).eq_of_length_le hlength
  · intro h
    obtain ⟨pathStr, rfl⟩ := hpath
    rw [h, ofString_pathStr]

/-- **Parameters arrive as they are** exactly if they are without bars, no value ends in white space,
and every source is neither empty nor read as an option, and has no white space at its ends. -/
theorem parseParams_serializeParams_iff
    (hpath : ∃ pathStr, params.addTorrentParams.savePath = Path.ofString Q pathStr) :
    parseParams Q (serializeParams params) = params ↔ Passable params := by
  constructor
  · intro h
    have hbarless : Barless params := h ▸ barless_parseParams _
    rw [parseParams_of_barless hbarless] at h
    have hsources := congrArg QBtCommandLineParameters.torrentSources h
    rw [torrentSources_foldl_parsePiece, QBtCommandLineParameters.received, nil_append,
      filter_map_eq_self_iff] at hsources
    simp only [decide_eq_true_eq] at hsources
    have hplain : ∀ source ∈ params.torrentSources.filter (fun source => decide (source ≠ [])),
        (parseParam (trimmed source)).1 ∉ paramNames := by
      intro source hsource
      obtain ⟨-, htrimmed, hname⟩ := hsources source (mem_of_mem_filter hsource)
      rwa [htrimmed]
    rw [foldl_parsePiece_of_notMem hplain] at h
    have hadd := congrArg QBtCommandLineParameters.addTorrentParams h
    exact ⟨hbarless, (ofString_rdropWhile_iff hpath).1 (congrArg AddTorrentParams.savePath hadd),
      rdropWhile_eq_self_iff.1 (congrArg AddTorrentParams.category hadd), hsources⟩
  · intro h
    have hfilter : params.torrentSources.filter (fun source => decide (source ≠ [])) =
        params.torrentSources :=
      filter_eq_self.2 fun source hsource =>
        decide_eq_true (h.torrentSources source hsource).1
    have hmap : params.torrentSources.map trimmed = params.torrentSources := by
      conv_rhs => rw [← map_id params.torrentSources]
      exact map_inj_left.2 fun source hsource => (h.torrentSources source hsource).2.1
    rw [parseParams_of_barless h.barless, hfilter, foldl_parsePiece_of_notMem, hmap,
      QBtCommandLineParameters.received, (ofString_rdropWhile_iff hpath).2 h.savePath,
      rdropWhile_eq_self_iff.2 h.category]
    · rfl
    · intro source hsource
      obtain ⟨-, htrimmed, hname⟩ := h.torrentSources source hsource
      rwa [htrimmed]

/-- A save path, a category and a source. -/
def stoppedInFolder : QBtCommandLineParameters :=
  ⟨some true, ["/home/a.torrent".toList],
    ⟨"linux".toList, ⟨"/data".toList⟩, true, false, some false, true⟩⟩

theorem parseParams_stoppedInFolder :
    parseParams Path.userDir (serializeParams stoppedInFolder) = stoppedInFolder :=
  (parseParams_serializeParams_iff ⟨"/data".toList, by decide⟩).2
    ⟨⟨by decide, by decide, by decide⟩, rdropWhile_eq_self_iff.1 (by decide),
      rdropWhile_eq_self_iff.1 (by decide), by decide⟩

/-- A torrent file whose name has a bar is two sources when it arrives. -/
theorem bar_splits_source : ¬ ∀ (Q : QtDir) (params : QBtCommandLineParameters),
    (∃ pathStr, params.addTorrentParams.savePath = Path.ofString Q pathStr) →
      parseParams Q (serializeParams params) = params := by
  intro h
  have hbar := congrArg QBtCommandLineParameters.torrentSources
    (h userDir { unset with torrentSources := ["/tmp/a|b.torrent".toList] } ⟨[], rfl⟩)
  revert hbar
  decide

end QBittorrent.CommandLine
