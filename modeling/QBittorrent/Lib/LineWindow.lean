import Mathlib.Data.List.Basic

/-!
# Reading lines through a window

A file is read in pieces into a buffer of `N` elements.  The lines in the buffer are handled in
place: the newline is overwritten by a terminator, and the work on a line may write between its
ends.  What is left without a newline is moved to the front before the next piece is read; a piece
of length zero means that what is left is the last line.

* `Buffer.find_spec`, `Buffer.findRev_spec` : searching for a delimiter.
* `processWindow_spec` : one window handles some of the lines, and leaves the others as they were.
* `readWindows_eq` : **reading through the window is the fold of the work over the lines of the
  file**, wherever the ends of the windows fall, if every line is shorter than the buffer.
-/

namespace LineWindow

open List

variable {α σ : Type*}

/-- The memory of the window. -/
abbrev Buffer (α : Type*) := ℕ → α

namespace Buffer

/-- What is in the buffer from `i` up to `j`. -/
def segment (b : Buffer α) (i j : ℕ) : List α :=
  (List.range' i (j - i)).map b

@[simp] theorem length_segment (b : Buffer α) (i j : ℕ) : (b.segment i j).length = j - i := by
  simp [segment]

@[simp] theorem segment_self (b : Buffer α) (i : ℕ) : b.segment i i = [] := by
  simp [segment]

variable {i j k e : ℕ} {b : Buffer α}

theorem segment_eq_nil (b : Buffer α) (h : j ≤ i) : b.segment i j = [] := by
  simp [segment, Nat.sub_eq_zero_of_le h]

theorem segment_cons (b : Buffer α) (h : i < j) : b.segment i j = b i :: b.segment (i + 1) j := by
  obtain ⟨n, rfl⟩ : ∃ n, j = i + (n + 1) := ⟨j - i - 1, by omega⟩
  have h₁ : i + (n + 1) - i = n + 1 := by omega
  have h₂ : i + (n + 1) - (i + 1) = n := by omega
  simp [segment, h₁, h₂, range'_succ]

theorem segment_append (b : Buffer α) (hij : i ≤ j) (hjk : j ≤ k) :
    b.segment i j ++ b.segment j k = b.segment i k := by
  obtain ⟨m, rfl⟩ : ∃ m, j = i + m := ⟨j - i, by omega⟩
  obtain ⟨n, rfl⟩ : ∃ n, k = i + m + n := ⟨k - (i + m), by omega⟩
  have h : i + m + n - i = m + n := by omega
  simp only [segment, Nat.add_sub_cancel_left, h, ← map_append, range'_append_1]

theorem segment_split (b : Buffer α) (hie : i ≤ e) (hej : e < j) :
    b.segment i j = b.segment i e ++ b e :: b.segment (e + 1) j := by
  rw [← segment_cons b hej, segment_append b hie (Nat.le_of_lt hej)]

theorem segment_congr {b' : Buffer α} (h : ∀ m, i ≤ m → m < j → b m = b' m) :
    b.segment i j = b'.segment i j := by
  refine map_congr_left fun m hm => ?_
  obtain ⟨h₁, h₂⟩ := mem_range'_1.1 hm
  exact h m h₁ (by omega)

theorem mem_segment {a : α} : a ∈ b.segment i j ↔ ∃ m, i ≤ m ∧ m < j ∧ b m = a := by
  simp only [segment, mem_map, mem_range'_1]
  constructor
  · rintro ⟨m, ⟨h₁, h₂⟩, h₃⟩
    exact ⟨m, h₁, by omega, h₃⟩
  · rintro ⟨m, h₁, h₂, h₃⟩
    exact ⟨m, ⟨h₁, by omega⟩, h₃⟩

/-- One element is overwritten. -/
def write (b : Buffer α) (i : ℕ) (a : α) : Buffer α :=
  fun m => if m = i then a else b m

@[simp] theorem write_self (b : Buffer α) (i : ℕ) (a : α) : b.write i a i = a := if_pos rfl

theorem write_of_ne (b : Buffer α) {m : ℕ} (a : α) (h : m ≠ i) : b.write i a m = b m :=
  if_neg h

theorem segment_write_of_le (b : Buffer α) (a : α) (h : j ≤ k) :
    (b.write k a).segment i j = b.segment i j :=
  segment_congr fun _ _ hm => write_of_ne b a (by omega)

theorem segment_write_of_lt (b : Buffer α) (a : α) (h : k < i) :
    (b.write k a).segment i j = b.segment i j :=
  segment_congr fun _ hm _ => write_of_ne b a (by omega)

variable [DecidableEq α] {c : α}

/-- The first `c` from `i` up to `j`. -/
def find (b : Buffer α) (c : α) (i j : ℕ) : Option ℕ :=
  (List.range' i (j - i)).find? (fun m => b m = c)

/-- The last `c` from `i` up to `j`. -/
def findRev (b : Buffer α) (c : α) (i j : ℕ) : Option ℕ :=
  (List.range' i (j - i)).reverse.find? (fun m => b m = c)

theorem find_eq_none (h : b.find c i j = none) : c ∉ b.segment i j := by
  simp only [find, find?_eq_none, mem_range'_1, decide_eq_true_eq] at h
  intro hc
  obtain ⟨m, h₁, h₂, h₃⟩ := mem_segment.1 hc
  exact h m ⟨h₁, by omega⟩ h₃

theorem findRev_eq_none (h : b.findRev c i j = none) : c ∉ b.segment i j := by
  simp only [findRev, find?_eq_none, mem_reverse, mem_range'_1,
    decide_eq_true_eq] at h
  intro hc
  obtain ⟨m, h₁, h₂, h₃⟩ := mem_segment.1 hc
  exact h m ⟨h₁, by omega⟩ h₃

/-- In an ordered list the one that is found comes before the others. -/
theorem eq_or_of_find? {β : Type*} {p : β → Bool} {r : β → β → Prop} {l : List β} {x y : β}
    (hsorted : l.Pairwise r) (h : l.find? p = some x) (hy : y ∈ l) (hp : p y) : y = x ∨ r x y := by
  obtain ⟨-, before, after, rfl, hbefore⟩ := find?_eq_some_iff_append.1 h
  rcases mem_append.1 hy with hy | hy
  · have := hbefore y hy
    simp [hp] at this
  · rcases mem_cons.1 hy with rfl | hy
    · exact .inl rfl
    · exact .inr ((pairwise_cons.1 (pairwise_append.1 hsorted).2.1).1 y hy)

theorem find_spec (h : b.find c i j = some e) : i ≤ e ∧ e < j ∧ b e = c ∧ c ∉ b.segment i e := by
  have he := mem_range'_1.1 (mem_of_find?_eq_some h)
  refine ⟨he.1, by omega, by simpa using find?_some h, fun hmem => ?_⟩
  obtain ⟨m, h₁, h₂, h₃⟩ := mem_segment.1 hmem
  have := eq_or_of_find? pairwise_lt_range' h (mem_range'_1.2 ⟨h₁, by omega⟩) (decide_eq_true h₃)
  omega

theorem findRev_spec (h : b.findRev c i j = some e) :
    i ≤ e ∧ e < j ∧ b e = c ∧ c ∉ b.segment (e + 1) j := by
  have he := mem_range'_1.1 (mem_reverse.1 (mem_of_find?_eq_some h))
  refine ⟨he.1, by omega, by simpa using find?_some h, fun hmem => ?_⟩
  obtain ⟨m, h₁, h₂, h₃⟩ := mem_segment.1 hmem
  have := eq_or_of_find? (pairwise_reverse.2 pairwise_lt_range') h
    (mem_reverse.2 (mem_range'_1.2 ⟨by omega, by omega⟩)) (decide_eq_true h₃)
  omega

end Buffer

theorem splitOn_append_of_not_mem [DecidableEq α] {c : α} {l : List α} {ls : List (List α)}
    {before after : List α} (h : c ∉ before) (hafter : after.splitOn c = l :: ls) :
    (before ++ after).splitOn c = (before ++ l) :: ls := by
  induction before with
  | nil => exact hafter
  | cons a before ih =>
    rw [mem_cons, not_or] at h
    rw [cons_append, splitOn_cons_eq_if_modifyHead, if_neg (by simpa using Ne.symm h.1),
      ih h.2]
    rfl

theorem eq_newline_of_full [DecidableEq α] {newline c : α} {before rest : List α}
    (hbefore : newline ∉ before)
    (hshort : ∀ line ∈ (before ++ c :: rest).splitOn newline, line.length ≤ before.length) :
    c = newline := by
  by_contra hc
  obtain ⟨l, ls, hl⟩ := exists_cons_of_ne_nil (splitOn_ne_nil newline rest)
  have hpre : newline ∉ before ++ [c] := by
    simp only [mem_append, mem_singleton, not_or]
    exact ⟨hbefore, fun h => hc h.symm⟩
  have hsplit : (before ++ c :: rest).splitOn newline = (before ++ c :: l) :: ls := by
    have := splitOn_append_of_not_mem hpre hl
    simpa using this
  have := hshort _ (hsplit ▸ mem_cons_self)
  simp only [length_append, length_cons] at this
  omega

theorem splitOn_newline_cons [DecidableEq α] (newline : α) (rest : List α) :
    (newline :: rest).splitOn newline = [] :: rest.splitOn newline := by
  rw [← nil_append (newline :: rest),
    splitOn_append_cons_self_of_not_mem not_mem_nil]

/-! ### One window -/

/-- What a window leaves: how much is at the front of the buffer, the buffer, and the state. -/
structure Left (α σ : Type*) where
  offset : ℕ
  buffer : Buffer α
  state : σ

/-- The parameters of a reader: how a line ends, what terminates it in the buffer, and the work on
the line between two positions of a window with `dataSize` elements. -/
structure Reader (α σ : Type*) where
  newline : α
  nul : α
  handle : (dataSize : ℕ) → Buffer α → (start endOfLine : ℕ) → σ → Buffer α × σ

variable [DecidableEq α]

/-- The lines of one window, from `start` on; at the end of the file the rest is the last line. -/
def processWindow (R : Reader α σ) (eof : Bool) (dataSize start : ℕ) (b : Buffer α) (s : σ) :
    Left α σ :=
  if start < dataSize then
    if eof then
      let r := R.handle dataSize (b.write dataSize R.nul) start dataSize s
      ⟨0, r.1, r.2⟩
    else
      match h : b.find R.newline start dataSize with
      | none =>
        ⟨dataSize - start, fun m => if m < dataSize - start then b (start + m) else b m, s⟩
      | some e =>
        let r := R.handle dataSize (b.write e R.nul) start e s
        processWindow R eof dataSize (e + 1) r.1 r.2
  else ⟨0, b, s⟩
termination_by dataSize - start
decreasing_by
  have := (Buffer.find_spec h).1
  omega

/-- The work on a line is `step`, and does not write behind the line. -/
def Reader.Handles (R : Reader α σ) (N : ℕ) (step : σ → List α → σ) : Prop :=
  ∀ (dataSize start endOfLine : ℕ) (b : Buffer α) (s : σ), start ≤ endOfLine →
    endOfLine ≤ dataSize → start < dataSize → dataSize < N → b endOfLine = R.nul →
    (R.handle dataSize b start endOfLine s).2 = step s (b.segment start endOfLine) ∧
      ∀ m, endOfLine < m → (R.handle dataSize b start endOfLine s).1 m = b m

theorem processWindow_eof (R : Reader α σ) (dataSize start : ℕ) (b : Buffer α) (s : σ) :
    (processWindow R true dataSize start b s).offset = 0 := by
  rw [processWindow]
  split_ifs
  · rfl
  · contradiction
  · rfl

variable {R : Reader α σ} {N dataSize : ℕ} {step : σ → List α → σ}

theorem processWindow_last (hR : R.Handles N step) (hpos : 0 < dataSize) (hN : dataSize < N)
    (b : Buffer α) (s : σ) :
    (processWindow R true dataSize 0 b s).state = step s (b.segment 0 dataSize) := by
  rw [processWindow, if_pos hpos, if_pos rfl]
  have h := (hR dataSize 0 dataSize (b.write dataSize R.nul) s (by omega) (Nat.le_refl _) hpos hN
    (Buffer.write_self _ _ _)).1
  rw [Buffer.segment_write_of_le b _ (Nat.le_refl _)] at h
  exact h

theorem processWindow_spec (hR : R.Handles N step) (hN : dataSize < N) (start : ℕ) (b : Buffer α)
    (s : σ) :
    let left := processWindow R false dataSize start b s
    left.offset ≤ dataSize ∧ R.newline ∉ left.buffer.segment 0 left.offset ∧
      ∃ done : List (List α), left.state = done.foldl step s ∧
        ∀ rest, (b.segment start dataSize ++ rest).splitOn R.newline =
          done ++ (left.buffer.segment 0 left.offset ++ rest).splitOn R.newline := by
  fun_induction processWindow R false dataSize start b s with
  | case1 start b s hstart heof => cases heof
  | case2 start b s hstart _ hnone =>
    -- no line ends here: the rest is moved to the front
    have hmoved : Buffer.segment
        (fun m => if m < dataSize - start then b (start + m) else b m) 0 (dataSize - start) =
          b.segment start dataSize := by
      apply ext_getElem
      · simp
      · intro m h₁ h₂
        have hm : m < dataSize - start := by simpa using h₁
        simp [Buffer.segment, hm]
    refine ⟨by simp, ?_, [], rfl, ?_⟩
    · rw [hmoved]
      exact Buffer.find_eq_none hnone
    · intro rest
      rw [hmoved, nil_append]
  | case3 start b s hstart _ e hfind r ih =>
    obtain ⟨hse, hed, hnl, hbefore⟩ := Buffer.find_spec hfind
    obtain ⟨hoffset, hleft, done, hstate, hlines⟩ := ih
    obtain ⟨hr, hframe⟩ := hR dataSize start e (b.write e R.nul) s hse (Nat.le_of_lt hed) hstart hN
      (Buffer.write_self _ _ _)
    rw [Buffer.segment_write_of_le b _ (Nat.le_refl _)] at hr
    refine ⟨hoffset, hleft, b.segment start e :: done, ?_, fun rest => ?_⟩
    · rw [hstate, foldl_cons]
      exact congrArg (fun t => done.foldl step t) hr
    · -- what follows the line has not been written to
      have hafter : Buffer.segment r.1 (e + 1) dataSize = b.segment (e + 1) dataSize :=
        Buffer.segment_congr fun m h₁ _ => by
          rw [hframe m (by omega), Buffer.write_of_ne b _ (by omega)]
      rw [Buffer.segment_split b hse hed, hnl, append_assoc, cons_append,
        splitOn_append_cons_self_of_not_mem hbefore, ← hafter, hlines rest, cons_append]
  | case4 start b s hstart =>
    refine ⟨by simp, by simp, [], rfl, fun rest => ?_⟩
    rw [Buffer.segment_eq_nil b (by omega), Buffer.segment_self, nil_append, nil_append]

/-! ### The whole file -/

/-- What is read after `offset`. -/
def Buffer.fill (b : Buffer α) (offset : ℕ) (piece : List α) : Buffer α :=
  fun m => if h : offset ≤ m ∧ m - offset < piece.length then piece[m - offset] else b m

omit [DecidableEq α] in
theorem Buffer.segment_fill (b : Buffer α) (offset : ℕ) (piece : List α) :
    (b.fill offset piece).segment 0 (piece.length + offset) =
      b.segment 0 offset ++ piece := by
  rw [← Buffer.segment_append _ (Nat.zero_le offset) (by omega : offset ≤ piece.length + offset)]
  congr 1
  · refine Buffer.segment_congr fun m _ hm => dif_neg fun h => ?_
    omega
  · apply ext_getElem
    · simp
    · intro m h₁ h₂
      simp [Buffer.segment, Buffer.fill, h₂]

/-- The reads of a file into a buffer of `N` elements, one of which is kept for a terminator. -/
def readWindows (R : Reader α σ) (N : ℕ) (rest : List α) (offset : ℕ) (b : Buffer α) (s : σ) : σ :=
  let piece := rest.take (N - offset - 1)
  let dataSize := piece.length + offset
  if piece.length = 0 ∧ dataSize = 0 then s
  else
    let left := processWindow R (piece.length = 0) dataSize 0 (b.fill offset piece) s
    readWindows R N (rest.drop piece.length) left.offset left.buffer left.state
termination_by 2 * rest.length + min offset 1
decreasing_by
  rename_i hne
  have hpiece : piece.length ≤ rest.length := List.length_take_le' _ _
  show 2 * (rest.drop piece.length).length + min left.offset 1 < 2 * rest.length + min offset 1
  rw [List.length_drop]
  by_cases hzero : piece.length = 0
  · have heof : left.offset = 0 := by
      simp only [left, hzero, decide_true]
      exact processWindow_eof _ _ _ _ _
    have hpos : dataSize ≠ 0 := fun h => hne ⟨hzero, h⟩
    have : dataSize = piece.length + offset := rfl
    omega
  · omega

theorem readWindows_eq (hR : R.Handles N step) (hN : 2 ≤ N) (hempty : ∀ s, step s [] = s)
    (rest : List α) (offset : ℕ) (b : Buffer α) (s : σ) (hoffset : offset < N)
    (hpending : R.newline ∉ b.segment 0 offset)
    (hshort : ∀ line ∈ (b.segment 0 offset ++ rest).splitOn R.newline, line.length < N) :
    readWindows R N rest offset b s =
      ((b.segment 0 offset ++ rest).splitOn R.newline).foldl step s := by
  fun_induction readWindows R N rest offset b s with
  | case1 rest offset b s piece dataSize hstop =>
    -- nothing is left
    have hoff : offset = 0 := by omega
    have hrest : rest = [] := by
      have : (rest.take (N - offset - 1)).length = 0 := hstop.1
      rw [length_take] at this
      exact length_eq_zero_iff.1 (by omega)
    subst hoff hrest
    simp [hempty]
  | case2 rest offset b s piece dataSize hmore left ih =>
    have hpiece : rest = piece ++ rest.drop piece.length := by
      have : piece.length = min (N - offset - 1) rest.length := length_take
      rcases Nat.le_total (N - offset - 1) rest.length with h | h
      · rw [this, Nat.min_eq_left h, take_append_drop]
      · have hp : piece = rest := take_of_length_le h
        rw [hp, drop_length, append_nil]
    have hsize : dataSize < N := by
      have : piece.length ≤ N - offset - 1 := length_take_le _ _
      omega
    by_cases hzero : piece.length = 0
    · -- the last line, or a line that fills the buffer
      have hpos : 0 < dataSize := by
        omega
      have hnil : piece = [] := length_eq_zero_iff.1 hzero
      have hfill : (b.fill offset piece).segment 0 dataSize = b.segment 0 offset := by
        rw [Buffer.segment_fill, hnil, append_nil]
      have hleft : left.offset = 0 ∧ left.state = step s (b.segment 0 offset) := by
        refine ⟨?_, ?_⟩
        · simp only [left, hzero, decide_true]
          exact processWindow_eof _ _ _ _ _
        · simp only [left, hzero, decide_true]
          rw [processWindow_last hR hpos hsize, hfill]
      rw [hleft.1, hleft.2] at ih
      simp only [hzero, drop_zero, Buffer.segment_self, nil_append] at ih
      rw [hleft.1, hleft.2, hzero, drop_zero]
      rcases rest with _ | ⟨c, rest⟩
      · rw [ih (by omega) (by simp) (by simp; omega), append_nil,
          splitOn_eq_singleton hpending]
        simp [hempty]
      · -- the buffer is full, so the line ends at its end
        have hfull : N - offset - 1 = 0 := by
          have : (take (N - offset - 1) (c :: rest)).length = 0 := hzero
          simp only [length_take, length_cons] at this
          omega
        have hc : c = R.newline := eq_newline_of_full hpending fun line hline => by
          have := hshort line hline
          rw [Buffer.length_segment]
          omega
        subst hc
        rw [splitOn_append_cons_self_of_not_mem hpending] at hshort ⊢
        have hnext : ∀ line ∈ (R.newline :: rest).splitOn R.newline, line.length < N := by
          rw [splitOn_newline_cons]
          intro line hline
          rcases mem_cons.1 hline with rfl | hline
          · simp only [length_nil]
            omega
          · exact hshort line (mem_cons_of_mem _ hline)
        rw [ih (by omega) (by simp) hnext, splitOn_newline_cons, foldl_cons, foldl_cons,
          hempty]
    · have heof : decide (piece.length = 0) = false := decide_eq_false hzero
      have hspec := processWindow_spec hR hsize 0 (b.fill offset piece) s
      simp only [left, heof] at ih ⊢
      obtain ⟨h₁, h₂, done, hstate, hlines⟩ := hspec
      have hlines := hlines (rest.drop piece.length)
      have hfill : (b.fill offset piece).segment 0 dataSize = b.segment 0 offset ++ piece :=
        Buffer.segment_fill _ _ _
      rw [hfill, append_assoc, ← hpiece] at hlines
      rw [hlines] at hshort ⊢
      rw [ih (by omega) h₂ fun line hline => hshort line (mem_append_right _ hline),
        foldl_append, hstate]

end LineWindow
