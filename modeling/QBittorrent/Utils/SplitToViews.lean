import QBittorrent.Http.RequestParser
import QBittorrent.Lib.Splitting

/-!
# Splitting a byte array

The loop of `splitToViews` takes one part on each turn, and ends when its position is that of the end.
So nothing is taken behind a separator at the end, where `QStringView::split` has an empty part, and
nothing of an empty array.  The positions are `int`s.

* `splitLoop_eq` : the run of the loop;
* `right_iff_complete` : when it is the split.
-/

namespace QBittorrent.SplitToViews

open List

open RequestParser (toInt mid SplitBehavior toInt_eq_self)

variable (data sep : List UInt8) (behavior : SplitBehavior)

/-- `in.indexOf(sep, head)`, `-1` if there is no occurrence. -/
def indexOfFrom (head : ℕ) : ℤ := (firstIndex sep (data.drop head)).elim (-1) fun i => head + i

/-- One turn of the loop: the next `head`, and `ret`. -/
def splitTurn (head : ℕ) (ret : List (List UInt8)) : ℤ × List (List UInt8) :=
  let found := toInt (indexOfFrom data sep head)
  let stop := if found < 0 then toInt data.length else found
  let part := mid data head (toInt (stop - head))
  (toInt (stop + sep.length),
    -- omit empty parts
    if part ≠ [] ∨ behavior = .KeepEmptyParts then ret ++ [part] else ret)

/-- The loop, for some turns. -/
def splitLoop : ℕ → ℤ → List (List UInt8) → Option (List (List UInt8))
  | 0, _, _ => none
  | fuel + 1, head, ret =>
    if head < data.length then
      -- an `int` that has wrapped around is no position of a view
      if head < 0 then none
      else
        let (head, ret) := splitTurn data sep behavior head.toNat ret
        splitLoop fuel head ret
    else some ret

/-- `splitToViews` gives these views. -/
def Returns (views : List (List UInt8)) : Prop :=
  if sep = [] then views = [data] else ∃ fuel, splitLoop data sep behavior fuel 0 [] = some views

/-- The parts that are kept. -/
def select : List (List UInt8) → List (List UInt8) :=
  List.filter fun part => part ≠ [] ∨ behavior = .KeepEmptyParts

/-- The views are the parts between the leftmost occurrences of the separator, with the empty ones or
without, and no view has the separator in it. -/
def Right : Prop :=
  ∃ views parts, Returns data sep behavior views ∧ Splits sep data parts ∧
    joinParts sep parts = data ∧
    (views = match behavior with
      | .KeepEmptyParts => parts
      | .SkipEmptyParts => parts.filter (· ≠ [])) ∧
    ∀ view ∈ views, ¬ sep <:+: view

/-- The last part is no empty one that has to be kept, and the positions are `int`s: that behind a
last part is not before the end. -/
def Complete : Prop :=
  data.length < 2 ^ 31 ∧ ∀ parts, Splits sep data parts →
    if parts.getLast? = some [] then behavior = .SkipEmptyParts
    else (data.length : ℤ) ≤ toInt (data.length + sep.length)

variable {data sep behavior} {views parts ret : List (List UInt8)} {head : ℕ}

/-! ### Turns -/

theorem mid_natCast {pos : ℕ} (h : pos ≤ data.length) (len : ℕ) :
    mid data pos len = (data.drop pos).take len := by
  rw [mid, if_neg (by omega), if_neg (by omega), if_neg (by omega)]
  rfl

theorem toInt_natCast {n : ℕ} (h : n < 2 ^ 31) : toInt n = n := toInt_eq_self (by omega) (by omega)

theorem splitTurn_of_some (hlength : data.length < 2 ^ 31) {i : ℕ}
    (h : firstIndex sep (data.drop head) = some i) (hle : head ≤ data.length)
    (ret : List (List UInt8)) :
    splitTurn data sep behavior head ret =
      (((head + i + sep.length : ℕ) : ℤ), ret ++ select behavior [(data.drop head).take i]) := by
  have hadd := firstIndex_add_le h
  rw [length_drop] at hadd
  have hfound : toInt (indexOfFrom data sep head) = (head + i : ℕ) := by
    rw [indexOfFrom, h, Option.elim_some, ← Int.natCast_add]
    exact toInt_natCast (by omega)
  have hpart : mid data head (toInt (((head + i : ℕ) : ℤ) - head)) = (data.drop head).take i := by
    rw [show ((head + i : ℕ) : ℤ) - head = i by omega, toInt_natCast (by omega), mid_natCast hle]
  have hnext : toInt (((head + i : ℕ) : ℤ) + sep.length) = (head + i + sep.length : ℕ) := by
    exact toInt_natCast (by omega)
  rw [splitTurn]
  simp only [hfound, if_neg (show ¬ ((head + i : ℕ) : ℤ) < 0 by omega), hpart, hnext, select]
  split_ifs with hkeep
  · rw [filter_singleton, decide_eq_true hkeep]
    rfl
  · rw [filter_singleton, decide_eq_false hkeep]
    simp

theorem splitTurn_of_none (hlength : data.length < 2 ^ 31)
    (h : firstIndex sep (data.drop head) = none) (hle : head ≤ data.length)
    (ret : List (List UInt8)) :
    splitTurn data sep behavior head ret =
      (toInt (data.length + sep.length), ret ++ select behavior [data.drop head]) := by
  have hfound : toInt (indexOfFrom data sep head) < 0 := by
    rw [indexOfFrom, h, Option.elim_none]
    decide
  have hpart : mid data head (toInt ((data.length : ℤ) - head)) = data.drop head := by
    rw [show (data.length : ℤ) - head = (data.length - head : ℕ) by omega, toInt_natCast (by omega),
      mid_natCast hle, ← length_drop, take_length]
  rw [splitTurn]
  simp only [if_pos hfound, toInt_natCast hlength, hpart, select]
  split_ifs with hkeep
  · rw [filter_singleton, decide_eq_true hkeep]
    rfl
  · rw [filter_singleton, decide_eq_false hkeep]
    simp

/-! ### Runs -/

theorem splitLoop_succ (fuel head : ℕ) (h : head < data.length) (ret : List (List UInt8)) :
    splitLoop data sep behavior (fuel + 1) head ret =
      splitLoop data sep behavior fuel (splitTurn data sep behavior head ret).1
        (splitTurn data sep behavior head ret).2 := by
  rw [splitLoop, if_pos (by omega), if_neg (by omega)]
  rfl

theorem splitLoop_end (fuel : ℕ) {head : ℤ} (h : (data.length : ℤ) ≤ head) (ret : List (List UInt8)) :
    splitLoop data sep behavior (fuel + 1) head ret = some ret := by
  rw [splitLoop, if_neg (by omega)]

theorem select_cons (part : List UInt8) (parts : List (List UInt8)) :
    select behavior (part :: parts) = select behavior [part] ++ select behavior parts := by
  rw [← singleton_append, select, filter_append]

theorem splitLoop_eq (hlength : data.length < 2 ^ 31) (hsep : sep ≠ []) {l : List UInt8}
    (h : Splits sep l parts) (hl : data.drop head = l) (hle : head ≤ data.length) :
    ∃ turns, ∀ fuel ret, splitLoop data sep behavior (fuel + turns + 1) head ret =
      if parts.getLast? = some [] then some (ret ++ select behavior parts.dropLast)
      else splitLoop data sep behavior fuel (toInt (data.length + sep.length))
        (ret ++ select behavior parts) := by
  induction h generalizing head with
  | @last l hnot =>
    refine ⟨0, fun fuel ret => ?_⟩
    by_cases hnil : l = []
    · rw [hnil, drop_eq_nil_iff] at hl
      rw [Nat.add_zero, splitLoop_end fuel (by omega), hnil]
      simp [select]
    · have hlt : head < data.length := by
        by_contra hge
        rw [drop_of_length_le (not_lt.1 hge)] at hl
        exact hnil hl.symm
      have hnone : firstIndex sep (data.drop head) = none := by rw [hl, firstIndex_eq_none.2 hnot]
      rw [Nat.add_zero, splitLoop_succ fuel head hlt, splitTurn_of_none hlength hnone hle, hl,
        List.getLast?_singleton, if_neg (by simpa using hnil)]
  | @part p l parts hbefore hparts ih =>
    have hfirst : firstIndex sep (data.drop head) = some p.length := by
      rw [hl, firstIndex_part hsep hbefore]
    have hpos := length_pos_iff.2 hsep
    have hsum := congrArg List.length hl
    simp only [length_drop, length_append] at hsum
    have hnext : data.drop (head + p.length + sep.length) = l := by
      rw [Nat.add_assoc, ← drop_drop, hl, ← append_assoc, ← length_append, drop_left]
    obtain ⟨turns, hturns⟩ := ih hnext (by omega)
    refine ⟨turns + 1, fun fuel ret => ?_⟩
    obtain ⟨q, parts, rfl⟩ := exists_cons_of_ne_nil hparts.ne_nil
    rw [show fuel + (turns + 1) + 1 = fuel + turns + 1 + 1 by omega,
      splitLoop_succ _ head (by omega), splitTurn_of_some hlength hfirst hle, hturns, hl, take_left,
      List.getLast?_cons_cons, dropLast_cons_cons, append_assoc, append_assoc,
      ← select_cons, ← select_cons]

theorem splitLoop_mono {fuel fuel' : ℕ} (hle : fuel ≤ fuel') {head : ℤ}
    (h : splitLoop data sep behavior fuel head ret = some views) :
    splitLoop data sep behavior fuel' head ret = some views := by
  induction fuel generalizing fuel' head ret with
  | zero => cases h
  | succ fuel ih =>
    obtain ⟨fuel', rfl⟩ : ∃ n, fuel' = n + 1 := ⟨fuel' - 1, by omega⟩
    rw [splitLoop] at h ⊢
    split_ifs at h ⊢ with hlt hneg
    · exact ih (by omega) h
    · exact h

theorem splitLoop_unique {fuel fuel' : ℕ} {head : ℤ} {views' : List (List UInt8)}
    (h : splitLoop data sep behavior fuel head ret = some views)
    (h' : splitLoop data sep behavior fuel' head ret = some views') : views = views' := by
  have hviews := splitLoop_mono (le_max_left fuel fuel') h
  rw [splitLoop_mono (le_max_right fuel fuel') h'] at hviews
  exact (Option.some.inj hviews).symm

theorem toInt_lt (n : ℤ) : toInt n < 2 ^ 31 := by
  rw [toInt, Int.bmod_def]
  split_ifs <;> omega

theorem not_returns_of_le (h : 2 ^ 31 ≤ data.length) (hsep : sep ≠ []) :
    ¬ Returns data sep behavior views := by
  have hloop : ∀ fuel (head : ℤ) ret, head < 2 ^ 31 →
      splitLoop data sep behavior fuel head ret = none := by
    intro fuel
    induction fuel with
    | zero => exact fun _ _ _ => rfl
    | succ fuel ih =>
      intro head ret hlt
      rw [splitLoop, if_pos (by omega)]
      split_ifs with hneg
      · rfl
      · exact ih _ _ (toInt_lt _)
  rw [Returns, if_neg hsep]
  rintro ⟨fuel, hfuel⟩
  rw [hloop fuel 0 [] (by decide)] at hfuel
  cases hfuel

theorem toInt_cases (n : ℕ) (h : n < 2 ^ 32) : toInt n = n ∨ toInt n < 0 := by
  rw [toInt, Int.bmod_def]
  split_ifs with hlt <;> omega

theorem splitLoop_of_wrapped (hlength : data.length < 2 ^ 31)
    (h : toInt (data.length + sep.length) < data.length) (fuel : ℕ) (ret : List (List UInt8)) :
    splitLoop data sep behavior fuel (toInt (data.length + sep.length)) ret = none := by
  induction fuel generalizing ret with
  | zero => rfl
  | succ fuel ih =>
    by_cases hneg : toInt (data.length + sep.length) < 0
    · rw [splitLoop, if_pos h, if_pos hneg]
    · obtain ⟨head, hhead⟩ := Int.eq_ofNat_of_zero_le (not_lt.1 hneg)
      have hlong : data.length < sep.length := by
        by_contra hge
        have hwrap := toInt_cases (data.length + sep.length) (by omega)
        rw [Int.natCast_add] at hwrap
        omega
      have hnone : firstIndex sep (data.drop head) = none := by
        refine firstIndex_eq_none.2 fun hinfix => ?_
        have hle := hinfix.length_le
        rw [length_drop] at hle
        omega
      have hlt : head < data.length := by omega
      rw [hhead, splitLoop_succ fuel head hlt ret, splitTurn_of_none hlength hnone hlt.le]
      dsimp only
      exact ih (ret ++ select behavior [data.drop head])

theorem returns_iff (hlength : data.length < 2 ^ 31) (hsep : sep ≠ []) (h : Splits sep data parts) :
    Returns data sep behavior views ↔
      if parts.getLast? = some [] then views = select behavior parts.dropLast
      else (data.length : ℤ) ≤ toInt (data.length + sep.length) ∧ views = select behavior parts := by
  obtain ⟨turns, hturns⟩ : ∃ turns, ∀ fuel ret, splitLoop data sep behavior (fuel + turns + 1) 0 ret =
      if parts.getLast? = some [] then some (ret ++ select behavior parts.dropLast)
      else splitLoop data sep behavior fuel (toInt (data.length + sep.length))
        (ret ++ select behavior parts) :=
    splitLoop_eq hlength hsep h drop_zero (Nat.zero_le _)
  rw [Returns, if_neg hsep]
  by_cases hlast : parts.getLast? = some []
  · simp only [if_pos hlast] at hturns ⊢
    constructor
    · rintro ⟨fuel, hfuel⟩
      exact splitLoop_unique hfuel (hturns 0 [])
    · rintro rfl
      exact ⟨_, hturns 0 []⟩
  · simp only [if_neg hlast] at hturns ⊢
    by_cases hend : (data.length : ℤ) ≤ toInt (data.length + sep.length)
    · have hviews := hturns 1 []
      rw [splitLoop_end 0 hend] at hviews
      constructor
      · rintro ⟨fuel, hfuel⟩
        exact ⟨hend, splitLoop_unique hfuel hviews⟩
      · rintro ⟨-, rfl⟩
        exact ⟨_, hviews⟩
    · constructor
      · rintro ⟨fuel, hfuel⟩
        have hmore := splitLoop_mono (Nat.le_add_right fuel (turns + 1)) hfuel
        rw [← Nat.add_assoc, hturns, splitLoop_of_wrapped hlength (not_le.1 hend)] at hmore
        cases hmore
      · exact fun hviews => absurd hviews.1 hend

/-! ### When it is the split -/

theorem select_eq : select behavior parts = match behavior with
    | .KeepEmptyParts => parts
    | .SkipEmptyParts => parts.filter (· ≠ []) := by
  cases behavior <;> simp [select]

theorem complete_of_right (hsep : sep ≠ []) (h : Right data sep behavior) : Complete data sep behavior := by
  obtain ⟨views, parts, hreturns, hparts, -, hviews, -⟩ := h
  have hlength : data.length < 2 ^ 31 := by
    by_contra hge
    exact not_returns_of_le (not_lt.1 hge) hsep hreturns
  refine ⟨hlength, fun parts' hparts' => ?_⟩
  obtain rfl := hparts.unique hsep hparts'
  rw [returns_iff hlength hsep hparts] at hreturns
  split_ifs at hreturns ⊢ with hlast
  · cases behavior with
    | SkipEmptyParts => rfl
    | KeepEmptyParts =>
      -- the empty part at the end is missing
      rw [hreturns, select_eq] at hviews
      have hshort : parts.dropLast.length = parts.length := congrArg List.length hviews
      have hpos := length_pos_iff.2 hparts.ne_nil
      rw [length_dropLast] at hshort
      omega
  · exact hreturns.1

theorem right_of_complete (hsep : sep ≠ []) (h : Complete data sep behavior) : Right data sep behavior := by
  obtain ⟨hlength, hcomplete⟩ := h
  obtain ⟨parts, hparts⟩ := exists_splits hsep data
  have hcomplete := hcomplete parts hparts
  have hreturns : Returns data sep behavior (select behavior parts) := by
    rw [returns_iff hlength hsep hparts]
    split_ifs at hcomplete ⊢ with hlast
    · obtain ⟨init, rfl⟩ : ∃ init, parts = init ++ [[]] :=
        ⟨parts.dropLast, (dropLast_append_getLast? [] hlast).symm⟩
      rw [dropLast_concat, hcomplete]
      simp [select]
    · exact ⟨hcomplete, rfl⟩
  refine ⟨_, parts, hreturns, hparts, hparts.join_eq, select_eq, fun view hview => ?_⟩
  exact hparts.not_infix hsep view (mem_of_mem_filter hview)

/-- **Splitting a byte array.**  The views are those of the split exactly if the last part is not an
empty one that is to be kept, and the positions are `int`s. -/
theorem right_iff_complete (hsep : sep ≠ []) : Right data sep behavior ↔ Complete data sep behavior :=
  ⟨complete_of_right hsep, right_of_complete hsep⟩

theorem splits_lineBreak : Splits ([10] : List UInt8) [97, 10] [[97], []] := by
  have hlast : Splits ([10] : List UInt8) [] [[]] := .last (by decide)
  exact .part (p := [97]) (by decide) hlast

/-- The lines of a text with a line break at its end, without empty ones. -/
theorem right_iff_complete_lines :
    Right [97, 10] [10] .SkipEmptyParts ↔ Complete [97, 10] [10] .SkipEmptyParts :=
  right_iff_complete (by decide)

/-- The empty part behind a separator at the end is missing. -/
theorem not_right_lineBreak : ¬ Right [97, 10] [10] .KeepEmptyParts := by
  intro h
  have hkept := (complete_of_right (by decide) h).2 _ splits_lineBreak
  cases hkept

end QBittorrent.SplitToViews
