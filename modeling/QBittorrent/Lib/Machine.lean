import Mathlib.Logic.Basic

/-!
# Deterministic labelled machines and their runs

A `Machine` has a partial step function: `step s l = none` says that the label `l` cannot happen
in `s`.  Everything a party chooses (an event, a request, a schedule, a lost message) is part of
the label, so a run is a list of labels and runs are computable.

* `Machine.Meets C` : every step of the run is taken in a state, and with a label, that satisfy
  the side condition `C`.
* `Machine.run_invariant` : an invariant that every step meeting `C` preserves holds after every
  run whose steps meet `C`.
* `Machine.meets_iff_meets` : conditions that agree step by step agree on runs.
* `Machine.length_le_of_measure` : runs whose steps decrease a measure are no longer than it.
* `Machine.always_iff_meets` : where a step that fails `C` leads out of `P` at once, `P` holds
  throughout a run exactly when every step of the run meets `C`.
-/

namespace QBittorrent

open Option

/-- A machine with states `S` and labels `L`. -/
structure Machine (S L : Type*) where
  /-- The state after `l` happens in `s`, if it can. -/
  step : S → L → Option S

namespace Machine

variable {S L : Type*} (M : Machine S L)

/-- The state after the labels of a list happen in order. -/
def run : S → List L → Option S
  | s, [] => some s
  | s, l :: ls => (M.step s l).bind fun s' => run s' ls

/-- Every step of the run `ls` from `s` satisfies the side condition `C`. -/
def Meets (C : S → L → Prop) : S → List L → Prop
  | _, [] => True
  | s, l :: ls => C s l ∧ ∀ s', M.step s l = some s' → Meets C s' ls

instance decidableMeets {C : S → L → Prop} [hC : ∀ s l, Decidable (C s l)] :
    ∀ s ls, Decidable (M.Meets C s ls)
  | _, [] => isTrue trivial
  | s, l :: ls =>
    match h : M.step s l with
    | none => decidable_of_iff (C s l)
      ⟨fun hc => ⟨hc, fun s' hs' => by rw [h] at hs'; cases hs'⟩, And.left⟩
    | some s' =>
      have : Decidable (M.Meets C s' ls) := decidableMeets s' ls
      decidable_of_iff (C s l ∧ M.Meets C s' ls)
        (and_congr_right' ⟨fun hm _ hs => by cases h.symm.trans hs; exact hm, fun hm => hm s' h⟩)

/-- The property `P` holds in every state of the run `ls` from `s`. -/
def Always (P : S → Prop) : S → List L → Prop
  | s, [] => P s
  | s, l :: ls => P s ∧ ∀ s', M.step s l = some s' → Always P s' ls

/-- The state `s` is reached from `s₀` by a run whose steps satisfy `C`. -/
def ReachableUnder (C : S → L → Prop) (s₀ s : S) : Prop :=
  ∃ ls, M.Meets C s₀ ls ∧ M.run s₀ ls = some s

/-- The state `s` is reached from `s₀` by some run. -/
def Reachable (s₀ s : S) : Prop := ∃ ls, M.run s₀ ls = some s

variable {M} {C D : S → L → Prop} {s s' s'' s₀ : S} {l : L} {ls ls' : List L} {I P : S → Prop}

@[simp] theorem run_nil : M.run s [] = some s := rfl

theorem run_cons : M.run s (l :: ls) = (M.step s l).bind fun s' => M.run s' ls := rfl

theorem run_cons_eq_some :
    M.run s (l :: ls) = some s'' ↔ ∃ s', M.step s l = some s' ∧ M.run s' ls = some s'' := by
  simp [run_cons, bind_eq_some_iff]

theorem run_concat_eq_some :
    M.run s (ls ++ [l]) = some s'' ↔ ∃ s', M.run s ls = some s' ∧ M.step s' l = some s'' := by
  induction ls generalizing s with
  | nil => simp [run_cons_eq_some]
  | cons l' ls ih =>
    simp only [List.cons_append, run_cons_eq_some, ih]
    constructor
    · rintro ⟨s₁, hl, s', hr, hs⟩
      exact ⟨s', ⟨s₁, hl, hr⟩, hs⟩
    · rintro ⟨s', ⟨s₁, hl, hr⟩, hs⟩
      exact ⟨s₁, hl, s', hr, hs⟩

theorem Meets.last (h : M.Meets C s (ls ++ [l])) (hr : M.run s ls = some s') : C s' l := by
  induction ls generalizing s with
  | nil => cases hr; exact h.1
  | cons l' ls ih =>
    obtain ⟨s₁, hl, hr'⟩ := run_cons_eq_some.1 hr
    exact ih (h.2 _ hl) hr'

theorem run_invariant (h₀ : I s) (hstep : ∀ s l s', I s → C s l → M.step s l = some s' → I s')
    (hC : M.Meets C s ls) (hr : M.run s ls = some s') : I s' := by
  induction ls generalizing s with
  | nil => cases hr; exact h₀
  | cons l ls ih =>
    obtain ⟨s₁, hl, hr'⟩ := run_cons_eq_some.1 hr
    exact ih (hstep _ _ _ h₀ hC.1 hl) (hC.2 _ hl) hr'

theorem always_iff_meets (h₀ : I s) (hP : ∀ s, I s → P s)
    (hstep : ∀ s l s', I s → C s l → M.step s l = some s' → I s')
    (hbad : ∀ s l s', I s → ¬ C s l → M.step s l = some s' → ¬ P s') (hr : (M.run s ls).isSome) :
    M.Always P s ls ↔ M.Meets C s ls := by
  induction ls generalizing s with
  | nil => exact ⟨fun _ => trivial, fun _ => hP _ h₀⟩
  | cons l ls ih =>
    obtain ⟨t, ht⟩ := isSome_iff_exists.1 hr
    obtain ⟨s₁, hl, hr'⟩ := run_cons_eq_some.1 ht
    have hsome : (M.run s₁ ls).isSome := isSome_iff_exists.2 ⟨t, hr'⟩
    by_cases hC : C s l
    · have ih₁ := ih (hstep _ _ _ h₀ hC hl) hsome
      constructor
      · rintro ⟨-, h⟩
        refine ⟨hC, fun s₂ hl' => ?_⟩
        cases hl.symm.trans hl'
        exact ih₁.1 (h _ hl)
      · rintro ⟨-, h⟩
        refine ⟨hP _ h₀, fun s₂ hl' => ?_⟩
        cases hl.symm.trans hl'
        exact ih₁.2 (h _ hl)
    · refine ⟨fun h => ?_, fun h => (hC h.1).elim⟩
      have hs₁ : P s₁ := by
        have := h.2 _ hl
        cases ls with
        | nil => exact this
        | cons l' ls => exact this.1
      exact (hbad _ _ _ h₀ hC hl hs₁).elim

theorem Meets.always (h : M.Meets C s ls) (h₀ : I s) (hP : ∀ s, I s → P s)
    (hstep : ∀ s l s', I s → C s l → M.step s l = some s' → I s') : M.Always P s ls := by
  induction ls generalizing s with
  | nil => exact hP _ h₀
  | cons l ls ih =>
    exact ⟨hP _ h₀, fun s' hl => ih (h.2 s' hl) (hstep _ _ _ h₀ h.1 hl)⟩

theorem Meets.mono (h : M.Meets C s ls) (h₀ : I s)
    (hstep : ∀ s l s', I s → C s l → M.step s l = some s' → I s')
    (hCD : ∀ s l, I s → C s l → D s l) : M.Meets D s ls := by
  induction ls generalizing s with
  | nil => trivial
  | cons l ls ih =>
    exact ⟨hCD _ _ h₀ h.1, fun s' hl => ih (h.2 s' hl) (hstep _ _ _ h₀ h.1 hl)⟩

theorem meets_iff_meets_of_keeps (h₀ : I s)
    (hstep : ∀ s l s', I s → D s l → M.step s l = some s' → I s')
    (hCD : ∀ s l s', I s → M.step s l = some s' → (C s l ↔ D s l)) (hr : (M.run s ls).isSome) :
    M.Meets C s ls ↔ M.Meets D s ls := by
  induction ls generalizing s with
  | nil => exact Iff.rfl
  | cons l ls ih =>
    obtain ⟨t, ht⟩ := isSome_iff_exists.1 hr
    obtain ⟨s₁, hl, hr'⟩ := run_cons_eq_some.1 ht
    have hsome : (M.run s₁ ls).isSome := isSome_iff_exists.2 ⟨t, hr'⟩
    refine (and_congr_left' (hCD _ _ _ h₀ hl)).trans (and_congr_right fun hD => ?_)
    refine forall_congr' fun s₂ => forall_congr' fun hl' => ?_
    cases hl.symm.trans hl'
    exact ih (hstep _ _ _ h₀ hD hl) hsome

theorem meets_iff_meets (h₀ : I s) (hstep : ∀ s l s', I s → M.step s l = some s' → I s')
    (hCD : ∀ s l s', I s → M.step s l = some s' → (C s l ↔ D s l)) (hr : (M.run s ls).isSome) :
    M.Meets C s ls ↔ M.Meets D s ls :=
  meets_iff_meets_of_keeps h₀ (fun s l s' hI _ hl => hstep s l s' hI hl) hCD hr

theorem length_le_of_measure {μ : S → Nat} (h₀ : I s)
    (hstep : ∀ s l s', I s → M.step s l = some s' → I s' ∧ μ s' < μ s) (hr : M.run s ls = some s') :
    ls.length ≤ μ s := by
  induction ls generalizing s with
  | nil => exact Nat.zero_le _
  | cons l ls ih =>
    obtain ⟨s₁, hl, hr'⟩ := run_cons_eq_some.1 hr
    obtain ⟨h₁, hlt⟩ := hstep _ _ _ h₀ hl
    have := ih h₁ hr'
    rw [List.length_cons]
    omega

theorem Always.at_start (h : M.Always P s ls) : P s := by
  cases ls with
  | nil => exact h
  | cons l ls => exact h.1

theorem Always.at_end (h : M.Always P s ls) (hr : M.run s ls = some s') : P s' := by
  induction ls generalizing s with
  | nil => cases hr; exact h
  | cons l ls ih =>
    obtain ⟨s₁, hl, hr'⟩ := run_cons_eq_some.1 hr
    exact ih (h.2 _ hl) hr'

theorem exists_run (hr : (M.run s ls).isSome) (hP : ∀ s', M.run s ls = some s' → P s') :
    ∃ s', M.run s ls = some s' ∧ P s' := by
  obtain ⟨s', hs'⟩ := isSome_iff_exists.1 hr
  exact ⟨s', hs', hP s' hs'⟩

namespace ReachableUnder

theorem refl (s : S) : M.ReachableUnder C s s := ⟨[], trivial, rfl⟩

theorem invariant {I : S → Prop} (h : M.ReachableUnder C s₀ s) (h₀ : I s₀)
    (hstep : ∀ s l s', I s → C s l → M.step s l = some s' → I s') : I s := by
  obtain ⟨ls, hm, hr⟩ := h
  exact run_invariant h₀ hstep hm hr

theorem of_run (M : Machine S L) (C : S → L → Prop) (s : S) (ls : List L) (hm : M.Meets C s ls) (hr : (M.run s ls).isSome) :
    M.ReachableUnder C s ((M.run s ls).get hr) := ⟨ls, hm, (some_get hr).symm⟩

end ReachableUnder

theorem meets_true : M.Meets (fun _ _ => True) s ls := by
  induction ls generalizing s with
  | nil => trivial
  | cons l ls ih => exact ⟨trivial, fun _ _ => ih⟩

section guarded

variable {possible : S → L → Prop} [∀ s, DecidablePred (possible s)] {next : S → L → S}
  {I P : S → Prop}

/-- The machine whose labels happen where they are possible. -/
def guarded (possible : S → L → Prop) [∀ s, DecidablePred (possible s)] (next : S → L → S) :
    Machine S L where
  step s l := if possible s l then some (next s l) else none

theorem guarded_step_eq_some :
    (guarded possible next).step s l = some s' ↔ possible s l ∧ next s l = s' := by
  change (if possible s l then some (next s l) else none) = some s' ↔ _
  by_cases hp : possible s l
  · rw [if_pos hp, some_inj]
    exact (and_iff_right hp).symm
  · rw [if_neg hp]
    exact iff_of_false nofun fun h => hp h.1

theorem guarded_always_iff_meets (h₀ : I s) (hP : ∀ s, I s → P s)
    (hstep : ∀ s l, I s → possible s l → C s l → I (next s l))
    (hbad : ∀ s l, I s → possible s l → ¬ C s l → ¬ P (next s l))
    (hr : ((guarded possible next).run s ls).isSome) :
    (guarded possible next).Always P s ls ↔ (guarded possible next).Meets C s ls := by
  refine always_iff_meets h₀ hP (fun s l s' hI hC hl => ?_) (fun s l s' hI hC hl => ?_) hr
  · obtain ⟨hp, rfl⟩ := guarded_step_eq_some.1 hl
    exact hstep s l hI hp hC
  · obtain ⟨hp, rfl⟩ := guarded_step_eq_some.1 hl
    exact hbad s l hI hp hC

theorem guarded_meets_iff_meets {D : S → L → Prop} (h₀ : I s)
    (hstep : ∀ s l, I s → possible s l → D s l → I (next s l))
    (hCD : ∀ s l, I s → possible s l → (C s l ↔ D s l))
    (hr : ((guarded possible next).run s ls).isSome) :
    (guarded possible next).Meets C s ls ↔ (guarded possible next).Meets D s ls := by
  refine meets_iff_meets_of_keeps h₀ (fun s l s' hI hD hl => ?_) (fun s l s' hI hl => ?_) hr
  · obtain ⟨hp, rfl⟩ := guarded_step_eq_some.1 hl
    exact hstep s l hI hp hD
  · exact hCD s l hI (guarded_step_eq_some.1 hl).1

theorem guarded_always (h₀ : I s) (hP : ∀ s, I s → P s)
    (hstep : ∀ s l, I s → possible s l → C s l → I (next s l))
    (h : (guarded possible next).Meets C s ls) : (guarded possible next).Always P s ls :=
  h.always h₀ hP fun s l s' hI hC hl => by
    obtain ⟨hp, rfl⟩ := guarded_step_eq_some.1 hl
    exact hstep s l hI hp hC

end guarded

end Machine

end QBittorrent
