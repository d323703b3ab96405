import Mathlib.Data.List.Basic
import Mathlib.Order.Lattice

/-!
# Frames out of a buffer

A reader of a byte stream appends what arrives to a buffer and takes frames from its front while
there are any.  `drain` is that loop over one buffer, `Reader.run` reads a stream that arrives in
chunks.

* `Stable.drain_append` : **more bytes change nothing about the frames that were there**.
* `Stable.run_eq_run` : **so the cuts do not matter**, while no buffer is too long
  (`Remainder.within_of_length_le`).
-/

namespace QBittorrent

open List Option

variable {α R E : Type*}

/-- What a parser says about the front of a buffer: it takes more bytes to tell, there is a frame
of some size, or there is none. -/
inductive Verdict (R E : Type*) where
  | more
  | frame (r : R) (size : ℤ)
  | reject (e : E)

/-- What is left of a buffer: the bytes of the next frame so far, or the reason of its rejection. -/
inductive Remainder (α E : Type*) where
  | rest (buffer : List α)
  | rejected (e : E)

/-- The loop: frames are taken from the front while there are any.  A frame that takes no bytes
away would be found again on every turn; there is no result then. -/
def drain (parse : List α → Verdict R E) (buffer : List α) : Option (List R × Remainder α E) :=
  if _h : buffer = [] then some ([], .rest [])
  else
    match parse buffer with
    | .more => some ([], .rest buffer)
    | .reject e => some ([], .rejected e)
    | .frame r size =>
      if _hsize : 0 < size then
        (drain parse (buffer.drop size.toNat)).map fun (rs, remainder) => (r :: rs, remainder)
      else none
termination_by buffer.length
decreasing_by
  have := List.length_pos_iff.2 _h
  rw [List.length_drop]
  omega

section Drain

variable {parse : List α → Verdict R E} {d rest : List α} {rs : List R}

@[simp] theorem drain_nil : drain parse [] = some ([], .rest []) := by simp [drain]

theorem drain_of_more (h : parse d = .more) : drain parse d = some ([], .rest d) := by
  by_cases hd : d = []
  · rw [hd, drain_nil]
  · rw [drain, dif_neg hd, h]

theorem drain_of_reject {e : E} (hd : d ≠ []) (h : parse d = .reject e) :
    drain parse d = some ([], .rejected e) := by
  rw [drain, dif_neg hd, h]

theorem drain_of_frame {r : R} {size : ℤ} (hd : d ≠ []) (h : parse d = .frame r size)
    (hsize : 0 < size) :
    drain parse d =
      (drain parse (d.drop size.toNat)).map fun (rs, remainder) => (r :: rs, remainder) := by
  rw [drain, dif_neg hd, h]
  exact dif_pos hsize

/-- Nothing more is read from what is left. -/
theorem drain_rest (h : drain parse d = some (rs, .rest rest)) :
    drain parse rest = some ([], .rest rest) ∧ rest.length ≤ d.length := by
  induction d using drain.induct parse generalizing rs with
  | case1 =>
    rw [drain_nil] at h
    cases h
    exact ⟨drain_nil, le_rfl⟩
  | case2 d hd hmore =>
    rw [drain_of_more hmore] at h
    cases h
    exact ⟨drain_of_more hmore, le_rfl⟩
  | case3 d hd e he =>
    rw [drain_of_reject hd he] at h
    cases h
  | case4 d hd r size hframe hsize ih =>
    rw [drain_of_frame hd hframe hsize, map_eq_some_iff] at h
    obtain ⟨⟨rs', remainder⟩, h, heq⟩ := h
    cases heq
    exact (ih h).imp_right fun hle => hle.trans (by rw [length_drop]; omega)
  | case5 d hd r size hframe hsize =>
    rw [drain, dif_neg hd, hframe] at h
    simp [hsize] at h

end Drain

/-! ### Streams in chunks -/

/-- The next chunk of the stream arrives; after a rejection nothing is read. -/
def Remainder.feed (parse : List α → Verdict R E) (s : Remainder α E) (chunk : List α) :
    Option (List R × Remainder α E) :=
  match s with
  | .rest buffer => drain parse (buffer ++ chunk)
  | .rejected e => some ([], .rejected e)

/-- All the chunks of a stream, with the frames in their order. -/
def Remainder.run (parse : List α → Verdict R E) (s : Remainder α E) :
    List (List α) → Option (List R × Remainder α E)
  | [] => some ([], s)
  | chunk :: chunks =>
    (s.feed parse chunk).bind fun (rs, s') =>
      (s'.run parse chunks).map fun (rs', remainder) => (rs ++ rs', remainder)

/-- No buffer on the way is longer than `limit`. -/
def Remainder.Within (parse : List α → Verdict R E) (limit : ℕ) (s : Remainder α E) :
    List (List α) → Prop
  | [] => True
  | chunk :: chunks =>
    (∀ buffer, s = .rest buffer → (buffer ++ chunk).length ≤ limit) ∧
      ∀ rs s', s.feed parse chunk = some (rs, s') → s'.Within parse limit chunks

theorem Remainder.within_of_length_le {parse : List α → Verdict R E} {limit : ℕ} {d : List α}
    {chunks : List (List α)} (h : (d ++ chunks.flatten).length ≤ limit) :
    Remainder.Within parse limit (.rest d) chunks := by
  induction chunks generalizing d with
  | nil => trivial
  | cons chunk chunks ih =>
    rw [flatten_cons, ← append_assoc, length_append] at h
    constructor
    · intro buffer hbuffer
      cases hbuffer
      omega
    · intro rs s' hs
      cases s' with
      | rest buffer =>
        refine ih ?_
        have := (drain_rest hs).2
        rw [length_append]
        omega
      | rejected e =>
        clear hs ih h
        induction chunks with
        | nil => trivial
        | cons chunk chunks ih =>
          refine ⟨fun buffer hbuffer => (by cases hbuffer), fun rs s' hs => ?_⟩
          cases hs
          exact ih

/-- More bytes at the end of a buffer change neither a frame at its front nor a rejection, and a
frame is a part of the buffer, as long as the buffer is not longer than `limit`. -/
structure Stable (parse : List α → Verdict R E) (limit : ℕ) : Prop where
  frame : ∀ {d r size}, d.length ≤ limit → parse d = .frame r size →
    0 < size ∧ size ≤ d.length ∧ ∀ x, parse (d ++ x) = .frame r size
  reject : ∀ {d e}, d.length ≤ limit → parse d = .reject e → ∀ x, parse (d ++ x) = .reject e

namespace Stable

variable {parse : List α → Verdict R E} {limit : ℕ} (hp : Stable parse limit) {d : List α}
  {chunks : List (List α)} {s : Remainder α E}

include hp

theorem drain_isSome (hd : d.length ≤ limit) : (drain parse d).isSome := by
  induction d using drain.induct parse with
  | case1 => simp
  | case2 d _ hmore => simp [drain_of_more hmore]
  | case3 d hne e he => simp [drain_of_reject hne he]
  | case4 d hne r size hframe hsize ih =>
    rw [drain_of_frame hne hframe hsize, isSome_map]
    refine ih ?_
    rw [length_drop]
    omega
  | case5 d hne r size hframe hsize => exact absurd (hp.frame hd hframe).1 hsize

theorem drain_append {rs : List R} (hd : d.length ≤ limit) (h : drain parse d = some (rs, s))
    (x : List α) :
    drain parse (d ++ x) =
      (s.feed parse x).map fun (rs', remainder) => (rs ++ rs', remainder) := by
  induction d using drain.induct parse generalizing rs with
  | case1 =>
    rw [drain_nil] at h
    cases h
    simp [Remainder.feed]
  | case2 d _ hmore =>
    rw [drain_of_more hmore] at h
    cases h
    simp [Remainder.feed]
  | case3 d hne e he =>
    rw [drain_of_reject hne he] at h
    cases h
    rw [drain_of_reject (by simp [hne]) (hp.reject hd he x)]
    rfl
  | case4 d hne r size hframe hsize ih =>
    obtain ⟨-, hle, hstable⟩ := hp.frame hd hframe
    rw [drain_of_frame hne hframe hsize, map_eq_some_iff] at h
    obtain ⟨⟨rs', s'⟩, h, heq⟩ := h
    cases heq
    -- the frame lies in `d`, so what remains of `d ++ x` is what remains of `d`, then `x`
    rw [drain_of_frame (by simp [hne]) (hstable x) hsize,
      drop_append_of_le_length (by omega),
      ih (by rw [length_drop]; omega) h, Option.map_map]
    rfl
  | case5 d hne r size hframe hsize => exact absurd (hp.frame hd hframe).1 hsize

theorem run_eq_drain (hd : drain parse d = some ([], .rest d))
    (hw : Remainder.Within parse limit (.rest d) chunks) :
    (Remainder.rest d).run parse chunks = drain parse (d ++ chunks.flatten) := by
  induction chunks generalizing d with
  | nil => simp [Remainder.run, hd]
  | cons chunk chunks ih =>
    obtain ⟨hlen, hw⟩ := hw
    have hlen := hlen d rfl
    obtain ⟨⟨rs, s⟩, hs⟩ := isSome_iff_exists.1 (hp.drain_isSome hlen)
    rw [flatten_cons, ← append_assoc, hp.drain_append hlen hs]
    simp only [Remainder.run, Remainder.feed, hs, bind_some]
    congr 1
    cases s with
    | rest buffer => exact ih (drain_rest hs).1 (hw rs (.rest buffer) hs)
    | rejected e =>
      clear ih hw
      induction chunks with
      | nil => rfl
      | cons chunk chunks ih => simp [Remainder.run, Remainder.feed, ih]

theorem run_eq_run {chunks' : List (List α)} (hflatten : chunks.flatten = chunks'.flatten)
    (hw : Remainder.Within parse limit (.rest []) chunks)
    (hw' : Remainder.Within parse limit (.rest []) chunks') :
    (Remainder.rest []).run parse chunks = (Remainder.rest []).run parse chunks' := by
  rw [hp.run_eq_drain drain_nil hw, hp.run_eq_drain drain_nil hw', hflatten]

theorem run_isSome (hw : s.Within parse limit chunks) : (s.run parse chunks).isSome := by
  induction chunks generalizing s with
  | nil => rfl
  | cons chunk chunks ih =>
    obtain ⟨hlen, hw⟩ := hw
    have hfeed : (s.feed parse chunk).isSome := by
      cases s with
      | rest buffer => exact hp.drain_isSome (hlen buffer rfl)
      | rejected e => rfl
    obtain ⟨⟨rs, s'⟩, hs⟩ := isSome_iff_exists.1 hfeed
    simp only [Remainder.run, hs, bind_some, isSome_map]
    exact ih (hw rs s' hs)

end Stable

end QBittorrent
