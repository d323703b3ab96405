import Mathlib.Order.WellFounded
import Mathlib.Data.Set.Finite.Basic

/-!
# Recursive procedures that read a memory

A `Prog` reads cells of a memory and calls one recursive procedure, whose body is a `Prog` for each
argument.  `proc` runs the procedure to some depth of calls, and `procReads` is the list of the cells
that such a run reads, also of a run that is cut off.

* `exists_proc_iff` : a big-step relation for the results, `Returns`.
* `returns_bind_iff`, `calls_bind_iff`, `reads_bind_iff` : sequencing.
* `Returns.of_ensures`, `Calls.of_ensures` : specifications of the procedure by pre- and
  postconditions, assumed of the calls in its body.
* `exists_proc_iff_acc` : the procedure returns if its calls are well founded, and only then.
* `exists_proc_iff_not_cycle` : **on finitely many arguments it returns if no call that it gets to
  leads back to itself, and only then**.
* `mem_procReads_iff` : the cells that are read are those that the bodies of the calls it gets to
  read on their own.
-/

namespace QBittorrent

open Relation List

/-- Programs that read cells and call a procedure with arguments `N` and results `V`. -/
inductive Prog (A B N V R : Type) where
  | ret (r : R)
  | read (a : A) (k : B → Prog A B N V R)
  | call (n : N) (k : V → Prog A B N V R)

namespace Prog

variable {A B N V R S : Type}

/-- Sequencing. -/
def bind : Prog A B N V R → (R → Prog A B N V S) → Prog A B N V S
  | ret r, f => f r
  | read a k, f => read a fun b => (k b).bind f
  | call n k, f => call n fun v => (k v).bind f

instance : Monad (Prog A B N V) where
  pure := ret
  bind := bind

theorem pure_eq (r : R) : (pure r : Prog A B N V R) = ret r := rfl

theorem ret_bind (r : R) (f : R → Prog A B N V S) : (ret r >>= f) = f r := rfl

theorem read_bind (a : A) (k : B → Prog A B N V R) (f : R → Prog A B N V S) :
    (read a k >>= f) = read a fun b => k b >>= f := rfl

theorem call_bind (n : N) (k : V → Prog A B N V R) (f : R → Prog A B N V S) :
    (call n k >>= f) = call n fun v => k v >>= f := rfl

def cell (a : A) : Prog A B N V B := read a ret

def recurse (n : N) : Prog A B N V V := call n ret

section Run

variable (mem : A → B) (body : N → Prog A B N V V)

/-- The result of a program whose calls return what `proc` says. -/
def evalWith (proc : N → Option V) : Prog A B N V R → Option R
  | ret r => some r
  | read a k => (k (mem a)).evalWith proc
  | call n k => (proc n).bind fun v => (k v).evalWith proc

/-- The procedure, with calls down to some depth. -/
def proc : ℕ → N → Option V
  | 0, _ => none
  | fuel + 1, n => (body n).evalWith mem (proc fuel)

/-- The cells that are read on the way. -/
def readsWith (proc : N → Option V) (procReads : N → List A) : Prog A B N V R → List A
  | ret _ => []
  | read a k => a :: (k (mem a)).readsWith proc procReads
  | call n k => procReads n ++ (proc n).elim [] fun v => (k v).readsWith proc procReads

/-- The cells that the procedure reads, with calls down to some depth. -/
def procReads : ℕ → N → List A
  | 0, _ => []
  | fuel + 1, n => (body n).readsWith mem (proc mem body fuel) (procReads fuel)

/-- The arguments of the calls that a program makes. -/
def callsWith (proc : N → Option V) : Prog A B N V R → List N
  | ret _ => []
  | read a k => (k (mem a)).callsWith proc
  | call n k => n :: (proc n).elim [] fun v => (k v).callsWith proc

/-- A program returns a result. -/
inductive Returns : {R : Type} → Prog A B N V R → R → Prop
  | ret {R : Type} (r : R) : Returns (ret r) r
  | read {R : Type} {a : A} {k : B → Prog A B N V R} {r : R} (h : Returns (k (mem a)) r) :
    Returns (read a k) r
  | call {R : Type} {n : N} {k : V → Prog A B N V R} {v : V} {r : R} (hv : Returns (body n) v)
    (h : Returns (k v) r) : Returns (call n k) r

/-- A program gets to a call. -/
inductive Calls : {R : Type} → Prog A B N V R → N → Prop
  | read {R : Type} {a : A} {k : B → Prog A B N V R} {n : N} (h : Calls (k (mem a)) n) :
    Calls (read a k) n
  | here {R : Type} {n : N} {k : V → Prog A B N V R} : Calls (call n k) n
  | later {R : Type} {n m : N} {k : V → Prog A B N V R} {v : V} (hv : Returns mem body (body n) v)
    (h : Calls (k v) m) : Calls (call n k) m

/-- A program gets to read a cell on its own. -/
inductive Reads : {R : Type} → Prog A B N V R → A → Prop
  | here {R : Type} {a : A} {k : B → Prog A B N V R} : Reads (read a k) a
  | read {R : Type} {a c : A} {k : B → Prog A B N V R} (h : Reads (k (mem a)) c) :
    Reads (read a k) c
  | later {R : Type} {n : N} {c : A} {k : V → Prog A B N V R} {v : V}
    (hv : Returns mem body (body n) v) (h : Reads (k v) c) : Reads (call n k) c

/-- One call of the procedure leads to another. -/
def Leads (n m : N) : Prop := Calls mem body (body n) m

end Run

/-- The weakest precondition for a result that satisfies `Q`, of a program that may call the
procedure where `pre` holds, and gets results that satisfy `post`. -/
def Ensures (pre : N → Prop) (post : N → V → Prop) : Prog A B N V R → (R → Prop) → Prop
  | ret r, Q => Q r
  | read _ k, Q => ∀ b, (k b).Ensures pre post Q
  | call n k, Q => pre n ∧ ∀ v, post n v → (k v).Ensures pre post Q

section Lemmas

variable {mem : A → B} {body : N → Prog A B N V V} {p : Prog A B N V R} {r : R} {fuel : ℕ} {n m : N}
  {v : V}

theorem evalWith_mono {proc proc' : N → Option V} (h : ∀ n v, proc n = some v → proc' n = some v)
    (hr : p.evalWith mem proc = some r) : p.evalWith mem proc' = some r := by
  induction p with
  | ret r' => exact hr
  | read a k ih => exact ih _ hr
  | call n k ih =>
    obtain ⟨v, hv, hk⟩ := Option.bind_eq_some_iff.1 hr
    rw [evalWith, h n v hv, Option.bind_some]
    exact ih v hk

theorem proc_mono {fuel' : ℕ} (hle : fuel ≤ fuel') (h : proc mem body fuel n = some v) :
    proc mem body fuel' n = some v := by
  induction fuel generalizing fuel' n v with
  | zero => cases h
  | succ fuel ih =>
    obtain ⟨fuel', rfl⟩ := Nat.exists_eq_add_of_lt (Nat.lt_of_succ_le hle)
    exact evalWith_mono (fun m w hw => ih (by omega) hw) h

theorem Returns.evalWith (h : Returns mem body p r) :
    ∃ fuel, p.evalWith mem (proc mem body fuel) = some r := by
  induction h with
  | ret r => exact ⟨0, rfl⟩
  | read _ ih => exact ih
  | @call R n k v r _ _ ihv ih =>
    obtain ⟨fuel, hv⟩ := ihv
    obtain ⟨fuel', hk⟩ := ih
    refine ⟨max (fuel + 1) fuel', ?_⟩
    have hn : proc mem body (fuel + 1) n = some v := hv
    have hn := proc_mono (le_max_left (fuel + 1) fuel') hn
    rw [Prog.evalWith, hn, Option.bind_some]
    exact evalWith_mono (fun m w hw => proc_mono (le_max_right _ _) hw) hk

theorem returns_of_evalWith {proc : N → Option V}
    (hproc : ∀ n v, proc n = some v → Returns mem body (body n) v)
    (h : p.evalWith mem proc = some r) : Returns mem body p r := by
  induction p with
  | ret r' =>
    cases h
    exact .ret _
  | read a k ih => exact .read (ih _ h)
  | call n k ih =>
    obtain ⟨v, hv, hk⟩ := Option.bind_eq_some_iff.1 h
    exact .call (hproc n v hv) (ih v hk)

theorem returns_of_proc (h : proc mem body fuel n = some v) : Returns mem body (body n) v := by
  induction fuel generalizing n v with
  | zero => cases h
  | succ fuel ih => exact returns_of_evalWith (fun m w hw => ih hw) h

theorem exists_evalWith_iff :
    (∃ fuel, p.evalWith mem (proc mem body fuel) = some r) ↔ Returns mem body p r :=
  ⟨fun ⟨_, h⟩ => returns_of_evalWith (fun _ _ hv => returns_of_proc hv) h, Returns.evalWith⟩

theorem exists_proc_iff :
    (∃ fuel, proc mem body fuel n = some v) ↔ Returns mem body (body n) v := by
  rw [← exists_evalWith_iff]
  constructor
  · rintro ⟨_ | fuel, h⟩
    · cases h
    · exact ⟨fuel, h⟩
  · rintro ⟨fuel, h⟩
    exact ⟨fuel + 1, h⟩

theorem calls_of_mem_callsWith (fuel : ℕ) (h : m ∈ p.callsWith mem (proc mem body fuel)) :
    Calls mem body p m := by
  induction p with
  | ret r => cases h
  | read a k ih => exact .read (ih _ h)
  | call n k ih =>
    obtain rfl | h := mem_cons.1 h
    · exact .here
    · cases hn : proc mem body fuel n with
      | none => simp [hn] at h
      | some v =>
        rw [hn] at h
        exact .later (returns_of_proc hn) (ih v h)

theorem Returns.unique {r' : R} (h : Returns mem body p r) (h' : Returns mem body p r') :
    r = r' := by
  obtain ⟨fuel, h⟩ := h.evalWith
  obtain ⟨fuel', h'⟩ := h'.evalWith
  have h₁ := evalWith_mono (fun n v hv => proc_mono (le_max_left fuel fuel') hv) h
  have h₂ := evalWith_mono (fun n v hv => proc_mono (le_max_right fuel fuel') hv) h'
  exact Option.some.inj (h₁.symm.trans h₂)

section Bind

variable {f : R → Prog A B N V S} {r : R} {a : A} {k : B → Prog A B N V R} {n m : N}

theorem returns_ret_iff {r' : R} : Returns mem body (ret r) r' ↔ r = r' := by
  constructor
  · rintro ⟨⟩
    rfl
  · rintro rfl
    exact .ret r

theorem returns_read_iff : Returns mem body (read a k) r ↔ Returns mem body (k (mem a)) r := by
  constructor
  · rintro ⟨⟩
    assumption
  · exact .read

theorem returns_call_iff {k : V → Prog A B N V R} :
    Returns mem body (call n k) r ↔
      ∃ v, Returns mem body (body n) v ∧ Returns mem body (k v) r := by
  constructor
  · rintro (_ | _ | ⟨hv, h⟩)
    exact ⟨_, hv, h⟩
  · rintro ⟨v, hv, h⟩
    exact .call hv h

theorem returns_bind_iff {r : S} : Returns mem body (p >>= f) r ↔
    ∃ r', Returns mem body p r' ∧ Returns mem body (f r') r := by
  induction p with
  | ret r' => simp only [ret_bind, returns_ret_iff, exists_eq_left']
  | read a k ih => simp only [read_bind, returns_read_iff, ih]
  | call n k ih =>
    simp only [call_bind, returns_call_iff, ih]
    constructor
    · rintro ⟨v, hv, r', h, h'⟩
      exact ⟨r', ⟨v, hv, h⟩, h'⟩
    · rintro ⟨r', ⟨v, hv, h⟩, h'⟩
      exact ⟨v, hv, r', h, h'⟩

theorem not_calls_ret : ¬ Calls mem body (ret r : Prog A B N V R) m := by
  rintro ⟨⟩

theorem calls_read_iff : Calls mem body (read a k) m ↔ Calls mem body (k (mem a)) m := by
  constructor
  · rintro ⟨⟩
    assumption
  · exact .read

theorem calls_call_iff {k : V → Prog A B N V R} : Calls mem body (call n k) m ↔
    m = n ∨ ∃ v, Returns mem body (body n) v ∧ Calls mem body (k v) m := by
  constructor
  · rintro (_ | _ | ⟨hv, h⟩)
    · exact .inl rfl
    · exact .inr ⟨_, hv, h⟩
  · rintro (rfl | ⟨v, hv, h⟩)
    · exact .here
    · exact .later hv h

theorem calls_bind_iff : Calls mem body (p >>= f) m ↔
    Calls mem body p m ∨ ∃ r, Returns mem body p r ∧ Calls mem body (f r) m := by
  induction p with
  | ret r => simp only [ret_bind, not_calls_ret, returns_ret_iff, exists_eq_left', false_or]
  | read a k ih => simp only [read_bind, calls_read_iff, returns_read_iff, ih]
  | call n k ih =>
    simp only [call_bind, calls_call_iff, returns_call_iff, ih]
    constructor
    · rintro (h | ⟨v, hv, h | ⟨r, hr, h⟩⟩)
      · exact .inl (.inl h)
      · exact .inl (.inr ⟨v, hv, h⟩)
      · exact .inr ⟨r, ⟨v, hv, hr⟩, h⟩
    · rintro ((h | ⟨v, hv, h⟩) | ⟨r, ⟨v, hv, hr⟩, h⟩)
      · exact .inl h
      · exact .inr ⟨v, hv, .inl h⟩
      · exact .inr ⟨v, hv, .inr ⟨r, hr, h⟩⟩

theorem not_reads_ret : ¬ Reads mem body (ret r : Prog A B N V R) a := by
  rintro ⟨⟩

theorem reads_read_iff {c : A} :
    Reads mem body (read a k) c ↔ c = a ∨ Reads mem body (k (mem a)) c := by
  constructor
  · rintro (_ | h)
    · exact .inl rfl
    · exact .inr h
  · rintro (rfl | h)
    · exact .here
    · exact .read h

theorem reads_call_iff {k : V → Prog A B N V R} :
    Reads mem body (call n k) a ↔ ∃ v, Returns mem body (body n) v ∧ Reads mem body (k v) a := by
  constructor
  · rintro (_ | _ | ⟨hv, h⟩)
    exact ⟨_, hv, h⟩
  · rintro ⟨v, hv, h⟩
    exact .later hv h

theorem reads_bind_iff : Reads mem body (p >>= f) a ↔
    Reads mem body p a ∨ ∃ r, Returns mem body p r ∧ Reads mem body (f r) a := by
  induction p with
  | ret r => simp only [ret_bind, not_reads_ret, returns_ret_iff, exists_eq_left', false_or]
  | read c k ih => simp only [read_bind, reads_read_iff, returns_read_iff, ih, or_assoc]
  | call n k ih =>
    simp only [call_bind, reads_call_iff, returns_call_iff, ih]
    constructor
    · rintro ⟨v, hv, h | ⟨r, hr, h⟩⟩
      · exact .inl ⟨v, hv, h⟩
      · exact .inr ⟨r, ⟨v, hv, hr⟩, h⟩
    · rintro (⟨v, hv, h⟩ | ⟨r, ⟨v, hv, hr⟩, h⟩)
      · exact ⟨v, hv, .inl h⟩
      · exact ⟨v, hv, .inr ⟨r, hr, h⟩⟩

end Bind

section Ensures

variable {pre : N → Prop} {post : N → V → Prop} {Q : R → Prop}

theorem ensures_bind {f : R → Prog A B N V S} {Q' : S → Prop} :
    (p >>= f).Ensures pre post Q' ↔ p.Ensures pre post fun r => (f r).Ensures pre post Q' := by
  induction p with
  | ret r => exact Iff.rfl
  | read a k ih => exact forall_congr' fun b => ih b
  | call n k ih => exact and_congr_right' (forall₂_congr fun v _ => ih v)

theorem Ensures.mono {Q' : R → Prop} (h : p.Ensures pre post Q) (hQ : ∀ r, Q r → Q' r) :
    p.Ensures pre post Q' := by
  induction p with
  | ret r => exact hQ r h
  | read a k ih => exact fun b => ih b (h b)
  | call n k ih => exact ⟨h.1, fun v hv => ih v (h.2 v hv)⟩

variable (hbody : ∀ n, pre n → (body n).Ensures pre post (post n))

include hbody

theorem Returns.of_ensures {r : R} (h : Returns mem body p r) (hp : p.Ensures pre post Q) :
    Q r := by
  induction h with
  | ret r => exact hp
  | read _ ih => exact ih (hp _)
  | @call R n k v r _ _ ihv ih => exact ih (hp.2 v (ihv (hbody n hp.1)))

theorem Calls.of_ensures {m : N} (h : Calls mem body p m) (hp : p.Ensures pre post Q) : pre m := by
  induction h with
  | read _ ih => exact ih (hp _)
  | here => exact hp.1
  | @later n m k v hv _ ih => exact ih (hp.2 v (hv.of_ensures hbody (hbody n hp.1)))

theorem pre_of_reflTransGen {n m : N} (hn : pre n)
    (h : Relation.ReflTransGen (Leads mem body) n m) : pre m := by
  induction h with
  | refl => exact hn
  | tail _ h ih => exact Calls.of_ensures hbody h (hbody _ ih)

end Ensures

/-! ### Termination -/

theorem isSome_of_calls (h : (p.evalWith mem (proc mem body fuel)).isSome)
    (hm : Calls mem body p m) : (proc mem body fuel m).isSome := by
  induction hm with
  | read _ ih => exact ih h
  | @here n k =>
    cases hn : proc mem body fuel n with
    | none => simp [evalWith, hn] at h
    | some v => rfl
  | @later n m k v hv _ ih =>
    cases hn : proc mem body fuel n with
    | none => simp [evalWith, hn] at h
    | some w =>
      obtain rfl : w = v := (returns_of_proc hn).unique hv
      rw [evalWith, hn] at h
      exact ih h

theorem isSome_evalWith_of_not_calls (h : ∀ m, ¬ Calls mem body p m) (proc : N → Option V) :
    (p.evalWith mem proc).isSome := by
  induction p with
  | ret r => rfl
  | read a k ih => exact ih _ fun m hm => h m (.read hm)
  | call n k => exact (h n .here).elim

theorem returns_iff_of_not_calls (h : ∀ m, ¬ Calls mem body p m) (proc : N → Option V) :
    Returns mem body p r ↔ p.evalWith mem proc = some r := by
  induction p with
  | ret r' => exact returns_ret_iff.trans Option.some_inj.symm
  | read a k ih => exact returns_read_iff.trans (ih _ fun m hm => h m (.read hm))
  | call n k => exact (h n .here).elim

theorem exists_returns (h : ∀ m, Calls mem body p m → ∃ v, Returns mem body (body m) v) :
    ∃ r, Returns mem body p r := by
  induction p with
  | ret r => exact ⟨r, .ret r⟩
  | read a k ih =>
    obtain ⟨r, hr⟩ := ih _ fun m hm => h m (.read hm)
    exact ⟨r, .read hr⟩
  | call n k ih =>
    obtain ⟨v, hv⟩ := h n .here
    obtain ⟨r, hr⟩ := ih v fun m hm => h m (.later hv hm)
    exact ⟨r, .call hv hr⟩

theorem exists_proc_iff_acc :
    (∃ fuel, (proc mem body fuel n).isSome) ↔ Acc (fun m n => Leads mem body n m) n := by
  constructor
  · rintro ⟨fuel, h⟩
    induction fuel generalizing n with
    | zero => cases h
    | succ fuel ih => exact ⟨n, fun m hm => ih (isSome_of_calls h hm)⟩
  · intro h
    induction h with
    | intro n _ ih =>
      obtain ⟨v, hv⟩ : ∃ v, Returns mem body (body n) v := by
        refine exists_returns fun m hm => ?_
        obtain ⟨fuel, hfuel⟩ := ih m hm
        obtain ⟨v, hv⟩ := Option.isSome_iff_exists.1 hfuel
        exact ⟨v, returns_of_proc hv⟩
      obtain ⟨fuel, hfuel⟩ := exists_proc_iff.2 hv
      exact ⟨fuel, by rw [hfuel]; rfl⟩

theorem acc_iff_not_cycle {r : N → N → Prop} (hfin : {m | Relation.ReflTransGen r n m}.Finite) :
    Acc (fun m n => r n m) n ↔ ¬ ∃ m, Relation.ReflTransGen r n m ∧ Relation.TransGen r m m := by
  constructor
  · rintro hacc ⟨m, hnm, hmm⟩
    have hswap : TransGen (fun m n => r n m) m m := transGen_swap.2 hmm
    -- accessibility goes down to `m`, which is below itself
    have hdown : ∀ m, ReflTransGen r n m → Acc (fun m n => r n m) m := by
      intro m hnm
      induction hnm with
      | refl => exact hacc
      | tail _ h ih => exact ih.inv h
    have hm := (hdown m hnm).transGen
    clear hmm hnm
    induction hm with
    | intro m _ ih => exact ih m hswap hswap
  · intro hcycle
    have : Finite {m // ReflTransGen r n m} := hfin.to_subtype
    let below (x y : {m // ReflTransGen r n m}) : Prop := TransGen r y.1 x.1
    have : Std.Irrefl below := ⟨fun x h => hcycle ⟨x.1, x.2, h⟩⟩
    have hwf := Finite.wellFounded_of_trans_of_irrefl below
    have hacc : ∀ x : {m // ReflTransGen r n m}, Acc (fun m n => r n m) x.1 := by
      intro x
      induction x using hwf.induction with
      | h x ih => exact ⟨x.1, fun m hm => ih ⟨m, x.2.tail hm⟩ (.single hm)⟩
    exact hacc ⟨n, .refl⟩

theorem exists_proc_iff_not_cycle (hfin : {m | Relation.ReflTransGen (Leads mem body) n m}.Finite) :
    (∃ fuel, (proc mem body fuel n).isSome) ↔
      ¬ ∃ m, Relation.ReflTransGen (Leads mem body) n m ∧ Relation.TransGen (Leads mem body) m m := by
  rw [exists_proc_iff_acc, acc_iff_not_cycle hfin]

theorem exists_evalWith_iff_not_cycle
    (hfin : ∀ n, Calls mem body p n → {m | Relation.ReflTransGen (Leads mem body) n m}.Finite) :
    (∃ fuel, (p.evalWith mem (proc mem body fuel)).isSome) ↔ ∀ n, Calls mem body p n →
      ¬ ∃ m, Relation.ReflTransGen (Leads mem body) n m ∧ Relation.TransGen (Leads mem body) m m := by
  constructor
  · rintro ⟨fuel, h⟩ n hn
    exact (exists_proc_iff_not_cycle (hfin n hn)).1 ⟨fuel, isSome_of_calls h hn⟩
  · intro h
    obtain ⟨r, hr⟩ : ∃ r, Returns mem body p r := by
      refine exists_returns fun n hn => ?_
      obtain ⟨fuel, hfuel⟩ := (exists_proc_iff_not_cycle (hfin n hn)).2 (h n hn)
      obtain ⟨v, hv⟩ := Option.isSome_iff_exists.1 hfuel
      exact ⟨v, returns_of_proc hv⟩
    obtain ⟨fuel, hfuel⟩ := hr.evalWith
    exact ⟨fuel, by rw [hfuel]; rfl⟩

/-! ### Cells that are read -/

variable {a : A}

theorem mem_readsWith_mono {proc proc' : N → Option V} {procReads procReads' : N → List A}
    (h : ∀ n v, proc n = some v → proc' n = some v)
    (hreads : ∀ n a, a ∈ procReads n → a ∈ procReads' n) (ha : a ∈ p.readsWith mem proc procReads) :
    a ∈ p.readsWith mem proc' procReads' := by
  induction p with
  | ret r => exact ha
  | read c k ih =>
    obtain rfl | ha := mem_cons.1 ha
    · exact mem_cons_self
    · exact mem_cons_of_mem _ (ih _ ha)
  | call n k ih =>
    obtain ha | ha := mem_append.1 ha
    · exact mem_append_left _ (hreads n a ha)
    · refine mem_append_right _ ?_
      cases hn : proc n with
      | none => simp [hn] at ha
      | some v =>
        rw [h n v hn]
        rw [hn] at ha
        exact ih v ha

theorem mem_procReads_mono {fuel' : ℕ} (hle : fuel ≤ fuel') (ha : a ∈ procReads mem body fuel n) :
    a ∈ procReads mem body fuel' n := by
  induction fuel generalizing fuel' n a with
  | zero => cases ha
  | succ fuel ih =>
    obtain ⟨fuel', rfl⟩ := Nat.exists_eq_add_of_lt (Nat.lt_of_succ_le hle)
    exact mem_readsWith_mono (fun m w hw => proc_mono (Nat.le_add_right _ _) hw)
      (fun m c hc => ih (Nat.le_add_right _ _) hc) ha

theorem reads_or_of_mem_readsWith
    (ha : a ∈ p.readsWith mem (proc mem body fuel) (procReads mem body fuel)) :
    Reads mem body p a ∨ ∃ n, Calls mem body p n ∧ a ∈ procReads mem body fuel n := by
  induction p with
  | ret r => cases ha
  | read c k ih =>
    obtain rfl | ha := mem_cons.1 ha
    · exact .inl .here
    · exact (ih _ ha).imp .read fun ⟨n, hn, h⟩ => ⟨n, .read hn, h⟩
  | call n k ih =>
    obtain ha | ha := mem_append.1 ha
    · exact .inr ⟨n, .here, ha⟩
    · cases hn : proc mem body fuel n with
      | none => simp [hn] at ha
      | some v =>
        have hv := returns_of_proc hn
        rw [hn] at ha
        exact (ih v ha).imp (.later hv) fun ⟨m, hm, h⟩ => ⟨m, .later hv hm, h⟩

theorem Reads.mem_readsWith (h : Reads mem body p a) :
    ∃ fuel, a ∈ p.readsWith mem (proc mem body fuel) (procReads mem body fuel) := by
  induction h with
  | here => exact ⟨0, mem_cons_self⟩
  | read _ ih =>
    obtain ⟨fuel, h⟩ := ih
    exact ⟨fuel, mem_cons_of_mem _ h⟩
  | @later n c k v hv _ ih =>
    obtain ⟨fuel, h⟩ := ih
    obtain ⟨fuel', hn⟩ := exists_proc_iff.2 hv
    refine ⟨max fuel fuel', mem_append_right _ ?_⟩
    rw [proc_mono (le_max_right fuel fuel') hn]
    exact mem_readsWith_mono (fun m w hw => proc_mono (le_max_left _ _) hw)
      (fun m c hc => mem_procReads_mono (le_max_left _ _) hc) h

theorem Calls.mem_readsWith (h : Calls mem body p n) (ha : a ∈ procReads mem body fuel n) :
    ∃ fuel, a ∈ p.readsWith mem (proc mem body fuel) (procReads mem body fuel) := by
  induction h with
  | read _ ih =>
    obtain ⟨fuel, h⟩ := ih ha
    exact ⟨fuel, mem_cons_of_mem _ h⟩
  | here => exact ⟨fuel, mem_append_left _ ha⟩
  | @later n m k v hv _ ih =>
    obtain ⟨fuel₁, h⟩ := ih ha
    obtain ⟨fuel₂, hn⟩ := exists_proc_iff.2 hv
    refine ⟨max fuel₁ fuel₂, mem_append_right _ ?_⟩
    rw [proc_mono (le_max_right fuel₁ fuel₂) hn]
    exact mem_readsWith_mono (fun m w hw => proc_mono (le_max_left _ _) hw)
      (fun m c hc => mem_procReads_mono (le_max_left _ _) hc) h

theorem mem_procReads_iff :
    (∃ fuel, a ∈ procReads mem body fuel n) ↔
      ∃ m, Relation.ReflTransGen (Leads mem body) n m ∧ Reads mem body (body m) a := by
  constructor
  · rintro ⟨fuel, ha⟩
    induction fuel generalizing n with
    | zero => cases ha
    | succ fuel ih =>
      obtain h | ⟨m, hm, ha⟩ := reads_or_of_mem_readsWith (p := body n) ha
      · exact ⟨n, .refl, h⟩
      · obtain ⟨m', hm', h⟩ := ih ha
        exact ⟨m', .head hm hm', h⟩
  · rintro ⟨m, hnm, h⟩
    induction hnm using ReflTransGen.head_induction_on with
    | refl =>
      obtain ⟨fuel, ha⟩ := h.mem_readsWith
      exact ⟨fuel + 1, ha⟩
    | head hm _ ih =>
      obtain ⟨fuel, ha⟩ := ih
      obtain ⟨fuel', ha⟩ := Calls.mem_readsWith hm ha
      exact ⟨fuel' + 1, ha⟩

theorem mem_readsWith_iff :
    (∃ fuel, a ∈ p.readsWith mem (proc mem body fuel) (procReads mem body fuel)) ↔
      Reads mem body p a ∨ ∃ n, Calls mem body p n ∧ ∃ fuel, a ∈ procReads mem body fuel n := by
  constructor
  · rintro ⟨fuel, ha⟩
    exact (reads_or_of_mem_readsWith ha).imp_right fun ⟨n, hn, h⟩ => ⟨n, hn, fuel, h⟩
  · rintro (h | ⟨n, hn, fuel, ha⟩)
    · exact h.mem_readsWith
    · exact hn.mem_readsWith ha

theorem mem_readsWith_iff_of_not_calls (h : ∀ m, ¬ Calls mem body p m) (proc : N → Option V)
    (procReads : N → List A) : a ∈ p.readsWith mem proc procReads ↔ Reads mem body p a := by
  induction p with
  | ret r => exact iff_of_false not_mem_nil not_reads_ret
  | read c k ih =>
    rw [readsWith, mem_cons, reads_read_iff, ih _ fun m hm => h m (.read hm)]
  | call n k => exact (h n .here).elim

end Lemmas

end Prog

end QBittorrent
