import QBittorrent.Lib.Dict

/-!
# A list and a table of positions

A program keeps a list of entries, each with a key of its own, and beside it a table that finds the
position of a key.  Every edit of the list that moves entries must be followed in the table.

* `Positions.append`, `Positions.set`, `Positions.rename`, `Positions.renumber_eraseIdx`,
  `Positions.renumber_perm` : the edits that keep the table right.
-/

namespace QBittorrent

open List Option Dict

variable {α K : Type*} [DecidableEq K] {key : α → K} {l l' : List α} {d : Dict K ℕ} {a : α}
  {k : K} {i start : ℕ}

/-- The table `d` maps the key of every entry of `l` to its position, and nothing else. -/
def Positions (key : α → K) (l : List α) (d : Dict K ℕ) : Prop :=
  ∀ k i, d.lookup k = some i ↔ l[i]?.map key = some k

/-- Write the positions of the entries from `start` on. -/
def renumber (key : α → K) (start : ℕ) (l : List α) (d : Dict K ℕ) : Dict K ℕ :=
  (((l.drop start).zipIdx start).map fun e => (key e.1, e.2)).foldl
    (fun d e => d.insert e.1 e.2) d

/-- The list holds the entries of `b`. -/
def Entries (key : α → K) (l : List α) (b : Dict K α) : Prop :=
  ∀ k a, b.lookup k = some a ↔ a ∈ l ∧ key a = k

/-! ### Keys -/

theorem Positions.empty : Positions key ([] : List α) ∅ := by
  intro k i
  simp

section

variable (h : Positions key l d)

include h

theorem Positions.nodup : (l.map key).Nodup := by
  refine nodup_iff_getElem?_ne_getElem?.2 fun i j hij hj heq => ?_
  rw [length_map] at hj
  have hi : l[i]?.map key = some (key l[i]) := by simp [getElem?_eq_getElem (hij.trans hj)]
  rw [getElem?_map, getElem?_map, hi] at heq
  have := (h _ _).2 hi
  rw [(h _ _).2 heq.symm] at this
  exact hij.ne' (some.inj this)

theorem Positions.mem_iff : k ∈ d ↔ ∃ a ∈ l, key a = k := by
  rw [Finmap.mem_iff]
  constructor
  · rintro ⟨i, hi⟩
    obtain ⟨a, ha, rfl⟩ := map_eq_some_iff.1 ((h k i).1 hi)
    exact ⟨a, mem_of_getElem? ha, rfl⟩
  · rintro ⟨a, ha, rfl⟩
    obtain ⟨i, hi⟩ := mem_iff_getElem?.1 ha
    exact ⟨i, (h _ i).2 (by rw [hi]; rfl)⟩

theorem Positions.lookup_of_getElem? (ha : l[i]? = some a) :
    d.lookup (key a) = some i := (h _ _).2 (by rw [ha]; rfl)

theorem Positions.getElem?_of_lookup (hi : d.lookup k = some i) :
    ∃ a, l[i]? = some a ∧ key a = k := map_eq_some_iff.1 ((h k i).1 hi)

end

/-! ### Edits that move nothing -/

section

variable (h : Positions key l d)

include h

theorem Positions.append (ha : key a ∉ d) :
    Positions key (l ++ [a]) (d.insert (key a) l.length) := by
  intro k i
  rw [lookup_insert_eq]
  rcases Nat.lt_trichotomy i l.length with hi | rfl | hi
  · rw [getElem?_append_left hi, ← h k i]
    by_cases hk : k = key a
    · subst hk
      rw [if_pos rfl, Finmap.lookup_eq_none.2 ha]
      simp only [some.injEq, reduceCtorEq, iff_false]
      omega
    · rw [if_neg hk]
  · by_cases hk : k = key a
    · simp [hk]
    · rw [if_neg hk, h k l.length, getElem?_eq_none le_rfl]
      simp [Ne.symm hk]
  · have hnone : (l ++ [a])[i]? = none := getElem?_eq_none (by simp; omega)
    have hout : l[i]? = none := getElem?_eq_none hi.le
    rw [hnone]
    by_cases hk : k = key a
    · rw [if_pos hk]
      simp only [some.injEq, map_none, reduceCtorEq, iff_false]
      omega
    · rw [if_neg hk, h k i, hout]

theorem Positions.map {f : α → α} (hf : ∀ a, key (f a) = key a) : Positions key (l.map f) d := by
  intro k i
  rw [h k i, getElem?_map, Option.map_map]
  have : key ∘ f = key := funext hf
  rw [this]

theorem Positions.set (hi : d.lookup (key a) = some i) : Positions key (l.set i a) d := by
  intro k j
  obtain ⟨a', ha', hk'⟩ := h.getElem?_of_lookup hi
  rw [h k j, getElem?_set]
  by_cases hij : i = j
  · subst hij
    have hlen := (List.getElem?_eq_some_iff.1 ha').1
    rw [if_pos rfl, if_pos hlen, ha', map_some, map_some, hk']
  · rw [if_neg hij]

theorem Positions.rename (hi : d.lookup k = some i) (ha : key a ∉ d) :
    Positions key (l.set i a) ((d.erase k).insert (key a) i) := by
  obtain ⟨b, hb, rfl⟩ := h.getElem?_of_lookup hi
  have hlen := (List.getElem?_eq_some_iff.1 hb).1
  intro k' j
  rw [lookup_insert_eq, lookup_erase_eq, getElem?_set]
  by_cases hij : i = j
  · subst hij
    rw [if_pos rfl, if_pos hlen]
    by_cases hk : k' = key a
    · simp [hk]
    · rw [if_neg hk]
      by_cases hb' : k' = key b
      · subst hb'
        simpa using Ne.symm hk
      · rw [if_neg hb', h k' i, hb]
        simp [Ne.symm hk, Ne.symm hb']
  · rw [if_neg hij]
    by_cases hk : k' = key a
    · subst hk
      have hout : ¬ (l[j]?.map key = some (key a)) := fun hj =>
        ha (Finmap.mem_iff.2 ⟨j, (h _ _).2 hj⟩)
      rw [if_pos rfl]
      exact iff_of_false (fun heq => hij (some.inj heq)) hout
    · rw [if_neg hk]
      by_cases hb' : k' = key b
      · subst hb'
        rw [if_pos rfl, ← h _ j, hi]
        simp [hij]
      · rw [if_neg hb', h k' j]

end

/-! ### Renumbering -/

section

omit [DecidableEq K]

private theorem mem_numbered {e : K × ℕ} :
    e ∈ ((l.drop start).zipIdx start).map (fun e => (key e.1, e.2)) ↔
      start ≤ e.2 ∧ l[e.2]?.map key = some e.1 := by
  rw [List.mem_map]
  constructor
  · rintro ⟨⟨a, j⟩, hmem, rfl⟩
    obtain ⟨hj, hget⟩ := mem_zipIdx_iff_le_and_getElem?_sub.1 hmem
    rw [getElem?_drop, Nat.add_sub_cancel' hj] at hget
    exact ⟨hj, by rw [hget]; rfl⟩
  · rintro ⟨hj, hget⟩
    obtain ⟨a, ha, hk⟩ := map_eq_some_iff.1 hget
    refine ⟨(a, e.2), mem_zipIdx_iff_le_and_getElem?_sub.2 ⟨hj, ?_⟩, by rw [hk]⟩
    rw [getElem?_drop, Nat.add_sub_cancel' hj]
    exact ha

private theorem numbered_keys (start : ℕ) :
    (((l.drop start).zipIdx start).map (fun e => (key e.1, e.2))).map Prod.fst =
      (l.drop start).map key := by
  rw [List.map_map]
  change ((l.drop start).zipIdx start).map (key ∘ Prod.fst) = _
  rw [← List.map_map, zipIdx_map_fst]

end

theorem lookup_renumber_of_le (hl : (l.map key).Nodup) (hi : start ≤ i)
    (hk : l[i]?.map key = some k) : (renumber key start l d).lookup k = some i := by
  refine lookup_foldl_insert_of_mem (e := (k, i)) ?_ (mem_numbered.2 ⟨hi, hk⟩) d
  rw [numbered_keys, map_drop]
  exact hl.sublist (drop_sublist _ _)

theorem lookup_renumber_of_ne (hk : ∀ i, start ≤ i → l[i]?.map key ≠ some k) :
    (renumber key start l d).lookup k = d.lookup k := by
  refine lookup_foldl_insert_of_notMem ?_ d
  rw [List.mem_map]
  rintro ⟨e, he, rfl⟩
  obtain ⟨hle, hget⟩ := mem_numbered.1 he
  exact hk _ hle hget

theorem Positions.renumber_perm (h : Positions key l d) (hperm : l'.Perm l) :
    Positions key l' (renumber key 0 l' d) := by
  have hl : (l'.map key).Nodup := (hperm.map key).nodup_iff.2 h.nodup
  intro k i
  refine ⟨fun hi => ?_, lookup_renumber_of_le hl (Nat.zero_le i)⟩
  by_cases hk : ∃ j : ℕ, l'[j]?.map key = some k
  · obtain ⟨j, hj⟩ := hk
    rw [lookup_renumber_of_le hl (Nat.zero_le j) hj] at hi
    rwa [← some.inj hi]
  · push Not at hk
    rw [lookup_renumber_of_ne fun (j : ℕ) _ => hk j] at hi
    obtain ⟨a, ha, rfl⟩ := h.getElem?_of_lookup hi
    obtain ⟨j, hj⟩ := mem_iff_getElem?.1 (hperm.mem_iff.2 (mem_of_getElem? ha))
    exact (hk j (congrArg (Option.map key) hj)).elim

theorem Positions.renumber_eraseIdx (h : Positions key l d) (hi : d.lookup k = some i) :
    Positions key (l.eraseIdx i) (renumber key i (l.eraseIdx i) (d.erase k)) := by
  obtain ⟨b, hb, rfl⟩ := h.getElem?_of_lookup hi
  have hl : ((l.eraseIdx i).map key).Nodup := by
    exact h.nodup.sublist ((eraseIdx_sublist _ _).map key)
  intro k j
  have hlow (hj : j < i) : (l.eraseIdx i)[j]? = l[j]? := getElem?_eraseIdx_of_lt hj
  by_cases hk : ∃ m, i ≤ m ∧ (l.eraseIdx i)[m]?.map key = some k
  · obtain ⟨m, hm, hget⟩ := hk
    rw [lookup_renumber_of_le hl hm hget, some_inj]
    constructor
    · rintro rfl
      exact hget
    · intro hj
      have hnd := nodup_iff_injective_getElem.1 hl
      rw [← getElem?_map] at hget hj
      obtain ⟨hm', hgm⟩ := List.getElem?_eq_some_iff.1 hget
      obtain ⟨hj', hgj⟩ := List.getElem?_eq_some_iff.1 hj
      have := @hnd ⟨m, hm'⟩ ⟨j, hj'⟩ (hgm.trans hgj.symm)
      exact congrArg Fin.val this
  · push Not at hk
    rw [lookup_renumber_of_ne hk, lookup_erase_eq]
    by_cases hkb : k = key b
    · subst hkb
      rw [if_pos rfl]
      simp only [reduceCtorEq, false_iff]
      intro hj
      by_cases hji : i ≤ j
      · exact hk j hji hj
      · rw [hlow (by omega), ← h, hi] at hj
        exact hji (some.inj hj).le
    · rw [if_neg hkb]
      by_cases hji : j < i
      · rw [hlow hji, h k j]
      · refine iff_of_false (fun hj => ?_) (hk j (by omega))
        obtain ⟨a, ha, rfl⟩ := h.getElem?_of_lookup hj
        have hne : j ≠ i := by
          rintro rfl
          rw [hb] at ha
          exact hkb (by rw [some.inj ha])
        refine hk (j - 1) (by omega) ?_
        rw [getElem?_eraseIdx_of_ge (by omega), Nat.sub_add_cancel (by omega), ha]
        rfl

namespace Entries

variable {b : Dict K α}

theorem empty : Entries key ([] : List α) ∅ := by
  intro k a
  simp

section

variable (h : Entries key l b)

include h

theorem perm (hperm : l'.Perm l) : Entries key l' b := fun k a => by
  rw [h k a, hperm.mem_iff]

theorem append (ha : ∀ a' ∈ l, key a' ≠ key a) : Entries key (l ++ [a]) (b.insert (key a) a) := by
  intro k a'
  rw [lookup_insert_eq, mem_append, mem_singleton]
  split_ifs with hk
  · subst hk
    constructor
    · intro heq
      cases heq
      exact ⟨Or.inr rfl, rfl⟩
    · rintro ⟨hmem | rfl, hkey⟩
      · exact absurd hkey (ha a' hmem)
      · rfl
  · rw [h k a']
    refine and_congr_left fun hkey => (or_iff_left ?_).symm
    rintro rfl
    exact hk hkey.symm

theorem erase_of_perm (hnodup : (l.map key).Nodup) (hperm : l.Perm (a :: l')) :
    Entries key l' (b.erase (key a)) := by
  have hkeys := (hperm.map key).nodup_iff.1 hnodup
  rw [map_cons, nodup_cons] at hkeys
  intro k x
  rw [lookup_erase_eq]
  split_ifs with hk
  · refine iff_of_false (by simp) ?_
    rintro ⟨hx, hkey⟩
    exact hkeys.1 (mem_map.2 ⟨x, hx, hkey.trans hk⟩)
  · rw [h k x, hperm.mem_iff, mem_cons]
    refine and_congr_left fun hkey => or_iff_right ?_
    rintro rfl
    exact hk hkey.symm

theorem eraseIdx (hd : Positions key l d) (hi : d.lookup k = some i) :
    Entries key (l.eraseIdx i) (b.erase k) := by
  intro k' a
  rw [lookup_erase_eq, mem_eraseIdx_iff_getElem?]
  split_ifs with hk
  · subst hk
    refine iff_of_false (by simp) ?_
    rintro ⟨⟨j, hj, hget⟩, hkey⟩
    have := hd.lookup_of_getElem? hget
    rw [hkey, hi] at this
    exact hj (some.inj this).symm
  · rw [h k' a]
    refine and_congr_left fun hkey => ?_
    constructor
    · intro hmem
      obtain ⟨j, hj⟩ := mem_iff_getElem?.1 hmem
      refine ⟨j, ?_, hj⟩
      rintro rfl
      obtain ⟨a', ha', hk'⟩ := hd.getElem?_of_lookup hi
      rw [hj] at ha'
      exact hk (by rw [← hkey, ← hk', some.inj ha'])
    · rintro ⟨j, -, hget⟩
      exact mem_of_getElem? hget

theorem set (hd : Positions key l d) (hi : d.lookup k = some i) (ha : key a = k ∨ key a ∉ d) :
    Entries key (l.set i a) ((b.erase k).insert (key a) a) := by
  obtain ⟨a', ha', rfl⟩ := hd.getElem?_of_lookup hi
  have hlen := (List.getElem?_eq_some_iff.1 ha').1
  have herase := h.eraseIdx hd hi
  intro k x
  have hmem : x ∈ l.set i a ↔ x = a ∨ x ∈ l.eraseIdx i := by
    rw [mem_eraseIdx_iff_getElem?, mem_iff_getElem?]
    constructor
    · rintro ⟨j, hj⟩
      rw [getElem?_set] at hj
      split_ifs at hj with hij
      · exact Or.inl (some.inj hj).symm
      · exact Or.inr ⟨j, Ne.symm hij, hj⟩
    · rintro (rfl | ⟨j, hij, hj⟩)
      · exact ⟨i, by simp [hlen]⟩
      · exact ⟨j, by rw [getElem?_set_ne (Ne.symm hij)]; exact hj⟩
  rw [hmem, lookup_insert_eq]
  split_ifs with hk
  · subst hk
    constructor
    · intro heq
      cases heq
      exact ⟨Or.inl rfl, rfl⟩
    · rintro ⟨rfl | hx, hkey⟩
      · rfl
      · have := (herase (key a) x).2 ⟨hx, hkey⟩
        rw [lookup_erase_eq] at this
        split_ifs at this with hsame
        rcases ha with ha | ha
        · exact absurd ha hsame
        · refine absurd (hd.mem_iff.2 ⟨x, ?_, hkey⟩) ha
          exact (eraseIdx_sublist l i).subset hx
  · rw [herase k x]
    refine and_congr_left fun hkey => (or_iff_right ?_).symm
    rintro rfl
    exact hk hkey.symm

theorem map {f : α → α} (hf : ∀ a, key (f a) = key a) :
    Entries key (l.map f) (b.filterMap fun _ a => some (f a)) := by
  intro k x
  rw [lookup_filterMap, Option.bind_eq_some_iff, List.mem_map]
  constructor
  · rintro ⟨a, ha, heq⟩
    cases heq
    obtain ⟨hmem, hkey⟩ := (h k a).1 ha
    exact ⟨⟨a, hmem, rfl⟩, (hf a).trans hkey⟩
  · rintro ⟨⟨a, hmem, rfl⟩, hkey⟩
    exact ⟨a, (h k a).2 ⟨hmem, (hf a).symm.trans hkey⟩, rfl⟩

end

end Entries

end QBittorrent
