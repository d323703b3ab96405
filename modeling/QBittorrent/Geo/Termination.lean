import QBittorrent.Geo.Database

/-!
# When decoding ends

All offsets that decoding gets to are 32-bit numbers (`ensures_readDataField`), so there are finitely
many of them, and decoding goes on for ever only if it comes back to a field while it decodes it.
That can happen: a pointer may point to a map that has the pointer in it
(`decoding_map_in_itself`).

* `decoding_ends_iff` : it ends exactly if no field that it gets to contains itself.
-/

namespace QBittorrent

open Prog

/-- Offsets that a 32-bit number can hold. -/
def IsOffset (offset : ℕ) : Prop := offset < uint32Size

theorem isOffset_mod (n : ℕ) : IsOffset (n % uint32Size) := Nat.mod_lt _ (by decide)

/-- Fields are at 32-bit offsets, and what is behind them is too. -/
abbrev Decoder.EnsuresOffsets {R : Type} (p : Decoder R) (Q : R → Prop) : Prop :=
  p.Ensures IsOffset (fun _ v => IsOffset v.2) Q

theorem ensures_readBytes {address : ℤ} {n : ℕ} {Q : List UInt8 → Prop} (h : ∀ data, Q data) :
    (readBytes address n).EnsuresOffsets Q := by
  induction n generalizing address Q with
  | zero => exact h []
  | succ n ih =>
    intro b
    change ((readBytes (address + 1) n) >>= fun bs => pure (b :: bs)).EnsuresOffsets Q
    exact ensures_bind.2 (ih fun data => h (b :: data))

theorem ensures_readDataFieldDescriptor (size offset : ℕ) :
    (readDataFieldDescriptor size offset).EnsuresOffsets fun r =>
      ∀ descr locOffset, r = some (descr, locOffset) → IsOffset locOffset := by
  have hnone : ∀ descr locOffset,
      (none : Option (DataFieldDescriptor × ℕ)) = some (descr, locOffset) → IsOffset locOffset := by
    rintro descr locOffset ⟨⟩
  have hsome : ∀ (d : DataFieldDescriptor) (n : ℕ), ∀ descr locOffset,
      some (d, n % uint32Size) = some (descr, locOffset) → IsOffset locOffset := by
    rintro d n descr locOffset ⟨⟩
    exact isOffset_mod n
  rw [readDataFieldDescriptor]
  split
  · exact hnone
  · intro data₀
    change Decoder.EnsuresOffsets (ite _ _ _) _
    split
    · split
      · exact hnone
      · exact ensures_bind.2 (ensures_readBytes fun data => hsome _ _)
    · split
      · split
        · intro data₁
          change Decoder.EnsuresOffsets (ite _ _ _) _
          split
          · exact hnone
          · exact hsome _ _
        · exact hsome _ _
      · split
        · split
          · exact hnone
          · exact ensures_bind.2 (ensures_readBytes fun data => hsome _ _)
        · split
          · split
            · exact hnone
            · exact ensures_bind.2 (ensures_readBytes fun data => hsome _ _)
          · split
            · exact hnone
            · exact ensures_bind.2 (ensures_readBytes fun data => hsome _ _)

variable {offset size : ℕ}

theorem ensures_readPlainValue {width fieldSize : ℕ} (h : IsOffset offset) :
    (readPlainValue size width offset fieldSize).EnsuresOffsets fun r => IsOffset r.2 := by
  rw [readPlainValue]
  split
  · exact ensures_bind.2 (ensures_readBytes fun data => isOffset_mod _)
  · exact h

theorem ensures_readMapValue (count : ℕ) (h : IsOffset offset) (map : QVariantHash) :
    (readMapValue count offset map).EnsuresOffsets fun r => IsOffset r.2 := by
  induction count generalizing offset map with
  | zero => exact h
  | succ count ih =>
    refine ⟨h, ?_⟩
    rintro ⟨field, offset⟩ h
    cases field with
    | qstring key =>
      refine ⟨h, ?_⟩
      rintro ⟨field, offset⟩ h
      cases field with
      | invalid => exact h
      | _ => exact ih h _
    | _ => exact h

theorem ensures_readArrayValue (count : ℕ) (h : IsOffset offset) (array : List QVariant) :
    (readArrayValue count offset array).EnsuresOffsets fun r => IsOffset r.2 := by
  induction count generalizing offset array with
  | zero => exact h
  | succ count ih =>
    refine ⟨h, ?_⟩
    rintro ⟨field, offset⟩ h
    cases field with
    | invalid => exact h
    | _ => exact ih h _

theorem ensures_readFieldValue (descr : DataFieldDescriptor) {locOffset : ℕ}
    (h : IsOffset locOffset) :
    (readFieldValue size descr locOffset).EnsuresOffsets fun r => IsOffset r.2 := by
  have hplain : ∀ (width : ℕ) (value : ℕ → QVariant),
      ((readPlainValue size width locOffset descr.fieldSize >>= fun r =>
        pure (value r.1, r.2)) : Decoder _).EnsuresOffsets fun r => IsOffset r.2 :=
    fun width value => ensures_bind.2 (ensures_readPlainValue h)
  cases ht : descr.fieldType <;> simp only [readFieldValue, ht]
  case string => exact ensures_bind.2 (ensures_readBytes fun data => isOffset_mod _)
  case bytes => exact ensures_bind.2 (ensures_readBytes fun data => isOffset_mod _)
  case map => exact ensures_readMapValue _ h _
  case array => exact ensures_readArrayValue _ h _
  case double => split <;> [exact hplain 8 .double; exact h]
  case float => split <;> [exact hplain 4 .float; exact h]
  case integer16 => exact hplain 2 .ushort
  case integer32 => exact hplain 4 .uint
  case signedInteger32 => exact hplain 4 fun value => .int (toInt32 value)
  case integer64 => exact hplain 8 .ulonglong
  all_goals exact h

theorem ensures_readDataField (db : Layout) (offset : ℕ) (h : IsOffset offset) :
    (readDataField db offset).EnsuresOffsets fun r => IsOffset r.2 := by
  refine ensures_bind.2 ((ensures_readDataFieldDescriptor _ _).mono fun r hr => ?_)
  obtain _ | ⟨descr, locOffset⟩ := r
  · exact h
  have hloc := hr _ _ rfl
  dsimp only
  split
  · refine ensures_bind.2 ((ensures_readDataFieldDescriptor _ _).mono fun r' hr' => ?_)
    obtain _ | ⟨descr', locOffset'⟩ := r'
    · exact hloc
    · exact ensures_bind.2 ((ensures_readFieldValue descr' (hr' _ _ rfl)).mono fun _ _ => hloc)
  · exact ensures_readFieldValue descr hloc

section Endless

variable (mem : ℤ → UInt8) (db : Layout)

/-- Decoding the field at an offset gets to a field that is part of itself. -/
def Endless (offset : ℕ) : Prop :=
  ∃ m, Relation.ReflTransGen (Prog.Leads mem (readDataField db)) offset m ∧
    Relation.TransGen (Prog.Leads mem (readDataField db)) m m

variable {mem db} {offset : ℕ}

theorem finite_reached (h : IsOffset offset) :
    {m | Relation.ReflTransGen (Prog.Leads mem (readDataField db)) offset m}.Finite :=
  (Set.finite_lt_nat uint32Size).subset fun _ hm =>
    pre_of_reflTransGen (ensures_readDataField db) h hm

theorem decodeField_ends_iff (h : IsOffset offset) :
    (∃ fuel, (decodeField mem fuel db offset).isSome) ↔ ¬ Endless mem db offset :=
  exists_proc_iff_not_cycle (finite_reached h)

theorem eval_ends_iff {R : Type} {p : Decoder R} {Q : R → Prop} (hp : p.EnsuresOffsets Q) :
    (∃ fuel, (Decoder.eval mem fuel db p).isSome) ↔
      ∀ m, Prog.Calls mem (readDataField db) p m → ¬ Endless mem db m :=
  exists_evalWith_iff_not_cycle fun _ hm =>
    finite_reached (Prog.Calls.of_ensures (ensures_readDataField db) hm hp)

theorem ensures_readMetadata (size : ℕ) : (readMetadata size).EnsuresOffsets fun _ => True := by
  refine ensures_bind.2 (ensures_readBytes fun data => ?_)
  cases lastIndexOf metadataBeginMark data with
  | none => trivial
  | some index => exact ⟨isOffset_mod _, fun _ _ => trivial⟩

theorem isOffset_dataOffset (gdb : GeoIPDatabase) (id : ℕ) : IsOffset (gdb.dataOffset id) := by
  have hpos : (0 : ℤ) < uint32Size := by decide
  exact (Int.toNat_lt (Int.emod_nonneg _ hpos.ne')).2 (Int.emod_lt_of_pos _ hpos)

theorem ensures_lookupFrom (toQString : QVariant → String) (gdb : GeoIPDatabase)
    (bits : List Bool) (ptr : ℕ) (countries : Countries) :
    (lookupFrom toQString gdb bits ptr countries).EnsuresOffsets fun _ => True := by
  induction bits generalizing ptr with
  | nil => trivial
  | cons right bits ih =>
    refine ensures_bind.2 (ensures_readBytes fun record => ?_)
    dsimp only
    split
    · trivial
    · split
      · rw [lookupData]
        split
        · trivial
        · refine ⟨isOffset_dataOffset gdb _, ?_⟩
          rintro ⟨val, offset⟩ -
          cases val <;> trivial
      · exact ih _

theorem load_ends_iff {size : ℕ} (hsize : size ≤ maxFileSize) :
    (∃ fuel, (load mem fuel size).isSome) ↔
      ∃ fuel, (Decoder.eval mem fuel (unparsed size) (readMetadata size)).isSome := by
  refine exists_congr fun fuel => ?_
  rw [load, if_neg (Nat.not_lt.2 hsize)]
  cases Decoder.eval mem fuel (unparsed size) (readMetadata size) with
  | none => rfl
  | some metadata =>
    cases hparse : parseMetadata size metadata with
    | error error => simp [hparse]
    | ok gdb =>
      have hcalls : ∀ m, ¬ Prog.Calls mem (readDataField gdb.toLayout) (loadDB gdb) m :=
        fun _ => not_calls_loadDB
      have : (Decoder.eval mem fuel gdb.toLayout (loadDB gdb)).isSome :=
        isSome_evalWith_of_not_calls hcalls _
      simpa [hparse] using this

end Endless

/-- **When decoding ends.**  Each of the three procedures returns from an offset if and only if it
gets to no field that is part of itself.  The same holds of loading a database, with the metadata,
and of a lookup, with the data of the record that it gets to. -/
theorem decoding_ends_iff (mem : ℤ → UInt8) (db : Layout) (offset : Fin uint32Size) (count : ℕ)
    (toQString : QVariant → String) (gdb : GeoIPDatabase) (countries : Countries)
    (addr : Vector UInt8 16) :
    ((∃ fuel, (decodeField mem fuel db offset).isSome) ↔ ¬ Endless mem db offset) ∧
    ((∃ fuel, (Decoder.eval mem fuel db (readMapValue count offset [])).isSome) ↔
      ∀ m, Prog.Calls mem (readDataField db) (readMapValue count offset []) m →
        ¬ Endless mem db m) ∧
    ((∃ fuel, (Decoder.eval mem fuel db (readArrayValue count offset [])).isSome) ↔
      ∀ m, Prog.Calls mem (readDataField db) (readArrayValue count offset []) m →
        ¬ Endless mem db m) ∧
    ((∃ fuel, (load mem fuel db.size).isSome) ↔ db.size ≤ maxFileSize →
      ∀ m, Prog.Calls mem (readDataField (unparsed db.size)) (readMetadata db.size) m →
        ¬ Endless mem (unparsed db.size) m) ∧
    ((∃ fuel, (GeoIPDatabase.lookup toQString gdb mem fuel countries addr).isSome) ↔
      ∀ m, Prog.Calls mem (readDataField gdb.toLayout)
        (lookupFrom toQString gdb (addressBits addr) 0 countries) m →
        ¬ Endless mem gdb.toLayout m) := by
  refine ⟨decodeField_ends_iff offset.2, eval_ends_iff (ensures_readMapValue count offset.2 []),
    eval_ends_iff (ensures_readArrayValue count offset.2 []), ?_,
    eval_ends_iff (ensures_lookupFrom toQString gdb _ 0 countries)⟩
  by_cases hsize : db.size ≤ maxFileSize
  · rw [load_ends_iff hsize, eval_ends_iff (ensures_readMetadata db.size), forall_prop_of_true hsize]
  · refine iff_of_true ⟨0, ?_⟩ fun h => (hsize h).elim
    rw [load, if_pos (Nat.lt_of_not_le hsize)]
    rfl

/-- The metadata are a map whose only value points to the map. -/
def mapInItself : List UInt8 := [0, 0] ++ metadataBeginMark ++ [0xe1, 0x41, 0x61, 0x20, 0x00]

/-- The map in it is decoded for ever, and so loading does not end. -/
theorem decoding_map_in_itself :
    (∀ fuel, decodeField (memoryWith mapInItself fun _ => 0) fuel (unparsed 21) 16 = none) ∧
    ∀ fuel, load (memoryWith mapInItself fun _ => 0) fuel mapInItself.length = none := by
  -- the map is at 16, the pointer to it at 19
  have hendless : Endless (memoryWith mapInItself fun _ => 0) (unparsed 21) 16 := by
    refine ⟨19, .single ?_, .single ?_⟩
    · exact calls_of_mem_callsWith 1 (by decide)
    · exact calls_of_mem_callsWith 1 (by decide)
  constructor
  · intro fuel
    by_contra hne
    have h16 : (16 : ℕ) < uint32Size := by decide
    exact (decodeField_ends_iff h16).1 ⟨fuel, Option.isSome_iff_ne_none.2 hne⟩ hendless
  · intro fuel
    by_contra hne
    obtain hsome := (load_ends_iff (by decide)).1 ⟨fuel, Option.isSome_iff_ne_none.2 hne⟩
    refine (eval_ends_iff (ensures_readMetadata _)).1 hsome 16 ?_ hendless
    exact calls_of_mem_callsWith 0 (by decide)

end QBittorrent
