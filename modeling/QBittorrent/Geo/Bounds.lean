import QBittorrent.Geo.Termination

/-!
# Which addresses are read

A read is fine if its address is in the buffer (`InFile`).  `FieldFits` says of one field whether all
that is read for it is: its descriptor, the descriptor that it points to, and its value.

* `reads_readDataField_iff` : one field;
* `reads_inside_iff` : nothing behind the end is read exactly if the file fits.
-/

namespace QBittorrent

open Prog Option

/-- The addresses of the buffer. -/
def InFile (size : ℕ) (a : ℤ) : Prop := 0 ≤ a ∧ a < size
  deriving Decidable

theorem toInt32_sub32 {size offset : ℕ} (hsize : size ≤ maxFileSize) (h : IsOffset offset) :
    toInt32 (sub32 size offset) =
      if offset ≤ size + 2 ^ 31 then (size : ℤ) - offset else (size : ℤ) - offset + 2 ^ 32 := by
  unfold IsOffset at h
  unfold maxFileSize at hsize
  unfold toInt32 sub32 uint32Size at *
  split_ifs <;> omega

theorem sub32_eq {size offset : ℕ} (hsize : size ≤ maxFileSize) (h : offset ≤ size) :
    sub32 size offset = size - offset := by
  unfold maxFileSize at hsize
  unfold sub32 uint32Size
  omega

section Field

variable (mem : ℤ → UInt8) (size : ℕ)

/-- A first byte that says that the type is in the next one. -/
def IsExtended (data₀ : UInt8) : Prop := data₀.toNat / 32 = 0 ∧ data₀.toNat % 32 ≤ 28

/-- A descriptor that is in the file as far as it is read, or so far behind the end that nothing is
read. -/
def DescriptorFits (offset : ℕ) : Prop :=
  offset ≤ size + 2 ^ 31 ∧ ¬ (offset + 1 = size ∧ IsExtended (mem offset))

/-- Strings and bytes end in the file. -/
def ValueFits (descr : DataFieldDescriptor) (locOffset : ℕ) : Prop :=
  descr.fieldType = .string ∨ descr.fieldType = .bytes → locOffset + descr.fieldSize ≤ size

def descriptorAt (offset : ℕ) : Option (DataFieldDescriptor × ℕ) :=
  ((readDataFieldDescriptor size offset).evalWith mem fun _ => none).join

/-- A field for which no address outside of the file is read. -/
def FieldFits (db : Layout) (offset : ℕ) : Prop :=
  DescriptorFits mem db.size offset ∧
  match descriptorAt mem db.size offset with
  | none => True
  | some (descr, locOffset) =>
    if descr.fieldType = .pointer then
      DescriptorFits mem db.size (db.globalOffset descr.offset) ∧
      match descriptorAt mem db.size (db.globalOffset descr.offset) with
      | none => True
      | some (descr, locOffset) => ValueFits db.size descr locOffset
    else ValueFits db.size descr locOffset

variable {mem size} {body : ℕ → Decoder (QVariant × ℕ)} {offset locOffset count : ℕ} {a : ℤ}

theorem fromCode_eq_unknown_iff : ∀ n < 8, DataType.fromCode n = .unknown ↔ n = 0 := by decide

theorem reads_readDataFieldDescriptor_iff (hsize : size ≤ maxFileSize) (h : IsOffset offset) :
    (∀ a, Prog.Reads mem body (readDataFieldDescriptor size offset) a → InFile size a) ↔
      DescriptorFits mem size offset := by
  have htype : (mem offset).toNat / 32 < 8 := by
    have := (mem offset).toNat_lt
    omega
  rw [readDataFieldDescriptor, toInt32_sub32 hsize h]
  constructor
  · intro hreads
    have hnear : offset ≤ size + 2 ^ 31 := by
      by_contra hfar
      -- what is left counts as positive, and the first byte is read
      have hread := hreads offset
      rw [if_neg hfar, if_neg (by unfold IsOffset uint32Size at h; omega)] at hread
      have := (hread .here).2
      omega
    refine ⟨hnear, ?_⟩
    rintro ⟨hlast, hext, hle⟩
    have hread := hreads (offset + 1)
    rw [if_pos hnear, if_neg (by omega)] at hread
    have := (hread (.read ?_)).2
    · omega
    · change Prog.Reads mem body (ite _ _ _) _
      rw [hext, if_neg (by decide), if_pos hle, if_pos (by decide)]
      exact .here
  · rintro ⟨hnear, hext⟩ a ha
    rw [if_pos hnear] at ha
    split at ha
    · exact (not_reads_ret ha).elim
    rename_i havail
    obtain rfl | ha := reads_read_iff.1 ha
    · constructor <;> omega
    change Prog.Reads mem body (ite _ _ _) _ at ha
    -- the bytes behind the first one are read where there are so many
    have hbytes : ∀ {n : ℕ} {r : List UInt8 → Option (DataFieldDescriptor × ℕ)},
        Prog.Reads mem body (readBytes (offset + 1) n >>= fun data => pure (r data)) a →
          ¬ (size : ℤ) - offset < n + 1 → InFile size a := by
      intro n r ha hn
      obtain ha | ⟨data, -, ha⟩ := reads_bind_iff.1 ha
      · have := reads_readBytes_iff.1 ha
        constructor <;> omega
      · exact (not_reads_ret ha).elim
    split at ha
    · split at ha
      · exact (not_reads_ret ha).elim
      · refine hbytes ha ?_
        omega
    · split at ha
      · split at ha
        · rename_i hunknown
          obtain rfl | ha := reads_read_iff.1 ha
          · have hzero := (fromCode_eq_unknown_iff _ htype).1 hunknown
            have : offset + 1 ≠ size := fun hlast => hext ⟨hlast, hzero, ‹_›⟩
            constructor <;> omega
          · change Prog.Reads mem body (ite _ _ _) _ at ha
            split at ha <;> exact (not_reads_ret ha).elim
        · exact (not_reads_ret ha).elim
      · split at ha
        · split at ha
          · exact (not_reads_ret ha).elim
          · exact hbytes ha (by push_cast; omega)
        · split at ha
          · split at ha
            · exact (not_reads_ret ha).elim
            · exact hbytes ha (by push_cast; omega)
          · split at ha
            · exact (not_reads_ret ha).elim
            · exact hbytes ha (by push_cast; omega)

theorem not_calls_readDataFieldDescriptor {m : ℕ} :
    ¬ Prog.Calls mem body (readDataFieldDescriptor size offset) m := by
  have hbytes : ∀ {n : ℕ} {r : List UInt8 → Option (DataFieldDescriptor × ℕ)},
      ¬ Prog.Calls mem body (readBytes (offset + 1) n >>= fun data => pure (r data)) m := by
    rintro n r h
    obtain h | ⟨data, -, h⟩ := calls_bind_iff.1 h
    · exact not_calls_readBytes h
    · exact not_calls_ret h
  intro h
  rw [readDataFieldDescriptor] at h
  split at h
  · exact not_calls_ret h
  replace h := calls_read_iff.1 h
  change Prog.Calls mem body (ite _ _ _) _ at h
  split at h
  · split at h
    · exact not_calls_ret h
    · exact hbytes h
  · split at h
    · split at h
      · replace h := calls_read_iff.1 h
        change Prog.Calls mem body (ite _ _ _) _ at h
        split at h <;> exact not_calls_ret h
      · exact not_calls_ret h
    · split at h
      · split at h <;> [exact not_calls_ret h; exact hbytes h]
      · split at h
        · split at h <;> [exact not_calls_ret h; exact hbytes h]
        · split at h <;> [exact not_calls_ret h; exact hbytes h]

theorem returns_readDataFieldDescriptor_iff {r : Option (DataFieldDescriptor × ℕ)} :
    Prog.Returns mem body (readDataFieldDescriptor size offset) r ↔
      r = descriptorAt mem size offset := by
  have hcalls : ∀ m, ¬ Prog.Calls mem body (readDataFieldDescriptor size offset) m :=
    fun _ => not_calls_readDataFieldDescriptor
  have hsome := isSome_evalWith_of_not_calls hcalls fun _ => none
  rw [returns_iff_of_not_calls hcalls fun _ => none, descriptorAt]
  obtain ⟨r', hr'⟩ := isSome_iff_exists.1 hsome
  rw [hr']
  exact some_inj.trans eq_comm

theorem le_of_returns_descriptor (hsize : size ≤ maxFileSize) (h : IsOffset offset)
    (hnear : offset ≤ size + 2 ^ 31) {descr : DataFieldDescriptor}
    (hr : Prog.Returns mem body (readDataFieldDescriptor size offset) (some (descr, locOffset))) :
    locOffset ≤ size := by
  have hnone : ∀ {P : Prop}, Prog.Returns mem body
      (pure none : Decoder (Option (DataFieldDescriptor × ℕ))) (some (descr, locOffset)) → P := by
    intro P h
    cases returns_ret_iff.1 h
  -- a descriptor of `n` bytes, where there are so many
  have hsome : ∀ {d : DataFieldDescriptor} {n : ℕ}, n ≤ 5 → ¬ (size : ℤ) - offset < n →
      Prog.Returns mem body (pure (some (d, (offset + n) % uint32Size)) : Decoder _)
        (some (descr, locOffset)) → locOffset ≤ size := by
    intro d n hn hle h
    cases returns_ret_iff.1 h
    unfold uint32Size
    omega
  have hbytes : ∀ {d : List UInt8 → DataFieldDescriptor} {n k : ℕ}, n ≤ 5 →
      ¬ (size : ℤ) - offset < n → Prog.Returns mem body (readBytes (offset + 1) k >>= fun data =>
        (pure (some (d data, (offset + n) % uint32Size)) : Decoder _)) (some (descr, locOffset)) →
        locOffset ≤ size := by
    intro d n k hn hle h
    obtain ⟨data, -, h⟩ := returns_bind_iff.1 h
    exact hsome hn hle h
  rw [readDataFieldDescriptor, toInt32_sub32 hsize h, if_pos hnear] at hr
  split at hr
  · exact hnone hr
  replace hr := returns_read_iff.1 hr
  change Prog.Returns mem body (ite _ _ _) _ at hr
  split at hr
  · split at hr
    · exact hnone hr
    · simp only [Nat.add_assoc offset] at hr
      refine hbytes ?_ ?_ hr
      · omega
      · omega
  · split at hr
    · split at hr
      · replace hr := returns_read_iff.1 hr
        change Prog.Returns mem body (ite _ _ _) _ at hr
        split at hr
        · exact hnone hr
        · exact hsome (by omega) (by push_cast; omega) hr
      · exact hsome (by omega) (by push_cast; omega) hr
    · split at hr
      · split at hr
        · exact hnone hr
        · exact hbytes (by omega) (by push_cast; omega) hr
      · split at hr
        · split at hr
          · exact hnone hr
          · exact hbytes (by omega) (by push_cast; omega) hr
        · split at hr
          · exact hnone hr
          · exact hbytes (by omega) (by push_cast; omega) hr

theorem not_reads_readMapValue {map : QVariantHash} :
    ¬ Prog.Reads mem body (readMapValue count offset map) a := by
  induction count generalizing offset map with
  | zero => exact not_reads_ret
  | succ count ih =>
    intro h
    obtain ⟨⟨field, offset⟩, -, h⟩ := reads_call_iff.1 h
    cases field with
    | qstring key =>
      obtain ⟨⟨field, offset⟩, -, h⟩ := reads_call_iff.1 h
      cases field with
      | invalid => exact not_reads_ret h
      | _ => exact ih h
    | _ => exact not_reads_ret h

theorem not_reads_readArrayValue {array : List QVariant} :
    ¬ Prog.Reads mem body (readArrayValue count offset array) a := by
  induction count generalizing offset array with
  | zero => exact not_reads_ret
  | succ count ih =>
    intro h
    obtain ⟨⟨field, offset⟩, -, h⟩ := reads_call_iff.1 h
    cases field with
    | invalid => exact not_reads_ret h
    | _ => exact ih h

theorem inFile_of_reads_plain (hsize : size ≤ maxFileSize) (hloc : locOffset ≤ size)
    {width fieldSize : ℕ} {value : ℕ → QVariant}
    (h : Prog.Reads mem body (readPlainValue size width locOffset fieldSize >>= fun r =>
      (pure (value r.1, r.2) : Decoder (QVariant × ℕ))) a) : InFile size a := by
  obtain h | ⟨r, -, h⟩ := reads_bind_iff.1 h
  · rw [readPlainValue, sub32_eq hsize hloc] at h
    split at h
    · rename_i hlen
      obtain h | ⟨data, -, h⟩ := reads_bind_iff.1 h
      · have := reads_readBytes_iff.1 h
        constructor <;> omega
      · exact (not_reads_ret h).elim
    · exact (not_reads_ret h).elim
  · exact (not_reads_ret h).elim

theorem reads_readFieldValue_iff (hsize : size ≤ maxFileSize) (descr : DataFieldDescriptor)
    (hloc : locOffset ≤ size) :
    (∀ a, Prog.Reads mem body (readFieldValue size descr locOffset) a → InFile size a) ↔
      ValueFits size descr locOffset := by
  have hbytes : ∀ (value : List UInt8 → QVariant), (∀ a, Prog.Reads mem body
      (readBytes locOffset descr.fieldSize >>= fun data =>
        (pure (value data, (locOffset + descr.fieldSize) % uint32Size) : Decoder _)) a →
        InFile size a) ↔ locOffset + descr.fieldSize ≤ size := by
    intro value
    constructor
    · intro h
      by_contra hlong
      -- the last byte of the value is behind the end
      have := (h (locOffset + descr.fieldSize - 1) (reads_bind_iff.2 (.inl
        (reads_readBytes_iff.2 ⟨by omega, by omega⟩)))).2
      omega
    · intro hle a h
      obtain h | ⟨data, -, h⟩ := reads_bind_iff.1 h
      · have := reads_readBytes_iff.1 h
        constructor <;> omega
      · exact (not_reads_ret h).elim
  have hplain : ∀ (width : ℕ) (value : ℕ → QVariant) (a : ℤ), Prog.Reads mem body
      (readPlainValue size width locOffset descr.fieldSize >>= fun r =>
        (pure (value r.1, r.2) : Decoder _)) a → InFile size a :=
    fun width value a h => inFile_of_reads_plain hsize hloc h
  have hret : ∀ (r : QVariant × ℕ) (a : ℤ),
      Prog.Reads mem body (pure r : Decoder _) a → InFile size a :=
    fun r a h => (not_reads_ret h).elim
  cases ht : descr.fieldType <;> simp only [readFieldValue, ValueFits, ht]
  case string => simpa using hbytes fun data => .qstring (decodeUtf8 data)
  case bytes => simpa using hbytes .byteArray
  all_goals refine iff_of_true ?_ (by simp)
  case double => split <;> [exact hplain 8 .double; exact hret _]
  case float => split <;> [exact hplain 4 .float; exact hret _]
  case integer16 => exact hplain 2 .ushort
  case integer32 => exact hplain 4 .uint
  case signedInteger32 => exact hplain 4 fun value => .int (toInt32 value)
  case integer64 => exact hplain 8 .ulonglong
  case map => exact fun a h => (not_reads_readMapValue h).elim
  case array => exact fun a h => (not_reads_readArrayValue h).elim
  all_goals exact hret _

end Field

section Decoding

variable {mem : ℤ → UInt8} {db : Layout} {offset : ℕ}

theorem reads_readDataField_iff (hsize : db.size ≤ maxFileSize) (h : IsOffset offset) :
    (∀ a, Prog.Reads mem (readDataField db) (readDataField db offset) a → InFile db.size a) ↔
      FieldFits mem db offset := by
  simp only [readDataField, reads_bind_iff, returns_readDataFieldDescriptor_iff,
    exists_eq_left, or_imp, forall_and, reads_readDataFieldDescriptor_iff hsize h, FieldFits]
  refine and_congr_right fun hfits => ?_
  cases hd : descriptorAt mem db.size offset with
  | none => exact iff_of_true (fun a h => (not_reads_ret h).elim) trivial
  | some r =>
    obtain ⟨descr, locOffset⟩ := r
    have hr : Prog.Returns mem (readDataField db) _ _ :=
      returns_readDataFieldDescriptor_iff.2 hd.symm
    have hloc := le_of_returns_descriptor hsize h hfits.1 hr
    dsimp only
    split
    · have htarget : IsOffset (db.globalOffset descr.offset) := isOffset_mod _
      simp only [reads_bind_iff, returns_readDataFieldDescriptor_iff, exists_eq_left, or_imp,
        forall_and, reads_readDataFieldDescriptor_iff hsize htarget]
      refine and_congr_right fun hfits' => ?_
      cases hd' : descriptorAt mem db.size (db.globalOffset descr.offset) with
      | none => exact iff_of_true (fun a h => (not_reads_ret h).elim) trivial
      | some r =>
        obtain ⟨descr', locOffset'⟩ := r
        have hr' : Prog.Returns mem (readDataField db) _ _ :=
          returns_readDataFieldDescriptor_iff.2 hd'.symm
        have hloc' := le_of_returns_descriptor hsize htarget hfits'.1 hr'
        have hvalue : (∀ a, Prog.Reads mem (readDataField db)
            (readFieldValue db.size descr' locOffset') a → InFile db.size a) ↔ _ :=
          reads_readFieldValue_iff hsize descr' hloc'
        refine Iff.trans (forall_congr' fun a => imp_congr_left ?_) hvalue
        simp only [reads_bind_iff, pure_eq, not_reads_ret, and_false, exists_false,
          or_false]
    · exact reads_readFieldValue_iff hsize descr hloc

variable (mem db offset) in
/-- Nothing outside of the file is read for the field at an offset and the fields that decoding it
gets to. -/
def Fits : Prop :=
  ∀ m, Relation.ReflTransGen (Prog.Leads mem (readDataField db)) offset m → FieldFits mem db m

theorem reads_inFile_iff {R : Type} {p : Decoder R} {Q : R → Prop} (hsize : db.size ≤ maxFileSize)
    (hp : p.EnsuresOffsets Q) :
    (∀ fuel, ∀ a ∈ Decoder.reads mem fuel db p, InFile db.size a) ↔
      (∀ a, Prog.Reads mem (readDataField db) p a → InFile db.size a) ∧
      ∀ m, Prog.Calls mem (readDataField db) p m → Fits mem db m := by
  have hfield : ∀ m, Prog.Calls mem (readDataField db) p m → (Fits mem db m ↔
      ∀ fuel, ∀ a ∈ procReads mem (readDataField db) fuel m, InFile db.size a) := by
    intro m hm
    have hoffset := Prog.Calls.of_ensures (ensures_readDataField db) hm hp
    constructor
    · intro h fuel a ha
      obtain ⟨m', hm', ha⟩ := mem_procReads_iff.1 ⟨fuel, ha⟩
      have hoffset' := pre_of_reflTransGen (ensures_readDataField db) hoffset hm'
      exact (reads_readDataField_iff hsize hoffset').2 (h m' hm') a ha
    · intro h m' hm'
      have hoffset' := pre_of_reflTransGen (ensures_readDataField db) hoffset hm'
      refine (reads_readDataField_iff hsize hoffset').1 fun a ha => ?_
      obtain ⟨fuel, ha⟩ := mem_procReads_iff.2 ⟨m', hm', ha⟩
      exact h fuel a ha
  constructor
  · intro h
    refine ⟨fun a ha => ?_, fun m hm => (hfield m hm).2 fun fuel a ha => ?_⟩
    · obtain ⟨fuel, ha⟩ := mem_readsWith_iff.2 (.inl ha)
      exact h fuel a ha
    · obtain ⟨fuel, ha⟩ := mem_readsWith_iff.2 (.inr ⟨m, hm, fuel, ha⟩)
      exact h fuel a ha
  · rintro ⟨hown, hfits⟩ fuel a ha
    obtain ha | ⟨m, hm, fuel, ha⟩ := mem_readsWith_iff.1 ⟨fuel, ha⟩
    · exact hown a ha
    · exact (hfield m hm).1 (hfits m hm) fuel a ha

end Decoding

section Load

variable {mem : ℤ → UInt8} {size : ℕ} {body : ℕ → Decoder (QVariant × ℕ)}

variable (mem size) in
def metadataOffset : Option ℕ :=
  (lastIndexOf metadataBeginMark
    (bytesAt mem (metadataStart size) (size - metadataStart size))).map fun index =>
      (index + metadataStart size + metadataBeginMark.length) % uint32Size

theorem calls_readMetadata_iff {m : ℕ} :
    Prog.Calls mem body (readMetadata size) m ↔ metadataOffset mem size = some m := by
  simp only [readMetadata, calls_bind_iff, not_calls_readBytes, returns_readBytes_iff,
    exists_eq_left, false_or, metadataOffset]
  cases lastIndexOf metadataBeginMark
      (bytesAt mem (metadataStart size) (size - metadataStart size)) with
  | none => exact iff_of_false not_calls_ret (by simp)
  | some index =>
    simp only [recurse, call_bind, ret_bind, pure_eq, calls_call_iff,
      not_calls_ret, and_false, exists_false, or_false, map_some, some_inj]
    exact eq_comm

theorem inFile_of_reads_readMetadata {a : ℤ} (h : Prog.Reads mem body (readMetadata size) a) :
    InFile size a := by
  obtain h | ⟨data, -, h⟩ := reads_bind_iff.1 h
  · have := reads_readBytes_iff.1 h
    constructor <;> omega
  · cases hi : lastIndexOf metadataBeginMark data with
    | none =>
      rw [hi] at h
      exact (not_reads_ret h).elim
    | some index =>
      rw [hi] at h
      obtain ⟨v, -, h⟩ := reads_call_iff.1 h
      exact (not_reads_ret h).elim

/-- The size of the search tree as `loadDB` computes it. -/
def GeoIPDatabase.treeSize (gdb : GeoIPDatabase) : ℤ :=
  toInt32 (gdb.nodeCount * (gdb.recordSize / 4))

/-- The separator is not taken to be around the start of the file. -/
def SeparatorFits (gdb : GeoIPDatabase) : Prop :=
  ¬ (-16 ≤ gdb.treeSize ∧ gdb.treeSize < 0 ∧ gdb.treeSize + 16 ≤ gdb.size)

theorem treeSize_bounds (gdb : GeoIPDatabase) :
    -2 ^ 31 ≤ gdb.treeSize ∧ gdb.treeSize < 2 ^ 31 := by
  unfold GeoIPDatabase.treeSize toInt32 uint32Size
  generalize gdb.nodeCount * (gdb.recordSize / 4) = n
  split <;> omega

theorem reads_loadDB_iff {gdb : GeoIPDatabase} (hsize : gdb.size ≤ maxFileSize) :
    (∀ a, Prog.Reads mem body (loadDB gdb) a → InFile gdb.size a) ↔ SeparatorFits gdb := by
  have hsmall : gdb.size ≤ 2 ^ 26 := hsize
  have hbounds := treeSize_bounds gdb
  change (∀ a, Prog.Reads mem body (ite ((gdb.size : ℤ) < (gdb.treeSize + separatorSize) % 2 ^ 64)
    _ (readBytes gdb.treeSize separatorSize >>= _)) a → _) ↔ _
  unfold SeparatorFits separatorSize
  split
  · rename_i hlt
    refine iff_of_true (fun a h => (not_reads_ret h).elim) ?_
    omega
  · rename_i hlt
    constructor
    · intro h
      have := (h gdb.treeSize (reads_bind_iff.2 (.inl (reads_readBytes_iff.2
        ⟨le_rfl, by omega⟩)))).1
      omega
    · intro hfits a h
      obtain h | ⟨separator, -, h⟩ := reads_bind_iff.1 h
      · have := reads_readBytes_iff.1 h
        constructor <;> omega
      · split at h <;> exact (not_reads_ret h).elim

theorem treeSize_of_returns_loadDB {gdb : GeoIPDatabase} (hsize : gdb.size ≤ maxFileSize)
    (hfits : SeparatorFits gdb) (h : Prog.Returns mem body (loadDB gdb) (.ok ())) :
    0 ≤ gdb.treeSize ∧ gdb.treeSize + 16 ≤ gdb.size := by
  have hsmall : gdb.size ≤ 2 ^ 26 := hsize
  have hbounds := treeSize_bounds gdb
  change Prog.Returns mem body (ite ((gdb.size : ℤ) < (gdb.treeSize + separatorSize) % 2 ^ 64)
    _ _) _ at h
  unfold SeparatorFits at hfits
  unfold separatorSize at h
  split at h
  · cases returns_ret_iff.1 h
  · omega

theorem bind_eq_ok {α β : Type} {x : Except String α} {f : α → Except String β} {b : β}
    (h : (x >>= f) = .ok b) : ∃ a, x = .ok a ∧ f a = .ok b := by
  cases x with
  | error e => cases h
  | ok a => exact ⟨a, rfl, h⟩

theorem parseMetadata_eq_ok {metadata : QVariantHash} {gdb : GeoIPDatabase}
    (h : parseMetadata size metadata = .ok gdb) : gdb.size = size ∧ gdb.recordSize = 24 ∧
      gdb.nodeSize = 6 ∧ gdb.recordBytes = 3 ∧ gdb.indexSize = gdb.treeSize := by
  obtain ⟨versionMajor, -, h⟩ := bind_eq_ok h
  obtain ⟨versionMinor, -, h⟩ := bind_eq_ok h
  split at h
  · cases h
  obtain ⟨ipVersion, -, h⟩ := bind_eq_ok h
  split at h
  · cases h
  obtain ⟨recordSize, -, h⟩ := bind_eq_ok h
  split at h
  · cases h
  rename_i hrecord
  obtain rfl := not_not.1 hrecord
  obtain ⟨nodeCount, -, h⟩ := bind_eq_ok h
  obtain ⟨dbType, -, h⟩ := bind_eq_ok h
  obtain ⟨buildEpoch, -, h⟩ := bind_eq_ok h
  obtain ⟨-, -, h⟩ := bind_eq_ok h
  obtain ⟨-, -, h⟩ := bind_eq_ok h
  cases h
  exact ⟨rfl, rfl, rfl, rfl, rfl⟩

theorem load_eq_ok {fuel : ℕ} {gdb : GeoIPDatabase} (h : load mem fuel size = some (.ok gdb)) :
    size ≤ maxFileSize ∧ ∃ metadata,
      Decoder.eval mem fuel (unparsed size) (readMetadata size) = some metadata ∧
      parseMetadata size metadata = .ok gdb ∧
      Decoder.eval mem fuel gdb.toLayout (loadDB gdb) = some (.ok ()) := by
  rw [load] at h
  split at h
  · cases h
  rename_i hsize
  obtain ⟨metadata, hmetadata, h⟩ := bind_eq_some_iff.1 h
  refine ⟨Nat.le_of_not_lt hsize, metadata, hmetadata, ?_⟩
  cases hparse : parseMetadata size metadata with
  | error e =>
    rw [hparse] at h
    cases h
  | ok gdb' =>
    rw [hparse] at h
    obtain ⟨result, hresult, h⟩ := map_eq_some_iff.1 h
    cases result with
    | error e => cases h
    | ok u =>
      cases h
      exact ⟨rfl, hresult⟩

end Load

section Lookup

variable (mem : ℤ → UInt8) (gdb : GeoIPDatabase)

/-- The record that a walk down the tree reads at a node. -/
def recordAt (right : Bool) (ptr : ℕ) : ℕ :=
  bigEndian (bytesAt mem (gdb.recordAddress right ptr) gdb.recordBytes)

/-- The data record that a walk ends at. -/
def dataRecord : List Bool → ℕ → Option ℕ
  | [], _ => none
  | right :: bits, ptr =>
    let id := recordAt mem gdb right ptr
    if id = gdb.nodeCount then none
    else if gdb.nodeCount < id then some id
    else dataRecord bits (id * gdb.nodeSize % uint32Size)

/-- All records that a walk reads are in the file. -/
def WalkFits : List Bool → ℕ → Prop
  | [], _ => True
  | right :: bits, ptr => gdb.recordAddress right ptr + gdb.recordBytes ≤ gdb.size ∧
    (recordAt mem gdb right ptr < gdb.nodeCount →
      WalkFits bits (recordAt mem gdb right ptr * gdb.nodeSize % uint32Size))

variable {mem gdb} {body : ℕ → Decoder (QVariant × ℕ)} {toQString : QVariant → String}
  {bits : List Bool} {ptr m : ℕ} {countries : Countries}

theorem lookupFrom_cons_calls {right : Bool} :
    Prog.Calls mem body (lookupFrom toQString gdb (right :: bits) ptr countries) m ↔
      recordAt mem gdb right ptr ≠ gdb.nodeCount ∧
      if gdb.nodeCount < recordAt mem gdb right ptr then
        countries (recordAt mem gdb right ptr) = "" ∧
          m = gdb.dataOffset (recordAt mem gdb right ptr)
      else Prog.Calls mem body (lookupFrom toQString gdb bits
        (recordAt mem gdb right ptr * gdb.nodeSize % uint32Size) countries) m := by
  simp only [lookupFrom, calls_bind_iff, not_calls_readBytes, returns_readBytes_iff,
    exists_eq_left, false_or]
  change Prog.Calls mem body (ite (recordAt mem gdb right ptr = _) _
    (ite (_ < recordAt mem gdb right ptr) (lookupData _ _ (recordAt mem gdb right ptr) _)
      (lookupFrom _ _ _ (recordAt mem gdb right ptr * _ % _) _))) m ↔ _
  generalize recordAt mem gdb right ptr = id
  split
  · rename_i heq
    exact iff_of_false not_calls_ret fun h => h.1 heq
  · rename_i hne
    rw [and_iff_right hne]
    split
    · rw [lookupData]
      split
      · rename_i hknown
        exact iff_of_false not_calls_ret fun h => hknown h.1
      · rename_i hunknown
        rw [and_iff_right (not_not.1 hunknown)]
        refine calls_call_iff.trans (or_iff_left ?_)
        rintro ⟨⟨val, offset⟩, -, h⟩
        cases val <;> exact not_calls_ret h
    · rfl

theorem calls_lookupFrom_iff :
    Prog.Calls mem body (lookupFrom toQString gdb bits ptr countries) m ↔
      ∃ id, dataRecord mem gdb bits ptr = some id ∧ countries id = "" ∧ m = gdb.dataOffset id := by
  induction bits generalizing ptr with
  | nil =>
    refine iff_of_false not_calls_ret ?_
    rintro ⟨id, ⟨⟩, -⟩
  | cons right bits ih =>
    rw [lookupFrom_cons_calls, dataRecord]
    generalize recordAt mem gdb right ptr = id
    by_cases heq : id = gdb.nodeCount
    · simp [heq]
    · rw [if_neg heq, and_iff_right heq]
      split
      · simp
      · exact ih

theorem reads_lookupFrom_iff (hpos : 0 < gdb.recordBytes) :
    (∀ a, Prog.Reads mem body (lookupFrom toQString gdb bits ptr countries) a →
      InFile gdb.size a) ↔ WalkFits mem gdb bits ptr := by
  induction bits generalizing ptr with
  | nil => exact iff_of_true (fun a h => (not_reads_ret h).elim) trivial
  | cons right bits ih =>
    have hnonneg : 0 ≤ gdb.recordAddress right ptr := by
      unfold GeoIPDatabase.recordAddress
      split <;> omega
    simp only [lookupFrom, reads_bind_iff, returns_readBytes_iff, reads_readBytes_iff,
      exists_eq_left, or_imp, forall_and, WalkFits]
    refine and_congr ⟨fun h => ?_, fun h a ha => ⟨by omega, by omega⟩⟩ ?_
    · have := (h (gdb.recordAddress right ptr + gdb.recordBytes - 1) ⟨by omega, by omega⟩).2
      omega
    · change (∀ a, Prog.Reads mem body (ite (recordAt mem gdb right ptr = _) _
        (ite (_ < recordAt mem gdb right ptr) (lookupData _ _ (recordAt mem gdb right ptr) _)
          (lookupFrom _ _ _ (recordAt mem gdb right ptr * _ % _) _))) a → _) ↔ _
      rw [← ih]
      generalize recordAt mem gdb right ptr = id
      split
      · exact iff_of_true (fun a h => (not_reads_ret h).elim) fun h => by omega
      · split
        · refine iff_of_true (fun a h => ?_) fun h => by omega
          rw [lookupData] at h
          split at h
          · exact (not_reads_ret h).elim
          · obtain ⟨⟨val, offset⟩, -, h⟩ := reads_call_iff.1 h
            cases val <;> exact (not_reads_ret h).elim
        · have hid : id < gdb.nodeCount := by omega
          exact ⟨fun h _ => h, fun h => h hid⟩

theorem walkFits_of_lt (hrecord : gdb.recordSize = 24) (hnode : gdb.nodeSize = 6)
    (hbytes : gdb.recordBytes = 3) (htree : 0 ≤ gdb.treeSize ∧ gdb.treeSize + 16 ≤ gdb.size)
    (hlt : 6 * gdb.nodeCount < 2 ^ 32) (hptr : ptr + 6 ≤ gdb.size) :
    WalkFits mem gdb bits ptr := by
  have hnodes : (6 * gdb.nodeCount : ℤ) + 16 ≤ gdb.size := by
    unfold GeoIPDatabase.treeSize toInt32 uint32Size at htree
    rw [hrecord] at htree
    split at htree <;> omega
  induction bits generalizing ptr with
  | nil => trivial
  | cons right bits ih =>
    refine ⟨?_, fun hid => ih ?_⟩
    · unfold GeoIPDatabase.recordAddress
      split <;> omega
    · rw [hnode]
      unfold uint32Size
      omega

end Lookup

section File

variable (data : List UInt8) (outside : ℤ → UInt8)

/-- A database is loaded from a file. -/
def Loads (gdb : GeoIPDatabase) : Prop :=
  ∃ fuel, load (memoryWith data outside) fuel data.length = some (.ok gdb)

/-- All that loading a file and looking up addresses in it gets to fits. -/
structure FileFits : Prop where
  /-- Fields of the metadata. -/
  metadata : ∀ offset, metadataOffset (memoryWith data outside) data.length = some offset →
    Fits (memoryWith data outside) (unparsed data.length) offset
  /-- The separator, if the metadata are accepted. -/
  separator : ∀ fuel metadata gdb, Decoder.eval (memoryWith data outside) fuel
    (unparsed data.length) (readMetadata data.length) = some metadata →
    parseMetadata data.length metadata = .ok gdb → SeparatorFits gdb
  /-- Nodes of the search tree. -/
  nodes : ∀ gdb, Loads data outside gdb → 6 * gdb.nodeCount < 2 ^ 32 ∨
    ∀ addr, WalkFits (memoryWith data outside) gdb (addressBits addr) 0
  /-- Fields of the values that lookups find. -/
  values : ∀ gdb, Loads data outside gdb → ∀ addr id,
    dataRecord (memoryWith data outside) gdb (addressBits addr) 0 = some id →
    Fits (memoryWith data outside) gdb.toLayout (gdb.dataOffset id)

/-- An address is read by loading a file, or by a sequence of lookups in the loaded database. -/
def Accesses (toQString : QVariant → String) (a : ℤ) : Prop :=
  (∃ fuel, a ∈ loadReads (memoryWith data outside) fuel data.length) ∨
  ∃ gdb, Loads data outside gdb ∧ ∃ fuel addrs,
    a ∈ lookupsReads toQString gdb (memoryWith data outside) fuel (fun _ => "") addrs

variable {data outside} {toQString : QVariant → String}

variable (toQString) in
theorem lookupReads_inFile_iff {mem : ℤ → UInt8} {gdb : GeoIPDatabase} {addr : Vector UInt8 16}
    (hsize : gdb.size ≤ maxFileSize) (hbytes : gdb.recordBytes = 3) {countries : Countries} :
    (∀ fuel, ∀ a ∈ lookupReads toQString gdb mem fuel countries addr, InFile gdb.size a) ↔
      WalkFits mem gdb (addressBits addr) 0 ∧ ∀ id, dataRecord mem gdb (addressBits addr) 0 = some id →
        countries id = "" → Fits mem gdb.toLayout (gdb.dataOffset id) := by
  refine (reads_inFile_iff hsize (ensures_lookupFrom toQString gdb _ 0 countries)).trans ?_
  refine and_congr (reads_lookupFrom_iff (by omega)) ?_
  simp only [calls_lookupFrom_iff]
  constructor
  · intro h id hid hempty
    exact h _ ⟨id, hid, hempty, rfl⟩
  · rintro h m ⟨id, hid, hempty, rfl⟩
    exact h id hid hempty

theorem lookupsReads_inFile {mem : ℤ → UInt8} {gdb : GeoIPDatabase} {addrs : List (Vector UInt8 16)}
    (hsize : gdb.size ≤ maxFileSize) (hbytes : gdb.recordBytes = 3)
    (hwalk : ∀ addr, WalkFits mem gdb (addressBits addr) 0)
    (hvalues : ∀ addr id, dataRecord mem gdb (addressBits addr) 0 = some id →
      Fits mem gdb.toLayout (gdb.dataOffset id)) {fuel : ℕ} {countries : Countries} {a : ℤ}
    (ha : a ∈ lookupsReads toQString gdb mem fuel countries addrs) : InFile gdb.size a := by
  induction addrs generalizing countries with
  | nil => cases ha
  | cons addr addrs ih =>
    obtain ha | ha := List.mem_append.1 ha
    · exact (lookupReads_inFile_iff toQString hsize hbytes).2
        ⟨hwalk addr, fun id hid _ => hvalues addr id hid⟩ fuel a ha
    · cases hl : GeoIPDatabase.lookup toQString gdb mem fuel countries addr with
      | none => simp [hl] at ha
      | some r =>
        rw [hl] at ha
        exact ih ha

theorem loadReads_inFile_iff {mem : ℤ → UInt8} {size : ℕ} (hsize : size ≤ maxFileSize) :
    (∀ fuel, ∀ a ∈ loadReads mem fuel size, InFile size a) ↔
      (∀ offset, metadataOffset mem size = some offset → Fits mem (unparsed size) offset) ∧
      ∀ fuel metadata gdb, Decoder.eval mem fuel (unparsed size) (readMetadata size) = some metadata →
        parseMetadata size metadata = .ok gdb → SeparatorFits gdb := by
  have hmetadata : (∀ fuel, ∀ a ∈ Decoder.reads mem fuel (unparsed size) (readMetadata size),
      InFile size a) ↔ ∀ offset, metadataOffset mem size = some offset →
        Fits mem (unparsed size) offset := by
    have hsize' : (unparsed size).size ≤ maxFileSize := hsize
    refine (reads_inFile_iff hsize' (ensures_readMetadata size)).trans ?_
    simp only [calls_readMetadata_iff]
    exact and_iff_right fun a h => inFile_of_reads_readMetadata h
  have hloadDB : ∀ (gdb : GeoIPDatabase) (fuel : ℕ), gdb.size = size →
      ((∀ a ∈ Decoder.reads mem fuel gdb.toLayout (loadDB gdb), InFile size a) ↔
        SeparatorFits gdb) := by
    rintro gdb fuel rfl
    have hcalls : ∀ m, ¬ Prog.Calls mem (readDataField gdb.toLayout) (loadDB gdb) m :=
      fun _ => not_calls_loadDB
    rw [← reads_loadDB_iff hsize]
    exact forall_congr' fun a =>
      imp_congr_left (mem_readsWith_iff_of_not_calls hcalls _ _)
  rw [← hmetadata, ← forall_and]
  refine forall_congr' fun fuel => ?_
  rw [loadReads, if_neg (Nat.not_lt.2 hsize)]
  cases heval : Decoder.eval mem fuel (unparsed size) (readMetadata size) with
  | none => simp
  | some metadata =>
    cases hparse : parseMetadata size metadata with
    | error e =>
      simp only [map_some, hparse, List.append_nil, some.injEq]
      refine (and_iff_left ?_).symm
      rintro _ gdb rfl h
      cases hparse.symm.trans h
    | ok gdb =>
      simp only [map_some, hparse, List.mem_append, or_imp, forall_and,
        hloadDB gdb fuel (parseMetadata_eq_ok hparse).1, some.injEq]
      refine and_congr_right fun _ => ⟨?_, fun h => h metadata gdb rfl hparse⟩
      rintro hfits _ gdb' rfl h
      cases hparse.symm.trans h
      exact hfits

/-- **Reads in bounds.**  For a file of the size that is allowed, all addresses that loading it and
any lookups read are in the buffer if and only if everything that they get to fits.  A file that is
larger is not read. -/
theorem reads_inside_iff (data : List UInt8) (outside : ℤ → UInt8)
    (toQString : QVariant → String) :
    (∀ a, Accesses data outside toQString a → InFile data.length a) ↔
      (data.length ≤ maxFileSize → FileFits data outside) := by
  by_cases hsize : data.length ≤ maxFileSize
  swap
  · refine iff_of_true ?_ fun h => (hsize h).elim
    rintro a (⟨fuel, ha⟩ | ⟨gdb, ⟨fuel, hload⟩, -⟩)
    · rw [loadReads, if_pos (Nat.lt_of_not_le hsize)] at ha
      cases ha
    · exact (hsize (load_eq_ok hload).1).elim
  rw [forall_prop_of_true hsize]
  -- what is known of a database that has been loaded
  have hloaded : ∀ gdb, Loads data outside gdb → gdb.size = data.length ∧ gdb.recordSize = 24 ∧
      gdb.nodeSize = 6 ∧ gdb.recordBytes = 3 := by
    rintro gdb ⟨fuel, hload⟩
    obtain ⟨-, metadata, -, hparse, -⟩ := load_eq_ok hload
    obtain ⟨h₁, h₂, h₃, h₄, -⟩ := parseMetadata_eq_ok hparse
    exact ⟨h₁, h₂, h₃, h₄⟩
  constructor
  · intro h
    obtain ⟨hmetadata, hseparator⟩ := (loadReads_inFile_iff hsize).1 fun fuel a ha =>
      h a (.inl ⟨fuel, ha⟩)
    have hlookup : ∀ gdb, Loads data outside gdb → ∀ addr,
        WalkFits (memoryWith data outside) gdb (addressBits addr) 0 ∧
        ∀ id, dataRecord (memoryWith data outside) gdb (addressBits addr) 0 = some id →
          "" = "" → Fits (memoryWith data outside) gdb.toLayout (gdb.dataOffset id) := by
      intro gdb hgdb addr
      obtain ⟨hlength, -, -, hbytes⟩ := hloaded gdb hgdb
      refine (lookupReads_inFile_iff toQString (by omega) hbytes).1 fun fuel a ha => ?_
      rw [hlength]
      refine h a (.inr ⟨gdb, hgdb, fuel, [addr], ?_⟩)
      exact List.mem_append_left _ ha
    exact ⟨hmetadata, hseparator, fun gdb hgdb => .inr fun addr => (hlookup gdb hgdb addr).1,
      fun gdb hgdb addr id hid => (hlookup gdb hgdb addr).2 id hid rfl⟩
  · rintro hfits a (⟨fuel, ha⟩ | ⟨gdb, hgdb, fuel, addrs, ha⟩)
    · exact (loadReads_inFile_iff hsize).2 ⟨hfits.metadata, hfits.separator⟩ fuel a ha
    · obtain ⟨hlength, hrecord, hnode, hbytes⟩ := hloaded gdb hgdb
      rw [← hlength] at hsize ⊢
      refine lookupsReads_inFile hsize hbytes ?_ (hfits.values gdb hgdb) ha
      obtain hlt | hwalk := hfits.nodes gdb hgdb
      · obtain ⟨fuel, hload⟩ := hgdb
        obtain ⟨-, metadata, hmetadata, hparse, hsep⟩ := load_eq_ok hload
        have htree := treeSize_of_returns_loadDB hsize
          (hfits.separator fuel metadata gdb hmetadata hparse) (returns_of_evalWith
            (fun n v hv => returns_of_proc hv) hsep)
        exact fun addr => walkFits_of_lt hrecord hnode hbytes htree hlt (by omega)
      · exact hwalk

end File

/-- The metadata are a string that is longer than what is left of the file. -/
def stringBehindEnd : List UInt8 := metadataBeginMark ++ [0x45]

/-- The first byte behind the file is read. -/
theorem reads_behind_the_end :
    Accesses stringBehindEnd (fun _ => 0) (fun _ => "") 15 ∧ ¬ InFile stringBehindEnd.length 15 :=
  ⟨.inl ⟨1, by decide⟩, by decide⟩

end QBittorrent
