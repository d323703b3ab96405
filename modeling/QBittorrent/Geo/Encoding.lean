import Mathlib.Tactic.Ring
import QBittorrent.Geo.Bounds
import QBittorrent.Lib.AssocList

/-!
# The format of the data section

`Encoded` says, as the format does, which bytes are an encoding of a value: a control byte with the
type and the size, more bytes for either of them, and then the value.  Any part of a value may be a
pointer to its encoding elsewhere.

* `readDataField_encoded` : decoding undoes encoding, with three exceptions;
* `not_decoded` : these are exceptions.
-/

namespace QBittorrent

open Prog List UInt8

/-- The values of the format. -/
inductive DataValue where
  | string (s : String)
  | double (bits : ℕ)
  | float (bits : ℕ)
  | bytes (b : List UInt8)
  | uint16 (n : ℕ)
  | uint32 (n : ℕ)
  | uint64 (n : ℕ)
  | uint128 (n : ℕ)
  | int32 (i : ℤ)
  | boolean (b : Bool)
  | map (entries : List (String × DataValue))
  | array (values : List DataValue)

/-- A number in some bytes, the most significant first. -/
def numberBytes : ℕ → ℕ → List UInt8
  | 0, _ => []
  | len + 1, n => UInt8.ofNat (n / 256 ^ len) :: numberBytes len n

/-- The sizes that the format has room for. -/
def maxFieldSize : ℕ := 65821 + 2 ^ 24

/-- The bits for the size in the control byte. -/
def sizeBits (size : ℕ) : ℕ :=
  if size < 29 then size else if size < 285 then 29 else if size < 65821 then 30 else 31

/-- The bytes of a size that does not fit in there. -/
def sizeBytes (size : ℕ) : List UInt8 :=
  if size < 29 then []
  else if size < 285 then numberBytes 1 (size - 29)
  else if size < 65821 then numberBytes 2 (size - 285)
  else numberBytes 3 (size - 65821)

/-- The control byte of a field, an extended type, and the rest of the size. -/
def header (type size : ℕ) : List UInt8 :=
  if type ≤ 7 then UInt8.ofNat (type * 32 + sizeBits size) :: sizeBytes size
  else UInt8.ofNat (sizeBits size) :: UInt8.ofNat (type - 7) :: sizeBytes size

/-- A field that is a number of a type: leading zeros may be left out. -/
def IsNumber (type width n : ℕ) (l : List UInt8) : Prop :=
  ∃ len ≤ width, n < 256 ^ len ∧ l = header type len ++ numberBytes len n

/-- A field without other fields in it. -/
def IsScalar (l : List UInt8) : DataValue → Prop
  | .string s => (toUtf8 s).length < maxFieldSize ∧ l = header 2 (toUtf8 s).length ++ toUtf8 s
  | .double bits => bits < 2 ^ 64 ∧ l = header 3 8 ++ numberBytes 8 bits
  | .bytes b => b.length < maxFieldSize ∧ l = header 4 b.length ++ b
  | .uint16 n => IsNumber 5 2 n l
  | .uint32 n => IsNumber 6 4 n l
  | .int32 i => -2 ^ 31 ≤ i ∧ i < 2 ^ 31 ∧ IsNumber 8 4 (i % 2 ^ 32).toNat l
  | .uint64 n => IsNumber 9 8 n l
  | .uint128 n => IsNumber 10 16 n l
  | .boolean b => l = header 14 b.toNat
  | .float bits => bits < 2 ^ 32 ∧ l = header 15 4 ++ numberBytes 4 bits
  | .map _ | .array _ => False

/-- A pointer to an offset in the data section, of one of four sizes. -/
def IsPointer (target : ℕ) (l : List UInt8) : Prop :=
  (target < 2 ^ 11 ∧ l = numberBytes 2 (0x2000 + target)) ∨
  (2048 ≤ target ∧ target < 2048 + 2 ^ 19 ∧ l = numberBytes 3 (0x280000 + (target - 2048))) ∨
  (526336 ≤ target ∧ target < 526336 + 2 ^ 27 ∧
    l = numberBytes 4 (0x30000000 + (target - 526336))) ∨
  (target < 2 ^ 32 ∧ ∃ unused < 8, l = UInt8.ofNat (0x38 + unused) :: numberBytes 4 target)

section Section

variable (mem : ℤ → UInt8) (db : Layout) (limit : ℕ)

/-- Where the data section begins: behind the search tree and the separator. -/
def Layout.dataSection (db : Layout) : ℕ := db.nodeCount * db.recordSize / 4 + 16

/-- The bytes are in the data section, which ends at the limit. -/
def Holds (p : ℕ) (l : List UInt8) : Prop := p + l.length ≤ limit ∧ bytesAt mem p l.length = l

/-- What an encoding is of. -/
inductive Shape where
  /-- A value, at its place. -/
  | plain (v : DataValue)
  /-- A value, or a pointer to it. -/
  | field (v : DataValue)
  | fields (values : List DataValue)
  | entries (entries : List (String × DataValue))

/-- **The encodings in the data section**, between two addresses. -/
inductive Encoded : Shape → ℕ → ℕ → Prop
  | scalar {v : DataValue} {l : List UInt8} {p : ℕ} (hl : IsScalar l v)
    (h : Holds mem limit p l) : Encoded (.plain v) p (p + l.length)
  | map {es : List (String × DataValue)} {p e : ℕ} (hsize : es.length < maxFieldSize)
    (h : Holds mem limit p (header 7 es.length))
    (hes : Encoded (.entries es) (p + (header 7 es.length).length) e) :
    Encoded (.plain (.map es)) p e
  | array {vs : List DataValue} {p e : ℕ} (hsize : vs.length < maxFieldSize)
    (h : Holds mem limit p (header 11 vs.length))
    (hvs : Encoded (.fields vs) (p + (header 11 vs.length).length) e) :
    Encoded (.plain (.array vs)) p e
  | here {v : DataValue} {p e : ℕ} (h : Encoded (.plain v) p e) : Encoded (.field v) p e
  | pointer {v : DataValue} {l : List UInt8} {p target e : ℕ} (hl : IsPointer target l)
    (h : Holds mem limit p l) (hv : Encoded (.plain v) (db.dataSection + target) e) :
    Encoded (.field v) p (p + l.length)
  | noField {p : ℕ} : Encoded (.fields []) p p
  | nextField {v : DataValue} {vs : List DataValue} {p q e : ℕ} (hv : Encoded (.field v) p q)
    (hvs : Encoded (.fields vs) q e) : Encoded (.fields (v :: vs)) p e
  | noEntry {p : ℕ} : Encoded (.entries []) p p
  | nextEntry {key : String} {v : DataValue} {es : List (String × DataValue)} {p q q' e : ℕ}
    (hkey : Encoded (.field (.string key)) p q) (hv : Encoded (.field v) q q')
    (hes : Encoded (.entries es) q' e) : Encoded (.entries ((key, v) :: es)) p e

end Section

mutual

/-- The decoded value.  There is none for a number of 128 bits. -/
def DataValue.toQVariant : DataValue → QVariant
  | .string s => .qstring s
  | .double bits => .double bits
  | .float bits => .float bits
  | .bytes b => .byteArray b
  | .uint16 n => .ushort n
  | .uint32 n => .uint n
  | .uint64 n => .ulonglong n
  | .uint128 _ => .invalid
  | .int32 i => .int i
  | .boolean b => .bool b
  | .map entries => .variantHash (hashOf entries [])
  | .array values => .variantList (listOf values)
termination_by structural v => v

def hashOf : List (String × DataValue) → QVariantHash → QVariantHash
  | [], map => map
  | (key, v) :: entries, map => hashOf entries (map.insert key v.toQVariant)
termination_by structural entries => entries

def listOf : List DataValue → List QVariant
  | [] => []
  | v :: values => v.toQVariant :: listOf values
termination_by structural values => values

end

/-- The text does not begin with a byte order mark. -/
def Unmarked (s : String) : Prop := s.toList.head? ≠ some (Char.ofNat 0xFEFF)
  deriving Decidable

mutual

/-- No number has 128 bits, no array has more than 28 elements, and no text begins with a byte order
mark. -/
def DataValue.Supported : DataValue → Prop
  | .string s => Unmarked s
  | .uint128 _ => False
  | .map entries => EntriesSupported entries
  | .array values => values.length < 29 ∧ FieldsSupported values
  | _ => True
termination_by structural v => v

def EntriesSupported : List (String × DataValue) → Prop
  | [] => True
  | (key, v) :: entries => Unmarked key ∧ v.Supported ∧ EntriesSupported entries
termination_by structural entries => entries

def FieldsSupported : List DataValue → Prop
  | [] => True
  | v :: values => v.Supported ∧ FieldsSupported values
termination_by structural values => values

end

/-! ### Bytes -/

theorem toNat_ofNat_of_lt {n : ℕ} (h : n < 256) : (UInt8.ofNat n).toNat = n := by
  rw [toNat_ofNat', Nat.mod_eq_of_lt h]

variable {mem : ℤ → UInt8} {db : Layout} {limit p len n : ℕ} {l l' : List UInt8}

@[simp] theorem length_numberBytes (len n : ℕ) : (numberBytes len n).length = len := by
  induction len with
  | zero => rfl
  | succ len ih => rw [numberBytes, length_cons, ih]

theorem foldl_numberBytes (len n a : ℕ) :
    (numberBytes len n).foldl (fun n x => n * 256 + x.toNat) a = a * 256 ^ len + n % 256 ^ len := by
  induction len generalizing a with
  | zero => simp [numberBytes, Nat.mod_one]
  | succ len ih =>
    have hdigit : (ofNat (n / 256 ^ len)).toNat = n / 256 ^ len % 256 := by simp
    rw [numberBytes, foldl_cons, ih, hdigit, Nat.mod_pow_succ, Nat.pow_succ]
    ring

theorem bigEndian_numberBytes (len n : ℕ) : bigEndian (numberBytes len n) = n % 256 ^ len := by
  rw [bigEndian, foldl_numberBytes, Nat.zero_mul, Nat.zero_add]

theorem bytesAt_add (a : ℤ) (m n : ℕ) :
    bytesAt mem a (m + n) = bytesAt mem a m ++ bytesAt mem (a + m) n := by
  induction m generalizing a with
  | zero => simp [bytesAt]
  | succ m ih =>
    rw [Nat.add_right_comm, bytesAt_succ, bytesAt_succ, ih, cons_append, Nat.cast_succ,
      show a + 1 + (m : ℤ) = a + (m + 1) by omega]

theorem Holds.append_iff : Holds mem limit p (l ++ l') ↔
    Holds mem limit p l ∧ Holds mem limit (p + l.length) l' := by
  have hlength : (bytesAt mem p l.length).length = l.length := by simp [bytesAt]
  rw [Holds, Holds, Holds, length_append, bytesAt_add, Nat.cast_add]
  constructor
  · rintro ⟨hle, heq⟩
    obtain ⟨h, h'⟩ := append_inj heq hlength
    exact ⟨⟨by omega, h⟩, by omega, h'⟩
  · rintro ⟨⟨-, h⟩, hle, h'⟩
    exact ⟨by omega, by rw [h, h']⟩

theorem Holds.cons_iff {b : UInt8} : Holds mem limit p (b :: l) ↔
    p < limit ∧ mem p = b ∧ Holds mem limit (p + 1) l := by
  rw [Holds, Holds, length_cons, bytesAt_succ, cons.injEq, Nat.cast_succ]
  constructor
  · rintro ⟨hle, hb, hl⟩
    exact ⟨by omega, hb, by omega, hl⟩
  · rintro ⟨hlt, hb, hle, hl⟩
    exact ⟨by omega, hb, hl⟩

section Descriptor

variable (mem) {size type : ℕ} (body : ℕ → Decoder (QVariant × ℕ)) (hsize : size ≤ maxFileSize)
include hsize

theorem availSize_eq (hp : p ≤ size) : toInt32 (sub32 size p) = (size : ℤ) - p := by
  have hsmall : size ≤ 2 ^ 26 := hsize
  have hoffset : IsOffset p := by
    unfold IsOffset uint32Size
    omega
  rw [toInt32_sub32 hsize hoffset, if_pos (by omega)]

omit hsize in
theorem mod_uint32Size (hsize : size ≤ maxFileSize) (hp : p ≤ size) : p % uint32Size = p := by
  have hsmall : size ≤ 2 ^ 26 := hsize
  exact Nat.mod_eq_of_lt (by unfold uint32Size; omega)

omit hsize in
theorem returns_cell_bind_iff {R : Type} {a : ℤ} {f : UInt8 → Decoder R} {r : R} :
    Prog.Returns mem body (Prog.cell a >>= f) r ↔ Prog.Returns mem body (f (mem a)) r :=
  returns_read_iff

theorem returns_descriptor_short (hp : p < size) (htype : 2 ≤ (mem p).toNat / 32)
    (hshort : (mem p).toNat % 32 ≤ 28) :
    Prog.Returns mem body (readDataFieldDescriptor size p)
      (some (⟨.fromCode ((mem p).toNat / 32), (mem p).toNat % 32⟩, p + 1)) := by
  have hlt := (mem p).toNat_lt
  have hcode : ∀ n < 8, 2 ≤ n →
      DataType.fromCode n ≠ .pointer ∧ DataType.fromCode n ≠ .unknown := by decide
  obtain ⟨hpointer, hunknown⟩ := hcode ((mem p).toNat / 32) (by omega) htype
  rw [readDataFieldDescriptor, availSize_eq hsize hp.le, if_neg (by omega)]
  rw [returns_cell_bind_iff]
  rw [if_neg hpointer, if_pos hshort, if_neg hunknown, mod_uint32Size hsize (by omega)]
  exact .ret _

theorem returns_descriptor_extended (hp : p + 3 ≤ size) (htype : (mem p).toNat / 32 = 0)
    (hshort : (mem p).toNat % 32 ≤ 28) (hlow : 1 ≤ (mem (p + 1)).toNat)
    (hhigh : (mem (p + 1)).toNat ≤ 8) :
    Prog.Returns mem body (readDataFieldDescriptor size p)
      (some (⟨.fromCode ((mem (p + 1)).toNat + 7), (mem p).toNat % 32⟩, p + 2)) := by
  rw [readDataFieldDescriptor, availSize_eq hsize (by omega), if_neg (by omega)]
  rw [returns_cell_bind_iff]
  have hunknown : DataType.fromCode 0 = .unknown := rfl
  rw [htype, if_neg (by decide), if_pos hshort, if_pos hunknown]
  rw [returns_cell_bind_iff]
  rw [if_neg (by omega), mod_uint32Size hsize (by omega)]
  exact .ret _

theorem returns_descriptor_long {more : ℕ} (hmore : 1 ≤ more ∧ more ≤ 3) (hp : p + more < size)
    (htype : (mem p).toNat / 32 ≠ 1) (hlong : (mem p).toNat % 32 = 28 + more) :
    Prog.Returns mem body (readDataFieldDescriptor size p)
      (some (⟨.fromCode ((mem p).toNat / 32), bigEndian (bytesAt mem (p + 1) more) +
        (if more = 1 then 29 else if more = 2 then 285 else 65821)⟩, p + (more + 1))) := by
  have hlt := (mem p).toNat_lt
  have hcode : ∀ n < 8, n ≠ 1 → DataType.fromCode n ≠ .pointer := by decide
  have hpointer := hcode ((mem p).toNat / 32) (by omega) htype
  rw [readDataFieldDescriptor, availSize_eq hsize (by omega), if_neg (by omega)]
  rw [returns_cell_bind_iff]
  rw [if_neg hpointer, if_neg (by omega)]
  obtain rfl | rfl | rfl : more = 1 ∨ more = 2 ∨ more = 3 := by omega
  · rw [if_pos hlong, if_neg (by omega)]
    refine returns_bind_iff.2 ⟨_, returns_readBytes_iff.2 rfl, ?_⟩
    rw [mod_uint32Size hsize (by omega)]
    exact .ret _
  · rw [if_neg (by omega), if_pos hlong, if_neg (by omega)]
    refine returns_bind_iff.2 ⟨_, returns_readBytes_iff.2 rfl, ?_⟩
    rw [mod_uint32Size hsize (by omega)]
    exact .ret _
  · rw [if_neg (by omega), if_neg (by omega), if_neg (by omega)]
    refine returns_bind_iff.2 ⟨_, returns_readBytes_iff.2 rfl, ?_⟩
    rw [mod_uint32Size hsize (by omega)]
    exact .ret _

theorem returns_descriptor_pointer (ptrSize target : ℕ) (hp : p + ptrSize + 2 ≤ size)
    (htype : (mem p).toNat / 32 = 1) (hptrSize : (mem p).toNat / 8 % 4 = ptrSize)
    (htarget : target =
      if ptrSize = 3 then bigEndian (bytesAt mem (p + 1) (ptrSize + 1))
      else (mem p).toNat % 8 * 2 ^ (8 * (ptrSize + 1)) +
        bigEndian (bytesAt mem (p + 1) (ptrSize + 1)) +
        (if ptrSize = 0 then 0 else if ptrSize = 1 then 2048 else 526336)) :
    Prog.Returns mem body (readDataFieldDescriptor size p)
      (some (⟨.pointer, target⟩, p + ptrSize + 2)) := by
  have hpointer : DataType.fromCode 1 = .pointer := rfl
  rw [readDataFieldDescriptor, availSize_eq hsize (by omega), if_neg (by omega),
    returns_cell_bind_iff]
  simp only [htype, hpointer, if_true, hptrSize]
  rw [if_neg (by omega)]
  refine returns_bind_iff.2 ⟨_, returns_readBytes_iff.2 rfl, ?_⟩
  rw [mod_uint32Size hsize (by omega), htarget]
  obtain rfl | rfl | rfl | rfl : ptrSize = 0 ∨ ptrSize = 1 ∨ ptrSize = 2 ∨ ptrSize = 3 := by omega
  all_goals exact returns_ret_iff.2 (by simp)

end Descriptor

section Header

variable {type size : ℕ} {body : ℕ → Decoder (QVariant × ℕ)}

/-- The data section ends before the file does. -/
structure Layout.Within (db : Layout) (limit : ℕ) : Prop where
  lt : limit < db.size
  le : db.size ≤ maxFileSize

theorem returns_header (hdb : db.Within limit) (hlow : 2 ≤ type) (hhigh : type ≤ 15)
    (hsize : size < maxFieldSize) (hshort : type ≤ 7 ∨ size < 29)
    (h : Holds mem limit p (header type size)) :
    Prog.Returns mem body (readDataFieldDescriptor db.size p)
      (some (⟨.fromCode type, size⟩, p + (header type size).length)) := by
  obtain ⟨hlt, hle⟩ := hdb
  by_cases hinline : size < 29
  · by_cases htype : type ≤ 7
    · have hheader : header type size = [ofNat (type * 32 + size)] := by
        rw [header, if_pos htype, sizeBits, if_pos hinline, sizeBytes, if_pos hinline]
      rw [hheader] at h ⊢
      obtain ⟨hp, hfirst, -⟩ := Holds.cons_iff.1 h
      have hvalue := toNat_ofNat_of_lt (n := type * 32 + size) (by omega)
      have hdescr := returns_descriptor_short mem body hle (p := p) (by omega)
        (by rw [hfirst, hvalue]; omega) (by rw [hfirst, hvalue]; omega)
      rw [hfirst, hvalue, show (type * 32 + size) / 32 = type by omega,
        show (type * 32 + size) % 32 = size by omega] at hdescr
      exact hdescr
    · have hheader : header type size = [ofNat size, ofNat (type - 7)] := by
        rw [header, if_neg htype, sizeBits, if_pos hinline, sizeBytes, if_pos hinline]
      rw [hheader] at h ⊢
      obtain ⟨hp, hfirst, h⟩ := Holds.cons_iff.1 h
      obtain ⟨hp', hsecond, -⟩ := Holds.cons_iff.1 h
      have hvalue := toNat_ofNat_of_lt (n := size) (by omega)
      have hvalue' := toNat_ofNat_of_lt (n := type - 7) (by omega)
      rw [Nat.cast_add, Nat.cast_one] at hsecond
      have hdescr := returns_descriptor_extended mem body hle (p := p) (by omega)
        (by rw [hfirst, hvalue]; omega) (by rw [hfirst, hvalue]; omega)
        (by rw [hsecond, hvalue']; omega) (by rw [hsecond, hvalue']; omega)
      rw [hfirst, hvalue, hsecond, hvalue', show type - 7 + 7 = type by omega,
        show size % 32 = size by omega] at hdescr
      exact hdescr
  · have htype : type ≤ 7 := hshort.resolve_right hinline
    -- the size is in one, two or three more bytes
    have hlong : ∀ more base : ℕ, 1 ≤ more ∧ more ≤ 3 → size - base < 256 ^ more → base ≤ size →
        (if more = 1 then 29 else if more = 2 then 285 else 65821) = base →
        header type size = ofNat (type * 32 + (28 + more)) :: numberBytes more (size - base) →
        Prog.Returns mem body (readDataFieldDescriptor db.size p)
          (some (⟨.fromCode type, size⟩, p + (header type size).length)) := by
      intro more base hmore hfits hbase heq hheader
      rw [hheader] at h ⊢
      obtain ⟨hp, hfirst, hrest⟩ := Holds.cons_iff.1 h
      have hvalue := toNat_ofNat_of_lt (n := type * 32 + (28 + more)) (by omega)
      have hbytes : bytesAt mem (p + 1 : ℕ) more = numberBytes more (size - base) := by
        have hbytes := hrest.2
        rwa [length_numberBytes] at hbytes
      have hend := hrest.1
      rw [length_numberBytes] at hend
      rw [Nat.cast_add, Nat.cast_one] at hbytes
      have hdescr := returns_descriptor_long mem body hle hmore (p := p) (by omega)
        (by rw [hfirst, hvalue]; omega) (by rw [hfirst, hvalue]; omega)
      rw [hfirst, hvalue, hbytes, bigEndian_numberBytes, Nat.mod_eq_of_lt hfits, heq,
        show (type * 32 + (28 + more)) / 32 = type by omega,
        show size - base + base = size by omega] at hdescr
      rw [length_cons, length_numberBytes]
      exact hdescr
    unfold maxFieldSize at hsize
    by_cases hone : size < 285
    · exact hlong 1 29 (by decide) (by omega) (by omega) rfl
        (by rw [header, if_pos htype, sizeBits, sizeBytes, if_neg hinline, if_neg hinline,
          if_pos hone, if_pos hone])
    · by_cases htwo : size < 65821
      · exact hlong 2 285 (by decide) (by omega) (by omega) rfl
          (by rw [header, if_pos htype, sizeBits, sizeBytes, if_neg hinline, if_neg hinline,
            if_neg hone, if_neg hone, if_pos htwo, if_pos htwo])
      · exact hlong 3 65821 (by decide) (by omega) (by omega) rfl
          (by rw [header, if_pos htype, sizeBits, sizeBytes, if_neg hinline, if_neg hinline,
            if_neg hone, if_neg hone, if_neg htwo, if_neg htwo])

theorem returns_pointer {target : ℕ} {l : List UInt8} (hdb : db.Within limit)
    (hl : IsPointer target l) (h : Holds mem limit p l) :
    Prog.Returns mem body (readDataFieldDescriptor db.size p)
      (some (⟨.pointer, target⟩, p + l.length)) := by
  obtain ⟨hlt, hle⟩ := hdb
  -- a first byte, and the others
  have hcons : ∀ k high t : ℕ, k < 4 → high < 8 →
      l = ofNat (32 + 8 * k + high) :: numberBytes (k + 1) t →
      target = (if k = 3 then t % 256 ^ (k + 1) else high * 2 ^ (8 * (k + 1)) + t % 256 ^ (k + 1) +
        (if k = 0 then 0 else if k = 1 then 2048 else 526336)) →
      Prog.Returns mem body (readDataFieldDescriptor db.size p)
        (some (⟨.pointer, target⟩, p + l.length)) := by
    rintro k high t hk hhigh rfl htarget
    obtain ⟨hp, hfirst, hrest⟩ := Holds.cons_iff.1 h
    have hvalue := toNat_ofNat_of_lt (n := 32 + 8 * k + high) (by omega)
    have hbytes := hrest.2
    have hend := hrest.1
    rw [length_numberBytes] at hbytes hend
    rw [Nat.cast_add, Nat.cast_one] at hbytes
    have hdescr := returns_descriptor_pointer mem body hle (p := p) k target (by omega)
      (by rw [hfirst, hvalue]; omega) (by rw [hfirst, hvalue]; omega)
      (by rw [hbytes, bigEndian_numberBytes, hfirst, hvalue,
        show (32 + 8 * k + high) % 8 = high by omega, htarget])
    rw [length_cons, length_numberBytes]
    exact hdescr
  -- the first byte has a part of the target, except for the longest pointers
  have hsplit : ∀ k base t : ℕ, k < 3 → t < 8 * 256 ^ (k + 1) →
      (if k = 0 then 0 else if k = 1 then 2048 else 526336) = base → target = t + base →
      l = numberBytes (k + 2) (t + (32 + 8 * k) * 256 ^ (k + 1)) →
      Prog.Returns mem body (readDataFieldDescriptor db.size p)
        (some (⟨.pointer, target⟩, p + l.length)) := by
    rintro k base t hk ht hbase rfl hl
    have hpow : 0 < 256 ^ (k + 1) := Nat.pow_pos (by decide)
    have hhigh : t / 256 ^ (k + 1) < 8 := (Nat.div_lt_iff_lt_mul hpow).2 ht
    refine hcons k (t / 256 ^ (k + 1)) (t + (32 + 8 * k) * 256 ^ (k + 1)) (by omega) hhigh ?_ ?_
    · rw [hl, numberBytes, Nat.add_mul_div_right _ _ hpow, Nat.add_comm]
    · rw [if_neg (by omega), hbase, Nat.add_mul_mod_self_right, Nat.pow_mul,
        show 2 ^ 8 = 256 from rfl, Nat.div_add_mod']
  obtain ⟨ht, hl⟩ | ⟨hlow, ht, hl⟩ | ⟨hlow, ht, hl⟩ | ⟨ht, unused, hunused, hl⟩ := hl
  · refine hsplit 0 0 target (by decide) ht rfl rfl ?_
    rw [hl, Nat.add_comm]
    rfl
  · refine hsplit 1 2048 (target - 2048) (by decide) (by omega) rfl (by omega) ?_
    rw [hl, Nat.add_comm]
    rfl
  · refine hsplit 2 526336 (target - 526336) (by decide) (by omega) rfl (by omega) ?_
    rw [hl, Nat.add_comm]
    rfl
  · refine hcons 3 unused target (by decide) hunused hl ?_
    rw [if_pos rfl, Nat.mod_eq_of_lt (show target < 256 ^ (3 + 1) from ht)]

end Header

section Values

variable {v : DataValue} {e type width : ℕ} {l : List UInt8}

theorem returns_readPlainValue {body : ℕ → Decoder (QVariant × ℕ)} (hdb : db.Within limit)
    (hlen : len ≤ width) (hwidth : width < 256) (hn : n < 256 ^ len)
    (h : Holds mem limit p (numberBytes len n)) :
    Prog.Returns mem body (readPlainValue db.size width p len) (n, p + len) := by
  obtain ⟨hlt, hle⟩ := hdb
  obtain ⟨hend, hbytes⟩ := h
  rw [length_numberBytes] at hend hbytes
  rw [readPlainValue, Nat.mod_eq_of_lt (by omega), sub32_eq hle (by omega)]
  by_cases hzero : len = 0
  · subst hzero
    have hn : n = 0 := Nat.lt_one_iff.1 hn
    rw [if_neg (by omega), hn]
    exact .ret _
  · rw [if_pos (by omega)]
    refine returns_bind_iff.2 ⟨_, returns_readBytes_iff.2 rfl, ?_⟩
    rw [hbytes, bigEndian_numberBytes, Nat.mod_eq_of_lt hn, mod_uint32Size hle (by omega)]
    exact .ret _

def Decodes (mem : ℤ → UInt8) (db : Layout) (limit : ℕ) (v : QVariant) (p e : ℕ) : Prop :=
  p < limit ∧ ∃ descr locOffset, descr.fieldType ≠ .pointer ∧
    Prog.Returns mem (readDataField db) (readDataFieldDescriptor db.size p)
      (some (descr, locOffset)) ∧
    Prog.Returns mem (readDataField db) (readFieldValue db.size descr locOffset) (v, e)

theorem length_header_pos (type size : ℕ) : 0 < (header type size).length := by
  rw [header]
  split <;> exact Nat.succ_pos _

theorem decodes_of_header {size : ℕ} {r : QVariant} (hdb : db.Within limit) (hlow : 2 ≤ type)
    (hhigh : type ≤ 15) (hsize : size < maxFieldSize) (hshort : type ≤ 7 ∨ size < 29)
    (h : Holds mem limit p (header type size)) (hr : Prog.Returns mem (readDataField db)
      (readFieldValue db.size ⟨.fromCode type, size⟩ (p + (header type size).length)) (r, e)) :
    Decodes mem db limit r p e := by
  have hpointer : ∀ type < 16, 2 ≤ type → DataType.fromCode type ≠ .pointer := by decide
  have hpos := length_header_pos type size
  have hend := h.1
  have htype := hpointer type (by omega) hlow
  exact ⟨by omega, _, _, htype, returns_header hdb hlow hhigh hsize hshort h, hr⟩

theorem decodes_number (value : ℕ → QVariant) (hdb : db.Within limit) (hlow : 2 ≤ type)
    (hhigh : type ≤ 15) (hwidth : width < 29) (hl : IsNumber type width n l)
    (h : Holds mem limit p l)
    (hvalue : ∀ len locOffset, readFieldValue db.size ⟨.fromCode type, len⟩ locOffset =
      readPlainValue db.size width locOffset len >>= fun r => pure (value r.1, r.2)) :
    Decodes mem db limit (value n) p (p + l.length) := by
  obtain ⟨len, hlen, hn, rfl⟩ := hl
  obtain ⟨hheader, hnumber⟩ := Holds.append_iff.1 h
  have hsize : len < maxFieldSize := by
    unfold maxFieldSize
    omega
  refine decodes_of_header hdb hlow hhigh hsize (.inr (by omega)) hheader ?_
  rw [hvalue, length_append, length_numberBytes, ← Nat.add_assoc]
  exact returns_bind_iff.2
    ⟨_, returns_readPlainValue hdb hlen (by omega) hn hnumber, .ret _⟩

theorem decodes_bytes (value : List UInt8 → QVariant) {b : List UInt8} (hdb : db.Within limit)
    (hlow : 2 ≤ type) (hhigh : type ≤ 7) (hsize : b.length < maxFieldSize)
    (h : Holds mem limit p (header type b.length ++ b))
    (hvalue : ∀ size locOffset : ℕ, readFieldValue db.size ⟨.fromCode type, size⟩ locOffset =
      readBytes locOffset size >>= fun data =>
        pure (value data, (locOffset + size) % uint32Size)) :
    Decodes mem db limit (value b) p (p + (header type b.length ++ b).length) := by
  obtain ⟨hheader, hend, hbytes⟩ := Holds.append_iff.1 h
  refine decodes_of_header hdb hlow (by omega) hsize (.inl hhigh) hheader ?_
  obtain ⟨hlt, hle⟩ := hdb
  rw [hvalue, length_append, ← Nat.add_assoc]
  refine returns_bind_iff.2 ⟨_, returns_readBytes_iff.2 rfl, ?_⟩
  rw [hbytes, mod_uint32Size hle (by omega)]
  exact .ret _

theorem toInt32_toNat_emod {i : ℤ} (hlow : -2 ^ 31 ≤ i) (hhigh : i < 2 ^ 31) :
    toInt32 (i % 2 ^ 32).toNat = i := by
  unfold toInt32 uint32Size
  split <;> omega

theorem decodes_scalar (hdb : db.Within limit) (hl : IsScalar l v) (hv : v.Supported)
    (h : Holds mem limit p l) : Decodes mem db limit v.toQVariant p (p + l.length) := by
  cases v with
  | string s =>
    obtain ⟨hsize, rfl⟩ := hl
    have hdecodes := decodes_bytes (fun data => .qstring (decodeUtf8 data)) hdb (by decide)
      (by decide) hsize h fun _ _ => rfl
    rwa [decodeUtf8_toUtf8_eq_iff.2 hv] at hdecodes
  | double bits =>
    obtain ⟨hbits, rfl⟩ := hl
    obtain ⟨hheader, hnumber⟩ := Holds.append_iff.1 h
    refine decodes_of_header hdb (by decide) (by decide) (by decide) (.inl (by decide)) hheader ?_
    exact returns_bind_iff.2
      ⟨_, returns_readPlainValue hdb (le_refl 8) (by decide) hbits hnumber, .ret _⟩
  | float bits =>
    obtain ⟨hbits, rfl⟩ := hl
    obtain ⟨hheader, hnumber⟩ := Holds.append_iff.1 h
    refine decodes_of_header hdb (by decide) (by decide) (by decide) (.inr (by decide)) hheader ?_
    exact returns_bind_iff.2
      ⟨_, returns_readPlainValue hdb (le_refl 4) (by decide) hbits hnumber, .ret _⟩
  | bytes b =>
    obtain ⟨hsize, rfl⟩ := hl
    exact decodes_bytes .byteArray hdb (by decide) (by decide) hsize h fun _ _ => rfl
  | uint16 n =>
    exact decodes_number .ushort hdb (by decide) (by decide) (by decide) hl h fun _ _ => rfl
  | uint32 n =>
    exact decodes_number .uint hdb (by decide) (by decide) (by decide) hl h fun _ _ => rfl
  | uint64 n =>
    exact decodes_number .ulonglong hdb (by decide) (by decide) (by decide) hl h fun _ _ => rfl
  | uint128 n => exact hv.elim
  | int32 i =>
    obtain ⟨hlow, hhigh, hl⟩ := hl
    have hdecodes := decodes_number (fun n => .int (toInt32 n)) hdb (by decide) (by decide)
      (by decide) hl h fun _ _ => rfl
    rwa [toInt32_toNat_emod hlow hhigh] at hdecodes
  | boolean b =>
    obtain rfl := hl
    have hsize : b.toNat < 29 := by cases b <;> decide
    refine decodes_of_header hdb (by decide) (by decide) (hsize.trans (by decide)) (.inr hsize) h ?_
    cases b <;> exact .ret _
  | map entries => exact hl.elim
  | array values => exact hl.elim

end Values

section Encodings

variable {shape : Shape} {v : DataValue} {e target : ℕ} {l : List UInt8} {r : QVariant × ℕ}

theorem DataValue.Supported.toQVariant_ne (hv : v.Supported) : v.toQVariant ≠ .invalid := by
  intro heq
  cases v <;> cases heq
  exact hv

theorem Layout.Within.globalOffset_eq (hdb : db.Within limit)
    (h : db.dataSection + target < limit) : db.globalOffset target = db.dataSection + target := by
  obtain ⟨hlt, hle⟩ := hdb
  have hsmall : db.size ≤ 2 ^ 26 := hle
  unfold Layout.globalOffset
  unfold Layout.dataSection uint32Size at *
  omega

theorem Decodes.field {r : QVariant} (h : Decodes mem db limit r p e) :
    Prog.Returns mem (readDataField db) (readDataField db p) (r, e) := by
  obtain ⟨-, descr, locOffset, hpointer, hdescr, hr⟩ := h
  refine returns_bind_iff.2 ⟨_, hdescr, ?_⟩
  dsimp only
  rw [if_neg hpointer]
  exact hr

theorem Decodes.pointer {r : QVariant} (hdb : db.Within limit) (hl : IsPointer target l)
    (hp : Holds mem limit p l) (h : Decodes mem db limit r (db.dataSection + target) e) :
    Prog.Returns mem (readDataField db) (readDataField db p) (r, p + l.length) := by
  obtain ⟨hlt, descr, locOffset, hpointer, hdescr, hr⟩ := h
  rw [← hdb.globalOffset_eq hlt] at hdescr
  refine returns_bind_iff.2 ⟨_, returns_pointer hdb hl hp, ?_⟩
  dsimp only
  exact returns_bind_iff.2 ⟨_, hdescr, returns_bind_iff.2 ⟨_, hr, .ret _⟩⟩

theorem returns_readArrayValue_succ {count q : ℕ} {field : QVariant} {array : List QVariant}
    (hfield : Prog.Returns mem (readDataField db) (readDataField db p) (field, q))
    (hvalid : field ≠ .invalid)
    (h : Prog.Returns mem (readDataField db) (readArrayValue count q (array ++ [field])) r) :
    Prog.Returns mem (readDataField db) (readArrayValue (count + 1) p array) r := by
  refine .call hfield ?_
  cases field with
  | invalid => exact (hvalid rfl).elim
  | _ => exact h

theorem returns_readMapValue_succ {count q q' : ℕ} {key : String} {field : QVariant}
    {map : QVariantHash}
    (hkey : Prog.Returns mem (readDataField db) (readDataField db p) (.qstring key, q))
    (hfield : Prog.Returns mem (readDataField db) (readDataField db q) (field, q'))
    (hvalid : field ≠ .invalid)
    (h : Prog.Returns mem (readDataField db) (readMapValue count q' (map.insert key field)) r) :
    Prog.Returns mem (readDataField db) (readMapValue (count + 1) p map) r := by
  refine .call hkey (.call hfield ?_)
  cases field with
  | invalid => exact (hvalid rfl).elim
  | _ => exact h

/-- What the decoder makes of an encoding. -/
def Decoded (mem : ℤ → UInt8) (db : Layout) (limit : ℕ) : Shape → ℕ → ℕ → Prop
  | .plain v, p, e => v.Supported → Decodes mem db limit v.toQVariant p e
  | .field v, p, e => v.Supported →
    Prog.Returns mem (readDataField db) (readDataField db p) (v.toQVariant, e)
  | .fields vs, p, e => FieldsSupported vs → ∀ array,
    Prog.Returns mem (readDataField db) (readArrayValue vs.length p array)
      (.variantList (array ++ listOf vs), e)
  | .entries es, p, e => EntriesSupported es → ∀ map,
    Prog.Returns mem (readDataField db) (readMapValue es.length p map)
      (.variantHash (hashOf es map), e)

theorem Encoded.decoded (hdb : db.Within limit) (h : Encoded mem db limit shape p e) :
    Decoded mem db limit shape p e := by
  induction h with
  | scalar hl h => exact fun hv => decodes_scalar hdb hl hv h
  | map hsize h _ ih =>
    intro hv
    exact decodes_of_header hdb (by decide) (by decide) hsize (.inl (by decide)) h (ih hv [])
  | array hsize h _ ih =>
    rintro ⟨hshort, hv⟩
    exact decodes_of_header hdb (by decide) (by decide) hsize (.inr hshort) h (ih hv [])
  | here _ ih => exact fun hv => (ih hv).field
  | pointer hl h _ ih => exact fun hv => (ih hv).pointer hdb hl h
  | noField =>
    intro _ array
    rw [listOf, append_nil]
    exact .ret _
  | @nextField v vs p q e _ _ ihv ihvs =>
    rintro ⟨hv, hvs⟩ array
    have hrest := ihvs hvs (array ++ [v.toQVariant])
    rw [append_assoc] at hrest
    exact returns_readArrayValue_succ (ihv hv) hv.toQVariant_ne hrest
  | noEntry => exact fun _ map => .ret _
  | nextEntry _ _ _ ihkey ihv ihes =>
    rintro ⟨hkey, hv, hes⟩ map
    exact returns_readMapValue_succ (ihkey hkey) (ihv hv) hv.toQVariant_ne (ihes hes _)

theorem decodes_uint128 {n : ℕ} (hdb : db.Within limit) (hl : IsScalar l (.uint128 n))
    (h : Holds mem limit p l) : Decodes mem db limit .invalid p (p + 2) := by
  obtain ⟨len, hlen, hn, rfl⟩ := hl
  obtain ⟨hheader, -⟩ := Holds.append_iff.1 h
  have hsize : len < maxFieldSize := by
    unfold maxFieldSize
    omega
  refine decodes_of_header hdb (by decide) (by decide) hsize (.inr (by omega)) hheader ?_
  have hlength : (header 10 len).length = 2 := by
    rw [header, if_neg (by decide), sizeBytes, if_pos (by omega)]
    rfl
  rw [hlength]
  exact .ret _

theorem decodeField_of_returns (h : Prog.Returns mem (readDataField db) (readDataField db p) r) :
    ∃ depth, ∀ fuel ≥ depth, decodeField mem fuel db p = some r := by
  obtain ⟨depth, hr⟩ := exists_proc_iff.2 h
  exact ⟨depth, fun _ hfuel => proc_mono hfuel hr⟩

/-- **Decoding.**  A value that is encoded in the data section, with any parts of it behind
pointers, is returned with the offset just behind it, if it has no number of 128 bits, no array of
more than 28 elements and no text that begins with a byte order mark.  A number of 128 bits gives no
value. -/
theorem readDataField_encoded (mem : ℤ → UInt8) (db : Layout) (limit : ℕ) (hdb : db.Within limit)
    (p e : ℕ) :
    (∀ v : DataValue, v.Supported → Encoded mem db limit (.field v) p e →
      ∃ depth, ∀ fuel ≥ depth, decodeField mem fuel db p = some (v.toQVariant, e)) ∧
    ∀ n : ℕ, Encoded mem db limit (.plain (.uint128 n)) p e →
      ∃ depth, ∀ fuel ≥ depth, decodeField mem fuel db p = some (.invalid, p + 2) := by
  refine ⟨fun v hv h => decodeField_of_returns (h.decoded hdb hv), fun n h => ?_⟩
  cases h with
  | scalar hl h => exact decodeField_of_returns (decodes_uint128 hdb hl h).field

/-! ### Maps -/

theorem encoded_fields_replicate (hl : IsScalar l v) (n : ℕ)
    (h : Holds mem limit p (List.replicate n l).flatten) :
    Encoded mem db limit (.fields (List.replicate n v)) p (p + n * l.length) := by
  induction n generalizing p with
  | zero =>
    rw [Nat.zero_mul]
    exact .noField
  | succ n ih =>
    obtain ⟨hhead, htail⟩ := Holds.append_iff.1 h
    rw [show p + (n + 1) * l.length = p + l.length + n * l.length by ring]
    exact .nextField (.here (.scalar hl hhead)) (ih htail)

end Encodings

/-! ### Examples -/

/-- A data section at the start of a file without a search tree. -/
def sectionOf (data : List UInt8) : ℤ → UInt8 :=
  memoryWith (List.replicate 16 0 ++ data) fun _ => 0

def sectionLayout : Layout where
  size := 100

/-- `{"a": 260, "b": ["a", true]}` where the second `"a"` is a pointer to the first. -/
def sampleValue : DataValue :=
  .map [("a", .uint16 260), ("b", .array [.string "a", .boolean true])]

def sampleData : List UInt8 :=
  [0xE2, 0x41, 0x61, 0xA2, 0x01, 0x04, 0x41, 0x62, 0x02, 0x04, 0x20, 0x01, 0x01, 0x07]

theorem sample_encoded :
    Encoded (sectionOf sampleData) sectionLayout 90 (.field sampleValue) 16 30 := by
  have ha : Encoded (sectionOf sampleData) sectionLayout 90 (.plain (.string "a")) 17 19 :=
    .scalar (l := [0x41, 0x61]) ⟨by decide, by decide⟩ ⟨by decide, by decide⟩
  have hb : Encoded (sectionOf sampleData) sectionLayout 90 (.plain (.string "b")) 22 24 :=
    .scalar (l := [0x41, 0x62]) ⟨by decide, by decide⟩ ⟨by decide, by decide⟩
  have hnumber : Encoded (sectionOf sampleData) sectionLayout 90 (.plain (.uint16 260)) 19 22 :=
    .scalar (l := [0xA2, 0x01, 0x04]) ⟨2, by decide, by decide, by decide⟩ ⟨by decide, by decide⟩
  have htarget : IsPointer 1 [0x20, 0x01] := .inl ⟨by decide, by decide⟩
  have hpointer : Encoded (sectionOf sampleData) sectionLayout 90 (.field (.string "a")) 26 28 :=
    .pointer (l := [0x20, 0x01]) htarget ⟨by decide, by decide⟩ ha
  have htrue : Encoded (sectionOf sampleData) sectionLayout 90 (.plain (.boolean true)) 28 30 :=
    .scalar (l := [0x01, 0x07]) (by unfold IsScalar; decide) ⟨by decide, by decide⟩
  have harray : Encoded (sectionOf sampleData) sectionLayout 90
      (.plain (.array [.string "a", .boolean true])) 24 30 :=
    .array (by decide) ⟨by decide, by decide⟩
      (.nextField hpointer (.nextField (.here htrue) .noField))
  exact .here (.map (by decide) ⟨by decide, by decide⟩
    (.nextEntry (.here ha) (.here hnumber) (.nextEntry (.here hb) (.here harray) .noEntry)))

theorem readDataField_encoded_sample : ∃ depth, ∀ fuel ≥ depth,
    decodeField (sectionOf sampleData) fuel sectionLayout 16 =
      some (sampleValue.toQVariant, 30) := by
  have hdb : sectionLayout.Within 90 := ⟨by decide, by decide⟩
  refine (readDataField_encoded (sectionOf sampleData) sectionLayout 90 hdb 16 30).1 sampleValue ?_
    sample_encoded
  have ha : Unmarked "a" := by decide
  have hb : Unmarked "b" := by decide
  exact ⟨ha, trivial, hb, ⟨by decide, ha, trivial, trivial⟩, trivial⟩

/-- An array of 29 elements. -/
def longArrayData : List UInt8 := 0x1D :: 0x04 :: 0x00 :: (List.replicate 29 [0x01, 0x07]).flatten

def markedData : List UInt8 := [0x43, 0xEF, 0xBB, 0xBF]

/-- **What is not decoded**: a number of 128 bits, an array with 29 elements, and a text that begins
with a byte order mark. -/
theorem not_decoded :
    (Encoded (sectionOf [0x01, 0x03, 0x01]) sectionLayout 90 (.field (.uint128 1)) 16 19 ∧
      decodeField (sectionOf [0x01, 0x03, 0x01]) 1 sectionLayout 16 = some (.invalid, 18)) ∧
    (Encoded (sectionOf longArrayData) sectionLayout 90
        (.field (.array (List.replicate 29 (.boolean true)))) 16 77 ∧
      decodeField (sectionOf longArrayData) 1 sectionLayout 16 = some (.invalid, 18)) ∧
    Encoded (sectionOf markedData) sectionLayout 90 (.field (.string "\uFEFF")) 16 20 ∧
      ∃ s, decodeField (sectionOf markedData) 1 sectionLayout 16 = some (.qstring s, 20) ∧
        s ≠ "\uFEFF" := by
  refine ⟨⟨?_, rfl⟩, ⟨?_, rfl⟩, ?_, _, rfl, ?_⟩
  · exact .here (.scalar (l := [0x01, 0x03, 0x01]) ⟨1, by decide, by decide, by decide⟩
      ⟨by decide, by decide⟩)
  · refine .here (.array (by decide) ⟨by decide, by decide⟩ ?_)
    exact encoded_fields_replicate (l := [0x01, 0x07]) (by unfold IsScalar; decide) 29
      ⟨by decide, by decide⟩
  · exact .here (.scalar (l := markedData) ⟨by decide, by decide⟩ ⟨by decide, by decide⟩)
  · intro h
    have hmark : decodeUtf8 (toUtf8 "\uFEFF") = "\uFEFF" := h
    exact decodeUtf8_toUtf8_eq_iff.1 hmark (by decide)

end QBittorrent
