import Mathlib.Data.Int.ModEq
import QBittorrent.Lib.Recursion
import QBittorrent.Lib.Text

/-!
# Data fields of a GeoIP database

A database is a buffer of bytes.  Addresses are relative to the start of the buffer (`m_data`), and
a read of any address is possible: what lies outside of the buffer is whatever the process has
there.  Offsets are 32-bit numbers, and all sums and differences of them wrap around.

`readDataField` is the procedure of the recursion: a map or an array calls it for its fields.
A pointer field is decoded at its target, and the target must be no pointer.
-/

namespace QBittorrent

/-- The number of 32-bit values. -/
abbrev uint32Size : ℕ := 2 ^ 32

/-- The difference of two 32-bit numbers. -/
def sub32 (m n : ℕ) : ℕ := (m + uint32Size - n % uint32Size) % uint32Size

/-- A 32-bit number taken as signed. -/
def toInt32 (n : ℕ) : ℤ := if n % uint32Size < 2 ^ 31 then n % uint32Size else n % uint32Size - 2 ^ 32

/-- Types of data fields, numbered as in the file. -/
inductive DataType where
  | unknown | pointer | string | double | bytes | integer16 | integer32 | map | signedInteger32
  | integer64 | integer128 | array | dataCacheContainer | endMarker | boolean | float
  deriving DecidableEq

/-- The type with a number; numbers above that of `float` are none of them. -/
def DataType.fromCode : ℕ → DataType
  | 1 => .pointer
  | 2 => .string
  | 3 => .double
  | 4 => .bytes
  | 5 => .integer16
  | 6 => .integer32
  | 7 => .map
  | 8 => .signedInteger32
  | 9 => .integer64
  | 10 => .integer128
  | 11 => .array
  | 12 => .dataCacheContainer
  | 13 => .endMarker
  | 14 => .boolean
  | 15 => .float
  | _ => .unknown

/-- The start of a field: its type, and its size or, for a pointer, what it points to. -/
structure DataFieldDescriptor where
  fieldType : DataType
  /-- The union of `fieldSize` and `offset`. -/
  fieldSize : ℕ

/-- The target of a pointer shares its place with the size. -/
def DataFieldDescriptor.offset (descr : DataFieldDescriptor) : ℕ := descr.fieldSize

/-- Decoded values. -/
inductive QVariant where
  | invalid
  | qstring (s : String)
  | double (bits : ℕ)
  | float (bits : ℕ)
  | byteArray (b : List UInt8)
  | ushort (n : ℕ)
  | uint (n : ℕ)
  | int (n : ℤ)
  | ulonglong (n : ℕ)
  | bool (b : Bool)
  | variantHash (entries : List (String × QVariant))
  | variantList (values : List QVariant)

/-- A hash of values, by its entries. -/
abbrev QVariantHash := List (String × QVariant)

def QVariantHash.insert (map : QVariantHash) (key : String) (field : QVariant) : QVariantHash :=
  (key, field) :: map.filter fun entry => entry.1 ≠ key

def QVariantHash.value (map : QVariantHash) (key : String) : QVariant :=
  (map.lookup key).getD .invalid

/-- Whether there is a value for a key. -/
def QVariantHash.contains (map : QVariantHash) (key : String) : Bool := (map.lookup key).isSome

/-- The hash in a value, empty if there is none. -/
def QVariant.toHash : QVariant → QVariantHash
  | .variantHash entries => entries
  | _ => []

/-- Programs that read the buffer and decode fields at given offsets, to values and the offsets
behind them. -/
abbrev Decoder (R : Type) := Prog ℤ UInt8 ℕ (QVariant × ℕ) R

/-- The bytes at some consecutive addresses. -/
def readBytes (address : ℤ) : ℕ → Decoder (List UInt8)
  | 0 => pure []
  | n + 1 => do
    let b ← Prog.cell address
    let bs ← readBytes (address + 1) n
    pure (b :: bs)

/-- The number with some digits in base 256, the most significant first. -/
def bigEndian (b : List UInt8) : ℕ := b.foldl (fun n x => n * 256 + x.toNat) 0

/-- The descriptor of the field at an offset, and the offset behind it.  The type and the size are
in the bits of the first byte. -/
def readDataFieldDescriptor (size offset : ℕ) : Decoder (Option (DataFieldDescriptor × ℕ)) := do
  let availSize := toInt32 (sub32 size offset)
  if availSize < 1 then pure none else
    let data₀ ← Prog.cell (offset : ℤ)
    let fieldType := DataType.fromCode (data₀.toNat / 32)
    if fieldType = .pointer then
      let ptrSize := data₀.toNat / 8 % 4
      if availSize < ptrSize + 2 then pure none else
        let data ← readBytes (offset + 1) (ptrSize + 1)
        let high := data₀.toNat % 8
        let target := match ptrSize with
          | 0 => high * 2 ^ 8 + bigEndian data
          | 1 => high * 2 ^ 16 + bigEndian data + 2048
          | 2 => high * 2 ^ 24 + bigEndian data + 526336
          | _ => bigEndian data
        pure (some (⟨.pointer, target⟩, (offset + ptrSize + 2) % uint32Size))
    else
      let fieldSize := data₀.toNat % 32
      if fieldSize ≤ 28 then
        if fieldType = .unknown then
          -- the type is in the next byte, which is read before there is known to be one
          let data₁ ← Prog.cell (offset + 1 : ℤ)
          if data₁.toNat + 7 ≤ 7 ∨ 15 < data₁.toNat + 7 ∨ availSize < 3 then pure none
          else pure (some (⟨.fromCode (data₁.toNat + 7), fieldSize⟩, (offset + 2) % uint32Size))
        else pure (some (⟨fieldType, fieldSize⟩, (offset + 1) % uint32Size))
      else if fieldSize = 29 then
        if availSize < 2 then pure none else
          let data ← readBytes (offset + 1) 1
          pure (some (⟨fieldType, bigEndian data + 29⟩, (offset + 2) % uint32Size))
      else if fieldSize = 30 then
        if availSize < 3 then pure none else
          let data ← readBytes (offset + 1) 2
          pure (some (⟨fieldType, bigEndian data + 285⟩, (offset + 3) % uint32Size))
      else
        if availSize < 4 then pure none else
          let data ← readBytes (offset + 1) 3
          pure (some (⟨fieldType, bigEndian data + 65821⟩, (offset + 4) % uint32Size))

/-- A number of at most `width` bytes, zero if there is none of that length. -/
def readPlainValue (size width offset fieldSize : ℕ) : Decoder (ℕ × ℕ) := do
  let len := fieldSize % 256
  let availSize := sub32 size offset
  if 0 < len ∧ len ≤ width ∧ len ≤ availSize then
    let data ← readBytes offset len
    pure (bigEndian data, (offset + len) % uint32Size)
  else pure (0, offset)

/-- The fields of a map: keys, which are strings, and their values. -/
def readMapValue : (count offset : ℕ) → (map : QVariantHash) → Decoder (QVariant × ℕ)
  | 0, offset, map => pure (.variantHash map, offset)
  | count + 1, offset, map => do
    let (field, offset) ← Prog.recurse offset
    match field with
    | .qstring key =>
      let (field, offset) ← Prog.recurse offset
      match field with
      | .invalid => pure (.invalid, offset)
      | field => readMapValue count offset (map.insert key field)
    | _ => pure (.invalid, offset)

def readArrayValue : (count offset : ℕ) → (array : List QVariant) → Decoder (QVariant × ℕ)
  | 0, offset, array => pure (.variantList array, offset)
  | count + 1, offset, array => do
    let (field, offset) ← Prog.recurse offset
    match field with
    | .invalid => pure (.invalid, offset)
    | field => readArrayValue count offset (array ++ [field])

/-- The value of a field behind its descriptor, and the offset behind it. -/
def readFieldValue (size : ℕ) (descr : DataFieldDescriptor) (locOffset : ℕ) :
    Decoder (QVariant × ℕ) :=
  match descr.fieldType with
  | .string => do
    let data ← readBytes locOffset descr.fieldSize
    pure (.qstring (decodeUtf8 data), (locOffset + descr.fieldSize) % uint32Size)
  | .double =>
    if descr.fieldSize = 8 then do
      let (value, locOffset) ← readPlainValue size 8 locOffset descr.fieldSize
      pure (.double value, locOffset)
    else pure (.invalid, locOffset)
  | .bytes => do
    let data ← readBytes locOffset descr.fieldSize
    pure (.byteArray data, (locOffset + descr.fieldSize) % uint32Size)
  | .integer16 => do
    let (value, locOffset) ← readPlainValue size 2 locOffset descr.fieldSize
    pure (.ushort value, locOffset)
  | .integer32 => do
    let (value, locOffset) ← readPlainValue size 4 locOffset descr.fieldSize
    pure (.uint value, locOffset)
  | .map => readMapValue descr.fieldSize locOffset []
  | .signedInteger32 => do
    let (value, locOffset) ← readPlainValue size 4 locOffset descr.fieldSize
    pure (.int (toInt32 value), locOffset)
  | .integer64 => do
    let (value, locOffset) ← readPlainValue size 8 locOffset descr.fieldSize
    pure (.ulonglong value, locOffset)
  | .array => readArrayValue descr.fieldSize locOffset []
  | .boolean => pure (.bool (descr.fieldSize ≠ 0), locOffset)
  | .float =>
    if descr.fieldSize = 4 then do
      let (value, locOffset) ← readPlainValue size 4 locOffset descr.fieldSize
      pure (.float value, locOffset)
    else pure (.invalid, locOffset)
  -- illegal or unsupported
  | .pointer | .integer128 | .dataCacheContainer | .endMarker | .unknown =>
    pure (.invalid, locOffset)

/-- The parts of a database that decoding depends on besides the bytes. -/
structure Layout where
  size : ℕ
  nodeCount : ℕ := 0
  recordSize : ℕ := 0

/-- The offset in the buffer of an offset in the data section. -/
def Layout.globalOffset (db : Layout) (offset : ℕ) : ℕ :=
  (offset + db.nodeCount * db.recordSize % uint32Size / 4 + 16) % uint32Size

def readDataField (db : Layout) (offset : ℕ) : Decoder (QVariant × ℕ) := do
  match ← readDataFieldDescriptor db.size offset with
  | none => pure (.invalid, offset)
  | some (descr, offset) =>
    if descr.fieldType = .pointer then
      match ← readDataFieldDescriptor db.size (db.globalOffset descr.offset) with
      | none => pure (.invalid, offset)
      | some (descr, locOffset) =>
        let (fieldValue, _) ← readFieldValue db.size descr locOffset
        pure (fieldValue, offset)
    else readFieldValue db.size descr offset

end QBittorrent
