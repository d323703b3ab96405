import QBittorrent.Geo.Field

/-!
# Loading a GeoIP database and looking up addresses in it

A database file is a search tree of nodes with two records each, a separator of zero bytes, the data
section, and behind the last mark in the file the metadata, which is a data field too.  A lookup
walks down the tree with the bits of an address, until a record is the number of no node.

What is read is in lists next to the results: `loadReads` and `lookupReads` belong to `load` and
`lookup`.  All of them take a bound for the depth of the recursion; a run that needs more has no
result, but what it reads down to that depth is in the list.
-/

namespace QBittorrent

open Prog

def maxFileSize : ℕ := 67108864

def maxMetadataSize : ℕ := 131072

/-- The bytes `"\xab\xcd\xefMaxMind.com"`. -/
def metadataBeginMark : List UInt8 := [0xab, 0xcd, 0xef] ++ toUtf8 "MaxMind.com"

/-- The size of `DATA_SECTION_SEPARATOR`. -/
def separatorSize : ℕ := 16

/-- A database, with what its metadata say. -/
structure GeoIPDatabase extends Layout where
  ipVersion : ℕ
  nodeSize : ℕ
  indexSize : ℤ
  recordBytes : ℕ
  buildEpoch : ℤ
  dbType : String

/-! ### Metadata -/

/-- The place of the last occurrence of a pattern. -/
def lastIndexOf (pat data : List UInt8) : Option ℕ :=
  (List.range (data.length + 1)).reverse.find? fun i => pat.isPrefixOf (data.drop i)

/-- The number of bytes in front of those that are searched for the mark. -/
def metadataStart (size : ℕ) : ℕ := if maxMetadataSize < size then size - maxMetadataSize else 0

/-- The metadata, empty if there are none. -/
def readMetadata (size : ℕ) : Decoder QVariantHash := do
  let data ← readBytes (metadataStart size) (size - metadataStart size)
  match lastIndexOf metadataBeginMark data with
  | none => pure []
  | some index =>
    let offset := (index + metadataStart size + metadataBeginMark.length) % uint32Size
    let (metadata, _) ← Prog.recurse offset
    pure metadata.toHash

def errMsgNotFound (key : String) : String := s!"Metadata error: '{key}' entry not found."

def errMsgInvalid (key : String) : String := s!"Metadata error: '{key}' entry has invalid type."

/-- An entry that must be there with a type. -/
def checkMetadataReq {α : Type} (metadata : QVariantHash) (key : String)
    (type : QVariant → Option α) : Except String α :=
  if metadata.contains key then
    match type (metadata.value key) with
    | some value => .ok value
    | none => .error (errMsgInvalid key)
  else .error (errMsgNotFound key)

/-- An entry that must have a type if it is there. -/
def checkMetadataOpt (metadata : QVariantHash) (key : String) (type : QVariant → Bool) :
    Except String Unit :=
  if metadata.contains key ∧ ¬ type (metadata.value key) then .error (errMsgInvalid key)
  else .ok ()

def QVariant.toUShort? : QVariant → Option ℕ
  | .ushort n => some n
  | _ => none

def QVariant.toUInt? : QVariant → Option ℕ
  | .uint n => some n
  | _ => none

def QVariant.toULongLong? : QVariant → Option ℕ
  | .ulonglong n => some n
  | _ => none

def QVariant.toQString? : QVariant → Option String
  | .qstring s => some s
  | _ => none

def QVariant.isVariantList : QVariant → Bool
  | .variantList _ => true
  | _ => false

def QVariant.isVariantHash : QVariant → Bool
  | .variantHash _ => true
  | _ => false

/-- What the metadata say, with what is computed from it. -/
def parseMetadata (size : ℕ) (metadata : QVariantHash) : Except String GeoIPDatabase := do
  let versionMajor ← checkMetadataReq metadata "binary_format_major_version" QVariant.toUShort?
  let versionMinor ← checkMetadataReq metadata "binary_format_minor_version" QVariant.toUShort?
  if versionMajor ≠ 2 then
    .error s!"Unsupported database version: {versionMajor}.{versionMinor}"
  else
    let ipVersion ← checkMetadataReq metadata "ip_version" QVariant.toUShort?
    if ipVersion ≠ 6 then .error s!"Unsupported IP version: {ipVersion}" else
      let recordSize ← checkMetadataReq metadata "record_size" QVariant.toUShort?
      if recordSize ≠ 24 then .error s!"Unsupported record size: {recordSize}" else
        let nodeSize := recordSize / 4
        let recordBytes := nodeSize / 2
        let nodeCount ← checkMetadataReq metadata "node_count" QVariant.toUInt?
        let indexSize := toInt32 (nodeCount * nodeSize)
        let dbType ← checkMetadataReq metadata "database_type" QVariant.toQString?
        let buildEpoch ← checkMetadataReq metadata "build_epoch" QVariant.toULongLong?
        checkMetadataOpt metadata "languages" QVariant.isVariantList
        checkMetadataOpt metadata "description" QVariant.isVariantHash
        .ok { size, nodeCount, recordSize, ipVersion, nodeSize, indexSize, recordBytes,
              buildEpoch := Int.bmod buildEpoch (2 ^ 64), dbType }

/-! ### Loading -/

/-- The check of the separator behind the search tree.  The signed size of the tree is compared as a
64-bit number without sign. -/
def loadDB (db : GeoIPDatabase) : Decoder (Except String Unit) := do
  let nodeSize := db.recordSize / 4
  let indexSize := toInt32 (db.nodeCount * nodeSize)
  if (db.size : ℤ) < (indexSize + separatorSize) % 2 ^ 64 then
    pure (.error "Database corrupted: no data section found.")
  else
    let separator ← readBytes indexSize separatorSize
    if separator.all (· = 0) then pure (.ok ())
    else pure (.error "Database corrupted: no data section found.")

section Load

variable (mem : ℤ → UInt8) (fuel : ℕ)

/-- Decoding down to some depth. -/
def decodeField (db : Layout) : ℕ → Option (QVariant × ℕ) := Prog.proc mem (readDataField db) fuel

/-- The result of a decoder. -/
def Decoder.eval {R : Type} (db : Layout) (p : Decoder R) : Option R :=
  p.evalWith mem (decodeField mem fuel db)

/-- The addresses that a decoder reads. -/
def Decoder.reads {R : Type} (db : Layout) (p : Decoder R) : List ℤ :=
  p.readsWith mem (decodeField mem fuel db) (Prog.procReads mem (readDataField db) fuel)

/-- The number of nodes and the size of records are zero until the metadata have been parsed. -/
def unparsed (size : ℕ) : Layout where
  size := size

/-- The database in a buffer, or an error. -/
def load (size : ℕ) : Option (Except String GeoIPDatabase) :=
  if maxFileSize < size then some (.error "Unsupported database file size.") else
    (Decoder.eval mem fuel (unparsed size) (readMetadata size)).bind fun metadata =>
      match parseMetadata size metadata with
      | .error error => some (.error error)
      | .ok db => (Decoder.eval mem fuel db.toLayout (loadDB db)).map fun result =>
        result.map fun _ => db

/-- The addresses that `load` reads. -/
def loadReads (size : ℕ) : List ℤ :=
  if maxFileSize < size then [] else
    Decoder.reads mem fuel (unparsed size) (readMetadata size) ++
      match (Decoder.eval mem fuel (unparsed size) (readMetadata size)).map (parseMetadata size) with
      | some (.ok db) => Decoder.reads mem fuel db.toLayout (loadDB db)
      | _ => []

end Load

/-! ### Lookups -/

/-- The offset of the data of a record. -/
def GeoIPDatabase.dataOffset (db : GeoIPDatabase) (id : ℕ) : ℕ :=
  let offset := sub32 (sub32 id db.nodeCount) separatorSize
  ((offset + db.indexSize + separatorSize) % uint32Size).toNat

/-- The country codes that have been found for data records, `m_countries`. -/
abbrev Countries := ℕ → String

section Lookup

variable (toQString : QVariant → String) (db : GeoIPDatabase)

/-- Where the record for the next bit is. -/
def GeoIPDatabase.recordAddress (right : Bool) (ptr : ℕ) : ℤ :=
  if right then ptr + db.recordBytes else ptr

/-- The country of the data record with a number. -/
def lookupData (id : ℕ) (countries : Countries) : Decoder (String × Countries) := do
  if countries id ≠ "" then pure (countries id, countries) else
    let (val, _) ← Prog.recurse (db.dataOffset id)
    match val with
    | .variantHash hash =>
      let country := toQString (QVariantHash.value (QVariantHash.value hash "country").toHash "iso_code")
      pure (country, Function.update countries id country)
    | _ => pure ("", countries)

/-- The walk down the search tree from the node at `ptr`. -/
def lookupFrom : List Bool → (ptr : ℕ) → Countries → Decoder (String × Countries)
  | [], _, countries => pure ("", countries)
  | right :: bits, ptr, countries => do
    let record ← readBytes (db.recordAddress right ptr) db.recordBytes
    let id := bigEndian record
    if id = db.nodeCount then pure ("", countries)
    else if db.nodeCount < id then lookupData toQString db id countries
    else lookupFrom bits (id * db.nodeSize % uint32Size) countries

/-- The bits of an address, the most significant of each byte first. -/
def addressBits (addr : Vector UInt8 16) : List Bool :=
  addr.toList.flatMap fun b => (List.range 8).map fun j => b.toNat.testBit (7 - j)

variable (mem : ℤ → UInt8) (fuel : ℕ)

/-- The country of an address, and the countries that are known then. -/
def GeoIPDatabase.lookup (countries : Countries) (addr : Vector UInt8 16) : Option (String × Countries) :=
  Decoder.eval mem fuel db.toLayout (lookupFrom toQString db (addressBits addr) 0 countries)

/-- The addresses that `lookup` reads. -/
def lookupReads (countries : Countries) (addr : Vector UInt8 16) : List ℤ :=
  Decoder.reads mem fuel db.toLayout (lookupFrom toQString db (addressBits addr) 0 countries)

/-- What lookups one after another read. -/
def lookupsReads : Countries → List (Vector UInt8 16) → List ℤ
  | _, [] => []
  | countries, addr :: addrs => lookupReads toQString db mem fuel countries addr ++
    match GeoIPDatabase.lookup toQString db mem fuel countries addr with
    | some (_, countries) => lookupsReads countries addrs
    | none => []

end Lookup

/-- The memory with a buffer in it. -/
def memoryWith (data : List UInt8) (outside : ℤ → UInt8) (a : ℤ) : UInt8 :=
  if 0 ≤ a then data.getD a.toNat (outside a) else outside a

section Bytes

variable {mem : ℤ → UInt8} {body : ℕ → Decoder (QVariant × ℕ)} {address : ℤ} {n m : ℕ}

/-- The bytes in memory from an address on. -/
def bytesAt (mem : ℤ → UInt8) (address : ℤ) (n : ℕ) : List UInt8 :=
  (List.range n).map fun i : ℕ => mem (address + i)

theorem bytesAt_succ (address : ℤ) (n : ℕ) :
    bytesAt mem address (n + 1) = mem address :: bytesAt mem (address + 1) n := by
  rw [bytesAt, List.range_succ_eq_map, List.map_cons, List.map_map, bytesAt]
  congr 1
  · simp
  · refine List.map_congr_left fun i _ => ?_
    simp only [Function.comp_apply, Nat.cast_succ]
    congr 1
    omega

theorem returns_readBytes_iff {data : List UInt8} :
    Prog.Returns mem body (readBytes address n) data ↔ data = bytesAt mem address n := by
  induction n generalizing address data with
  | zero => exact returns_ret_iff.trans eq_comm
  | succ n ih =>
    simp only [readBytes, cell, pure_eq, read_bind, ret_bind,
      returns_read_iff, returns_bind_iff, ih, returns_ret_iff, exists_eq_left,
      bytesAt_succ]
    exact eq_comm

theorem not_calls_readBytes : ¬ Prog.Calls mem body (readBytes address n) m := by
  induction n generalizing address with
  | zero => exact not_calls_ret
  | succ n ih =>
    simp only [readBytes, cell, pure_eq, read_bind, ret_bind,
      calls_read_iff, calls_bind_iff, ih, not_calls_ret, and_false, exists_false,
      or_false, not_false_eq_true]

theorem reads_readBytes_iff {a : ℤ} :
    Prog.Reads mem body (readBytes address n) a ↔ address ≤ a ∧ a < address + n := by
  induction n generalizing address with
  | zero =>
    refine iff_of_false not_reads_ret ?_
    omega
  | succ n ih =>
    simp only [readBytes, cell, pure_eq, read_bind, ret_bind,
      reads_read_iff, reads_bind_iff, ih, not_reads_ret, and_false, exists_false,
      or_false]
    omega

theorem not_calls_loadDB {db : GeoIPDatabase} : ¬ Prog.Calls mem body (loadDB db) m := by
  rw [loadDB]
  split
  · exact not_calls_ret
  · rw [calls_bind_iff]
    rintro (h | ⟨separator, -, h⟩)
    · exact not_calls_readBytes h
    · split at h <;> exact not_calls_ret h

end Bytes

end QBittorrent
