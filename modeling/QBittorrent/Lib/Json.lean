import QBittorrent.Lib.Binary64

/-!
# JSON values in memory

Objects are lists of members, looked up from the front.  A reader takes a value or nothing (the
member is missing) and falls back to a default when the value has another type.
-/

namespace QBittorrent

inductive JsonValue where
  | null
  | bool (b : Bool)
  | integer (i : ℤ)
  | double (x : Binary64)
  | string (s : String)
  | array (vs : List JsonValue)
  | object (members : List (String × JsonValue))

/-- The members of an object. -/
abbrev JsonObject := List (String × JsonValue)

namespace JsonObject

/-- The value of a member; nothing stands for an undefined value. -/
def value (o : JsonObject) (key : String) : Option JsonValue :=
  (o.find? fun m => m.1 = key).map (·.2)

/-- Add a member that is not there yet. -/
def setOptional (key : String) (v : Option JsonValue) (o : JsonObject) : JsonObject :=
  o ++ (v.map fun v => (key, v)).toList

@[simp] theorem value_nil (key : String) : value [] key = none := rfl

theorem value_cons_self (key : String) (v : JsonValue) (o : JsonObject) :
    value ((key, v) :: o) key = some v := by
  simp [value]

theorem value_cons_ne {key key' : String} (h : key ≠ key') (v : JsonValue) (o : JsonObject) :
    value ((key, v) :: o) key' = value o key' := by
  simp [value, h]

theorem value_setOptional_self {key : String} {o : JsonObject} (h : o.value key = none)
    (v : Option JsonValue) : (o.setOptional key v).value key = v := by
  have hf : o.find? (fun m => m.1 = key) = none := by simpa [value] using h
  cases v <;> simp [setOptional, value, List.find?_append, hf]

theorem value_setOptional_ne {key key' : String} (h : key ≠ key') (v : Option JsonValue)
    (o : JsonObject) : (o.setOptional key v).value key' = o.value key' := by
  cases v <;> simp [setOptional, value, List.find?_append, h]

end JsonObject

namespace JsonValue

/-- The text of a value, empty if it is not one. -/
def toText : Option JsonValue → String
  | some (.string s) => s
  | _ => ""

def toBool (defaultValue : Bool) : Option JsonValue → Bool
  | some (.bool b) => b
  | _ => defaultValue

/-- A number without fractional part that fits in 32 bits. -/
def toInt (defaultValue : Int32) : Option JsonValue → Int32
  | some (.integer i) => if (Int32.ofInt i).toInt = i then Int32.ofInt i else defaultValue
  | some (.double x) =>
    if x.1.den = 1 ∧ (Int32.ofInt x.1.num).toInt = x.1.num then Int32.ofInt x.1.num
    else defaultValue
  | _ => defaultValue

def toDouble (defaultValue : Binary64) : Option JsonValue → Binary64
  | some (.double x) => x
  | some (.integer i) => .round i
  | _ => defaultValue

/-- The values of an array, none if it is not one. -/
def toArray : Option JsonValue → List JsonValue
  | some (.array vs) => vs
  | _ => []

/-- The members of an object, none if it is not one. -/
def toObject : Option JsonValue → JsonObject
  | some (.object ms) => ms
  | _ => []

def ofInt32 (i : Int32) : JsonValue := .integer i.toInt

def ofStringList (l : List String) : JsonValue := .array (l.map .string)

@[simp] theorem toInt_ofInt32 (d i : Int32) : toInt d (some (ofInt32 i)) = i := by
  simp [ofInt32, toInt]

def texts (vs : List JsonValue) : List String := vs.map fun v => toText (some v)

@[simp] theorem texts_toArray_ofStringList (l : List String) :
    texts (toArray (some (ofStringList l))) = l := by
  simp [ofStringList, toArray, texts, Function.comp_def, toText]

end JsonValue

end QBittorrent
