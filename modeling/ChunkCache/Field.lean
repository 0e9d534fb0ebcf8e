import ChunkCache.Error
import ChunkCache.Double

namespace ChunkCache

/-- The bytes that separate fields, outermost first. -/
inductive Separator where
  /-- Between the records of a batch, and between a key and its payload. -/
  | record
  /-- Between the two parts of a payload, or between its attributes. -/
  | part
  /-- Between the entries of a part, or between the fields of an attribute. -/
  | entry
  /-- Between the items of one entry or one field. -/
  | item
  /-- Between the fields of a key. -/
  | key
  deriving DecidableEq, Repr

namespace Separator

def all : List Separator := [.record, .part, .entry, .item, .key]

/-- The byte itself: one of `#`, `|`, `$`, `&` and `;`. -/
def byte : Separator → UInt8
  | .record => 35
  | .part => 124
  | .entry => 36
  | .item => 38
  | .key => 59

end Separator

namespace Field

def malformed {α : Type} (cause : Malformed) : Except Error α :=
  .error (.malformed cause)

def decodeRaw (field : Bytes) : Except Error Bytes :=
  match Base64.decode field with
  | .ok bs => .ok bs
  | .error fault => malformed (.base64 fault)

/-- The number in a field of exactly `width` bytes; `what` names its type in a refusal. -/
def decodeWord (width : Nat) (what : String) (field : Bytes) : Except Error Nat := do
  let raw ← decodeRaw field
  if raw.length = width then .ok (Bytes.ofBigEndian raw)
  else malformed (.width width what raw.length)

def encodeWord (width n : Nat) : Bytes :=
  Base64.encode (Bytes.bigEndian width n)

def encodeInt64 (v : Int64) : Bytes := encodeWord 8 v.toUInt64.toNat

def decodeInt64 (field : Bytes) : Except Error Int64 :=
  (decodeWord 8 "i64" field).map fun n => (UInt64.ofNat n).toInt64

def encodeInt32 (v : Int32) : Bytes := encodeWord 4 v.toUInt32.toNat

def decodeInt32 (field : Bytes) : Except Error Int32 :=
  (decodeWord 4 "i32" field).map fun n => (UInt32.ofNat n).toInt32

def encodeUInt8 (v : UInt8) : Bytes := encodeWord 1 v.toNat

def decodeUInt8 (field : Bytes) : Except Error UInt8 :=
  (decodeWord 1 "u8" field).map UInt8.ofNat

def encodeDouble (v : Double) : Bytes := encodeWord 8 v.bits.toNat

def decodeDouble (field : Bytes) : Except Error Double :=
  (decodeWord 8 "f64" field).map fun n => ⟨UInt64.ofNat n⟩

def trueByte : UInt8 := 49
def falseByte : UInt8 := 48

def encodeBool (v : Bool) : Bytes := [if v then trueByte else falseByte]

def decodeBool (field : Bytes) : Except Error Bool :=
  if field = [trueByte] then .ok true
  else if field = [falseByte] then .ok false
  else malformed (.boolField field.length)

def encodeString (v : String) : Bytes := Base64.encode (Bytes.ofString v)

def decodeString (field : Bytes) : Except Error String := do
  match Utf8.decode (← decodeRaw field) with
  | .ok s => .ok s
  | .error fault => malformed (.notUtf8 fault)

/-- The largest count that a field can hold; greater ones are written as this one. -/
def maxCount : Nat := (1 <<< 63) - 1

def encodeCount (n : Nat) : Bytes := encodeWord 8 (min n maxCount)

def decodeCount (field : Bytes) : Except Error Nat := do
  let raw ← decodeInt64 field
  if raw < 0 then malformed (.negativeCount raw) else .ok raw.toInt.toNat

end Field

end ChunkCache
