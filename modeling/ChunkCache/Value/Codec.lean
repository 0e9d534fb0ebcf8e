import ChunkCache.Field
import ChunkCache.Value

namespace ChunkCache

/-- A count and the fields after it. -/
def Field.encodeItems (count : Nat) (fields : List Bytes) : Bytes :=
  Bytes.joinWith Separator.item.byte (Field.encodeCount count :: fields)

/-- The fields after a count, which has to announce as many items of `width` fields. -/
def Field.decodeItems (width : Nat) (field : Bytes) : Except Error (List Bytes) := do
  let parts := Bytes.splitOn Separator.item.byte field
  let count ← Field.decodeCount (parts.headD [])
  let fields := parts.drop 1
  if fields.length = count * width then .ok fields
  else Field.malformed (.itemCount count width fields.length)

def Field.decodeArray {α : Type} (read : Bytes → Except Error α) (field : Bytes) :
    Except Error (List α) := do
  (← Field.decodeItems 1 field).mapM read

def Field.pairUp : List Bytes → List (Bytes × Bytes)
  | a :: b :: rest => (a, b) :: pairUp rest
  | _ => []

/-- The pairs of a map; the key of a pair is read before its value. -/
def Field.decodePairs {α : Type} (read : Bytes → Except Error α) (field : Bytes) :
    Except Error (List (α × Int64)) := do
  (Field.pairUp (← Field.decodeItems 2 field)).mapM fun (key, value) => do
    let key ← read key
    let value ← Field.decodeInt64 value
    return (key, value)

namespace Collection

/-- The field of a collection: its pairs in ascending key order, those of a multimap oldest value
first. -/
def encode : Collection → Bytes
  | .longMap m =>
    Field.encodeItems m.size
      (m.entries.flatMap fun (k, v) => [Field.encodeInt64 k, Field.encodeInt64 v])
  | .stringMap m =>
    Field.encodeItems m.size
      (m.entries.flatMap fun (k, v) => [Field.encodeString k, Field.encodeInt64 v])
  | .longMultimap m =>
    Field.encodeItems m.size
      (m.history.flatMap fun (k, v) => [Field.encodeInt64 k, Field.encodeInt64 v])

end Collection

namespace Value

def encode : Value → Bytes
  | .bool v => Field.encodeBool v
  | .string v => Field.encodeString v
  | .long v => Field.encodeInt64 v
  | .int v => Field.encodeInt32 v
  | .double v => Field.encodeDouble v
  | .bools vs => Field.encodeItems vs.length (vs.map Field.encodeBool)
  | .strings vs => Field.encodeItems vs.length (vs.map Field.encodeString)
  | .longs vs => Field.encodeItems vs.length (vs.map Field.encodeInt64)
  | .ints vs => Field.encodeItems vs.length (vs.map Field.encodeInt32)
  | .doubles vs => Field.encodeItems vs.length (vs.map Field.encodeDouble)
  | .collection c => c.encode

/-- The value of type `ty` whose field is given. The pairs of a map are put in the order in which
they stand. -/
def decode (ty : AttributeType) (field : Bytes) : Except Error Value :=
  match ty with
  | .bool => (Field.decodeBool field).map .bool
  | .string => (Field.decodeString field).map .string
  | .long => (Field.decodeInt64 field).map .long
  | .int => (Field.decodeInt32 field).map .int
  | .double => (Field.decodeDouble field).map .double
  | .bools => (Field.decodeArray Field.decodeBool field).map .bools
  | .strings => (Field.decodeArray Field.decodeString field).map .strings
  | .longs => (Field.decodeArray Field.decodeInt64 field).map .longs
  | .ints => (Field.decodeArray Field.decodeInt32 field).map .ints
  | .doubles => (Field.decodeArray Field.decodeDouble field).map .doubles
  | .longMap => (Field.decodePairs Field.decodeInt64 field).map fun pairs =>
    .collection (.longMap (SortedMap.empty.insertMany pairs))
  | .stringMap => (Field.decodePairs Field.decodeString field).map fun pairs =>
    .collection (.stringMap (SortedMap.empty.insertMany pairs))
  | .longMultimap => (Field.decodePairs Field.decodeInt64 field).map fun pairs =>
    .collection (.longMultimap (Multimap.ofPairs pairs))

end Value

end ChunkCache
