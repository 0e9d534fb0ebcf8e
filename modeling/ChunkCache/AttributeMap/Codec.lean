import ChunkCache.AttributeMap
import ChunkCache.Value.Codec

namespace ChunkCache.AttributeMap

def encodeRecord (key : Int64) (value : Value) : Bytes :=
  Bytes.joinWith Separator.entry.byte
    [Field.encodeInt64 key, Field.encodeUInt8 value.type.tag, value.encode]

def encode (m : AttributeMap) : Bytes :=
  Bytes.joinWith Separator.part.byte (m.toList.map fun (key, value) => encodeRecord key value)

def save (m : AttributeMap) : Bytes × AttributeMap :=
  (m.encode, { m with tracker := m.tracker.clear })

def decodeType (field : Bytes) : Except Error AttributeType := do
  let raw ← Field.decodeUInt8 field
  match AttributeType.ofTag? raw with
  | some ty => .ok ty
  | none => Field.malformed (.unknownTag raw)

def decodeRecord (record : Bytes) : Except Error (Int64 × Value) := do
  match Bytes.splitOn Separator.entry.byte record with
  | [key, tag, value] =>
    let key ← Field.decodeInt64 key
    let ty ← decodeType tag
    let value ← Value.decode ty value
    return (key, value)
  | _ => Field.malformed .recordFields

/-- The records of a buffer; an empty buffer has none. -/
def decodeRecords (buffer : Bytes) : Except Error (List (Int64 × Value)) :=
  if buffer.isEmpty then .ok []
  else (Bytes.splitOn Separator.part.byte buffer).mapM decodeRecord

/-- Merge a saved form into the map. The whole buffer is decoded before anything is bound. -/
def load (m : AttributeMap) (own : Ownership) (buffer : Bytes) : Except Error AttributeMap :=
  (decodeRecords buffer).map (m.merge own)

end ChunkCache.AttributeMap
