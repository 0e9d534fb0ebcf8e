import ChunkCache.Field
import ChunkCache.Placement
import ChunkCache.SortedMap

namespace ChunkCache

/-- A store of records, how it runs its completions, and its outage, if there is one, during which
reads fail and writes are not acknowledged. -/
structure RecordStore where
  records : SortedMap Bytes Bytes := .empty
  runner : Runner := .inline
  placement : Placement := .sameThread
  outage : Option Error := none

namespace RecordStore

def size (s : RecordStore) : Nat := s.records.size

def isEmpty (s : RecordStore) : Bool := s.records.isEmpty

/-- The record under `key`, outage or not. -/
def record? (s : RecordStore) (key : Bytes) : Option Bytes := s.records.get? key

def insert (s : RecordStore) (key record : Bytes) : RecordStore :=
  { s with records := s.records.insert key record }

def read (s : RecordStore) (key : Bytes) : Except Error (Option Bytes) :=
  match s.outage with
  | some e => .error e
  | none => .ok (s.record? key)

/-- The batch of some records: keys and records in turn. -/
def batchOf (records : List (Bytes × Bytes)) : Bytes :=
  Bytes.joinWith Separator.record.byte (records.flatMap fun (key, record) => [key, record])

/-- The keys and records that stand in turn in a list, unless the last key has no record. -/
def pairs? : List Bytes → Option (List (Bytes × Bytes))
  | [] => some []
  | key :: record :: rest => (pairs? rest).map ((key, record) :: ·)
  | [_] => none

/-- The records of a batch; an empty batch has none. -/
def ofBatch? (batch : Bytes) : Option (List (Bytes × Bytes)) :=
  if batch.isEmpty then some [] else pairs? (Bytes.splitOn Separator.record.byte batch)

/-- Write the records of a batch in order. The answer tells whether the batch was taken. -/
def write (s : RecordStore) (batch : Bytes) : Bool × RecordStore :=
  match s.outage, ofBatch? batch with
  | none, some pairs => (true, { s with records := s.records.insertMany pairs })
  | _, _ => (false, s)

def describe (s : RecordStore) : String :=
  s!"MemoryStorage \x7b records: {s.size}, affinity: {s.placement.render}, .. \x7d"

end RecordStore

end ChunkCache
