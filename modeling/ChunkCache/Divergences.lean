import ChunkCache.Address
import ChunkCache.SortedMap
import ChunkCache.Tracker

namespace ChunkCache

/-- For one entity, the time at which each world diverged. -/
structure Divergences where
  entries : SortedMap Int64 Int64 := .empty
  /-- The type code of the entity, `absentLong` if it has none. -/
  code : Int64 := absentLong
  revision : UInt64 := 0
  tracker : Tracker := {}
  deriving DecidableEq

namespace Divergences

def empty : Divergences := {}

def isDirty (d : Divergences) : Bool := d.tracker.dirty

def get? (d : Divergences) (world : Int64) : Option Int64 := d.entries.get? world

def size (d : Divergences) : Nat := d.entries.size

def toList (d : Divergences) : List (Int64 × Int64) := d.entries.entries

def isInitial (d : Divergences) : Bool := d.entries.isEmpty && d.code = absentLong

/-- Record that `world` diverged at `time`. What is already recorded is no change. -/
def put (d : Divergences) (world time : Int64) : Divergences :=
  if d.get? world = some time then d
  else
    { d with
      entries := d.entries.insert world time
      revision := d.revision + 1
      tracker := d.tracker.touch }

def setCode (d : Divergences) (code : Int64) : Divergences :=
  if d.code = code then d else { d with code, tracker := d.tracker.touch }

/-- The saved form: the type code and then the pairs of world and time. -/
def encode (d : Divergences) : Bytes :=
  Field.encodeInt64 d.code ++ Separator.part.byte ::
    Bytes.joinWith Separator.entry.byte (d.toList.map fun (world, time) =>
      Field.encodeInt64 world ++ Separator.item.byte :: Field.encodeInt64 time)

def save (d : Divergences) : Bytes × Divergences :=
  (d.encode, { d with tracker := d.tracker.clear })

def decodeEntry (entry : Bytes) : Except Error (Int64 × Int64) := do
  match Bytes.splitOnce Separator.item.byte entry with
  | none => Field.malformed .divergencesEntry
  | some (world, time) =>
    let world ← Field.decodeInt64 world
    let time ← Field.decodeInt64 time
    return (world, time)

/-- The type code and the pairs of a saved form. -/
def decode (buffer : Bytes) : Except Error (Int64 × List (Int64 × Int64)) := do
  match Bytes.splitOnce Separator.part.byte buffer with
  | none => Field.malformed .noDivergencesHeader
  | some (header, body) =>
    let code ← Field.decodeInt64 header
    let pairs ←
      if body.isEmpty then .ok [] else (Bytes.splitOn Separator.entry.byte body).mapM decodeEntry
    return (code, pairs)

def isNews (entries : SortedMap Int64 Int64) (pair : Int64 × Int64) : Bool :=
  entries.get? pair.1 ≠ some pair.2

/-- Record pairs one after the other, and tell whether one of them was news when its turn came. -/
def putAll (entries : SortedMap Int64 Int64) :
    List (Int64 × Int64) → Bool × SortedMap Int64 Int64
  | [] => (false, entries)
  | pair :: pairs =>
    let (changed, merged) := putAll (entries.insert pair.1 pair.2) pairs
    (isNews entries pair || changed, merged)

/-- Merge a decoded form. A type code is never replaced by its absence, and divergences that held
nothing stay clean. -/
def merge (d : Divergences) (code : Int64) (pairs : List (Int64 × Int64)) : Divergences :=
  let adopts := code ≠ absentLong && code ≠ d.code
  let (news, entries) := putAll d.entries pairs
  let changed := adopts || news
  { entries
    code := if adopts then code else d.code
    revision := if changed then d.revision + 1 else d.revision
    tracker := if changed && !d.isInitial then d.tracker.touch else d.tracker }

/-- Merge a saved form; an empty buffer holds nothing. -/
def load (d : Divergences) (buffer : Bytes) : Except Error Divergences :=
  if buffer.isEmpty then .ok d
  else (decode buffer).map fun (code, pairs) => d.merge code pairs

def describe (d : Divergences) : String :=
  let entries := ", ".intercalate
    (d.toList.map fun (world, time) => s!"{world.toInt}: {time.toInt}")
  s!"WorldOrder \x7b entries: \x7b{entries}\x7d, extra: {d.code.toInt}, " ++
    s!"magic: {d.revision.toNat}, dirty: {d.isDirty}, .. \x7d"

end Divergences

end ChunkCache
