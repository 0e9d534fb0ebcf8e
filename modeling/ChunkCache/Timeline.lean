import ChunkCache.Failure
import ChunkCache.Field
import ChunkCache.RowTree.Traversal
import ChunkCache.Tracker

namespace ChunkCache

/-- The version times of one entity in one world. They are saved in the order of their rows, so a
fresh timeline that loads them gets the same rows. -/
structure Timeline where
  tree : RowTree := {}
  /-- The number of rows for which room is made. -/
  capacity : Nat := 0
  /-- A counter that changes with the set of keys. -/
  revision : UInt64 := 0
  tracker : Tracker := {}
  deriving DecidableEq

namespace Timeline

def initialCapacity : Nat := 8

def empty : Timeline := {}

def size (t : Timeline) : Nat := t.tree.size

theorem length_keys (t : Timeline) : t.tree.keys.length = t.size := t.tree.length_keys

def isEmpty (t : Timeline) : Bool := t.tree.isEmpty

def isDirty (t : Timeline) : Bool := t.tracker.dirty

def contains (t : Timeline) (key : Int64) : Bool := t.tree.contains key

def first? (t : Timeline) : Option Int64 := t.tree.first?

def last? (t : Timeline) : Option Int64 := t.tree.last?

def floor? (t : Timeline) (key : Int64) : Option Int64 := t.tree.floor? key

def toList (t : Timeline) : List Int64 := t.tree.toList

/-- The greatest keys of the interval from `start` to `stop`, at most `count`, in descending
order. -/
def range (t : Timeline) (start stop : Int64) (count : Nat) : List Int64 :=
  t.tree.range start stop count

def makeRoom (t : Timeline) (rows : Nat) : Timeline := { t with capacity := max rows t.capacity }

/-- Make room for `rows` rows, if an array can have so many places. -/
def reserve (t : Timeline) (rows : Nat) : Except Failure Timeline :=
  if Violation.maxPlaces < rows then .error (.aborted .arrayTooLarge) else .ok (t.makeRoom rows)

theorem eq_makeRoom_of_reserve {t t' : Timeline} {rows : Nat} (h : t.reserve rows = .ok t') :
    t' = t.makeRoom rows := by
  unfold reserve at h
  split at h
  · cases h
  · cases h
    rfl

/-- The room for `size` rows: a timeline that outgrows its room doubles it. -/
def grown (capacity size : Nat) : Nat :=
  if capacity < size then (if capacity = 0 then initialCapacity else capacity * 2) else capacity

/-- Insert a key and nothing else: the timeline with it, and whether it was new. -/
def place : Timeline → Int64 → Timeline × Bool
  | { tree, capacity, revision, tracker }, key =>
    let (tree, new) := tree.insert key
    ({ tree, capacity := grown capacity tree.size, revision, tracker }, new)

/-- Insert keys one after the other, and tell whether one of them was new. -/
def placeAll (t : Timeline) (keys : List Int64) : Timeline × Bool :=
  keys.foldl
    (fun (t, found) key =>
      let (t, new) := t.place key
      (t, found || new))
    (t, false)

def stamped (t : Timeline) : Timeline := { t with revision := t.revision + 1 }

def touch (t : Timeline) : Timeline := { t with tracker := t.tracker.touch }

/-- Insert `key` without making the timeline dirty. -/
def insertSilently (t : Timeline) (key : Int64) : Timeline × Bool :=
  let (t, new) := t.place key
  if new then (t.stamped, true) else (t, false)

def insert (t : Timeline) (key : Int64) : Timeline × Bool :=
  let (t, new) := t.insertSilently key
  if new then (t.touch, true) else (t, false)

def insertAll (t : Timeline) : List Int64 → Timeline × List Bool
  | [] => (t, [])
  | key :: keys =>
    let (t, new) := t.insert key
    let (t, news) := t.insertAll keys
    (t, new :: news)

/-- Insert `count` keys from `start` on at distance `step`: the timeline with them, and how many of
them were new. -/
def insertSpaced (t : Timeline) (start step : Int64) (count : Nat) : Timeline × Nat :=
  count.fold
    (fun n _ (t, total) =>
      let (t, new) := t.insert (start + Int64.ofNat n * step)
      (t, if new then total + 1 else total))
    (t, 0)

/-- Remove every key from `bound` on. The other keys are inserted afresh, in the order of their
rows. -/
def truncate (t : Timeline) (bound : Int64) : Timeline :=
  let emptied := { t with tree := {}, capacity := initialCapacity }
  (emptied.placeAll (t.tree.keys.filter (· < bound))).1.stamped.touch

/-- The saved form: the number of keys and then the keys in row order. -/
def encode (t : Timeline) : Bytes :=
  Field.encodeCount t.size ++ Separator.part.byte ::
    Bytes.joinWith Separator.entry.byte (t.tree.keys.map Field.encodeInt64)

def save (t : Timeline) : Bytes × Timeline :=
  (t.encode, { t with tracker := t.tracker.clear })

/-- The keys of a saved form, which has to announce as many as it holds. -/
def decode (buffer : Bytes) : Except Error (List Int64) := do
  match Bytes.splitOnce Separator.part.byte buffer with
  | none => Field.malformed .noTimelineHeader
  | some (header, body) =>
    let advertised ← Field.decodeCount header
    let keys ←
      if body.isEmpty then .ok []
      else (Bytes.splitOn Separator.entry.byte body).mapM Field.decodeInt64
    if keys.length = advertised then .ok keys
    else Field.malformed (.timelineCount advertised keys.length)

/-- Insert the keys of a saved form. Only a timeline that held keys before and gains some becomes
dirty. -/
def merge (t : Timeline) (keys : List Int64) : Timeline :=
  let (merged, new) := (t.makeRoom (t.size + keys.length)).placeAll keys
  if !new then merged
  else if t.isEmpty then merged.stamped
  else merged.stamped.touch

/-- Merge a saved form; an empty buffer holds nothing. -/
def load (t : Timeline) (buffer : Bytes) : Except Error Timeline :=
  if buffer.isEmpty then .ok t else (decode buffer).map t.merge

def describe (t : Timeline) : String :=
  s!"TimeTree \x7b size: {t.size}, capacity: {t.capacity}, magic: {t.revision.toNat}, " ++
    s!"dirty: {t.isDirty}, .. \x7d"

end Timeline

end ChunkCache
