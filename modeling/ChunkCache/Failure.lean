import ChunkCache.Error

/-!
How an operation can end without an answer: it is refused with an error that the caller can act on,
or it is aborted because the caller broke one of its preconditions.
-/

namespace ChunkCache

/-- A precondition that a caller broke. -/
inductive Violation where
  | zeroCapacity
  /-- More slots than there are payload handles. -/
  | capacityBeyondHandles
  | zeroBucketsPerSlot
  /-- A slot number beyond a queue or a cache. -/
  | slotOutOfRange
  /-- A lookup in an index without buckets. -/
  | noBuckets
  /-- An array with more places than can be addressed. -/
  | arrayTooLarge
  deriving DecidableEq, Repr

namespace Violation

/-- The greatest number of places in an array: one word each, and less than half of the address
space in bytes. -/
def maxPlaces : Nat := (1 <<< 60) - 1

def message? : Violation → Option String
  | .zeroCapacity => some "capacity must be > 0"
  | .capacityBeyondHandles => some "capacity must fit payload handles"
  | .zeroBucketsPerSlot => some "load_factor must be > 0"
  | _ => none

end Violation

/-- Why an operation has no answer. -/
inductive Failure where
  | refused (error : Error)
  | aborted (violation : Violation)
  deriving DecidableEq, Repr

end ChunkCache
