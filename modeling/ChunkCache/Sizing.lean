import ChunkCache.Failure

namespace ChunkCache

/-- The sizes of a cache, fixed for its life. -/
structure Sizing where
  capacity : Nat := 1024
  bucketsPerSlot : Nat := 4
  deriving DecidableEq, Repr

namespace Sizing

/-- The buckets per slot of a cache for which nothing else is asked. -/
def usualBucketsPerSlot : Nat := 4

/-- The greatest machine word; the number of buckets never exceeds it. -/
def maxWord : Nat := (1 <<< 64) - 1

/-- The greatest number of payload handles, which are 32-bit words. -/
def maxHandle : Nat := (1 <<< 32) - 1

def ofCapacity (capacity : Nat) : Except Failure Sizing :=
  if capacity = 0 then .error (.aborted .zeroCapacity)
  else if maxHandle < capacity then .error (.aborted .capacityBeyondHandles)
  else .ok { capacity }

/-- The same cache with another number of buckets per slot. -/
def withBucketsPerSlot (sizing : Sizing) (bucketsPerSlot : Nat) : Except Failure Sizing :=
  if bucketsPerSlot = 0 then .error (.aborted .zeroBucketsPerSlot)
  else .ok { sizing with bucketsPerSlot }

def buckets (sizing : Sizing) : Nat :=
  min (sizing.capacity * sizing.bucketsPerSlot) maxWord

end Sizing

end ChunkCache
