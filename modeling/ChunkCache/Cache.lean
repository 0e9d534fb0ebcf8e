import ChunkCache.CellPool
import ChunkCache.Sizing
import ChunkCache.SlotQueue

/-!
Caches of a fixed number of chunks. Each slot of a cache can hold the chunk of one address and
counts the references to it in its mark; the payload lies in a cell of a pool. A slot with mark zero
may be evicted and stands in the queue of idle slots, the one released last at the front. A slot
whose chunk is to be saved stands in the queue of pending slots and has one more mark until the next
save.
-/

namespace ChunkCache

structure Slot (n : Nat) where
  /-- The address whose chunk the slot holds. -/
  tenant : Option Address := none
  /-- The number of references to the chunk. -/
  mark : Int := 0
  cell : Option (Fin n) := none
  /-- The next slot with the same bucket. -/
  next : Option (Fin n) := none
  deriving DecidableEq

structure Cache (sizing : Sizing) where
  slots : Vector (Slot sizing.capacity) sizing.capacity
  /-- The first slot of the chain of each bucket. -/
  buckets : Vector (Option (Fin sizing.capacity)) sizing.buckets
  pool : CellPool sizing.capacity
  idle : SlotQueue sizing.capacity
  pending : SlotQueue sizing.capacity
  /-- What spreads the addresses over the buckets. -/
  hash : Address → UInt64

structure Handle where
  slot : Nat
  address : Address
  deriving DecidableEq, Repr

def Handle.describe (h : Handle) : String :=
  s!"ChunkHandle \x7b slot: {h.slot}, coordinate: {h.address.describe}, .. \x7d"

structure Occupant where
  address : Address
  mark : Int
  dirty : Bool
  deriving DecidableEq, Repr

namespace Cache

variable {sizing : Sizing}

/-- An answer and the cache after the operation, which may have changed even if there is none. -/
abbrev Outcome (α : Type) (sizing : Sizing) := Except Failure α × Cache sizing

/-- The cache without chunks whose addresses are spread by `hash`. All slots are idle, and the
first one is used first. -/
def emptyWith (sizing : Sizing) (hash : Address → UInt64) : Cache sizing where
  slots := Vector.replicate sizing.capacity {}
  buckets := Vector.replicate sizing.buckets none
  pool := .empty sizing.capacity
  idle := .full sizing.capacity
  pending := .empty sizing.capacity
  hash := hash

def empty (sizing : Sizing) : Cache sizing := emptyWith sizing Address.hash

/-- The cache without chunks, if there can be one: it needs a slot, a handle for every payload and
an index that can be addressed. -/
def create (sizing : Sizing) : Except Failure (Cache sizing) :=
  if sizing.capacity = 0 then .error (.aborted .zeroCapacity)
  else if Violation.maxPlaces < sizing.buckets ∨ Sizing.maxHandle < sizing.capacity then
    .error (.aborted .arrayTooLarge)
  else .ok (empty sizing)

def tenant? (c : Cache sizing) (slot : Fin sizing.capacity) : Option Address :=
  (c.slots.get slot).tenant

def mark (c : Cache sizing) (slot : Fin sizing.capacity) : Int := (c.slots.get slot).mark

def setSlot (c : Cache sizing) (slot : Fin sizing.capacity)
    (f : Slot sizing.capacity → Slot sizing.capacity) : Cache sizing :=
  { c with slots := c.slots.set slot (f (c.slots.get slot)) slot.isLt }

def available (c : Cache sizing) : Nat := c.slots.toList.countP (·.mark = 0)

def size (c : Cache sizing) : Nat := c.slots.toList.countP (·.tenant.isSome)

def isEmpty (c : Cache sizing) : Bool := c.size = 0

def pendingCount (c : Cache sizing) : Nat := c.pending.size

def slotAt (sizing : Sizing) (number : Nat) : Except Error (Fin sizing.capacity) :=
  if h : number < sizing.capacity then .ok ⟨number, h⟩
  else .error (.noSuchSlot number sizing.capacity)

/-- The mark of the slot with a given number, zero beyond the cache. -/
def marksAt (c : Cache sizing) (number : Nat) : Int :=
  if h : number < sizing.capacity then c.mark ⟨number, h⟩ else 0

def occupant? (c : Cache sizing) (slot : Fin sizing.capacity) : Option Occupant :=
  (c.tenant? slot).map fun address => ⟨address, c.mark slot, c.pending.contains slot⟩

def occupantAt (c : Cache sizing) (number : Nat) : Except Error (Option Occupant) :=
  (slotAt sizing number).map c.occupant?

def attributeMaps (c : Cache sizing) : List AttributeMap :=
  c.pool.cells.toList.filterMap fun cell => cell.bind Payload.attributes?

def describe (c : Cache sizing) : String :=
  s!"SlotTable \x7b capacity: {sizing.capacity}, len: {c.size}, available: {c.available}, " ++
    s!"dirty: {c.pendingCount}, .. \x7d"

end Cache

end ChunkCache
