import ChunkCache.Cache

namespace ChunkCache.Cache

variable {sizing : Sizing}

def bucketOf (c : Cache sizing) (a : Address) : Nat := (c.hash a).toNat % sizing.buckets

def chainHead (c : Cache sizing) (a : Address) : Option (Fin sizing.capacity) :=
  (c.buckets[c.bucketOf a]?).join

def setChainHead (c : Cache sizing) (a : Address) (slot : Option (Fin sizing.capacity)) :
    Cache sizing :=
  { c with buckets := c.buckets.setIfInBounds (c.bucketOf a) slot }

def next? (c : Cache sizing) (slot : Fin sizing.capacity) : Option (Fin sizing.capacity) :=
  (c.slots.get slot).next

def setNext (c : Cache sizing) (slot : Fin sizing.capacity)
    (next : Option (Fin sizing.capacity)) : Cache sizing :=
  c.setSlot slot fun s => { s with next }

/-- The slot of `a` among the next `steps` slots of a chain. -/
def search (c : Cache sizing) (a : Address) :
    (steps : Nat) → (i : Option (Fin sizing.capacity)) → Option (Fin sizing.capacity)
  | 0, _ => none
  | _, none => none
  | steps + 1, some i =>
    if c.tenant? i = some a then some i else search c a steps (c.next? i)

def find (c : Cache sizing) (a : Address) : Option (Fin sizing.capacity) :=
  c.search a (sizing.capacity + 1) (c.chainHead a)

def enterChain (c : Cache sizing) (slot : Fin sizing.capacity) (a : Address) : Cache sizing :=
  (c.setNext slot (c.chainHead a)).setChainHead a (some slot)

/-- The slot before `slot`, searched in the next `steps` slots of a chain. -/
def predecessor (c : Cache sizing) (slot : Fin sizing.capacity) :
    (steps : Nat) → (i : Option (Fin sizing.capacity)) → Option (Fin sizing.capacity)
  | 0, _ => none
  | _, none => none
  | steps + 1, some i =>
    if c.next? i = some slot then some i else predecessor c slot steps (c.next? i)

def leaveChain (c : Cache sizing) (slot : Fin sizing.capacity) (a : Address) : Cache sizing :=
  let after := c.next? slot
  let c' :=
    if c.chainHead a = some slot then c.setChainHead a after
    else
      match c.predecessor slot sizing.capacity (c.chainHead a) with
      | some before => c.setNext before after
      | none => c
  c'.setNext slot none

/-- Let a slot that holds the chunk of `a` hold none. -/
def dismiss (c : Cache sizing) (slot : Fin sizing.capacity) (a : Address) : Cache sizing :=
  (c.leaveChain slot a).setSlot slot fun s => { s with tenant := none }

/-- Let a slot that holds no chunk hold the one of `a`, whose payload lies in `cell`. -/
def settle (c : Cache sizing) (slot cell : Fin sizing.capacity) (a : Address) : Cache sizing :=
  (c.setSlot slot fun s => { s with cell := some cell, tenant := some a }).enterChain slot a

def markOf (c : Cache sizing) (a : Address) : Option Int := (c.find a).map c.mark

/-- A lookup needs a bucket. -/
def checkBuckets (sizing : Sizing) : Except Failure Unit :=
  if sizing.buckets = 0 then .error (.aborted .noBuckets) else .ok ()

/-- Run an operation that looks an address up; a cache without buckets stays as it is. -/
def withBuckets {α : Type} (c : Cache sizing) (act : Cache sizing → Outcome α sizing) :
    Outcome α sizing :=
  match checkBuckets sizing with
  | .ok () => act c
  | .error f => (.error f, c)

end ChunkCache.Cache
