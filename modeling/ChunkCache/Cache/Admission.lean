import ChunkCache.Cache.Retention

namespace ChunkCache.Cache

variable {sizing : Sizing}

/-- Take slots from the back of the queue of idle slots, at most `steps` of them, until one has no
marks. -/
def reclaim : (steps : Nat) → Cache sizing → Option (Fin sizing.capacity) × Cache sizing
  | 0, c => (none, c)
  | steps + 1, c =>
    match c.idle.popBack with
    | none => (none, c)
    | some (slot, idle) =>
      let c := { c with idle }
      if c.mark slot = 0 then (some slot, c) else reclaim steps c

def evict (c : Cache sizing) (slot : Fin sizing.capacity) : Cache sizing :=
  match c.tenant? slot with
  | none => c
  | some a => c.dismiss slot a

/-- Put a payload into the cell of a slot, or into a vacant cell if the slot has none. -/
def storePayload (c : Cache sizing) (slot : Fin sizing.capacity) (payload : Payload) :
    Except Error (Fin sizing.capacity × CellPool sizing.capacity) :=
  match (c.slots.get slot).cell with
  | none => c.pool.place payload
  | some cell => (c.pool.exchange cell.val payload).map fun (_, pool) => (cell, pool)

/-- Put a payload as the chunk of `a` into a reclaimed slot, with one mark. -/
def occupy (c : Cache sizing) (slot : Fin sizing.capacity) (a : Address) (payload : Payload) :
    Outcome (Fin sizing.capacity) sizing :=
  let c := c.evict slot
  let payload := (payload.listen true).forgetNotices
  match c.storePayload slot payload with
  | .error e =>
    let c := c.setSlot slot fun s => { s with cell := none, mark := 0 }
    (.error (.refused e), { c with idle := (c.idle.pushFront slot).2 })
  | .ok (cell, pool) =>
    let c := ({ c with pool }.settle slot cell a).setSlot slot fun s => { s with mark := 1 }
    (.ok slot, if payload.isDirty then c.queueForSave slot else c)

def bringIn (c : Cache sizing) (a : Address) (payload : Payload) :
    Outcome (Fin sizing.capacity) sizing :=
  match c.reclaim c.idle.size with
  | (some slot, c) => c.occupy slot a payload
  | (none, c) => (.error (.refused (.cacheFull sizing.capacity c.available)), c)

/-- Retain the slot of `a`; if its chunk is not cached, bring in the one that `make` makes. -/
def hold (c : Cache sizing) (a : Address) (make : Except Error Payload) :
    Outcome (Fin sizing.capacity) sizing :=
  c.withBuckets fun c =>
    match c.retainCached a with
    | some (slot, c) => (.ok slot, c)
    | none =>
      match make with
      | .ok payload => c.bringIn a payload
      | .error e => (.error (.refused e), c)

def toHandle (a : Address) : Outcome (Fin sizing.capacity) sizing → Outcome Handle sizing
  | (answer, c) => (answer.map fun slot => ⟨slot.val, a⟩, c)

def holdCached (c : Cache sizing) (a : Address) : Outcome (Option Handle) sizing :=
  c.withBuckets fun c =>
    match c.retainCached a with
    | some (slot, c) => (.ok (some ⟨slot.val, a⟩), c)
    | none => (.ok none, c)

/-- Hold the chunk of `a`, an empty one if it is not cached. -/
def holdOrCreate (c : Cache sizing) (a : Address) (fresh : Stamp) : Outcome Handle sizing :=
  toHandle a (c.hold a (Payload.ofAddress a fresh))

/-- Hold the chunk of `a`; if it is not cached, `payload` becomes it. -/
def holdOrPut (c : Cache sizing) (a : Address) (payload : Payload) : Outcome Handle sizing :=
  toHandle a (c.hold a (.ok payload))

end ChunkCache.Cache
