import ChunkCache.Cache.Admission

namespace ChunkCache.Cache

variable {sizing : Sizing}

/-- The handle number of a slot without a payload. -/
def noHandle : Nat := Sizing.maxHandle

/-- The slot, the cell and the payload behind a handle. -/
def payload (c : Cache sizing) (h : Handle) :
    Except Error (Fin sizing.capacity × Fin sizing.capacity × Payload) := do
  let slot ← slotAt sizing h.slot
  match (c.slots.get slot).cell with
  | none => .error (.badHandle noHandle)
  | some cell =>
    let (_, payload) ← c.pool.lookup cell.val
    if c.tenant? slot = some h.address then .ok (slot, cell, payload)
    else .error (.badHandle cell.val)

def read (c : Cache sizing) (h : Handle) : Except Error Payload :=
  (c.payload h).map fun (_, _, payload) => payload

/-- Put a payload into a cell. If its listener was told that it became dirty, the slot is queued. -/
def writeBack (c : Cache sizing) (slot cell : Fin sizing.capacity) (payload : Payload) :
    Cache sizing :=
  let c := { c with pool := c.pool.set cell (some payload.forgetNotices) }
  if 0 < payload.tracker.notices then c.queueForSave slot else c

/-- Run `act` on the payload behind a handle. If it is refused the payload stays as it is. -/
def access {α : Type} (c : Cache sizing) (h : Handle)
    (act : Payload → Except Error (α × Payload)) : Outcome α sizing :=
  match c.payload h with
  | .error e => (.error (.refused e), c)
  | .ok (slot, cell, payload) =>
    match act payload with
    | .error e => (.error (.refused e), c)
    | .ok (answer, payload) => (.ok answer, c.writeBack slot cell payload)

def load (c : Cache sizing) (h : Handle) (buffer : Bytes) (fresh : Stamp) : Outcome Unit sizing :=
  c.access h fun payload => (payload.load (.unknown fresh) buffer).map (((), ·))

end ChunkCache.Cache
