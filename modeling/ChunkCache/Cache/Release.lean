import ChunkCache.Cache.Access

namespace ChunkCache.Cache

variable {sizing : Sizing}

def releaseOf (c : Cache sizing) (a : Address) : Outcome (Option Int) sizing :=
  c.withBuckets fun c =>
    match c.find a with
    | none => (.ok none, c)
    | some slot =>
      let (left, c) := c.release slot
      (.ok (some left), c)

/-- The slot of a handle, if it still holds the chunk of its address. A handle whose slot is
beyond the cache breaks a precondition. -/
def currentSlot (c : Cache sizing) (h : Handle) :
    Except Failure (Option (Fin sizing.capacity)) :=
  if hs : h.slot < sizing.capacity then
    .ok (if c.tenant? ⟨h.slot, hs⟩ = some h.address then some ⟨h.slot, hs⟩ else none)
  else .error (.aborted .slotOutOfRange)

def releaseHandle (c : Cache sizing) (h : Handle) : Outcome (Option Int) sizing :=
  match c.currentSlot h with
  | .error f => (.error f, c)
  | .ok none => (.ok none, c)
  | .ok (some slot) =>
    let (left, c) := c.release slot
    (.ok (some left), c)

def requestSave (c : Cache sizing) (h : Handle) : Outcome Unit sizing :=
  match c.currentSlot h with
  | .error f => (.error f, c)
  | .ok none => (.ok (), c)
  | .ok (some slot) => (.ok (), c.queueForSave slot)

def requestSaveAt (c : Cache sizing) (number : Nat) : Outcome Unit sizing :=
  match slotAt sizing number with
  | .error e => (.error (.refused e), c)
  | .ok slot => (.ok (), c.queueForSave slot)

/-- The cells after the one of a discarded slot is vacated. -/
def vacateCell (pool : CellPool sizing.capacity) :
    Option (Fin sizing.capacity) → Except Error Unit × CellPool sizing.capacity
  | none => (.ok (), pool)
  | some cell =>
    match pool.vacate cell.val with
    | .ok (_, pool) => (.ok (), pool)
    | .error e => (.error e, pool)

/-- Empty a slot, which is the next one to be used. -/
def clear (c : Cache sizing) (slot : Fin sizing.capacity) (a : Address) :
    Except Error Unit × Cache sizing :=
  let c := c.dismiss slot a
  let (answer, pool) := vacateCell c.pool (c.slots.get slot).cell
  let c := { c with pool }
  let c := c.setSlot slot fun s => { s with cell := none, mark := 0 }
  (answer, { c with idle := (c.idle.pushBack slot).2 })

/-- Drop the chunk of a handle without saving it. The handle has to hold the only reference; the
mark of a pending save does not count, and the save is called off. -/
def discard (c : Cache sizing) (h : Handle) : Outcome Unit sizing :=
  match slotAt sizing h.slot with
  | .error e => (.error (.refused e), c)
  | .ok slot =>
    if c.tenant? slot = some h.address then
      let (queued, pending) := c.pending.erase slot
      let expected : Int := if queued then 2 else 1
      if c.mark slot = expected then
        let (answer, c) := { c with pending }.clear slot h.address
        (answer.mapError .refused, c)
      else
        let pending := if queued then (pending.pushFront slot).2 else pending
        (.error (.refused (.stillReferenced slot.val (c.mark slot))), { c with pending })
    else
      let number := (c.slots.get slot).cell.elim noHandle Fin.val
      (.error (.refused (.badHandle number)), c)

end ChunkCache.Cache
