import ChunkCache.Cache.Index

namespace ChunkCache.Cache

variable {sizing : Sizing}

def retain (c : Cache sizing) (slot : Fin sizing.capacity) : Cache sizing :=
  let c' := c.setSlot slot fun s => { s with mark := s.mark + 1 }
  if c.mark slot = 0 then { c' with idle := (c'.idle.erase slot).2 } else c'

/-- Take one mark from a slot and answer the mark that is left. A slot without marks is left as it
is. -/
def release (c : Cache sizing) (slot : Fin sizing.capacity) : Int × Cache sizing :=
  let current := c.mark slot
  if current ≤ 0 then (current, c)
  else
    let c' := c.setSlot slot fun s => { s with mark := current - 1 }
    (current - 1, if current = 1 then { c' with idle := (c'.idle.pushFront slot).2 } else c')

/-- Queue a slot for the next save. It has a mark of its own while it is queued. -/
def queueForSave (c : Cache sizing) (slot : Fin sizing.capacity) : Cache sizing :=
  let (entered, pending) := c.pending.pushFront slot
  let c := { c with pending }
  if entered then c.retain slot else c

def retainCached (c : Cache sizing) (a : Address) :
    Option (Fin sizing.capacity × Cache sizing) :=
  (c.find a).map fun slot => (slot, c.retain slot)

end ChunkCache.Cache
