import ChunkCache.Cache.Access
import ChunkCache.RecordStore

namespace ChunkCache.Cache

variable {sizing : Sizing}

structure Saved where
  /-- The number of records handed to the store. -/
  records : Nat
  /-- The batch, if there was one to hand over. -/
  batch : Option Bytes
  /-- Whether the store took it. -/
  acknowledged : Bool

/-- The pending slots, at most `steps` of them, the oldest first, and the cache without them in its
queue. -/
def drain : (steps : Nat) → Cache sizing → List (Fin sizing.capacity) × Cache sizing
  | 0, c => ([], c)
  | steps + 1, c =>
    match c.pending.popBack with
    | none => ([], c)
    | some (slot, pending) =>
      let (slots, c) := drain steps { c with pending }
      (slot :: slots, c)

/-- The key and the saved form of the chunk in a slot, which is clean afterwards. A vacant slot has
none. -/
def record (c : Cache sizing) (slot : Fin sizing.capacity) :
    Option (Bytes × Bytes) × Cache sizing :=
  match c.tenant? slot with
  | none => (none, c)
  | some a =>
    match c.access ⟨slot.val, a⟩ fun payload => .ok payload.save with
    | (.ok saved, c) => (some (a.toKey, saved), c)
    | (.error _, c) => (none, c)

def recordAll (c : Cache sizing) :
    List (Fin sizing.capacity) → List (Bytes × Bytes) × Cache sizing
  | [] => ([], c)
  | slot :: slots =>
    let (first, c) := c.record slot
    let (rest, c) := c.recordAll slots
    (first.toList ++ rest, c)

def releaseAll (c : Cache sizing) (slots : List (Fin sizing.capacity)) : Cache sizing :=
  slots.foldl (fun c slot => (c.release slot).2) c

/-- Write the chunks of all pending slots to a store. Without records the store is left alone. -/
def save (c : Cache sizing) (s : RecordStore) : Saved × Cache sizing × RecordStore :=
  let (slots, c) := c.drain c.pending.size
  let (records, c) := c.recordAll slots
  let c := c.releaseAll slots
  if records.isEmpty then (⟨0, none, true⟩, c, s)
  else
    let batch := RecordStore.batchOf records
    let (acknowledged, s) := s.write batch
    (⟨records.length, some batch, acknowledged⟩, c, s)

end ChunkCache.Cache
