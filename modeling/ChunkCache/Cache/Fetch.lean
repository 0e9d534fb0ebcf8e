import ChunkCache.Cache.Access
import ChunkCache.RecordStore

/-!
Bringing stored chunks into a cache. A fetch has two steps: the request, which finds the chunk in
the cache or reads its record from the store, and the completion, which brings in an empty chunk and
merges the record into it. Other operations may come between the two.
-/

namespace ChunkCache.Cache

variable {sizing : Sizing}

inductive Requested where
  /-- The chunk is cached and now held. -/
  | cached (h : Handle)
  /-- The chunk is not cached; the store has this record of it. -/
  | stored (record : Option Bytes)

def request (c : Cache sizing) (s : RecordStore) (a : Address) : Outcome Requested sizing :=
  c.withBuckets fun c =>
    match c.retainCached a with
    | some (slot, c) => (.ok (.cached ⟨slot.val, a⟩), c)
    | none =>
      match s.read a.toKey with
      | .ok record => (.ok (.stored record), c)
      | .error e => (.error (.refused e), c)

/-- Merge a record into the chunk of `a`, which is brought in empty if it is not cached. If the
record cannot be decoded the chunk is released again. -/
def complete (c : Cache sizing) (a : Address) (record : Bytes) (fresh : Stamp) :
    Outcome Handle sizing :=
  match c.hold a (Payload.ofAddress a fresh) with
  | (.error f, c) => (.error f, c)
  | (.ok slot, c) =>
    match c.load ⟨slot.val, a⟩ record fresh with
    | (.ok (), c) => (.ok ⟨slot.val, a⟩, c)
    | (.error f, c) => (.error f, (c.release slot).2)

/-- Hold the chunk of `a`, fetched from the store if it is not cached; there is none if it is not
stored either. -/
def holdOrFetch (c : Cache sizing) (s : RecordStore) (a : Address) (fresh : Stamp) :
    Outcome (Option Handle) sizing :=
  match c.request s a with
  | (.error f, c) => (.error f, c)
  | (.ok (.cached h), c) => (.ok (some h), c)
  | (.ok (.stored none), c) => (.ok none, c)
  | (.ok (.stored (some record)), c) =>
    let (answer, c) := c.complete a record fresh
    (answer.map some, c)

end ChunkCache.Cache
