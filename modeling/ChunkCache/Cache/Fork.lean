import ChunkCache.Cache.Access

namespace ChunkCache.Cache

variable {sizing origin : Sizing}

def readAttributes (c : Cache sizing) (h : Handle) : Except Error AttributeMap := do
  match ← c.read h with
  | .attributes m => .ok m
  | payload => .error (payload.mismatch .attributes)

/-- The payload that a fork of `m` brings into a cache: a clone with the listener of its slot,
already changed. -/
def forkedPayload (m : AttributeMap) : Payload :=
  .attributes { m.fork with tracker := ({ listening := true } : Tracker).touch }

/-- Make a clone of the attributes behind `h`, a handle of the cache `source`, the chunk of `a`.
A chunk that `a` has already is overwritten. -/
def fork (c : Cache sizing) (source : Cache origin) (h : Handle) (a : Address)
    (fresh : Stamp) : Outcome Handle sizing :=
  if a.kind ≠ .attributes then
    (.error (.refused (.wrongKind Kind.attributes.name a.kind.name)), c)
  else
    match source.readAttributes h with
    | .error e => (.error (.refused e), c)
    | .ok m =>
      match c.hold a (Payload.ofAddress a fresh) with
      | (.error f, c) => (.error f, c)
      | (.ok slot, c) =>
        match c.access ⟨slot.val, a⟩ fun _ => .ok ((), forkedPayload m) with
        | (.ok (), c) => (.ok ⟨slot.val, a⟩, c)
        | (.error f, c) => (.error f, (c.release slot).2)

end ChunkCache.Cache
