import ChunkCache.Cache.Fetch
import ChunkCache.Cache.Fork
import ChunkCache.Cache.Release
import ChunkCache.Cache.Save

namespace ChunkCache

structure AnyCache where
  sizing : Sizing
  cache : Cache sizing

/-- A handle and the number of the cache that made it, which it stays with. -/
structure Kept where
  owner : Nat
  handle : Handle

/-- Caches on one store, and what their user keeps. -/
structure Session where
  caches : Array AnyCache := #[]
  current : Nat := 0
  store : RecordStore := {}
  handles : List (String × Kept) := []
  detached : List (String × Address × Payload) := []

namespace Session

def cache (s : Session) (i : Nat) : AnyCache := s.caches.getD i ⟨{}, .empty {}⟩

def currentCache (s : Session) : AnyCache := s.cache s.current

def openCache (s : Session) (sizing : Sizing) : Except Failure Session :=
  (Cache.create sizing).map fun c =>
    { s with caches := s.caches.push ⟨sizing, c⟩, current := s.caches.size }

/-- Run an operation of one of the caches. -/
def onCache {α : Type} (s : Session) (i : Nat)
    (act : (sizing : Sizing) → Cache sizing → Cache.Outcome α sizing) :
    Except Failure α × Session :=
  let ⟨sizing, c⟩ := s.cache i
  let (answer, c) := act sizing c
  (answer, { s with caches := s.caches.setIfInBounds i ⟨sizing, c⟩ })

def save (s : Session) : Cache.Saved × Session :=
  let ⟨sizing, c⟩ := s.currentCache
  let (saved, c, store) := c.save s.store
  (saved, { s with store, caches := s.caches.setIfInBounds s.current ⟨sizing, c⟩ })

def keep (s : Session) (name : String) (h : Handle) : Session :=
  { s with handles := (name, ⟨s.current, h⟩) :: s.handles.filter (·.1 ≠ name) }

def detach (s : Session) (name : String) (a : Address) (payload : Payload) : Session :=
  { s with detached := (name, a, payload) :: s.detached.filter (·.1 ≠ name) }

def attach (s : Session) (name : String) : Session :=
  { s with detached := s.detached.filter (·.1 ≠ name) }

def marks (s : Session) (h : Kept) : Int := (s.cache h.owner).cache.marksAt h.handle.slot

/-- The numbers of the current cache and of those that a kept handle belongs to. -/
def liveCaches (s : Session) : List Nat :=
  (List.range s.caches.size).filter fun i =>
    i = s.current || s.handles.any fun (_, h) => h.owner = i

/-- The attribute maps of the live caches and of the chunks outside any cache. -/
def liveMaps (s : Session) : List AttributeMap :=
  s.liveCaches.flatMap (fun i => (s.cache i).cache.attributeMaps) ++
    s.detached.filterMap fun (_, _, payload) => payload.attributes?

/-- Whether the attributes in a payload share their index with other live ones. -/
def isShared (s : Session) (payload : Payload) : Bool :=
  payload.attributes?.any fun m => m.isSharedAmong s.liveMaps

end Session

end ChunkCache
