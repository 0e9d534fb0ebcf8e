import ChunkCache.Field
import ChunkCache.Tracker

namespace ChunkCache

structure IdGenerator where
  idPrefix : Int64
  seed : Int64 := 0
  tracker : Tracker := {}
  deriving DecidableEq

namespace IdGenerator

-- Prefix and seed together have 53 bits, so an id is exact as a double.
def prefixBits : Nat := 16
def seedBits : Nat := 37

def maxPrefix : Int64 := Int64.ofNat ((1 <<< prefixBits) - 1)

/-- The seed that is never handed out, so that no id is the null value. -/
def seedLimit : Int64 := Int64.ofNat ((1 <<< seedBits) - 1)

def ofPrefix (idPrefix : Int64) : Except Error IdGenerator :=
  if 0 ≤ idPrefix ∧ idPrefix ≤ maxPrefix then .ok { idPrefix }
  else .error (.prefixOutOfRange idPrefix)

def isDirty (g : IdGenerator) : Bool := g.tracker.dirty

def key (idPrefix seed : Int64) : Int64 := (idPrefix <<< Int64.ofNat seedBits) ||| seed

/-- A fresh id, and the generator past it. -/
def take (g : IdGenerator) : Except Error (Int64 × IdGenerator) :=
  if seedLimit ≤ g.seed then .error (.idsExhausted g.idPrefix)
  else .ok (key g.idPrefix g.seed, { g with seed := g.seed + 1, tracker := g.tracker.touch })

/-- At most `n` fresh ids, the refusal that ended their series, if one did, and the generator past
them. -/
def takeMany (g : IdGenerator) : (n : Nat) → List Int64 × Option Error × IdGenerator
  | 0 => ([], none, g)
  | n + 1 =>
    match g.take with
    | .error e => ([], some e, g)
    | .ok (key, g) =>
      let (keys, refusal, g) := g.takeMany n
      (key :: keys, refusal, g)

def encode (g : IdGenerator) : Bytes := Field.encodeInt64 g.seed

def save (g : IdGenerator) : Bytes × IdGenerator :=
  (g.encode, { g with tracker := g.tracker.clear })

def decode (buffer : Bytes) : Except Error Int64 := do
  let stored ← Field.decodeInt64 buffer
  if 0 ≤ stored ∧ stored ≤ seedLimit then .ok stored else Field.malformed (.seedRange stored)

/-- Take over a stored seed that is ahead. A generator that is itself ahead has to be saved
again. -/
def merge (g : IdGenerator) (stored : Int64) : IdGenerator :=
  if g.seed < stored then { g with seed := stored }
  else if stored < g.seed then { g with tracker := g.tracker.touch }
  else g

/-- Merge a saved form; an empty buffer holds nothing. -/
def load (g : IdGenerator) (buffer : Bytes) : Except Error IdGenerator :=
  if buffer.isEmpty then .ok g else (decode buffer).map g.merge

def describe (g : IdGenerator) : String :=
  s!"GenChunk \x7b prefix: {g.idPrefix.toInt}, seed: {g.seed.toInt}, dirty: {g.isDirty}, .. \x7d"

end IdGenerator

end ChunkCache
