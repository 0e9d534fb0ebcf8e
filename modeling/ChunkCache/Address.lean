import ChunkCache.Failure
import ChunkCache.Field
import ChunkCache.Xxh3

namespace ChunkCache

inductive Kind where
  /-- The attributes of one entity at one version. -/
  | attributes
  /-- When each world diverged, for one entity. -/
  | divergences
  /-- The version times of one entity in one world. -/
  | timeline
  /-- The generator of entity ids with one prefix. -/
  | generator
  deriving DecidableEq, Repr

namespace Kind

def all : List Kind := [.attributes, .divergences, .timeline, .generator]

def code : Kind → UInt8
  | .attributes => 0
  | .divergences => 1
  | .timeline => 2
  | .generator => 3

def ofCode? (raw : UInt8) : Option Kind :=
  all.find? (·.code = raw)

def name : Kind → String
  | .attributes => "STATE"
  | .divergences => "WORLD_ORDER"
  | .timeline => "TIME_TREE"
  | .generator => "GEN"

def ofName? (s : String) : Option Kind :=
  all.find? (·.name = s)

def label : Kind → String
  | .attributes => "State"
  | .divergences => "WorldOrder"
  | .timeline => "TimeTree"
  | .generator => "Gen"

theorem ofCode?_code (kind : Kind) : ofCode? kind.code = some kind := by
  cases kind <;> rfl

theorem ofCode?_eq_some {raw : UInt8} {kind : Kind} (h : ofCode? raw = some kind) :
    kind.code = raw := by
  simpa using List.find?_some h

end Kind

/-- The value that stands for an absent world, time or type code: `2 ^ 53 - 1`, the last integer up
to which doubles are exact. -/
def absentLong : Int64 := 0x1FFFFFFFFFFFFF

def beginningOfTime : Int64 := -0x1FFFFFFFFFFFFE

def endOfTime : Int64 := 0x1FFFFFFFFFFFFE

structure Address where
  kind : Kind
  world : Int64
  time : Int64
  id : Int64
  deriving DecidableEq, Repr

namespace Address

/-- The attributes of entity `id` at version `time` in `world`. -/
def attributes (world time id : Int64) : Address := ⟨.attributes, world, time, id⟩

/-- The versions of entity `id` in `world`; they are not versioned themselves. -/
def timeline (world id : Int64) : Address := ⟨.timeline, world, absentLong, id⟩

def divergences (id : Int64) : Address := ⟨.divergences, absentLong, absentLong, id⟩

def generator (number : Int64) : Address := ⟨.generator, absentLong, absentLong, number⟩

/-- The bytes that are hashed: the code of the kind and the three numbers, least significant byte
first. -/
def hashInput (a : Address) : Bytes :=
  a.kind.code :: (Bytes.littleEndian 8 a.world.toUInt64.toNat ++
    Bytes.littleEndian 8 a.time.toUInt64.toNat ++ Bytes.littleEndian 8 a.id.toUInt64.toNat)

def hash (a : Address) : UInt64 := Xxh3.hash a.hashInput

def bucket (a : Address) (buckets : Nat) : Nat := a.hash.toNat % buckets

/-- The bucket of the address in an index that may have no buckets. -/
def bucketIn (a : Address) (buckets : Nat) : Except Failure Nat :=
  if buckets = 0 then .error (.aborted .noBuckets) else .ok (a.bucket buckets)

/-- The key under which the chunk is stored: four fields one after the other. -/
def toKey (a : Address) : Bytes :=
  Bytes.joinWith Separator.key.byte
    [Field.encodeUInt8 a.kind.code, Field.encodeInt64 a.world, Field.encodeInt64 a.time,
      Field.encodeInt64 a.id]

/-- The next field of a key, read with `read`, and the fields after it. -/
def nextField {α : Type} (what : String) (read : Bytes → Except Error α) :
    List Bytes → Except Error (α × List Bytes)
  | [] => Field.malformed (.missingKeyField what)
  | field :: rest => (read field).map (·, rest)

def decodeKind (field : Bytes) : Except Error Kind := do
  let raw ← Field.decodeUInt8 field
  match Kind.ofCode? raw with
  | some kind => .ok kind
  | none => Field.malformed (.unknownKind raw)

/-- The address whose key is `key`. Fields are read from left to right, so the first fault is
the one reported. -/
def ofKey (key : Bytes) : Except Error Address := do
  let fields := Bytes.splitOn Separator.key.byte key
  let (kind, fields) ← nextField "kind" decodeKind fields
  let (world, fields) ← nextField "world" Field.decodeInt64 fields
  let (time, fields) ← nextField "time" Field.decodeInt64 fields
  let (id, fields) ← nextField "id" Field.decodeInt64 fields
  if fields.isEmpty then .ok ⟨kind, world, time, id⟩ else Field.malformed .trailingKeyFields

def render (a : Address) : String :=
  s!"{a.kind.name}({a.world.toInt}, {a.time.toInt}, {a.id.toInt})"

/-- The address as a text that names its parts. -/
def describe (a : Address) : String :=
  s!"Coordinate \x7b kind: {a.kind.label}, world: {a.world.toInt}, time: {a.time.toInt}, " ++
    s!"id: {a.id.toInt} \x7d"

end Address

end ChunkCache
