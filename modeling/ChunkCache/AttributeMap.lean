import ChunkCache.Tracker
import ChunkCache.Value

/-!
The attributes of one entity at one version: a map from keys to values of the declared types.

A fork of a map shares the index and the values of its origin until one of the two is written. Which
objects are shared is recorded by stamps: two maps use the same index, or the same value under a
key, exactly when the stamps agree. A writer keeps the stamp of an object that it alone uses and
takes a fresh one for an object that it has to copy.
-/

namespace ChunkCache

/-- The identity of an index or of a value. -/
abbrev Stamp := Nat

/-- What a writer knows about the objects of the other live maps. -/
structure Ownership where
  /-- Whether another map uses the writer's index. -/
  indexShared : Bool
  /-- Whether another map uses the writer's value under a key. -/
  valueShared : Int64 → Bool
  /-- The stamp of every object made by this write. -/
  fresh : Stamp

/-- The knowledge of a writer that has not looked at the other maps: everything may be shared, so
everything written is copied. -/
def Ownership.unknown (fresh : Stamp) : Ownership := ⟨true, fun _ => true, fresh⟩

structure Attribute where
  value : Value
  stamp : Stamp
  deriving DecidableEq

structure AttributeMap where
  entries : SortedMap Int64 Attribute := .empty
  index : Stamp
  tracker : Tracker := {}
  deriving DecidableEq

namespace AttributeMap

def empty (fresh : Stamp) : AttributeMap := { index := fresh }

/-- A clean map with the attributes of `origin`, all of them shared. -/
def fork (origin : AttributeMap) : AttributeMap := { origin with tracker := {} }

def isDirty (m : AttributeMap) : Bool := m.tracker.dirty

def attribute? (m : AttributeMap) (key : Int64) : Option Attribute := m.entries.get? key

def get? (m : AttributeMap) (key : Int64) : Option Value :=
  (m.attribute? key).map (·.value)

def type? (m : AttributeMap) (key : Int64) : Option AttributeType :=
  (m.get? key).map Value.type

def contains (m : AttributeMap) (key : Int64) : Bool := m.entries.contains key

def size (m : AttributeMap) : Nat := m.entries.size

def isEmpty (m : AttributeMap) : Bool := m.entries.isEmpty

def toList (m : AttributeMap) : List (Int64 × Value) :=
  m.entries.entries.map fun (key, a) => (key, a.value)

def sharesIndex (m n : AttributeMap) : Bool := m.index == n.index

def sharesValue (m n : AttributeMap) (key : Int64) : Bool :=
  match m.attribute? key, n.attribute? key with
  | some a, some b => a.stamp == b.stamp
  | _, _ => false

/-- Whether a map is one of several among the live ones that use its index. -/
def isSharedAmong (m : AttributeMap) (live : List AttributeMap) : Bool :=
  1 < live.countP m.sharesIndex

def listen (m : AttributeMap) (listening : Bool) : AttributeMap :=
  { m with tracker := m.tracker.listen listening }

def touch (m : AttributeMap) : AttributeMap := { m with tracker := m.tracker.touch }

/-- Replace the attributes; an index that others use is copied first. -/
def withEntries (m : AttributeMap) (own : Ownership) (entries : SortedMap Int64 Attribute) :
    AttributeMap :=
  { m with entries, index := if own.indexShared then own.fresh else m.index }

def set (m : AttributeMap) (own : Ownership) (key : Int64) (ty : AttributeType) (value : Value) :
    Except Error AttributeMap := do
  let value ← value.coerce key ty
  return (m.withEntries own (m.entries.insert key ⟨value, own.fresh⟩)).touch

/-- Remove the attribute under `key`; a map without it is left as it is. -/
def remove (m : AttributeMap) (own : Ownership) (key : Int64) : AttributeMap :=
  if m.contains key then (m.withEntries own (m.entries.erase key)).touch else m

/-- What an edit of the collection of type `empty.type` under `key` starts from: the present one,
copied if others use it, or `empty` if there is none of that type. -/
def editable (m : AttributeMap) (own : Ownership) (key : Int64) (empty : Collection) :
    Collection × Stamp :=
  match m.attribute? key with
  | some ⟨.collection c, stamp⟩ =>
    if c.type = empty.type then (c, if own.valueShared key then own.fresh else stamp)
    else (empty, own.fresh)
  | _ => (empty, own.fresh)

/-- Edit the collection of type `ty` under `key` with `f`. The collection is made empty if there is
none of that type, and the map counts as changed whatever `f` does. -/
def edit {α : Type} (m : AttributeMap) (own : Ownership) (key : Int64) (ty : AttributeType)
    (f : Collection → α × Collection) : Except Error (α × AttributeMap) :=
  match Collection.empty? ty with
  | none => .error (.wrongType key "collection" ty.name)
  | some empty =>
    let (c, stamp) := m.editable own key empty
    let (answer, c) := f c
    .ok (answer, m.touch.withEntries own (m.entries.insert key ⟨.collection c, stamp⟩))

/-- Bind decoded records one after the other. Only a map that held attributes before counts as
changed. -/
def merge (m : AttributeMap) (own : Ownership) (records : List (Int64 × Value)) : AttributeMap :=
  if records.isEmpty then m
  else
    let merged := m.withEntries own
      (m.entries.insertMany (records.map fun (key, value) => (key, ⟨value, own.fresh⟩)))
    if m.isEmpty then merged else merged.touch

/-- The map as a short text; `shared` tells whether another live map uses its index. -/
def describe (m : AttributeMap) (shared : Bool) : String :=
  s!"AttributeStore \x7b len: {m.size}, dirty: {m.isDirty}, shared: {shared}, .. \x7d"

end AttributeMap

end ChunkCache
