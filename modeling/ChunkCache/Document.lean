import ChunkCache.AttributeType
import ChunkCache.Sizing
import ChunkCache.Address

namespace ChunkCache

/-- A document. Of the numbers only integers have a value here. A structure is a record of its
members, in which others are ignored, or the list of them in their order. -/
inductive Document where
  | null
  | bool (b : Bool)
  | integer (n : Int)
  | fraction
  | text (s : String)
  | list (items : List Document)
  | record (members : List (String × Document))
  deriving Inhabited

namespace Document

def member? (members : List (String × Document)) (name : String) : Option Document :=
  members.lookup name

/-- The value of an enumeration that is written as its label, or as a record from the label to
nothing. -/
def enumeration? {α : Type} (all : List α) (label : α → String) : Document → Option α
  | .text s => all.find? (label · = s)
  | .record [(s, .null)] => all.find? (label · = s)
  | _ => none

def word? : Document → Option Nat
  | .integer n => if 0 ≤ n ∧ n ≤ Sizing.maxWord then some n.toNat else none
  | _ => none

def int64? : Document → Option Int64
  | .integer n =>
    if Int64.minValue.toInt ≤ n ∧ n ≤ Int64.maxValue.toInt then some (Int64.ofInt n) else none
  | _ => none

def kind? : Document → Option Kind :=
  enumeration? Kind.all Kind.label

def attributeType? : Document → Option AttributeType :=
  enumeration? AttributeType.all AttributeType.label

/-- A sizing; members that are left out have their defaults. -/
def sizing? : Document → Option Sizing
  | .record members => do
    let usual : Sizing := {}
    let capacity ← (member? members "capacity").elim (some usual.capacity) word?
    let bucketsPerSlot ← (member? members "load_factor").elim (some usual.bucketsPerSlot) word?
    some { capacity, bucketsPerSlot }
  | .list [] => some {}
  | .list [capacity] => do some { capacity := ← word? capacity }
  | .list [capacity, bucketsPerSlot] => do
    some { capacity := ← word? capacity, bucketsPerSlot := ← word? bucketsPerSlot }
  | _ => none

/-- An address; all four members are needed. -/
def address? : Document → Option Address
  | .record members => do
    let kind ← kind? (← member? members "kind")
    let world ← int64? (← member? members "world")
    let time ← int64? (← member? members "time")
    let id ← int64? (← member? members "id")
    some ⟨kind, world, time, id⟩
  | .list [kind, world, time, id] => do
    some ⟨← kind? kind, ← int64? world, ← int64? time, ← int64? id⟩
  | _ => none

def ofSizing (sizing : Sizing) : Document :=
  .record [("capacity", .integer sizing.capacity), ("load_factor", .integer sizing.bucketsPerSlot)]

def ofAddress (c : Address) : Document :=
  .record
    [ ("kind", .text c.kind.label), ("world", .integer c.world.toInt),
      ("time", .integer c.time.toInt), ("id", .integer c.id.toInt) ]

end Document

end ChunkCache
