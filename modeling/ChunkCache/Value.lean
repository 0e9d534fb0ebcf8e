import ChunkCache.AttributeType
import ChunkCache.Double
import ChunkCache.Error
import ChunkCache.Multimap

namespace ChunkCache

inductive Collection where
  | longMap (m : SortedMap Int64 Int64)
  | stringMap (m : SortedMap String Int64)
  | longMultimap (m : Multimap)
  deriving DecidableEq

namespace Collection

def type : Collection → AttributeType
  | .longMap _ => .longMap
  | .stringMap _ => .stringMap
  | .longMultimap _ => .longMultimap

/-- The collection of the given type without entries, if the type is one of collections. -/
def empty? : AttributeType → Option Collection
  | .longMap => some (.longMap .empty)
  | .stringMap => some (.stringMap .empty)
  | .longMultimap => some (.longMultimap .empty)
  | _ => none

theorem type_of_empty? {ty : AttributeType} {c : Collection} (h : empty? ty = some c) :
    c.type = ty := by
  cases ty <;> cases h <;> rfl

end Collection

inductive Value where
  | bool (v : Bool)
  | string (v : String)
  | long (v : Int64)
  | int (v : Int32)
  | double (v : Double)
  | bools (v : List Bool)
  | strings (v : List String)
  | longs (v : List Int64)
  | ints (v : List Int32)
  | doubles (v : List Double)
  | collection (c : Collection)
  deriving DecidableEq

namespace Value

def type : Value → AttributeType
  | .bool _ => .bool
  | .string _ => .string
  | .long _ => .long
  | .int _ => .int
  | .double _ => .double
  | .bools _ => .bools
  | .strings _ => .strings
  | .longs _ => .longs
  | .ints _ => .ints
  | .doubles _ => .doubles
  | .collection c => c.type

/-- The value as one of the declared type `ty` of attribute `key`. -/
def coerce (v : Value) (key : Int64) (ty : AttributeType) : Except Error Value :=
  if v.type = ty then .ok v
  else
    match v, ty with
    | .int n, .long => .ok (.long n.toInt64)
    | _, _ => .error (.wrongType key ty.name v.type.name)

def bool? : Value → Option Bool
  | .bool v => some v
  | _ => none

def string? : Value → Option String
  | .string v => some v
  | _ => none

def long? : Value → Option Int64
  | .long v => some v
  | _ => none

def int? : Value → Option Int32
  | .int v => some v
  | _ => none

def double? : Value → Option Double
  | .double v => some v
  | _ => none

def collection? : Value → Option Collection
  | .collection c => some c
  | _ => none

/-- Numeric equality: like equality, except that doubles are compared as numbers. -/
def numEq : Value → Value → Bool
  | .double a, .double b => a.numEq b
  | .doubles as, .doubles bs => as.length == bs.length && (as.zip bs).all fun (a, b) => a.numEq b
  | a, b => a == b

end Value

end ChunkCache
