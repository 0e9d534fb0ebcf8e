namespace ChunkCache

inductive AttributeType where
  | bool
  | string
  | long
  | int
  | double
  | bools
  | strings
  | longs
  | ints
  | doubles
  | longMap
  | stringMap
  | longMultimap
  deriving DecidableEq, Repr

namespace AttributeType

def all : List AttributeType :=
  [ .bool, .string, .long, .int, .double, .bools, .strings, .longs, .ints,
    .doubles, .longMap, .stringMap, .longMultimap ]

/-- The byte that stands for the type in a saved record. -/
def tag : AttributeType → UInt8
  | .bool => 1
  | .string => 2
  | .long => 3
  | .int => 4
  | .double => 5
  | .bools => 6
  | .strings => 7
  | .longs => 8
  | .ints => 9
  | .doubles => 10
  | .longMap => 11
  | .stringMap => 12
  | .longMultimap => 13

def ofTag? (t : UInt8) : Option AttributeType :=
  all.find? (·.tag = t)

def name : AttributeType → String
  | .bool => "BOOL"
  | .string => "STRING"
  | .long => "LONG"
  | .int => "INT"
  | .double => "DOUBLE"
  | .bools => "BOOL_ARRAY"
  | .strings => "STRING_ARRAY"
  | .longs => "LONG_ARRAY"
  | .ints => "INT_ARRAY"
  | .doubles => "DOUBLE_ARRAY"
  | .longMap => "LONG_LONG_MAP"
  | .stringMap => "STRING_LONG_MAP"
  | .longMultimap => "LONG_LONG_ARRAY_MAP"

def ofName? (s : String) : Option AttributeType :=
  all.find? (·.name = s)

def label : AttributeType → String
  | .bool => "Bool"
  | .string => "String"
  | .long => "Long"
  | .int => "Int"
  | .double => "Double"
  | .bools => "BoolArray"
  | .strings => "StringArray"
  | .longs => "LongArray"
  | .ints => "IntArray"
  | .doubles => "DoubleArray"
  | .longMap => "LongLongMap"
  | .stringMap => "StringLongMap"
  | .longMultimap => "LongLongArrayMap"

/-- Collections are edited in place; every other value is replaced as a whole. -/
def isCollection : AttributeType → Bool
  | .longMap | .stringMap | .longMultimap => true
  | _ => false

def isArray : AttributeType → Bool
  | .bools | .strings | .longs | .ints | .doubles => true
  | _ => false

theorem ofTag?_tag (ty : AttributeType) : ofTag? ty.tag = some ty := by
  cases ty <;> rfl

theorem ofTag?_eq_some {t : UInt8} {ty : AttributeType} (h : ofTag? t = some ty) : ty.tag = t := by
  simpa using List.find?_some h

end AttributeType

end ChunkCache
