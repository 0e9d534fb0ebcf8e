import ChunkCache.AttributeMap
import ChunkCache.Xxh3

namespace ChunkCache

/-- The attribute names that were used, so that keys can be shown by name. -/
structure NameIndex where
  names : SortedMap Int64 String := .empty
  deriving DecidableEq

namespace NameIndex

/-- The key of a name: the 64-bit hash of its UTF-8 bytes, read as a signed integer. -/
def key (name : String) : Int64 := (Xxh3.hash (Bytes.ofString name)).toInt64

/-- Remember a name. The first name of a key stays. -/
def intern (i : NameIndex) (name : String) : NameIndex :=
  if i.names.contains (key name) then i else ⟨i.names.insert (key name) name⟩

def name? (i : NameIndex) (key : Int64) : Option String := i.names.get? key

def size (i : NameIndex) : Nat := i.names.size

def isEmpty (i : NameIndex) : Bool := i.names.isEmpty

/-- The name of a key, or the key itself behind a hash sign. -/
def label (i : NameIndex) (key : Int64) : String := (i.name? key).getD s!"#{key.toInt}"

/-- Label and type of every attribute, in key order. -/
def describe (i : NameIndex) (m : AttributeMap) : List (String × AttributeType) :=
  m.toList.map fun (key, value) => (i.label key, value.type)

end NameIndex

end ChunkCache
