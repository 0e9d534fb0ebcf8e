import ChunkCache.AttributeMap

namespace ChunkCache

/-- The live maps, by name, and the next stamp. -/
structure Family where
  members : List (String × AttributeMap) := []
  clock : Stamp := 0

namespace Family

def get? (f : Family) (name : String) : Option AttributeMap := f.members.lookup name

def others (f : Family) (name : String) : List (String × AttributeMap) :=
  f.members.filter (·.1 ≠ name)

/-- What is known to the map `m`, called `name`, when it is written. -/
def ownership (f : Family) (name : String) (m : AttributeMap) : Ownership where
  indexShared := (f.others name).any fun (_, n) => m.sharesIndex n
  valueShared key := (f.others name).any fun (_, n) => m.sharesValue n key
  fresh := f.clock

/-- Let `m` be the member called `name`; the one that had the name before is gone. -/
def replace (f : Family) (name : String) (m : AttributeMap) : Family where
  members := (name, m) :: f.others name
  clock := f.clock + 1

def create (f : Family) (name : String) (listening : Bool) : Family :=
  f.replace name ((AttributeMap.empty f.clock).listen listening)

/-- A new member that shares everything with the one called `origin`. -/
def fork (f : Family) (origin name : String) (listening : Bool) : Option Family :=
  (f.get? origin).map fun m => f.replace name (m.fork.listen listening)

def listen (f : Family) (name : String) (listening : Bool) : Option Family :=
  (f.get? name).map fun m => f.replace name (m.listen listening)

def discard (f : Family) (name : String) : Family := { f with members := f.others name }

def update {α : Type} (f : Family) (name : String)
    (act : Ownership → AttributeMap → α × AttributeMap) : Option (α × Family) :=
  (f.get? name).map fun m =>
    let (answer, m) := act (f.ownership name m) m
    (answer, f.replace name m)

end Family

end ChunkCache
