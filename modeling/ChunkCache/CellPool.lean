import ChunkCache.Payload

namespace ChunkCache

/-- Places for payloads. The cell vacated last is the next one used. -/
structure CellPool (n : Nat) where
  cells : Vector (Option Payload) n
  vacant : List (Fin n)

namespace CellPool

variable {n : Nat}

/-- A pool of vacant cells. The first cell is handed out first. -/
def empty (n : Nat) : CellPool n := { cells := Vector.replicate n none, vacant := List.finRange n }

def occupied (p : CellPool n) : Nat := n - p.vacant.length

def get? (p : CellPool n) (cell : Fin n) : Option Payload := p.cells.get cell

def set (p : CellPool n) (cell : Fin n) (payload : Option Payload) : CellPool n :=
  { p with cells := p.cells.set cell payload cell.isLt }

def place (p : CellPool n) (payload : Payload) : Except Error (Fin n × CellPool n) :=
  match p.vacant with
  | [] => .error (.internal "chunk arena has no vacant cell")
  | cell :: vacant => .ok (cell, { p.set cell (some payload) with vacant })

/-- The occupied cell with a given handle, and its payload. -/
def lookup (p : CellPool n) (handle : Nat) : Except Error (Fin n × Payload) :=
  if h : handle < n then
    match p.get? ⟨handle, h⟩ with
    | some payload => .ok (⟨handle, h⟩, payload)
    | none => .error (.badHandle handle)
  else .error (.badHandle handle)

/-- Put a payload into an occupied cell; the answer is the previous one. -/
def exchange (p : CellPool n) (handle : Nat) (payload : Payload) :
    Except Error (Payload × CellPool n) := do
  let (cell, previous) ← p.lookup handle
  return (previous, p.set cell (some payload))

/-- Vacate an occupied cell; the answer is its payload. -/
def vacate (p : CellPool n) (handle : Nat) : Except Error (Payload × CellPool n) := do
  let (cell, previous) ← p.lookup handle
  return (previous, { p.set cell none with vacant := cell :: p.vacant })

def describe (p : CellPool n) : String :=
  s!"ChunkArena \x7b cells: {n}, live: {p.occupied} \x7d"

end CellPool

end ChunkCache
