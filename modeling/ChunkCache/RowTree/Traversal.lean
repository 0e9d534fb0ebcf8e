import ChunkCache.RowTree

namespace ChunkCache.RowTree

def child? (t : RowTree) (i : Nat) (side : Side) : Option Nat :=
  t.rows[i]?.bind (·.child side)

def parent? (t : RowTree) (i : Nat) : Option Nat :=
  t.rows[i]?.bind (·.parent)

def key? (t : RowTree) (i : Nat) : Option Int64 :=
  t.rows[i]?.map Row.key

/-- The outermost row on `side` below `i`. -/
def outermost (t : RowTree) (side : Side) : (steps : Nat) → (i : Nat) → Nat
  | 0, i => i
  | steps + 1, i =>
    match t.child? i side with
    | none => i
    | some child => outermost t side steps child

/-- The nearest ancestor of `i` that does not have `i` on its `side`. -/
def ancestorPast (t : RowTree) (side : Side) : (steps : Nat) → (i : Nat) → Option Nat
  | 0, _ => none
  | steps + 1, i =>
    match t.parent? i with
    | none => none
    | some parent =>
      if t.child? parent side = some i then ancestorPast t side steps parent else some parent

/-- The row next to `i` on `side` in key order. -/
def neighbour (t : RowTree) (side : Side) (i : Nat) : Option Nat :=
  match t.child? i side with
  | some child => some (t.outermost side.other t.size child)
  | none => t.ancestorPast side t.size i

def endRow (t : RowTree) (side : Side) : Option Nat :=
  t.root.map fun root => t.outermost side t.size root

def first? (t : RowTree) : Option Int64 := (t.endRow .left).bind t.key?

def last? (t : RowTree) : Option Int64 := (t.endRow .right).bind t.key?

/-- At most `count` keys from row `i` on towards `side`, while they satisfy `keep`. -/
def walk (t : RowTree) (side : Side) (keep : Int64 → Bool) :
    (count : Nat) → (i : Option Nat) → List Int64
  | 0, _ => []
  | _, none => []
  | count + 1, some i =>
    match t.key? i with
    | none => []
    | some key => if keep key then key :: walk t side keep count (t.neighbour side i) else []

def toList (t : RowTree) : List Int64 :=
  t.walk .right (fun _ => true) t.size (t.endRow .left)

/-- The row of the greatest key up to `key`, searched from `i` downwards. -/
def floorFrom (t : RowTree) (key : Int64) : (steps : Nat) → (i : Nat) → Option Nat
  | 0, _ => none
  | steps + 1, i =>
    match t.rows[i]? with
    | none => none
    | some r =>
      if key = r.key then some i
      else if r.key < key then
        match r.right with
        | none => some i
        | some right => floorFrom t key steps right
      else
        match r.left with
        | none => t.ancestorPast .left t.size i
        | some left => floorFrom t key steps left

def floorRow (t : RowTree) (key : Int64) : Option Nat :=
  t.root.bind (t.floorFrom key (t.size + 1))

def floor? (t : RowTree) (key : Int64) : Option Int64 := (t.floorRow key).bind t.key?

def contains (t : RowTree) (key : Int64) : Bool := t.floor? key = some key

/-- The greatest keys of the interval from `start` to `stop`, at most `count`, in descending
order. -/
def range (t : RowTree) (start stop : Int64) (count : Nat) : List Int64 :=
  t.walk .left (fun key => start ≤ key) count (t.floorRow stop)

end ChunkCache.RowTree
