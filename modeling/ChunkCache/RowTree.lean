/-!
Red-black trees whose nodes are the rows of one array. A row holds a key and links to other rows;
rows are only ever added at the end and keys never move, so the order of the rows is the order in
which the keys were inserted.

Every access to a row can fail. The functions that change links therefore answer an option, and on a
well-formed tree none of them fails.
-/

namespace ChunkCache

inductive Color where
  | red
  | black
  deriving DecidableEq, Repr

/-- One of the two sides of a row. Every operation treats them alike, with the sides exchanged. -/
inductive Side where
  | left
  | right
  deriving DecidableEq, Repr

def Side.other : Side → Side
  | .left => .right
  | .right => .left

/-- One node: a key, a color and the numbers of its children and its parent. -/
structure Row where
  key : Int64
  color : Color
  left : Option Nat := none
  right : Option Nat := none
  parent : Option Nat := none
  deriving DecidableEq, Repr

def Row.child (r : Row) : Side → Option Nat
  | .left => r.left
  | .right => r.right

def Row.withChild (r : Row) : Side → Option Nat → Row
  | .left, child => { r with left := child }
  | .right, child => { r with right := child }

structure RowTree where
  rows : Array Row := #[]
  root : Option Nat := none
  deriving DecidableEq, Repr

namespace RowTree

def size (t : RowTree) : Nat := t.rows.size

def isEmpty (t : RowTree) : Bool := t.rows.isEmpty

def keys (t : RowTree) : List Int64 := t.rows.toList.map Row.key

theorem length_keys (t : RowTree) : t.keys.length = t.size := by
  rw [keys, List.length_map, Array.length_toList, size]

def update (t : RowTree) (i : Nat) (f : Row → Row) : Option RowTree :=
  if i < t.rows.size then some { t with rows := t.rows.modify i f } else none

def paint (t : RowTree) (i : Nat) (color : Color) : Option RowTree :=
  t.update i fun r => { r with color }

def setChild (t : RowTree) (i : Nat) (side : Side) (child : Option Nat) : Option RowTree :=
  t.update i fun r => r.withChild side child

def setParent (t : RowTree) (i : Nat) (parent : Option Nat) : Option RowTree :=
  t.update i fun r => { r with parent }

/-- The color behind a link. An absent row is black. -/
def color? (t : RowTree) : Option Nat → Option Color
  | none => some .black
  | some i => t.rows[i]?.map Row.color

/-- Let the link that leads to `old` lead to `new`: a link of `parent`, or the root. -/
def redirect (t : RowTree) (old new : Nat) : (parent : Option Nat) → Option RowTree
  | none => some { t with root := some new }
  | some p => do
    let side : Side := if (← t.rows[p]?).left = some old then .left else .right
    t.setChild p side (some new)

/-- Let `new` hang where `old` hangs: from the parent of `old`, or as the root. -/
def rehang (t : RowTree) (old new : Nat) : Option RowTree := do
  let parent := (← t.rows[old]?).parent
  let t ← t.redirect old new parent
  t.setParent new parent

def adopt (t : RowTree) (parent : Nat) : (child : Option Nat) → Option RowTree
  | none => some t
  | some i => t.setParent i (some parent)

/-- Turn `row` down to `side`: its child on the other side, the pivot, takes its place, and the
child of the pivot on this side becomes a child of `row`. -/
def rotate (t : RowTree) (side : Side) (row : Nat) : Option RowTree := do
  let pivot ← (← t.rows[row]?).child side.other
  let t ← t.rehang row pivot
  let inner := (← t.rows[pivot]?).child side
  let t ← t.setChild row side.other inner
  let t ← t.adopt row inner
  let t ← t.setChild pivot side (some row)
  t.setParent row (some pivot)

/-- Whether `row` is a red row under a red parent, or may be one: whether it is not the root and its
parent is red. -/
def underRed (t : RowTree) (row : Nat) : Option Bool := do
  if t.root = some row then some false
  else
    let parent := (← t.rows[row]?).parent
    some ((← t.color? parent) = .red)

/-- The side on which `parent` hangs from its own parent, and that parent. -/
def hanging (t : RowTree) (parent : Nat) : Option (Side × Nat) := do
  let grand ← (← t.rows[parent]?).parent
  some (if (← t.rows[grand]?).left = some parent then .left else .right, grand)

/-- Bring a red row to the outer side of its red `parent`, which hangs on `side`: the tree after it,
and the lower one of the two rows. -/
def bringOut (t : RowTree) (row parent : Nat) (side : Side) : Option (RowTree × Nat) := do
  if (← t.rows[parent]?).child side.other = some row then (t.rotate side parent).map (·, parent)
  else some (t, row)

/-- Turn the grandparent of `row` down from `side` and exchange its color with that of the
parent. -/
def turnGrandparent (t : RowTree) (row : Nat) (side : Side) : Option RowTree := do
  let parent ← (← t.rows[row]?).parent
  let grand ← (← t.rows[parent]?).parent
  let t ← t.paint parent .black
  let t ← t.paint grand .red
  t.rotate side.other grand

/-- Repair the red `row` under the red `parent`, whose own sibling is black or absent. -/
def repairByRotation (t : RowTree) (row parent : Nat) (side : Side) : Option (RowTree × Nat) := do
  let (t, row) ← t.bringOut row parent side
  let t ← t.turnGrandparent row side
  some (t, row)

/-- Let the color of `grand` go down to its two red children. -/
def recolor (t : RowTree) (parent uncle grand : Nat) : Option RowTree := do
  let t ← t.paint parent .black
  let t ← t.paint uncle .black
  t.paint grand .red

/-- Repair the red `row` under the red `parent`, which hangs on `side` of `grand`: the tree after
it, and the row at which the repair goes on. If the sibling of the parent is red, the color moves up
to the grandparent; otherwise rotations end the repair. -/
def repairBelow (t : RowTree) (row parent grand : Nat) (side : Side) :
    (uncle : Option Nat) → Option (RowTree × Nat)
  | none => t.repairByRotation row parent side
  | some uncle => do
    if (← t.color? (some uncle)) = .red then
      let t ← t.recolor parent uncle grand
      some (t, grand)
    else t.repairByRotation row parent side

def repairStep (t : RowTree) (row : Nat) : Option (RowTree × Nat) := do
  let parent ← (← t.rows[row]?).parent
  let (side, grand) ← t.hanging parent
  let uncle := (← t.rows[grand]?).child side.other
  t.repairBelow row parent grand side uncle

def blackenRoot (t : RowTree) : Option RowTree :=
  match t.root with
  | none => some t
  | some root => t.paint root .black

/-- Repair steps from `row` upwards until it is not under a red parent. -/
def repair : (steps : Nat) → RowTree → (row : Nat) → Option RowTree
  | 0, _, _ => none
  | steps + 1, t, row => do
    if ← t.underRed row then
      let (t, row) ← t.repairStep row
      repair steps t row
    else t.blackenRoot

inductive Place where
  | present
  /-- At the absent child of `parent` on `side`. -/
  | vacant (parent : Nat) (side : Side)
  deriving DecidableEq, Repr

def sideOf (key current : Int64) : Side := if key < current then .left else .right

/-- Search for `key` from the row `i` downwards. -/
def descend (t : RowTree) (key : Int64) : (steps : Nat) → (i : Nat) → Option Place
  | 0, _ => none
  | steps + 1, i => do
    let r ← t.rows[i]?
    if key = r.key then some .present
    else
      match r.child (sideOf key r.key) with
      | none => some (.vacant i (sideOf key r.key))
      | some child => descend t key steps child

def push (t : RowTree) (row : Row) : RowTree := { t with rows := t.rows.push row }

def newest (t : RowTree) : Nat := t.size - 1

/-- Hang a new red row from `parent`. -/
def hang (t : RowTree) (key : Int64) (parent : Nat) (side : Side) : Option RowTree :=
  let t := t.push { key, color := .red, parent := some parent }
  t.setChild parent side (some t.newest)

/-- Insert `key`: the tree with it, and whether it was new. -/
def insert? (t : RowTree) (key : Int64) : Option (RowTree × Bool) := do
  match t.root with
  | none =>
    let t := t.push { key, color := .black }
    some ({ t with root := some t.newest }, true)
  | some root =>
    match ← t.descend key (t.size + 1) root with
    | .present => some (t, false)
    | .vacant parent side =>
      let t ← t.hang key parent side
      let t ← repair (t.size + 1) t t.newest
      some (t, true)

/-- Insert `key` into a well-formed tree: the tree with it, and whether it was new. Every answer
leaves the old tree behind, so a tree with one owner is changed in place and its array not copied.
Of a tree that is not well formed nothing is left. -/
def insert (t : RowTree) (key : Int64) : RowTree × Bool := (t.insert? key).getD ({}, false)

end RowTree

end ChunkCache
