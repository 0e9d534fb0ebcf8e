import ChunkCache.Failure

namespace ChunkCache

structure Link (n : Nat) where
  before : Option (Fin n) := none
  after : Option (Fin n) := none
  queued : Bool := false
  deriving DecidableEq, Repr

/-- A queue of slots without duplicates. The links lie in one array with a place for each slot, so a
slot is removed from wherever it stands. -/
structure SlotQueue (n : Nat) where
  links : Vector (Link n) n
  front : Option (Fin n) := none
  back : Option (Fin n) := none
  size : Nat := 0
  deriving DecidableEq

namespace SlotQueue

variable {n : Nat}

def empty (n : Nat) : SlotQueue n := { links := Vector.replicate n {} }

def contains (q : SlotQueue n) (slot : Fin n) : Bool := (q.links.get slot).queued

def isEmpty (q : SlotQueue n) : Bool := q.size = 0

def updateLink (q : SlotQueue n) (slot : Fin n) (f : Link n → Link n) : SlotQueue n :=
  { q with links := q.links.set slot (f (q.links.get slot)) slot.isLt }

/-- Let `target` come after `slot`, or at the front if there is no such slot. -/
def setAfter (q : SlotQueue n) (slot target : Option (Fin n)) : SlotQueue n :=
  match slot with
  | none => { q with front := target }
  | some i => q.updateLink i fun l => { l with after := target }

/-- Let `target` come before `slot`, or at the back if there is no such slot. -/
def setBefore (q : SlotQueue n) (slot target : Option (Fin n)) : SlotQueue n :=
  match slot with
  | none => { q with back := target }
  | some i => q.updateLink i fun l => { l with before := target }

/-- Bring `slot` in at the front, unless it is queued. The answer tells whether it came in. -/
def pushFront (q : SlotQueue n) (slot : Fin n) : Bool × SlotQueue n :=
  if q.contains slot then (false, q)
  else
    let q' := q.updateLink slot fun _ => { before := none, after := q.front, queued := true }
    let q' := q'.setBefore q.front (some slot)
    (true, { q' with front := some slot, size := q.size + 1 })

/-- Bring `slot` in at the back, unless it is queued. The answer tells whether it came in. -/
def pushBack (q : SlotQueue n) (slot : Fin n) : Bool × SlotQueue n :=
  if q.contains slot then (false, q)
  else
    let q' := q.updateLink slot fun _ => { before := q.back, after := none, queued := true }
    let q' := q'.setAfter q.back (some slot)
    (true, { q' with back := some slot, size := q.size + 1 })

/-- Take `slot` out from wherever it stands. The answer tells whether it was queued. -/
def erase (q : SlotQueue n) (slot : Fin n) : Bool × SlotQueue n :=
  let link := q.links.get slot
  if link.queued then
    let q' := (q.setAfter link.before link.after).setBefore link.after link.before
    let q' := q'.updateLink slot fun _ => {}
    (true, { q' with size := q.size - 1 })
  else (false, q)

def popBack (q : SlotQueue n) : Option (Fin n × SlotQueue n) :=
  match q.back with
  | none => none
  | some slot =>
    match q.erase slot with
    | (true, q) => some (slot, q)
    | (false, _) => none

/-- The queue of all slots, the first one at the back. -/
def full (n : Nat) : SlotQueue n :=
  (List.finRange n).foldl (fun q slot => (q.pushFront slot).2) (empty n)

/-- A queue of all slots or of none, if an array can have a place for each slot. -/
def create (n : Nat) (withAll : Bool) : Except Failure (SlotQueue n) :=
  if Violation.maxPlaces < n then .error (.aborted .arrayTooLarge)
  else .ok (if withAll then full n else empty n)

/-- The slots from `i` on towards the back, at most `steps` of them. -/
def follow (q : SlotQueue n) : (steps : Nat) → (i : Option (Fin n)) → List (Fin n)
  | 0, _ => []
  | _, none => []
  | steps + 1, some i => i :: follow q steps (q.links.get i).after

def toList (q : SlotQueue n) : List (Fin n) := q.follow n q.front

/-- The slot with a given number; a number beyond the queue breaks its precondition. -/
def slot? (n number : Nat) : Except Failure (Fin n) :=
  if h : number < n then .ok ⟨number, h⟩ else .error (.aborted .slotOutOfRange)

/-- `pushFront` under a condition; if it does not hold the slot is not looked at. -/
def pushFrontIf (q : SlotQueue n) (number : Nat) (wanted : Bool) :
    Except Failure (Bool × SlotQueue n) :=
  if wanted then (slot? n number).map q.pushFront else .ok (false, q)

/-- `erase` under a condition; if it does not hold the slot is not looked at. -/
def eraseIf (q : SlotQueue n) (number : Nat) (wanted : Bool) :
    Except Failure (Bool × SlotQueue n) :=
  if wanted then (slot? n number).map q.erase else .ok (false, q)

def describe (q : SlotQueue n) : String := s!"SlotStack \x7b len: {q.size} \x7d"

end SlotQueue

end ChunkCache
