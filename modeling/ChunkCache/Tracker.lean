namespace ChunkCache

/-- The dirty flag of a payload and what its listener was told. -/
structure Tracker where
  dirty : Bool := false
  listening : Bool := false
  /-- How often a listener was told that the payload became dirty. -/
  notices : Nat := 0
  deriving DecidableEq, Repr

namespace Tracker

/-- Note a change. Only the first one after a save is reported. -/
def touch (t : Tracker) : Tracker :=
  if t.dirty then t
  else { t with dirty := true, notices := if t.listening then t.notices + 1 else t.notices }

def clear (t : Tracker) : Tracker := { t with dirty := false }

def listen (t : Tracker) (listening : Bool) : Tracker := { t with listening }

@[simp]
theorem dirty_touch (t : Tracker) : t.touch.dirty = true := by
  unfold touch
  split <;> simp_all

theorem notices_touch (t : Tracker) :
    t.touch.notices = t.notices + (if t.listening && !t.dirty then 1 else 0) := by
  unfold touch
  cases t.dirty <;> cases t.listening <;> simp

end Tracker

end ChunkCache
