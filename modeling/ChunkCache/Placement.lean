namespace ChunkCache

inductive Placement where
  | anyThread
  /-- The thread that hands the job over. -/
  | sameThread
  /-- A locality hint of the caller. -/
  | hint (group : UInt32)
  deriving DecidableEq, Repr

inductive Runner where
  /-- At once, on the calling thread. -/
  | inline
  /-- On a new thread each. -/
  | thread
  deriving DecidableEq, Repr

namespace Placement

def unspecified : Placement := .anyThread

def render : Placement → String
  | .anyThread => "AnyThread"
  | .sameThread => "SameThread"
  | .hint group => s!"Hint({group.toNat})"

end Placement

namespace Runner

def jobThreadName : String := "tgraph-job"

/-- The name of the thread that runs a job, or `none` for the calling thread. -/
def jobThread : Runner → Placement → Option String
  | .inline, _ => none
  | .thread, .sameThread => none
  | .thread, _ => some jobThreadName

end Runner

end ChunkCache
