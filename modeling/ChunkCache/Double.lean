/-!
Double-precision numbers as their IEEE-754 bit patterns. They are stored and compared, never
computed with, so the pattern is the whole value; the numeric comparison differs from equality of
patterns for zeros and for values that are no number.
-/

namespace ChunkCache

structure Double where
  bits : UInt64
  deriving DecidableEq, Repr

namespace Double

def magnitude (d : Double) : UInt64 :=
  d.bits &&& 0x7FFFFFFFFFFFFFFF

/-- An exponent of ones over a fraction that is not zero. -/
def isNaN (d : Double) : Bool :=
  d.magnitude > 0x7FF0000000000000

/-- Numeric equality: a value that is no number differs from everything, and the two zeros are
equal. -/
def numEq (a b : Double) : Bool :=
  !a.isNaN && !b.isNaN && (a.bits == b.bits || (a.magnitude == 0 && b.magnitude == 0))

end Double

end ChunkCache
