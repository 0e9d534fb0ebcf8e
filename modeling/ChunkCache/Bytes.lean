namespace ChunkCache

abbrev Bytes := List UInt8

namespace Bytes

def ofString (s : String) : Bytes :=
  s.toByteArray.data.toList

/-- The pieces of a byte string between the occurrences of `sep`. There is one piece more than
there are occurrences, so the empty string has a single empty piece. -/
def splitOn (sep : UInt8) : Bytes → List Bytes
  | [] => [[]]
  | b :: bs =>
    if b = sep then [] :: splitOn sep bs
    else
      match splitOn sep bs with
      | [] => [[b]]
      | piece :: pieces => (b :: piece) :: pieces

/-- The parts before and after the first `sep`, if there is one. -/
def splitOnce (sep : UInt8) : Bytes → Option (Bytes × Bytes)
  | [] => none
  | b :: bs =>
    if b = sep then some ([], bs)
    else (splitOnce sep bs).map fun (head, tail) => (b :: head, tail)

/-- The pieces one after the other, with `sep` between neighbours. -/
def joinWith (sep : UInt8) : List Bytes → Bytes
  | [] => []
  | [piece] => piece
  | piece :: pieces => piece ++ sep :: joinWith sep pieces

/-- The last `width` base-256 digits of `n`, least significant first. -/
def littleEndian : (width n : Nat) → Bytes
  | 0, _ => []
  | width + 1, n => UInt8.ofNat n :: littleEndian width (n / 256)

def ofLittleEndian : Bytes → Nat
  | [] => 0
  | b :: bs => b.toNat + 256 * ofLittleEndian bs

/-- The last `width` base-256 digits of `n`, most significant first. -/
def bigEndian (width n : Nat) : Bytes :=
  (littleEndian width n).reverse

def ofBigEndian (bs : Bytes) : Nat :=
  ofLittleEndian bs.reverse

theorem splitOn_ne_nil (sep : UInt8) (bs : Bytes) : splitOn sep bs ≠ [] := by
  cases bs with
  | nil => simp [splitOn]
  | cons b bs =>
    simp only [splitOn]
    split
    · simp
    · split <;> simp

theorem joinWith_splitOn (sep : UInt8) (bs : Bytes) : joinWith sep (splitOn sep bs) = bs := by
  induction bs with
  | nil => rfl
  | cons b bs ih =>
    simp only [splitOn]
    split
    · rename_i hb
      cases h : splitOn sep bs with
      | nil => exact absurd h (splitOn_ne_nil sep bs)
      | cons piece pieces => simp [joinWith, ← h, ih, hb]
    · cases h : splitOn sep bs with
      | nil => exact absurd h (splitOn_ne_nil sep bs)
      | cons piece pieces =>
        rw [h] at ih
        cases pieces <;> simp_all [joinWith]

@[simp]
theorem length_littleEndian (width n : Nat) : (littleEndian width n).length = width := by
  induction width generalizing n with
  | zero => rfl
  | succ width ih => simp [littleEndian, ih]

@[simp]
theorem length_bigEndian (width n : Nat) : (bigEndian width n).length = width := by
  simp [bigEndian]

end Bytes

end ChunkCache
