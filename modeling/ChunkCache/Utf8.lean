import ChunkCache.Bytes

namespace ChunkCache.Utf8

/-- The first place at which a byte string stops being UTF-8. -/
structure Fault where
  offset : Nat
  /-- The bytes of the sequence that are not to be used again, or `none` if the input ends inside
  a sequence that is correct so far. -/
  length : Option Nat
  deriving DecidableEq, Repr

def Fault.message (f : Fault) : String :=
  match f.length with
  | some n => s!"invalid utf-8 sequence of {n} bytes from index {f.offset}"
  | none => s!"incomplete utf-8 byte sequence from index {f.offset}"

/-- An interval of bytes, both ends included. -/
structure Range where
  low : UInt8
  high : UInt8

def Range.contains (r : Range) (b : UInt8) : Bool :=
  r.low ≤ b && b ≤ r.high

def continuation : Range := ⟨0x80, 0xBF⟩

/-- The ranges of the bytes that have to follow the first byte of a sequence; `none` if no sequence
starts with that byte. Overlong forms, surrogates and values beyond U+10FFFF are left out by
narrowing the second range. -/
def following? (lead : UInt8) : Option (List Range) :=
  if lead < 0x80 then some []
  else if lead < 0xC2 then none
  else if lead < 0xE0 then some [continuation]
  else if lead = 0xE0 then some [⟨0xA0, 0xBF⟩, continuation]
  else if lead = 0xED then some [⟨0x80, 0x9F⟩, continuation]
  else if lead < 0xF0 then some [continuation, continuation]
  else if lead = 0xF0 then some [⟨0x90, 0xBF⟩, continuation, continuation]
  else if lead < 0xF4 then some [continuation, continuation, continuation]
  else if lead = 0xF4 then some [⟨0x80, 0x8F⟩, continuation, continuation]
  else none

/-- The first fault of a byte string. The current sequence starts at `offset`, `seen` of its bytes
have been read and `expected` are the ranges of those that have to follow. -/
def faultFrom (offset seen : Nat) (expected : List Range) : Bytes → Option Fault
  | [] => if expected.isEmpty then none else some ⟨offset, none⟩
  | b :: bs =>
    match expected with
    | [] =>
      match following? b with
      | none => some ⟨offset, some 1⟩
      | some [] => faultFrom (offset + 1) 0 [] bs
      | some ranges => faultFrom offset 1 ranges bs
    | [range] =>
      if range.contains b then faultFrom (offset + seen + 1) 0 [] bs
      else some ⟨offset, some seen⟩
    | range :: ranges =>
      if range.contains b then faultFrom offset (seen + 1) ranges bs
      else some ⟨offset, some seen⟩

def fault (bs : Bytes) : Fault :=
  (faultFrom 0 0 [] bs).getD ⟨0, none⟩

def decode (bs : Bytes) : Except Fault String :=
  match String.fromUTF8? bs.toByteArray with
  | some s => .ok s
  | none => .error (fault bs)

theorem decode_ofString (s : String) : decode (Bytes.ofString s) = .ok s := by
  have h : (Bytes.ofString s).toByteArray = s.toByteArray := by
    apply ByteArray.ext
    simp [Bytes.ofString]
  simp [decode, h, String.fromUTF8?, s.isValidUTF8, String.fromUTF8]

end ChunkCache.Utf8
