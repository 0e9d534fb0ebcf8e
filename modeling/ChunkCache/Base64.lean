import ChunkCache.Bytes

/-!
Base64 with the URL-safe alphabet and without padding. Writing takes three bytes to four symbols;
reading is strict: it refuses padding, foreign bytes, a lone last symbol and non-zero bits that
belong to no byte, so a byte string is readable only in the form in which it is written.
-/

namespace ChunkCache.Base64

/-- Why a text is not the written form of a byte string. -/
inductive DecodeError where
  /-- The byte at `offset` may not stand there. -/
  | invalidByte (offset : Nat) (byte : UInt8)
  /-- Too few symbols follow the last whole group. -/
  | invalidLength (length : Nat)
  /-- The text ends in padding. -/
  | invalidPadding
  /-- The last symbol has bits beyond the last byte. -/
  | invalidLastSymbol (offset : Nat) (byte : UInt8)
  deriving DecidableEq, Repr

def DecodeError.message : DecodeError → String
  | .invalidByte offset byte => s!"Invalid symbol {byte.toNat}, offset {offset}."
  | .invalidLength length => s!"Invalid input length: {length}"
  | .invalidPadding => "Invalid padding"
  | .invalidLastSymbol offset byte => s!"Invalid last symbol {byte.toNat}, offset {offset}."

/-- The padding byte of other base64 dialects. -/
def pad : UInt8 := 61

/-- The symbol for six bits: letters, digits, hyphen, underscore. -/
def symbol (v : Fin 64) : UInt8 :=
  if v.val < 26 then UInt8.ofNat (65 + v.val)
  else if v.val < 52 then UInt8.ofNat (97 + (v.val - 26))
  else if v.val < 62 then UInt8.ofNat (48 + (v.val - 52))
  else if v.val = 62 then 45
  else 95

def value? (b : UInt8) : Option (Fin 64) :=
  let n := b.toNat
  if 65 ≤ n ∧ n ≤ 90 then some (Fin.ofNat 64 (n - 65))
  else if 97 ≤ n ∧ n ≤ 122 then some (Fin.ofNat 64 (n - 97 + 26))
  else if 48 ≤ n ∧ n ≤ 57 then some (Fin.ofNat 64 (n - 48 + 52))
  else if n = 45 then some 62
  else if n = 95 then some 63
  else none

def lastSix (n : Nat) : Fin 64 := Fin.ofNat 64 n

def digit (n : Nat) : UInt8 := symbol (lastSix n)

def encode : Bytes → Bytes
  | a :: b :: c :: rest =>
    let n := a.toNat * 65536 + b.toNat * 256 + c.toNat
    digit (n / 262144) :: digit (n / 4096) :: digit (n / 64) :: digit n :: encode rest
  | [a, b] =>
    let n := a.toNat * 1024 + b.toNat * 4
    [digit (n / 4096), digit (n / 64), digit n]
  | [a] =>
    let n := a.toNat * 16
    [digit (n / 64), digit n]
  | [] => []

/-- The whole bytes in a run of six-bit values. -/
def pack : List (Fin 64) → Bytes
  | p :: q :: r :: s :: rest =>
    let n := p.val * 262144 + q.val * 4096 + r.val * 64 + s.val
    UInt8.ofNat (n / 65536) :: UInt8.ofNat (n / 256) :: UInt8.ofNat n :: pack rest
  | [p, q, r] =>
    let n := p.val * 4096 + q.val * 64 + r.val
    [UInt8.ofNat (n / 1024), UInt8.ofNat (n / 4)]
  | [p, q] => [UInt8.ofNat ((p.val * 64 + q.val) / 16)]
  | _ => []

/-- Whether the bits of the last group that belong to no byte are all zero. -/
def spareBitsZero : List (Fin 64) → Bool
  | [_, _, r] => r.val % 4 == 0
  | [_, q] => q.val % 16 == 0
  | _ => true

def values (offset : Nat) : Bytes → Except DecodeError (List (Fin 64))
  | [] => .ok []
  | b :: bs =>
    match value? b with
    | none => .error (.invalidByte offset b)
    | some v => (values (offset + 1) bs).map (v :: ·)

/-- The values of the last group, which starts at `start` of the text, and whether padding follows
them. Padding may only follow two or more symbols and must end the text; `seen` counts the symbols
read so far and `padAt` is the offset of the first padding byte. -/
def lastValues (start : Nat) (seen : List (Fin 64)) (padAt : Option Nat) :
    Bytes → Except DecodeError (List (Fin 64) × Bool)
  | [] => .ok (seen, padAt.isSome)
  | b :: bs =>
    if b = pad then
      match padAt with
      | some offset => lastValues start seen (some offset) bs
      | none =>
        if seen.length < 2 then .error (.invalidByte (start + seen.length) pad)
        else lastValues start seen (some (start + seen.length)) bs
    else
      match padAt with
      | some offset => .error (.invalidByte offset pad)
      | none =>
        match value? b with
        | none => .error (.invalidByte (start + seen.length) b)
        | some v => lastValues start (seen ++ [v]) none bs

/-- A lone last byte that is no symbol is reported before any other fault. -/
def checkLoneByte (bs : Bytes) : Except DecodeError Unit :=
  match bs.getLast? with
  | none => .ok ()
  | some b =>
    if bs.length % 4 = 1 ∧ b ≠ pad ∧ (value? b).isNone then
      .error (.invalidByte (bs.length - 1) b)
    else .ok ()

/-- Where the last group of a text of the given length starts. -/
def lastGroup (length : Nat) : Nat :=
  (length - 1) / 4 * 4

def decode (bs : Bytes) : Except DecodeError Bytes := do
  checkLoneByte bs
  let start := lastGroup bs.length
  let whole ← values 0 (bs.take start)
  let (last, padded) ← lastValues start [] none (bs.drop start)
  if bs ≠ [] ∧ last.length < 2 then .error (.invalidLength (start + last.length))
  else if padded then .error .invalidPadding
  else if spareBitsZero last then .ok (pack (whole ++ last))
  else
    let offset := start + last.length - 1
    .error (.invalidLastSymbol offset (bs.getD offset 0))

end ChunkCache.Base64
