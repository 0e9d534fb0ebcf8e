import ChunkCache.Bytes

/-!
The 64-bit XXH3 hash with seed zero and the default secret. Inputs are treated by length: up to 16
bytes are mixed as two overlapping words, up to 240 bytes as pairs of words taken from both ends,
and longer ones are folded stripe by stripe into eight running words.
-/

namespace ChunkCache.Xxh3

/-- The 24 words of the default secret; every word of the secret that the hash reads is made of
their bytes. -/
def secretWords : List UInt64 :=
  [ 0xbe4ba423396cfeb8, 0x1cad21f72c81017c, 0xdb979083e96dd4de, 0x1f67b3b7a4a44072,
    0x78e5c0cc4ee679cb, 0x2172ffcc7dd05a82, 0x8e2443f7744608b8, 0x4c263a81e69035e0,
    0xcb00c391bb52283c, 0xa32e531b8b65d088, 0x4ef90da297486471, 0xd8acdea946ef1938,
    0x3f349ce33f76faa8, 0x1d4f0bc7c7bbdcf9, 0x3159b4cd4be0518a, 0x647378d9c97e9fc8,
    0xc3ebd33483acc5ea, 0xeb6313faffa081c5, 0x49daf0b751dd0d17, 0x9e68d429265516d3,
    0xfca1477d58be162b, 0xce31d07ad1b8f88f, 0x280416958f3acb45, 0x7e404bbbcafbd7af ]

def secret : Array UInt8 :=
  (secretWords.flatMap fun w => Bytes.littleEndian 8 w.toNat).toArray

def prime32a : UInt64 := 0x9E3779B1
def prime32b : UInt64 := 0x85EBCA77
def prime32c : UInt64 := 0xC2B2AE3D
def prime64a : UInt64 := 0x9E3779B185EBCA87
def prime64b : UInt64 := 0xC2B2AE3D27D4EB4F
def prime64c : UInt64 := 0x165667B19E3779F9
def prime64d : UInt64 := 0x85EBCA77C2B2AE63
def prime64e : UInt64 := 0x27D4EB2F165667C5
def primeMixA : UInt64 := 0x165667919E3779F9
def primeMixB : UInt64 := 0x9FB21C651E98DF25

def byteAt (bs : Array UInt8) (i : Nat) : UInt64 :=
  (bs.getD i 0).toUInt64

/-- The word of `width` bytes at `i`, least significant byte first. -/
def wordAt (bs : Array UInt8) (i : Nat) : (width : Nat) → UInt64
  | 0 => 0
  | width + 1 => byteAt bs i + (wordAt bs (i + 1) width <<< 8)

def word64 (bs : Array UInt8) (i : Nat) : UInt64 := wordAt bs i 8
def word32 (bs : Array UInt8) (i : Nat) : UInt64 := wordAt bs i 4

def key (i : Nat) : UInt64 := word64 secret i

def rotateLeft (x : UInt64) (n : UInt64) : UInt64 :=
  (x <<< n) ||| (x >>> (64 - n))

def reverseBytes (x : UInt64) : UInt64 :=
  UInt64.ofNat (Bytes.ofBigEndian (Bytes.littleEndian 8 x.toNat))

/-- The two halves of the 128-bit product, one xored onto the other. -/
def foldProduct (x y : UInt64) : UInt64 :=
  let product := x.toNat * y.toNat
  UInt64.ofNat product ^^^ UInt64.ofNat (product >>> 64)

/-- The final mixing of inputs of more than eight bytes. -/
def avalanche (h : UInt64) : UInt64 :=
  let h := (h ^^^ (h >>> 37)) * primeMixA
  h ^^^ (h >>> 32)

/-- The final mixing of inputs of at most three bytes. -/
def avalancheShort (h : UInt64) : UInt64 :=
  let h := (h ^^^ (h >>> 33)) * prime64b
  let h := (h ^^^ (h >>> 29)) * prime64c
  h ^^^ (h >>> 32)

def hashEmpty : UInt64 :=
  avalancheShort (key 56 ^^^ key 64)

/-- One to three bytes. -/
def hashTiny (bs : Array UInt8) : UInt64 :=
  let n := bs.size
  let combined := (byteAt bs 0 <<< 16) ||| (byteAt bs (n / 2) <<< 24) ||| byteAt bs (n - 1) |||
    (n.toUInt64 <<< 8)
  avalancheShort (combined ^^^ (word32 secret 0 ^^^ word32 secret 4))

/-- Four to eight bytes. -/
def hashShort (bs : Array UInt8) : UInt64 :=
  let n := bs.size
  let word := word32 bs (n - 4) + (word32 bs 0 <<< 32)
  let h := word ^^^ (key 8 ^^^ key 16)
  let h := (h ^^^ rotateLeft h 49 ^^^ rotateLeft h 24) * primeMixB
  let h := (h ^^^ ((h >>> 35) + n.toUInt64)) * primeMixB
  h ^^^ (h >>> 28)

/-- Nine to sixteen bytes. -/
def hashPair (bs : Array UInt8) : UInt64 :=
  let n := bs.size
  let low := word64 bs 0 ^^^ (key 24 ^^^ key 32)
  let high := word64 bs (n - 8) ^^^ (key 40 ^^^ key 48)
  avalanche (n.toUInt64 + reverseBytes low + high + foldProduct low high)

/-- Sixteen bytes at `i`, mixed with the sixteen bytes of the secret at `k`. -/
def mix (bs : Array UInt8) (i k : Nat) : UInt64 :=
  foldProduct (word64 bs i ^^^ key k) (word64 bs (i + 8) ^^^ key (k + 8))

/-- Seventeen to 128 bytes: one to four pairs of blocks, from the two ends towards the middle. -/
def hashMedium (bs : Array UInt8) : UInt64 :=
  let n := bs.size
  let pairs := (n - 1) / 32 + 1
  avalanche <| (List.range pairs).foldl
    (fun acc i => acc + mix bs (16 * i) (32 * i) + mix bs (n - 16 * (i + 1)) (32 * i + 16))
    (n.toUInt64 * prime64a)

/-- From 129 to 240 bytes: eight blocks, a first mixing, then the other blocks and the last. -/
def hashLong (bs : Array UInt8) : UInt64 :=
  let n := bs.size
  let first := (List.range 8).foldl (fun acc i => acc + mix bs (16 * i) (16 * i))
    (n.toUInt64 * prime64a)
  let rest := (List.range (n / 16 - 8)).foldl
    (fun acc i => acc + mix bs (16 * (i + 8)) (16 * i + 3)) (avalanche first)
  avalanche (rest + mix bs (n - 16) 119)

/-- The eight running words before the first stripe. -/
def startLanes : List UInt64 :=
  [prime32c, prime64a, prime64b, prime64c, prime64d, prime32b, prime64e, prime32a]

/-- Fold the stripe of 64 bytes at `i` into the lanes, with the secret at `k`. A lane takes the
product of the halves of its own keyed word and the plain word of its neighbour. -/
def addStripe (bs : Array UInt8) (lanes : List UInt64) (i k : Nat) : List UInt64 :=
  lanes.mapIdx fun (lane : Nat) (acc : UInt64) =>
    let neighbour := if lane % 2 = 0 then lane + 1 else lane - 1
    let keyed : UInt64 := word64 bs (i + 8 * lane) ^^^ key (k + 8 * lane)
    acc + word64 bs (i + 8 * neighbour) + (keyed &&& (0xFFFFFFFF : UInt64)) * (keyed >>> 32)

def scramble (lanes : List UInt64) : List UInt64 :=
  lanes.mapIdx fun (lane : Nat) (acc : UInt64) =>
    ((acc ^^^ (acc >>> 47)) ^^^ key (128 + 8 * lane)) * prime32a

def addStripes (bs : Array UInt8) (lanes : List UInt64) (i count : Nat) : List UInt64 :=
  (List.range count).foldl (fun lanes s => addStripe bs lanes (i + 64 * s) (8 * s)) lanes

def mergeLanes (start : UInt64) : (k : Nat) → List UInt64 → UInt64
  | k, a :: b :: rest =>
    mergeLanes (start + foldProduct (a ^^^ key k) (b ^^^ key (k + 8))) (k + 16) rest
  | _, _ => start

/-- More than 240 bytes: whole blocks of sixteen stripes, the stripes that are left, and a last
stripe that ends with the input. -/
def hashHuge (bs : Array UInt8) : UInt64 :=
  let n := bs.size
  let blocks := (n - 1) / 1024
  let lanes := (List.range blocks).foldl
    (fun lanes block => scramble (addStripes bs lanes (1024 * block) 16)) startLanes
  let lanes := addStripes bs lanes (1024 * blocks) ((n - 1 - 1024 * blocks) / 64)
  let lanes := addStripe bs lanes (n - 64) 121
  avalanche (mergeLanes (n.toUInt64 * prime64a) 11 lanes)

def hash (input : Bytes) : UInt64 :=
  let bs := input.toArray
  let n := bs.size
  if n = 0 then hashEmpty
  else if n ≤ 3 then hashTiny bs
  else if n ≤ 8 then hashShort bs
  else if n ≤ 16 then hashPair bs
  else if n ≤ 128 then hashMedium bs
  else if n ≤ 240 then hashLong bs
  else hashHuge bs

end ChunkCache.Xxh3
