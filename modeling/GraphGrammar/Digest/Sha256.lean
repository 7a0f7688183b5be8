/-!
# SHA-256

The hash function of the standard FIPS 180-4, on lists of bytes.

## Main definitions

* `GraphGrammar.Sha256.hash` — the 32 bytes of the hash of a message.
-/

namespace GraphGrammar.Sha256

/-- The word turned right by `n` bits, for `n` between 1 and 31. -/
def rotr (x n : UInt32) : UInt32 := (x >>> n) ||| (x <<< (32 - n))

/-- The word that mixes two older words into the schedule, near one. -/
def smallSigma0 (x : UInt32) : UInt32 := rotr x 7 ^^^ rotr x 18 ^^^ (x >>> 3)

/-- The word that mixes two older words into the schedule, far one. -/
def smallSigma1 (x : UInt32) : UInt32 := rotr x 17 ^^^ rotr x 19 ^^^ (x >>> 10)

/-- The mixture of the first working variable. -/
def bigSigma0 (x : UInt32) : UInt32 := rotr x 2 ^^^ rotr x 13 ^^^ rotr x 22

/-- The mixture of the fifth working variable. -/
def bigSigma1 (x : UInt32) : UInt32 := rotr x 6 ^^^ rotr x 11 ^^^ rotr x 25

/-- Bits of `y` where `x` is set, and of `z` elsewhere. -/
def choice (x y z : UInt32) : UInt32 := (x &&& y) ^^^ (~~~x &&& z)

/-- Bits that are set in at least two words. -/
def majority (x y z : UInt32) : UInt32 := (x &&& y) ^^^ (x &&& z) ^^^ (y &&& z)

/-- The constants of the 64 rounds. -/
def roundConstants : List UInt32 :=
  [0x428a2f98, 0x71374491, 0xb5c0fbcf, 0xe9b5dba5, 0x3956c25b, 0x59f111f1, 0x923f82a4, 0xab1c5ed5,
    0xd807aa98, 0x12835b01, 0x243185be, 0x550c7dc3, 0x72be5d74, 0x80deb1fe, 0x9bdc06a7, 0xc19bf174,
    0xe49b69c1, 0xefbe4786, 0x0fc19dc6, 0x240ca1cc, 0x2de92c6f, 0x4a7484aa, 0x5cb0a9dc, 0x76f988da,
    0x983e5152, 0xa831c66d, 0xb00327c8, 0xbf597fc7, 0xc6e00bf3, 0xd5a79147, 0x06ca6351, 0x14292967,
    0x27b70a85, 0x2e1b2138, 0x4d2c6dfc, 0x53380d13, 0x650a7354, 0x766a0abb, 0x81c2c92e, 0x92722c85,
    0xa2bfe8a1, 0xa81a664b, 0xc24b8b70, 0xc76c51a3, 0xd192e819, 0xd6990624, 0xf40e3585, 0x106aa070,
    0x19a4c116, 0x1e376c08, 0x2748774c, 0x34b0bcb5, 0x391c0cb3, 0x4ed8aa4a, 0x5b9cca4f, 0x682e6ff3,
    0x748f82ee, 0x78a5636f, 0x84c87814, 0x8cc70208, 0x90befffa, 0xa4506ceb, 0xbef9a3f7, 0xc67178f2]

/-- The working variables, and the value between blocks. -/
structure State where
  /-- The first variable. -/
  a : UInt32
  /-- The second variable. -/
  b : UInt32
  /-- The third variable. -/
  c : UInt32
  /-- The fourth variable. -/
  d : UInt32
  /-- The fifth variable. -/
  e : UInt32
  /-- The sixth variable. -/
  f : UInt32
  /-- The seventh variable. -/
  g : UInt32
  /-- The eighth variable. -/
  h : UInt32

/-- The value before the first block. -/
def State.initial : State :=
  ⟨0x6a09e667, 0xbb67ae85, 0x3c6ef372, 0xa54ff53a, 0x510e527f, 0x9b05688c, 0x1f83d9ab, 0x5be0cd19⟩

/-- One round with the sum `k` of its constant and its word of the schedule. -/
def State.round (s : State) (k : UInt32) : State :=
  let t1 := s.h + bigSigma1 s.e + choice s.e s.f s.g + k
  let t2 := bigSigma0 s.a + majority s.a s.b s.c
  ⟨t1 + t2, s.a, s.b, s.c, s.d + t1, s.e, s.f, s.g⟩

/-- The sums of two states, variable by variable. -/
def State.add (s t : State) : State :=
  ⟨s.a + t.a, s.b + t.b, s.c + t.c, s.d + t.d, s.e + t.e, s.f + t.f, s.g + t.g, s.h + t.h⟩

/-- The 64 words of the schedule that belong to the 16 words of a block. -/
def schedule (block : List UInt32) : List UInt32 :=
  ((List.range 48).foldl
    (fun w i => w.push (smallSigma1 (w.getD (i + 14) 0) + w.getD (i + 9) 0 +
      smallSigma0 (w.getD (i + 1) 0) + w.getD i 0))
    block.toArray).toList

/-- The value after a block. -/
def State.absorb (s : State) (block : List UInt32) : State :=
  s.add ((List.zipWith (· + ·) roundConstants (schedule block)).foldl State.round s)

/-- Four bytes as a word, the most significant first. -/
def wordOf (a b c d : UInt8) : UInt32 :=
  (a.toUInt32 <<< 24) ||| (b.toUInt32 <<< 16) ||| (c.toUInt32 <<< 8) ||| d.toUInt32

/-- The bytes of a word, the most significant first. -/
def bytesOf (x : UInt32) : List UInt8 :=
  [(x >>> 24).toUInt8, (x >>> 16).toUInt8, (x >>> 8).toUInt8, x.toUInt8]

/-- A message with a set bit, zeros, and its length in bits, filling whole blocks of 64 bytes. -/
def pad (message : List UInt8) : List UInt8 :=
  message ++ 0x80 :: List.replicate ((119 - message.length % 64) % 64) 0 ++
    bytesOf (UInt32.ofNat (message.length * 8 / 4294967296)) ++
    bytesOf (UInt32.ofNat (message.length * 8))

/-- The words of a padded message. -/
def words : List UInt8 → List UInt32
  | a :: b :: c :: d :: rest => wordOf a b c d :: words rest
  | _ => []

/-- The value after the remaining words of a message, of which `count` blocks are left. -/
def absorbAll (s : State) (count : Nat) (ws : List UInt32) : State :=
  match count with
  | 0 => s
  | count + 1 => absorbAll (s.absorb (ws.take 16)) count (ws.drop 16)

/-- The 32 bytes of the hash of a message. -/
def hash (message : List UInt8) : List UInt8 :=
  let ws := words (pad message)
  let s := absorbAll .initial (ws.length / 16) ws
  [s.a, s.b, s.c, s.d, s.e, s.f, s.g, s.h].flatMap bytesOf

end GraphGrammar.Sha256
