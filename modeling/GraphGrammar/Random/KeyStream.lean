/-!
# A stream of random words

Random words are the key stream of the cipher ChaCha with twelve rounds, whose key is expanded from
one 64-bit seed. The stream is cut into words of 32 bits.

## Main definitions

* `GraphGrammar.KeyStream`, `GraphGrammar.KeyStream.ofSeed`.
* `GraphGrammar.KeyStream.word`, `GraphGrammar.KeyStream.longWord`, `GraphGrammar.KeyStream.bytes`.
-/

namespace GraphGrammar

/-- The state of a stream: its key, the number of the next block, and the words of the last block
that are left. -/
structure KeyStream where
  /-- The eight words of the key. -/
  key : List UInt32
  /-- The number of the next block. -/
  counter : UInt64
  /-- The words that are left. -/
  pending : List UInt32

namespace KeyStream

/-- The word turned left by `n` bits, for `n` between 1 and 31. -/
def rotl (x n : UInt32) : UInt32 := (x <<< n) ||| (x >>> (32 - n))

/-! ### Seeds -/

/-- The next state of the generator that expands a seed. -/
def advanceSeed (s : UInt64) : UInt64 := s * 6364136223846793005 + 11634580027462260723

/-- The word of the key that belongs to a state: the upper half, folded and turned right by the
number in the five uppermost bits. -/
def keyWord (s : UInt64) : UInt32 :=
  let folded := (((s >>> 18) ^^^ s) >>> 27).toUInt32
  let n := (s >>> 59).toUInt32
  if n = 0 then folded else (folded >>> n) ||| (folded <<< (32 - n))

/-- The words of the key after a state, `count` of them. -/
def expandSeed (count : Nat) (s : UInt64) : List UInt32 :=
  match count with
  | 0 => []
  | count + 1 =>
    let s := advanceSeed s
    keyWord s :: expandSeed count s

/-- The stream of a seed. -/
def ofSeed (seed : UInt64) : KeyStream := ⟨expandSeed 8 seed, 0, []⟩

/-! ### Blocks -/

/-- One quarter round on four words. -/
def quarterRound (a b c d : UInt32) : UInt32 × UInt32 × UInt32 × UInt32 :=
  let a := a + b
  let d := rotl (d ^^^ a) 16
  let c := c + d
  let b := rotl (b ^^^ c) 12
  let a := a + b
  let d := rotl (d ^^^ a) 8
  let c := c + d
  let b := rotl (b ^^^ c) 7
  (a, b, c, d)

/-- A quarter round on the words at four places. -/
def mix (x : Array UInt32) (a b c d : Nat) : Array UInt32 :=
  let (p, q, r, s) := quarterRound (x.getD a 0) (x.getD b 0) (x.getD c 0) (x.getD d 0)
  (((x.setIfInBounds a p).setIfInBounds b q).setIfInBounds c r).setIfInBounds d s

/-- A round on the columns and a round on the diagonals. -/
def doubleRound (x : Array UInt32) : Array UInt32 :=
  let x := mix (mix (mix (mix x 0 4 8 12) 1 5 9 13) 2 6 10 14) 3 7 11 15
  mix (mix (mix (mix x 0 5 10 15) 1 6 11 12) 2 7 8 13) 3 4 9 14

/-- The words with which every block begins. -/
def blockOpening : List UInt32 := [0x61707865, 0x3320646e, 0x79622d32, 0x6b206574]

/-- The words of a block. -/
def block (key : List UInt32) (counter : UInt64) : List UInt32 :=
  let start := blockOpening ++ key ++ [counter.toUInt32, (counter >>> 32).toUInt32, 0, 0]
  let mixed := (List.range 6).foldl (fun x _ => doubleRound x) start.toArray
  List.zipWith (· + ·) start mixed.toList

/-! ### Words -/

/-- The next word. -/
def word (s : KeyStream) : UInt32 × KeyStream :=
  match s.pending with
  | w :: pending => (w, { s with pending })
  | [] =>
    let fresh := block s.key s.counter
    (fresh.headD 0, ⟨s.key, s.counter + 1, fresh.tail⟩)

/-- The next two words as one, the lower half first. -/
def longWord (s : KeyStream) : UInt64 × KeyStream :=
  let (low, s) := s.word
  let (high, s) := s.word
  (low.toUInt64 ||| (high.toUInt64 <<< 32), s)

/-- The next `count` words. -/
def wordList (count : Nat) (s : KeyStream) : List UInt32 × KeyStream :=
  match count with
  | 0 => ([], s)
  | count + 1 =>
    let (w, s) := s.word
    let (ws, s) := wordList count s
    (w :: ws, s)

/-- The bytes of a word, the least significant first. -/
def wordOctets (x : UInt32) : List UInt8 :=
  [x.toUInt8, (x >>> 8).toUInt8, (x >>> 16).toUInt8, (x >>> 24).toUInt8]

/-- The next `n` bytes. What is left of the last word is dropped. -/
def bytes (n : Nat) (s : KeyStream) : List UInt8 × KeyStream :=
  let (ws, s) := s.wordList ((n + 3) / 4)
  ((ws.flatMap wordOctets).take n, s)

end KeyStream

end GraphGrammar
