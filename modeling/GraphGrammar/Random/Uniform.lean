import GraphGrammar.Pattern.Constraint
import GraphGrammar.Random.KeyStream

/-!
# Uniform choices

A word of the stream is spread over the numbers below `n` by a multiplication. Words that would make
some numbers more likely than others are refused, at most every second one on average, and another
is drawn.

## Main definitions

* `GraphGrammar.KeyStream.below`, `GraphGrammar.KeyStream.longBelow` — a number below a bound.
* `GraphGrammar.KeyStream.choose` — a member of a list.
* `GraphGrammar.KeyStream.permutation` — a shuffled list.
-/

namespace GraphGrammar

namespace KeyStream

/-- The bound `n`, doubled as often as it stays below the power of two `size`. -/
def scaleUp (size n : Nat) : Nat := n <<< (size.log2 - 1 - n.log2)

/-- Draws words below `size` until one is not refused, and gives the number below `n` that it stands
for. After `attempts` words it gives zero. -/
def drawBelow (draw : KeyStream → Nat × KeyStream) (size n attempts : Nat) (s : KeyStream) :
    Nat × KeyStream :=
  match attempts with
  | 0 => (0, s)
  | attempts + 1 =>
    let (v, s) := draw s
    if v * n % size < scaleUp size n then (v * n / size, s)
    else drawBelow draw size n attempts s

/-- A number below `n`, from words of 32 bits. -/
def below (n : Nat) (s : KeyStream) : Nat × KeyStream :=
  drawBelow (fun s => ((s.word).1.toNat, (s.word).2)) 4294967296 n countLimit s

/-- A number below `n`, from words of 64 bits. -/
def longBelow (n : Nat) (s : KeyStream) : Nat × KeyStream :=
  drawBelow (fun s => ((s.longWord).1.toNat, (s.longWord).2)) 18446744073709551616 n countLimit s

/-- A member of a list, and `""` of a list without members. -/
def choose (l : List String) (s : KeyStream) : String × KeyStream :=
  if l.isEmpty then ("", s)
  else
    let (i, s) := s.below l.length
    (l.getD i "", s)

/-- Exchanges the entry `i` with one at or before it, then does so for all earlier entries but the
first. -/
def shuffleFrom (i : Nat) (x : Array Nat) (s : KeyStream) : Array Nat × KeyStream :=
  match i with
  | 0 => (x, s)
  | i + 1 =>
    let (j, s) := s.below (i + 2)
    shuffleFrom i (x.swapIfInBounds (i + 1) j) s

/-- The numbers below `n` in random order. -/
def permutation (n : Nat) (s : KeyStream) : List Nat × KeyStream :=
  let (x, s) := shuffleFrom (n - 1) (Array.range n) s
  (x.toList, s)

end KeyStream

end GraphGrammar
