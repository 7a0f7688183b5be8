/-!
# Counts and their limit

Counts and indices are never above a limit. A sum that would be is refused, or it starts again from
zero, and for a double the limit may be taken instead.

## Main definitions

* `GraphGrammar.countLimit` — the limit.
* `GraphGrammar.addCounts?`, `GraphGrammar.doubleCount` — sums and doubles of counts.
* `GraphGrammar.Overflow` — what becomes of a sum that is above the limit.
-/

namespace GraphGrammar

/-- The largest value that a count or an index can take. -/
def countLimit : Nat := 18446744073709551615

/-- The sum of two counts, unless it is above the limit. -/
def addCounts? (a b : Nat) : Option Nat := if a + b ≤ countLimit then some (a + b) else none

/-- Twice a count, and the limit if that is above it. -/
def doubleCount (n : Nat) : Nat := if n ≤ countLimit / 2 then 2 * n else countLimit

/-- What becomes of a sum that is above the limit. Which of the two it is, is a setting under which
a program is built. -/
inductive Overflow where
  /-- It is refused. -/
  | refused
  /-- It starts again from zero. -/
  | wrapping
deriving DecidableEq

/-- The sum of two counts, if it is not refused. -/
def Overflow.add : Overflow → Nat → Nat → Option Nat
  | .refused, a, b => addCounts? a b
  | .wrapping, a, b => some ((a + b) % (countLimit + 1))

end GraphGrammar
