/-!
# Disjoint sets in a table

A partition of the numbers below `n` is kept in a table with a parent for every number; a number
that is its own parent stands for its set. Looking up a number points everything on its way directly
at the top, and when two sets are united, the number that stands for the first one becomes the
parent of the one that stands for the second. No parent is compared with its child, and nothing in a
table rules out that parents lead in a circle. A way to the top meets no number twice, so that one
that is longer than the table leads in a circle.

## Main definitions

* `GraphGrammar.ParentTable`, `GraphGrammar.TableCall` — a table, and a call on it.
* `GraphGrammar.ParentTable.find`, `union`, `unionAll` — the calls.
* `GraphGrammar.SetCall`, `GraphGrammar.SetCall.performAll` — calls one after the other.
-/

namespace GraphGrammar

/-- The parent of every number below the length of the table. -/
abbrev ParentTable := List Nat

/-- A call on a table. It has no answer if it leaves the table or goes in a circle. -/
abbrev TableCall (α : Type) := StateT ParentTable Option α

namespace ParentTable

/-- The table in which every number stands for itself. -/
def singletons (n : Nat) : ParentTable := List.range n

/-- The parent of a number. -/
def parent (i : Nat) : TableCall Nat := do
  let t ← get
  t[i]?

/-- Gives a number a new parent. -/
def setParent (i p : Nat) : TableCall Unit := modify fun t => t.set i p

/-- The number that stands for the set of `i`, if fewer than `steps` steps lead there. Everything on
the way becomes its child. -/
def findWithin : Nat → Nat → TableCall Nat
  | 0, _ => failure
  | steps + 1, i => do
    let p ← parent i
    if p = i then return i
    let root ← findWithin steps p
    setParent i root
    return root

/-- The number that stands for the set of `i`. -/
def find (i : Nat) : TableCall Nat := do
  let t ← get
  findWithin t.length i

/-- Unites the sets of two numbers. -/
def union (a b : Nat) : TableCall Unit := do
  let ra ← find a
  let rb ← find b
  unless ra = rb do setParent rb ra

/-- Unites the sets of the numbers of each pair in turn. -/
def unionAll (pairs : List (Nat × Nat)) : TableCall Unit :=
  forM pairs fun pair => union pair.1 pair.2

end ParentTable

/-! ### Sequences of calls -/

/-- A call on the sets of a table. -/
inductive SetCall where
  /-- Looks up a number. -/
  | find (i : Nat)
  /-- Unites the sets of two numbers. -/
  | union (a b : Nat)
deriving DecidableEq

namespace SetCall

/-- The numbers that a call is about. -/
def numbers : SetCall → List Nat
  | find i => [i]
  | union a b => [a, b]

/-- Makes a call. Looking up a number has an answer, uniting sets has none. -/
def perform : SetCall → TableCall (Option Nat)
  | find i => do return some (← ParentTable.find i)
  | union a b => do
    ParentTable.union a b
    return none

/-- Makes calls one after the other. -/
def performAll (calls : List SetCall) : TableCall (List (Option Nat)) := calls.mapM perform

end SetCall

end GraphGrammar
