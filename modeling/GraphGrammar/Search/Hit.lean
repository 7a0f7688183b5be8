/-!
# Hits and listeners

A search hands every match to a listener as it is found. The listener keeps a state of its own and
decides after every hit how the search goes on.

## Main definitions

* `GraphGrammar.Occurrence`, `GraphGrammar.Hit`, `GraphGrammar.Decision`, `GraphGrammar.Listener`.
* `GraphGrammar.countHits`, `GraphGrammar.storeHits`, `GraphGrammar.followScript` — three listeners.
-/

namespace GraphGrammar

/-- The images of the nodes of a pattern, in the order of the nodes. -/
structure Occurrence where
  /-- The images. -/
  images : List Nat
deriving DecidableEq

namespace Occurrence

/-- The image of a node. -/
def image? (m : Occurrence) (v : Nat) : Option Nat := m.images[v]?

/-- The number of nodes with an image. -/
def size (m : Occurrence) : Nat := m.images.length

/-- Whether no node has an image. -/
def isEmpty (m : Occurrence) : Bool := m.images.isEmpty

/-- Whether no two nodes share an image. -/
def isInjective (m : Occurrence) : Bool := decide m.images.Nodup

end Occurrence

/-- A match that was found, with the place of its pattern in the list that was searched for. -/
structure Hit where
  /-- The place of the pattern. -/
  pattern : Nat
  /-- The match. -/
  occurrence : Occurrence
deriving DecidableEq

/-- How a search goes on after a hit. -/
inductive Decision where
  /-- It goes on. -/
  | proceed
  /-- It leaves the pattern and goes on with the next. -/
  | nextPattern
  /-- It ends. -/
  | stop
deriving DecidableEq

/-- Whether a decision ends the search. -/
def Decision.isStop : Decision → Bool
  | stop => true
  | _ => false

instance : Inhabited Decision := ⟨.proceed⟩

/-- What is done with a hit: a new state, and a decision. -/
def Listener (σ : Type) : Type := σ → Hit → σ × Decision

/-- Does `f` for the members of a list in turn, until a decision other than to go on. -/
def untilHalted {α σ : Type} (f : α → σ → σ × Decision) : List α → σ → σ × Decision
  | [], s => (s, .proceed)
  | a :: l, s =>
    match f a s with
    | (s, .proceed) => untilHalted f l s
    | halted => halted

/-! ### Listeners -/

/-- Counts the hits. -/
def countHits : Listener Nat := fun n _ => (n + 1, .proceed)

/-- Keeps the hits in the order of their report. -/
def storeHits : Listener (List Hit) := fun hits hit => (hits ++ [hit], .proceed)

/-- Keeps the hits and takes the decisions of a script, one after each hit. After its end the search
goes on. -/
def followScript : Listener (List Hit × List Decision) := fun (hits, script) hit =>
  ((hits ++ [hit], script.tail), script.headD .proceed)

end GraphGrammar
