import GraphGrammar.Pattern.Label
import GraphGrammar.Pattern.Order
import GraphGrammar.Search.Hit
import GraphGrammar.Search.Plan

/-!
# The search for matches

A match sends the nodes of a pattern to distinct nodes of a target such that labels are admitted and
the edges of the pattern can be given distinct edges of the target between the images. More edges of
the target do not matter. The search places the nodes as the plan of the pattern says, tries the
candidates for each in ascending order, and goes back when there are no more.

## Main definitions

* `GraphGrammar.Placement` — the nodes placed so far.
* `GraphGrammar.searchBelow` — the search below a placement.
* `GraphGrammar.searchPattern`, `GraphGrammar.searchAll` — one pattern, and several that share a
  cap on the number of hits.
-/

namespace GraphGrammar

/-! ### Placements -/

/-- The nodes that were placed with their images, the last one first. -/
abbrev Placement := List (Nat × Nat)

namespace Placement

/-- The image of a node, if it was placed. -/
def image (m : Placement) (v : Nat) : Option Nat := m.lookup v

/-- Whether a node of the target is an image. -/
def uses (m : Placement) (c : Nat) : Bool := m.any fun placed => placed.2 == c

/-- The images of the nodes below `n`. -/
def occurrence (m : Placement) (n : Nat) : Occurrence := ⟨(List.range n).filterMap m.image⟩

end Placement

/-- The nodes that can be the image of the next node: those next to the image of its parent, and all
nodes if it has no parent. -/
def PlannedNode.candidates (step : PlannedNode) (t : GraphView) (m : Placement) : List Nat :=
  match step.parent with
  | none => List.range t.nodeCount
  | some u =>
    match m.image u with
    | none => []
    | some a => (t.neighbours a).toList

/-- Whether a node of the target has the label, the self-loops and the edges that are asked of the
image of the next node, and is not an image yet. -/
def PlannedNode.suits (step : PlannedNode) (p : Pattern) (t : GraphView) (m : Placement) (c : Nat) :
    Bool :=
  !m.uses c && labelFits p.wildcard (p.graph.label step.node) (t.label c) &&
    step.loops.length ≤ t.selfLoops c && step.plainDegree ≤ t.degree c - t.selfLoops c &&
    labelsFit p.wildcard step.loops (t.labelsBetween c c) &&
    step.links.all fun link =>
      match m.image link.1 with
      | none => false
      | some a => labelsFit p.wildcard link.2 (t.labelsBetween c a)

/-- Whether a placement satisfies the constraints due at a step, and the symmetry order if there is
one. -/
def PlannedNode.admitted (step : PlannedNode) (order : Option SymmetryOrder) (t : GraphView)
    (m : Placement) : Bool :=
  (step.checks.all fun c => c.holds t m.image) && order.all fun o => o.admits m.image

/-- Searches for all completions of a placement along the rest of a plan. -/
def searchBelow {σ : Type} (p : Pattern) (order : Option SymmetryOrder) (t : GraphView)
    (report : Placement → σ → σ × Decision) : List PlannedNode → Placement → σ → σ × Decision
  | [], m, s => report m s
  | step :: rest, m, s =>
    untilHalted
      (fun c s =>
        if step.suits p t m c && step.admitted order t ((step.node, c) :: m) then
          searchBelow p order t report rest ((step.node, c) :: m) s
        else (s, .proceed))
      (step.candidates t m) s

/-! ### Searches with a cap -/

/-- The state of a listener, how many hits may still follow, and how many there were. -/
structure Tally (σ : Type) where
  /-- The state of the listener. -/
  state : σ
  /-- The number of hits that may still be reported. -/
  budget : Nat
  /-- The number of hits that were reported. -/
  hits : Nat

/-- Reports a hit. When no further hit may follow, the search ends whatever the listener says. -/
def Tally.deliver {σ : Type} (report : Listener σ) (hit : Hit) (s : Tally σ) :
    Tally σ × Decision :=
  if s.budget = 0 then (s, .stop)
  else
    let (state, decision) := report s.state hit
    (⟨state, s.budget - 1, s.hits + 1⟩, if s.budget - 1 = 0 then .stop else decision)

/-- Searches for the pattern with number `id`. A pattern with more nodes or more edges than the
target, and one without a plan, has no match. An order for a pattern of another size is left
aside. -/
def searchPattern {σ : Type} (report : Listener σ) (t : GraphView) (id : Nat) (p : Pattern)
    (order : Option SymmetryOrder) (s : Tally σ) : Tally σ × Decision :=
  if s.budget = 0 then (s, .stop)
  else if t.nodeCount < p.graph.nodeCount || t.edgeCount < p.graph.edgeCount then (s, .proceed)
  else
    match p.plan? with
    | none => (s, .proceed)
    | some plan =>
      searchBelow p (order.filter fun o => o.size == p.graph.nodeCount) t
        (fun m s => s.deliver report ⟨id, m.occurrence p.graph.nodeCount⟩) plan [] s

/-- Searches for several patterns, the first with number `id`, until a decision to stop. -/
def searchFrom {σ : Type} (report : Listener σ) (t : GraphView) (id : Nat) :
    List (Pattern × Option SymmetryOrder) → Tally σ → Tally σ
  | [], s => s
  | (p, order) :: rest, s =>
    if s.budget = 0 then s
    else
      match searchPattern report t id p order s with
      | (s, .stop) => s
      | (s, _) => searchFrom report t (id + 1) rest s

/-- Searches for several patterns, each with its symmetry order. The cap on the number of hits is
shared. -/
def searchAll {σ : Type} (maxHits : Nat) (report : Listener σ)
    (patterns : List (Pattern × Option SymmetryOrder)) (t : GraphView) (state : σ) : Tally σ :=
  searchFrom report t 0 patterns ⟨state, maxHits, 0⟩

/-- Searches for one pattern. -/
def searchOne {σ : Type} (maxHits : Nat) (report : Listener σ) (p : Pattern)
    (order : Option SymmetryOrder) (t : GraphView) (state : σ) : Tally σ :=
  (searchPattern report t 0 p order ⟨state, maxHits, 0⟩).1

end GraphGrammar
