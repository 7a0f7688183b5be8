import GraphGrammar.Rule.SideTable

/-!
# The components of a side

The components of a side are found by walking through its tables. A walk starts at a node that was
not seen yet. It takes the nodes from a queue, and puts the neighbours that it sees for the first
time at the end of the queue.

## Main definitions

* `GraphGrammar.SideWalk`, `GraphGrammar.SideWalk.meet` — how far a walk has come.
* `GraphGrammar.SideTable.walk` — the walk through one component.
* `GraphGrammar.SideTable.components` — the components.
-/

namespace GraphGrammar

/-- How far a walk through a component has come. -/
structure SideWalk where
  /-- Whether each node was seen, by this walk or an earlier one. -/
  seen : List Bool
  /-- The nodes that this walk has seen. -/
  component : List Nat
  /-- Those of them whose neighbours are still to be seen. -/
  queue : List Nat

namespace SideWalk

/-- The walk that has seen only its first node. -/
def start (seen : List Bool) (v : Nat) : SideWalk := ⟨seen.set v true, [v], [v]⟩

/-- Meets a node, which may be seen for the first time. -/
def meet (s : SideWalk) (v : Nat) : SideWalk :=
  if s.seen[v]? = some false then ⟨s.seen.set v true, s.component ++ [v], s.queue ++ [v]⟩ else s

/-- How many steps a walk can still take. -/
def stepsLeft (s : SideWalk) : Nat := s.seen.count false + s.queue.length

theorem stepsLeft_meet (s : SideWalk) (v : Nat) : (s.meet v).stepsLeft = s.stepsLeft := by
  rw [meet]
  split
  · next h =>
    obtain ⟨hv, hseen⟩ := List.getElem?_eq_some_iff.mp h
    have hpos : 0 < s.seen.count false := List.count_pos_iff.mpr (hseen ▸ List.getElem_mem hv)
    simp only [stepsLeft, List.count_set hv, hseen, List.length_append, List.length_singleton]
    simp
    omega
  · rfl

theorem stepsLeft_foldl_meet (s : SideWalk) (l : List Nat) :
    (l.foldl meet s).stepsLeft = s.stepsLeft := by
  induction l generalizing s with
  | nil => rfl
  | cons v l ih => rw [List.foldl_cons, ih, stepsLeft_meet]

end SideWalk

namespace SideTable

variable (t : SideTable) (r : Rule)

/-- Walks on until the queue is empty. -/
def walk : SideWalk → SideWalk
  | ⟨seen, component, []⟩ => ⟨seen, component, []⟩
  | ⟨seen, component, v :: queue⟩ =>
    walk (((t.incident r v).map (·.node)).foldl SideWalk.meet ⟨seen, component, queue⟩)
termination_by s => s.stepsLeft
decreasing_by
  rw [SideWalk.stepsLeft_foldl_meet]
  exact Nat.lt_succ_self _

/-- Walks through the component of a node, unless the node was seen. Also which nodes were seen, and
the components that were found before. -/
def collectFrom (found : List Bool × List (List Nat)) (v : Nat) : List Bool × List (List Nat) :=
  if found.1[v]? = some false then
    let s := t.walk r (SideWalk.start found.1 v)
    (s.seen, found.2 ++ [s.component.mergeSort])
  else found

/-- The components as lists of nodes. -/
def components : List (List Nat) :=
  ((List.range t.members.length).foldl (t.collectFrom r)
    (List.replicate t.members.length false, [])).2

end SideTable

end GraphGrammar
