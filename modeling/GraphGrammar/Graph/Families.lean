import GraphGrammar.Graph.Basic

/-!
# Cycles and grids

## Main definitions

* `GraphGrammar.Graph.cycle`, `GraphGrammar.Graph.grid`.
-/

namespace GraphGrammar

namespace Graph

/-- The cycle of `n` nodes with one node label and one edge label. -/
def cycle (n : Nat) (node edge : String) : Except Fault Graph :=
  ofParts (List.replicate n node) ((List.range n).map fun v => ⟨v, (v + 1) % n, edge⟩)

/-- Whether two cells of a grid with `cols` columns are linked. Without blocks, neighbours in a row
or a column are. With blocks of a given side, all cells of a row, of a column and of a block are. -/
def cellsLinked (cols block a b : Nat) : Bool :=
  let (ra, ca) := (a / cols, a % cols)
  let (rb, cb) := (b / cols, b % cols)
  if block = 0 then
    (ra == rb && (ca + 1 == cb || cb + 1 == ca)) || (ca == cb && (ra + 1 == rb || rb + 1 == ra))
  else ra == rb || ca == cb || (ra / block == rb / block && ca / block == cb / block)

/-- The grid of `rows` times `cols` cells, numbered row by row. -/
def grid (rows cols block : Nat) (node edge : String) : Except Fault Graph :=
  let n := rows * cols
  ofParts (List.replicate n node)
    ((List.range n).flatMap fun a =>
      ((List.range n).filter fun b => a < b && cellsLinked cols block a b).map fun b =>
        ⟨a, b, edge⟩)

end Graph

end GraphGrammar
