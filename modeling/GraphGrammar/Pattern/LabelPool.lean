import GraphGrammar.Pattern.Label

/-!
# Covering labels from a pool

Required labels are covered one after the other from a pool, which holds how many copies of every
available label are left. A wildcard takes no copy: as long as there are enough labels in all, some
label is left for it.

## Main definitions

* `GraphGrammar.LabelPool`, `GraphGrammar.LabelPool.deposit`, `GraphGrammar.LabelPool.withdraw?` —
  copies of labels that are left.
* `GraphGrammar.covers` — whether labels are covered.
-/

namespace GraphGrammar

/-- Labels with the number of copies of each that are left. -/
abbrev LabelPool := List (String × Nat)

namespace LabelPool

/-- The pool with one more copy of a label. -/
def deposit (label : String) : LabelPool → LabelPool
  | [] => [(label, 1)]
  | (key, n) :: pool =>
    if key = label then (key, n + 1) :: pool else (key, n) :: deposit label pool

/-- The pool with one copy of a label less, if one is left. -/
def withdraw? (label : String) : LabelPool → Option LabelPool
  | [] => none
  | (key, n) :: pool =>
    if key = label then if 0 < n then some ((key, n - 1) :: pool) else none
    else (withdraw? label pool).map ((key, n) :: ·)

/-- Whether every label of a list but the wildcard finds a copy. -/
def serves (wildcard : Option String) : LabelPool → List String → Bool
  | _, [] => true
  | pool, label :: rest =>
    if wildcard = some label then serves wildcard pool rest
    else
      match pool.withdraw? label with
      | some pool => serves wildcard pool rest
      | none => false

/-- The pool of all copies in a list. -/
def ofLabels (labels : List String) : LabelPool :=
  labels.foldl (fun pool label => pool.deposit label) []

end LabelPool

/-- Whether the labels `available` cover the labels `required`. -/
def covers (wildcard : Option String) (required available : List String) : Bool :=
  if available.length < required.length then false
  else (LabelPool.ofLabels available).serves wildcard required

end GraphGrammar
