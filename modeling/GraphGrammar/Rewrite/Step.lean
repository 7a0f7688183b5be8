import GraphGrammar.Graph.Arena
import GraphGrammar.Graph.Components
import GraphGrammar.Pattern.Label
import GraphGrammar.Rewrite.Config
import GraphGrammar.Rule.Side

/-!
# One rewrite step

A consistent rule is applied at a match of its left side in seven phases. The target is copied into
an arena; labels are changed; the edges of the left side are given edges of the target, and those of
left-only edges are removed; left-only nodes are removed together with the edges still around them;
right-only nodes and edges are added; edges that lost one endpoint are drawn again as the directives
say; and the arena is compacted.

## Main definitions

* `GraphGrammar.Rule.checkOccurrence` — what a mapping must satisfy before anything is done.
* `GraphGrammar.Rule.copyTarget`, `changeLabels`, `deleteEdges`, `deleteNodes`,
  `addRightSide`, `reroute` — the phases.
* `GraphGrammar.Rule.rewrite` — the step of a rule that was checked.
* `GraphGrammar.applyRule` — the step with all checks.
-/

namespace GraphGrammar

/-- The slots of the rule nodes in an arena, in the order of the rule nodes. -/
abbrev Images := List (Option Nat)

/-- An edge that lost the endpoint that was the image of the rule node `source`. -/
structure LooseEdge where
  /-- The rule node whose image was deleted. -/
  source : Nat
  /-- The slot of the other endpoint. -/
  survivor : Nat
  /-- The label. -/
  label : String
deriving DecidableEq

namespace Rule

variable (r : Rule)

/-- The slot of a rule node, which must have one. -/
def imageSlot (image : Images) (v : Nat) : Except Fault Nat :=
  match (image[v]?).join with
  | some s => .ok s
  | none => .error (.unmappedNode r.id v)

/-! ### Checks -/

/-- Refuses a mapping that leaves the target or sends two nodes to one. The pairs are the nodes of
the left side with their images. -/
def checkImages (t : GraphView) (seen : List Nat) : List (Nat × Nat) → Except Fault Unit
  | [] => .ok ()
  | (v, image) :: rest =>
    if t.nodeCount ≤ image then .error (.imageOutsideTarget r.id v image)
    else if seen.contains image then .error (.imageShared r.id image)
    else checkImages t (image :: seen) rest

/-- Refuses a mapping that does not send the nodes of the left side to distinct nodes of the
target. -/
def checkOccurrence (t : GraphView) (mapping : List Nat) : Except Fault Unit :=
  let expected := (r.sideNodes .left).length
  if mapping.length = expected then r.checkImages t [] (mapping.zipIdx.map Prod.swap)
  else .error (.mappingLength r.id expected mapping.length)

/-! ### Copying the target -/

/-- The slots of the rule nodes, where `slotOf` gives those of the nodes of the target. -/
def imagesAt (mapping : List Nat) (slotOf : Nat → Option Nat) : Images :=
  (List.range r.nodes.length).map fun v => do slotOf (← mapping[← r.localNumber? .left v]?)

/-- Copies the target once. -/
def copyWhole (t : GraphView) (mapping : List Nat) : Arena × Images :=
  (Arena.ofGraph t, r.imagesAt mapping some)

/-- What was copied so far for the components of the left side. -/
structure ComponentCopies where
  /-- The copies. -/
  host : Arena
  /-- The slots of the nodes of the left side, by their numbers on the left side. -/
  images : List (Nat × Nat)
  /-- The components of the target that were copied. -/
  copied : List Nat

/-- Copies the component of the target in which a component of the left side was found. -/
def copyComponent (t : GraphView) (ids mapping : List Nat) (s : ComponentCopies)
    (component : List Nat) : ComponentCopies :=
  let hit := (component.head?.bind (mapping[·]?)).bind (ids[·]?)
  let (host, slots) := s.host.extend t (ids.map fun id => some id == hit)
  let images := component.filterMap fun v => do
    some (v, ← (slots[← mapping[v]?]?).join)
  ⟨host, s.images ++ images, s.copied ++ hit.toList⟩

/-- Copies for every component of the left side the component of the target in which it was found,
and then the components in which none was found. -/
def copyComponents (t : GraphView) (mapping : List Nat) : Arena × Images :=
  let ids := t.componentNumbers.1
  let copies := (r.sideGraph .left).view.sweptComponents.foldl (copyComponent t ids mapping)
    ⟨Arena.empty, [], []⟩
  let (host, _) := copies.host.extend t (ids.map fun id => !copies.copied.contains id)
  (host, (List.range r.nodes.length).map fun v => do
    copies.images.lookup (← r.localNumber? .left v))

/-- Copies the target as the settings say. -/
def copyTarget (config : RewriteConfig) (t : GraphView) (mapping : List Nat) : Arena × Images :=
  if config.addEachComponent then r.copyComponents t mapping else r.copyWhole t mapping

/-! ### Changing labels -/

/-- Changes the label of the image of one rule node, if the rule does. -/
def changeLabel (mode : Relabeling) (image : Images) (host : Arena) (v : Nat) (n : RuleNode) :
    Except Fault Arena :=
  match n.role with
  | .labelChange => do
    let some right := n.rightLabel? | throw (.missingRightLabel r.id v)
    let s ← r.imageSlot image v
    host.setLabel s (mode.relabel (← host.label s) right)
  | _ => return host

/-- Changes the labels of the images of all label changes. -/
def changeLabels (mode : Relabeling) (image : Images) (host : Arena) : Except Fault Arena :=
  r.nodes.zipIdx.foldlM (fun host (n, v) => r.changeLabel mode image host v n) host

/-! ### Removing edges of the left side -/

/-- An edge of the left side with the slots of its endpoints, the smaller slot first. -/
structure PlacedEdge where
  /-- The smaller slot. -/
  low : Nat
  /-- The larger slot. -/
  high : Nat
  /-- The edge. -/
  edge : RuleEdge
deriving DecidableEq

/-- The edges of the left side with their slots. -/
def placeLeftEdges (image : Images) : Except Fault (List PlacedEdge) :=
  (r.edges.filter (·.role.onLeft)).mapM fun e => do
    let a ← r.imageSlot image e.source
    let b ← r.imageSlot image e.target
    return ⟨min a b, max a b, e⟩

/-- The pairs of slots that edges of the left side join, in ascending order. -/
def placedPairs (placed : List PlacedEdge) : List (Nat × Nat) :=
  ((placed.map fun e => (e.low, e.high)).mergeSort
    fun a b => ((compare a.1 b.1).then (compare a.2 b.2)).isLE).eraseReps

/-- The turn of an edge of the left side among those of its pair: literal labels come before
wildcards, edges that stay before edges that are removed. -/
def turn (e : RuleEdge) : Nat :=
  (if r.wildcard == some e.label then 2 else 0) + (if e.role = .kept then 0 else 1)

/-- The list without its entry `i`, whose place is taken by the last entry. -/
def swapRemove (l : List Nat) (i : Nat) : List Nat :=
  match l.getLast? with
  | none => l
  | some last => (l.set i last).dropLast

/-- Gives an edge of the left side the first free edge of the target that its label admits, and
removes that if the edge is left-only. -/
def consumeEdge (s : Arena × List Nat) (e : RuleEdge) : Except Fault (Arena × List Nat) := do
  let (host, free) := s
  let fits := host.edgeSatisfies fun found => labelFits r.wildcard e.label found.label
  let some i := free.findIdx? fits | throw (.missingEdge r.id e.source e.target e.label)
  let some id := free[i]? | throw (.missingEdge r.id e.source e.target e.label)
  let free := swapRemove free i
  if e.role = .leftOnly then return (← host.removeEdge id, free) else return (host, free)

/-- Gives the edges of the left side that join one pair of slots their edges of the target. -/
def consumePair (placed : List PlacedEdge) (host : Arena) (pair : Nat × Nat) :
    Except Fault Arena := do
  let edges := (placed.filter fun e => e.low == pair.1 && e.high == pair.2).map (·.edge)
  let free ← host.slotsBetween pair.1 pair.2
  let s ← (edges.mergeSort fun a b => r.turn a ≤ r.turn b).foldlM r.consumeEdge (host, free)
  return s.1

/-- Gives every edge of the left side an edge of the target of its own, and removes those of
left-only edges. -/
def deleteEdges (image : Images) (host : Arena) : Except Fault Arena := do
  let placed ← r.placeLeftEdges image
  (placedPairs placed).foldlM (r.consumePair placed) host

/-! ### Removing nodes of the left side -/

/-- The slots of the left-only nodes with these nodes, slots ascending. -/
def leftOnlySlots (image : Images) : Except Fault (List (Nat × Nat)) := do
  let deleted ← (r.nodes.zipIdx.filter fun (n, _) => n.role == .leftOnly).mapM fun (_, v) => do
    return (← r.imageSlot image v, v)
  return deleted.mergeSort fun a b => a.1 ≤ b.1

/-- Removes an edge around a left-only node, and notes it if its other endpoint stays. -/
def detachEdge (deleted : List (Nat × Nat)) (slot source : Nat) (s : Arena × List LooseEdge)
    (id : Nat) : Except Fault (Arena × List LooseEdge) := do
  let e ← s.1.edge id
  let host ← s.1.removeEdge id
  let survivor := e.other slot
  if deleted.any fun d => d.1 == survivor then return (host, s.2)
  else return (host, s.2 ++ [⟨source, survivor, e.label⟩])

/-- Removes a left-only node with its self-loops and with all other edges around it. -/
def deleteNode (deleted : List (Nat × Nat)) (s : Arena × List LooseEdge) (d : Nat × Nat) :
    Except Fault (Arena × List LooseEdge) := do
  let host ← (← s.1.selfLoops d.1).foldlM Arena.removeEdge s.1
  let (host, loose) ← (← host.incident d.1).foldlM (detachEdge deleted d.1 d.2) (host, s.2)
  return (← host.removeNode d.1, loose)

/-- Removes the left-only nodes. Also the edges that thereby lost one endpoint, in the order in
which they were removed. -/
def deleteNodes (image : Images) (host : Arena) : Except Fault (Arena × List LooseEdge) := do
  let deleted ← r.leftOnlySlots image
  deleted.foldlM (deleteNode deleted) (host, [])

/-! ### Adding nodes and edges of the right side -/

/-- Adds a right-only node. -/
def insertNode (s : Arena × Images) (node : RuleNode × Nat) : Arena × Images :=
  if node.1.role = .rightOnly then
    (s.1.addNode node.1.label, s.2.set node.2 (some s.1.nodes.length))
  else s

/-- Adds a right-only edge. -/
def insertEdge (image : Images) (host : Arena) (e : RuleEdge) : Except Fault Arena := do
  if e.role = .rightOnly then
    host.addEdge ⟨← r.imageSlot image e.source, ← r.imageSlot image e.target, e.label⟩
  else return host

/-- Adds the right-only nodes and edges. -/
def addRightSide (image : Images) (host : Arena) : Except Fault (Arena × Images) := do
  let (host, image) := r.nodes.zipIdx.foldl insertNode (host, image)
  return (← r.edges.foldlM (r.insertEdge image) host, image)

/-! ### Drawing loose edges again -/

/-- The surviving rule node whose image is in a slot. -/
def ruleNodeAt (image : Images) (s : Nat) : Option Nat :=
  (List.range r.nodes.length).find? fun v =>
    (r.roleOf v).any (·.survives) && (image[v]?).join == some s

/-- Draws a loose edge again for every directive that admits it. -/
def drawAgain (image : Images) (host : Arena) (d : LooseEdge) : Except Fault Arena :=
  ((r.directivesOf d.source).filter fun directive =>
      directive.admits (r.ruleNodeAt image d.survivor) d.label).foldlM
    (fun host directive => do
      host.addEdge ⟨← r.imageSlot image directive.pasteTarget, d.survivor, d.label⟩)
    host

/-- Draws all loose edges again. -/
def reroute (image : Images) (loose : List LooseEdge) (host : Arena) : Except Fault Arena :=
  loose.foldlM (r.drawAgain image) host

/-! ### The step -/

/-- Refuses a rule or settings with which no step is possible. -/
def checkRewrite (config : RewriteConfig) : Except Fault Unit := do
  unless r.isConsistent do throw (.inconsistentRule r.id r.problemSet)
  config.validate

/-- The result of applying a rule that was checked at a mapping of its left side. -/
def rewrite (config : RewriteConfig) (t : GraphView) (mapping : List Nat) :
    Except Fault Graph := do
  r.checkOccurrence t mapping
  let (host, image) := r.copyTarget config t mapping
  let host ← r.changeLabels config.relabeling image host
  let host ← r.deleteEdges image host
  let (host, loose) ← r.deleteNodes image host
  let (host, image) ← r.addRightSide image host
  let host ← r.reroute image loose host
  return host.compact

end Rule

/-- Applies a rule to a target at a mapping of its left side. -/
def applyRule (r : Rule) (config : RewriteConfig) (t : GraphView) (mapping : List Nat) :
    Except Fault Graph := do
  r.checkRewrite config
  r.rewrite config t mapping

end GraphGrammar
