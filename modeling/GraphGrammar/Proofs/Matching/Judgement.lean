import GraphGrammar.Proofs.Graph.Renumber
import GraphGrammar.Proofs.Symmetry.Automorphisms

/-!
# Constraints judged by partial mappings

A constraint is judged by the images of its nodes alone. So permuting its nodes comes to the same as
permuting the mapping, and sending the images along an isomorphism changes nothing. An image that is
missing can only make the judgement milder: what is violated stays violated when more nodes get
images.

## Main definitions

* `GraphGrammar.PartialMapping`, `GraphGrammar.PartialMapping.image` — images listed by nodes, some
  of which may be missing.
* `GraphGrammar.PartialMapping.IsIn`, `permuted`, `sentBy`, `Extends`.
* `GraphGrammar.Constraint.reversed` — the two nodes of a constraint exchanged.
* `GraphGrammar.Constraint.IsViolated` — images that break the condition.

## Main results

* `GraphGrammar.Constraint.holds?_eq_some` — mappings to nodes of the target are judged.
* `GraphGrammar.Constraint.holds_reversed`, `GraphGrammar.Constraint.holds_eq_false_iff`.
* `GraphGrammar.Constraint.judgement_natural` — the laws of the judgement.
-/

namespace GraphGrammar

/-! ### Partial mappings -/

/-- The images of the nodes of a pattern, listed by the nodes. Some may be missing. -/
abbrev PartialMapping := List (Option Nat)

namespace PartialMapping

/-- The image of a node. -/
def image (m : PartialMapping) (v : Nat) : Option Nat := (m[v]?).join

/-- The images are nodes of the target. -/
def IsIn (m : PartialMapping) (t : GraphView) : Prop := ∀ x, some x ∈ m → x < t.nodeCount

/-- The mapping that gives the node `v` the image of `perm[v]`. -/
def permuted (perm : List Nat) (m : PartialMapping) : PartialMapping := perm.map m.image

/-- The mapping with its images sent through `f`. -/
def sentBy (f : Nat → Nat) (m : PartialMapping) : PartialMapping := m.map (Option.map f)

/-- Every image that `m` gives to a node is its image under `m'`. -/
def Extends (m m' : PartialMapping) : Prop := ∀ v x, m.image v = some x → m'.image v = some x

variable {m m' : PartialMapping} {t : GraphView} {v x : Nat}

theorem mem_of_image (h : m.image v = some x) : some x ∈ m :=
  List.mem_of_getElem? (Option.join_eq_some_iff.mp h)

theorem IsIn.lt (h : m.IsIn t) (hv : m.image v = some x) : x < t.nodeCount :=
  h x (mem_of_image hv)

theorem image_eq_none (h : m.length ≤ v) : m.image v = none := by
  rw [image, List.getElem?_eq_none h, Option.join_none]

theorem image_sentBy (f : Nat → Nat) (m : PartialMapping) (v : Nat) :
    (m.sentBy f).image v = (m.image v).map f := by
  rw [sentBy, image, image, List.getElem?_map]
  rcases m[v]? with _ | _ | x <;> rfl

theorem IsIn.sentBy {f : Nat → Nat} {t' : GraphView} (h : m.IsIn t)
    (hf : GraphView.IsIso f t t') : (m.sentBy f).IsIn t' := by
  intro y hy
  obtain ⟨x, hx, hxy⟩ := List.mem_map.mp hy
  obtain ⟨x, rfl, rfl⟩ := Option.map_eq_some_iff.mp hxy
  exact hf.lt (h x hx)

theorem IsIn.permuted (h : m.IsIn t) (perm : List Nat) : (permuted perm m).IsIn t := by
  intro x hx
  obtain ⟨v, -, hv⟩ := List.mem_map.mp hx
  exact h.lt hv

/-- A node that the permutation does not list has no image before and none after it. -/
theorem image_permuted {perm : List Nat} (hperm : perm.length = m.length) (v : Nat) :
    (permuted perm m).image v = m.image (perm.getD v v) := by
  rcases Nat.lt_or_ge v perm.length with hlt | hge
  · rw [permuted, image, List.getElem?_map, List.getElem?_eq_getElem hlt,
      List.getD_eq_getElem _ _ hlt, Option.map_some, Option.join_some]
  · rw [image_eq_none (by rwa [permuted, List.length_map]), List.getD_eq_default _ _ hge,
      image_eq_none (hperm ▸ hge)]

end PartialMapping

/-! ### The judgement -/

namespace Constraint

variable {t : GraphView} {image image' : Nat → Option Nat}

/-- The two nodes of a constraint exchanged, if it has two. -/
def reversed : Constraint → Constraint
  | edgeLabel a b labels policy => edgeLabel b a labels policy
  | noEdge a b => noEdge b a
  | c => c

theorem readsOutside_eq_false (c : Constraint)
    (himage : ∀ v x, image v = some x → x < t.nodeCount) : c.readsOutside t image = false := by
  have hread : ∀ {α : Type} (read : Nat → Option α),
      (∀ x < t.nodeCount, (read x).isSome = true) →
      ∀ v, (image v).any (fun x => (read x).isNone) = false := by
    intro α read hsome v
    cases hv : image v with
    | none => rfl
    | some x =>
      obtain ⟨y, hy⟩ := Option.isSome_iff_exists.mp (hsome x (himage v x hv))
      rw [Option.any_some, hy]
      rfl
  have hlabel := hread t.label? fun x hx => by rw [GraphView.label?, if_pos hx]; rfl
  have hedges := hread t.incident? fun x hx => by
    rw [GraphView.incident?, if_pos (by simp [hx])]
    rfl
  cases c with
  | nodeLabel node labels policy => exact hlabel node
  | edgeLabel a b labels policy => rw [readsOutside, hedges a, Bool.and_false]
  | noEdge a b => rw [readsOutside, hedges a, Bool.and_false]
  | nodeAdjacency node op count nodeLabels edgeLabels => exact hedges node

/-- A mapping to nodes of the target is judged. -/
theorem holds?_eq_some (c : Constraint) (himage : ∀ v x, image v = some x → x < t.nodeCount) :
    c.holds? t image = some (c.holds t image) := by
  rw [holds?, readsOutside_eq_false c himage]
  rfl

/-- **Edges are read from either endpoint**: it does not matter which of two nodes is named first.
-/
theorem holds_reversed (c : Constraint) (t : GraphView) (image : Nat → Option Nat) :
    c.reversed.holds t image = c.holds t image := by
  cases c with
  | nodeLabel | nodeAdjacency => rfl
  | edgeLabel a b labels policy =>
    rw [reversed, holds, holds]
    rcases image a with _ | x <;> rcases image b with _ | y <;> try rfl
    exact admits_congr (t.labelsBetween_perm_swap y x) _
  | noEdge a b =>
    rw [reversed, holds, holds]
    rcases image a with _ | x <;> rcases image b with _ | y <;> try rfl
    exact congrArg Bool.not (t.hasEdge_comm y x)

/-! ### Violated constraints -/

/-- The number of edges around a node that pass a filter, in half units. -/
def halves (t : GraphView) (x : Nat) (filter : Incidence → Bool) : Nat :=
  2 * (t.incident x).countP (fun e => filter e && e.node != x) +
    (t.incident x).countP fun e => filter e && e.node == x

/-- The nodes of the constraint have images, and these break the condition. -/
def IsViolated (t : GraphView) (image : Nat → Option Nat) : Constraint → Prop
  | nodeLabel node labels policy =>
    ∃ x, image node = some x ∧ policy.admits labels (t.label x) = false
  | edgeLabel a b labels policy => ∃ x y, image a = some x ∧ image b = some y ∧
    (t.labelsBetween x y = [] ∨ ∃ l ∈ t.labelsBetween x y, policy.admits labels l = false)
  | noEdge a b => ∃ x y, image a = some x ∧ image b = some y ∧ t.hasEdge x y = true
  | nodeAdjacency node op count nodeLabels edgeLabels => ∃ x, image node = some x ∧
    op.compare (halves t x fun e => passes edgeLabels e.label && passes nodeLabels (t.label e.node))
      (min (2 * count) countLimit) = false

theorem halfEdgeCount_eq (t : GraphView) (x : Nat) (nodeLabels edgeLabels : SortedSet String) :
    halfEdgeCount t x nodeLabels edgeLabels = halves t x fun e =>
      passes edgeLabels e.label && passes nodeLabels (t.label e.node) := by
  have hsum : ∀ (l : List Incidence) (filter : Incidence → Bool),
      ((l.filter filter).map fun e => if e.node == x then 1 else 2).sum =
        2 * l.countP (fun e => filter e && e.node != x) +
          l.countP fun e => filter e && e.node == x := by
    intro l filter
    induction l with
    | nil => rfl
    | cons e l ih =>
      rw [List.countP_cons, List.countP_cons, List.filter_cons]
      cases filter e with
      | false => simpa using ih
      | true =>
        rw [if_pos rfl, List.map_cons, List.sum_cons, ih]
        by_cases hloop : e.node = x <;> simp [hloop] <;> omega
  rw [halfEdgeCount, foldl_halves, Nat.zero_add, hsum, halves]

/-- **The judgement** is false exactly if the constraint is violated. -/
theorem holds_eq_false_iff {c : Constraint} : c.holds t image = false ↔ c.IsViolated t image := by
  cases c with
  | nodeLabel node labels policy =>
    rw [holds, IsViolated]
    cases image node <;> simp
  | edgeLabel a b labels policy =>
    rw [holds, IsViolated]
    cases image a <;> cases image b <;> simp [imp_iff_not_or]
  | noEdge a b =>
    rw [holds, IsViolated]
    cases image a <;> cases image b <;> simp
  | nodeAdjacency node op count nodeLabels edgeLabels =>
    rw [holds, IsViolated]
    cases image node <;> simp [halfEdgeCount_eq]

/-- **What is violated stays violated** when more nodes get images. -/
theorem IsViolated.mono {c : Constraint} (h : c.IsViolated t image)
    (hext : ∀ v x, image v = some x → image' v = some x) : c.IsViolated t image' := by
  cases c with
  | nodeLabel | nodeAdjacency =>
    obtain ⟨x, hx, hbroken⟩ := h
    exact ⟨x, hext _ x hx, hbroken⟩
  | edgeLabel | noEdge =>
    obtain ⟨x, y, hx, hy, hbroken⟩ := h
    exact ⟨x, y, hext _ x hx, hext _ y hy, hbroken⟩

/-- To permute a constraint is to send its nodes through the permutation. -/
theorem remap_permute (c : Constraint) (perm : List Nat) :
    c.remap (fun v => some (perm.getD v v)) = some (c.permute perm) := by
  cases c <;> rfl

/-- **The laws of the judgement** on a partial mapping to nodes of a target. There is a judgement,
and it is false exactly if all nodes of the constraint have images and these break the condition. To
permute the nodes of the constraint is to permute the mapping. An isomorphism of targets changes
nothing, and neither does naming the two nodes of a constraint in the other order. What is violated
is violated under every extension. -/
theorem judgement_natural (c : Constraint) (t : GraphView) (m : PartialMapping) (hm : m.IsIn t) :
    c.holds? t m.image = some (c.holds t m.image) ∧
    (c.holds? t m.image = some false ↔ c.IsViolated t m.image) ∧
    (∀ perm, perm.Perm (List.range m.length) →
      c.remap (fun v => some (perm.getD v v)) = some (c.permute perm) ∧
      (c.permute perm).holds? t m.image = c.holds? t (PartialMapping.permuted perm m).image) ∧
    (∀ f t', GraphView.IsIso f t t' → c.holds? t' (m.sentBy f).image = c.holds? t m.image) ∧
    c.reversed.holds? t m.image = c.holds? t m.image ∧
    ∀ m', m.Extends m' → m'.IsIn t →
      c.holds? t m.image = some false → c.holds? t m'.image = some false := by
  have hjudged : ∀ {c : Constraint} {t : GraphView} {m : PartialMapping}, m.IsIn t →
      c.holds? t m.image = some (c.holds t m.image) := fun hm =>
    holds?_eq_some _ fun _ _ => hm.lt
  have hviolated : ∀ {m : PartialMapping}, m.IsIn t →
      (c.holds? t m.image = some false ↔ c.IsViolated t m.image) := fun hm => by
    rw [hjudged hm, Option.some.injEq, holds_eq_false_iff]
  refine ⟨hjudged hm, hviolated hm, fun perm hperm => ⟨c.remap_permute perm, ?_⟩, fun f t' hf => ?_,
    ?_, fun m' hext hm' hfalse => ?_⟩
  · have hlength : perm.length = m.length := by simpa using hperm.length_eq
    rw [hjudged hm, hjudged (hm.permuted perm), permute, holds_mapNodes,
      funext (PartialMapping.image_permuted hlength)]
  · rw [hjudged (hm.sentBy hf), hjudged hm, funext (PartialMapping.image_sentBy f m),
      c.holds_map hf.liesIn hm.lt]
  · rw [hjudged hm, hjudged hm, holds_reversed]
  · exact (hviolated hm').mpr (((hviolated hm).mp hfalse).mono hext)

/-- Two rays of which the second one is listed first. -/
def raysSwapped : Graph := ⟨["a", "b", "b"], [⟨0, 2, "-"⟩, ⟨0, 1, "-"⟩], by decide⟩

/-- That no edge joins two nodes is violated by the centre and a ray. -/
theorem judgement_natural_twoRays :
    PartialMapping.IsIn [some 1, none, some 0] Graph.twoRays.view ∧
    (noEdge 0 2).holds? Graph.twoRays.view (PartialMapping.image [some 1, none, some 0]) =
      some false ∧
    [2, 0, 1].Perm (List.range 3) ∧
    ((noEdge 0 2).permute [2, 0, 1]).holds? Graph.twoRays.view
        (PartialMapping.image [some 1, none, some 0]) =
      (noEdge 0 2).holds? Graph.twoRays.view
        (PartialMapping.permuted [2, 0, 1] [some 1, none, some 0]).image ∧
    (noEdge 0 2).holds? raysSwapped.view
        (PartialMapping.sentBy (fun v => [0, 2, 1].getD v v) [some 1, none, some 0]).image =
      some false ∧
    (noEdge 2 0).holds? Graph.twoRays.view (PartialMapping.image [some 1, none, some 0]) =
      some false ∧
    PartialMapping.Extends [some 1, none, some 0] [some 1, some 2, some 0] ∧
    (noEdge 0 2).holds? Graph.twoRays.view (PartialMapping.image [some 1, some 2, some 0]) =
      some false := by
  have hm : PartialMapping.IsIn [some 1, none, some 0] Graph.twoRays.view := by
    simp [PartialMapping.IsIn, Graph.view, Graph.twoRays]
  have hm' : PartialMapping.IsIn [some 1, some 2, some 0] Graph.twoRays.view := by
    simp [PartialMapping.IsIn, Graph.view, Graph.twoRays]
  have hviolated : (noEdge 0 2).holds? Graph.twoRays.view
      (PartialMapping.image [some 1, none, some 0]) = some false := by decide +kernel
  have hperm : [2, 0, 1].Perm (List.range 3) := by decide
  have hrenumber : Graph.twoRays.renumber [0, 2, 1] = .ok raysSwapped := by rfl
  have hext : PartialMapping.Extends [some 1, none, some 0] [some 1, some 2, some 0] := by
    rintro (_ | _ | _ | v) x hx <;> first | exact hx | cases hx
  obtain ⟨-, -, hpermute, hiso, hreversed, hextends⟩ :=
    judgement_natural (noEdge 0 2) Graph.twoRays.view [some 1, none, some 0] hm
  exact ⟨hm, hviolated, hperm, (hpermute _ hperm).2,
    (hiso _ _ (Graph.isIso_renumber hrenumber)).trans hviolated, hreversed.trans hviolated, hext,
    hextends _ hext hm' hviolated⟩

end Constraint

end GraphGrammar
