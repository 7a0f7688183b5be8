import GraphGrammar.Proofs.Rewrite.Equivariance
import GraphGrammar.Proofs.Rewrite.Success

/-!
# Derivations

A graph rewrites to another one when a rule is applied to it at a match of its left side. From
isomorphic graphs, isomorphic graphs are reached in one step, as long as no left-only edge takes
what is left over: which edge that is depends on the order of the edges of the graph.

## Main definitions

* `GraphGrammar.Rewrites` — one step by some rule at some match.
* `GraphGrammar.Derives` — several steps, none of them from a barrier.
* `GraphGrammar.Leads` — several steps with the ids of their rules.

## Main results

* `GraphGrammar.applyRule_respects_isIso` — steps at corresponding mappings.
* `GraphGrammar.Rewrites.exists_isomorphic` — steps from isomorphic graphs.
* `GraphGrammar.Derives.mono` — what can be derived in spite of a barrier can be derived without it.
-/

namespace GraphGrammar

variable {config : RewriteConfig} {rules : List Rule} {g g' h : Graph}

/-- Some rule of a list leads from a graph to another one, at a match of its left side. -/
def Rewrites (config : RewriteConfig) (rules : List Rule) (g g' : Graph) : Prop :=
  ∃ r ∈ rules, ∃ m, r.leftPattern.IsMatch g.view m ∧ applyRule r config g.view m = .ok g'

/-- What can be derived from a graph in a number of steps, where no step starts from a graph of the
barrier. -/
inductive Derives (config : RewriteConfig) (rules : List Rule) (barrier : Graph → Prop)
    (start : Graph) : Nat → Graph → Prop
  /-- The graph itself. -/
  | refl : Derives config rules barrier start 0 start
  /-- One more step. -/
  | tail {n : Nat} {g g' : Graph} (h : Derives config rules barrier start n g) (free : ¬barrier g)
    (step : Rewrites config rules g g') : Derives config rules barrier start (n + 1) g'

/-- One step by a consistent rule of a list that has an id, at a match of its left side. A rule
without id counts as one whose id is empty. -/
def RewritesBy (config : RewriteConfig) (rules : List Rule) (id : String) (g g' : Graph) : Prop :=
  ∃ r ∈ rules, r.isConsistent = true ∧ r.id.getD "" = id ∧
    ∃ m, r.leftPattern.IsMatch g.view m ∧ applyRule r config g.view m = .ok g'

/-- Steps one after the other lead from a graph to another one. The ids of their rules are listed in
the order of the steps. -/
inductive Leads (config : RewriteConfig) (rules : List Rule) : Graph → List String → Graph → Prop
  /-- No step. -/
  | refl {g : Graph} : Leads config rules g [] g
  /-- A step before others. -/
  | head {g g' h : Graph} {id : String} {ids : List String}
    (step : RewritesBy config rules id g g') (rest : Leads config rules g' ids h) :
    Leads config rules g (id :: ids) h

theorem RewritesBy.rewrites {id : String} (h : RewritesBy config rules id g g') :
    Rewrites config rules g g' := by
  obtain ⟨r, hr, -, -, hstep⟩ := h
  exact ⟨r, hr, hstep⟩

/-- Steps after a derivation continue it. -/
theorem Leads.derives {start : Graph} {ids : List String} {n : Nat}
    (h : Leads config rules g ids g')
    (hg : Derives config rules (fun _ => False) start n g) :
    Derives config rules (fun _ => False) start (n + ids.length) g' := by
  induction h generalizing n with
  | refl => exact hg
  | head hstep _ ih =>
    rw [List.length_cons, ← Nat.add_assoc, Nat.add_right_comm]
    exact ih (.tail hg not_false hstep.rewrites)

/-- A smaller barrier does not prevent more. -/
theorem Derives.mono {barrier barrier' : Graph → Prop} (hle : ∀ g, barrier' g → barrier g)
    {start : Graph} {n : Nat} (h : Derives config rules barrier start n g) :
    Derives config rules barrier' start n g := by
  induction h with
  | refl => exact .refl
  | tail _ hfree hstep ih => exact .tail ih (fun hbarrier => hfree (hle _ hbarrier)) hstep

/-- A list of graphs that no step leaves has all graphs that can be derived. -/
theorem Derives.mem_of_closed {barrier : Graph → Prop} {start : Graph} {graphs : List Graph}
    (hclosed : ∀ g ∈ graphs, ∀ r ∈ rules, ∀ m ∈ r.leftPattern.occurrences none g.view,
      ∀ g' ∈ (r.rewrite config g.view m).toOption, g' ∈ graphs)
    (hstart : start ∈ graphs) {n : Nat} (h : Derives config rules barrier start n g) :
    g ∈ graphs := by
  induction h with
  | refl => exact hstart
  | tail _ _ hstep ih =>
    obtain ⟨r, hr, m, hm, happly⟩ := hstep
    obtain ⟨-, -, hresult⟩ := applyRule_eq_ok_iff.mp happly
    have hmem := (Pattern.mem_occurrences_iff r.inRange_leftPattern).mpr hm
    exact hclosed _ ih r hr m hmem _ (by rw [hresult]; rfl)

/-- Whether no left-only edge of a rule has the wildcard as its label. -/
def Rule.TakesLiterals (r : Rule) : Prop :=
  ∀ e ∈ r.edges, e.role = .leftOnly → r.wildcard ≠ some e.label

/-! ### Steps from isomorphic graphs -/

section

variable {r : Rule} {f : Nat → Nat} {t t' : GraphView} {m : List Nat}

/-- **Results from isomorphic targets** are isomorphic, where only literal labels are taken. -/
theorem Rule.Applicable.isomorphic_map (h : r.Applicable t m) (hr : r.isConsistent = true)
    (hliteral : r.TakesLiterals) (hf : GraphView.IsIso f t t')
    (hresult : r.rewrite config t m = .ok g) (hresult' : r.rewrite config t' (m.map f) = .ok g') :
    g.Isomorphic g' :=
  (h.corresponding hf).isomorphic hr config
    (fun e he hrole hlabel => absurd hlabel (hliteral e he hrole)) hresult hresult'

/-- Where a step succeeds, it does so at the image of its mapping under an isomorphism. -/
theorem exists_applyRule_map (hf : GraphView.IsIso f t t') (hg : applyRule r config t m = .ok g) :
    ∃ g', applyRule r config t' (m.map f) = .ok g' := by
  obtain ⟨hr, hconfig, hresult⟩ := applyRule_eq_ok_iff.mp hg
  have happlicable := Rule.applicable_of_rewrite_eq_ok hr hresult
  obtain ⟨g', hresult'⟩ := Rule.exists_rewrite hr (happlicable.map hf) config
  exact ⟨g', applyRule_eq_ok_iff.mpr ⟨hr, hconfig, hresult'⟩⟩

/-- **Steps respect isomorphisms of targets.** With either way of copying and of writing labels, a
step at a mapping succeeds exactly if it does at the image of the mapping under an isomorphism, and
then the results are isomorphic, unless a left-only edge takes what is left over. -/
theorem applyRule_respects_isIso (hliteral : r.TakesLiterals) (hf : GraphView.IsIso f t t')
    (hm : ∀ u ∈ m, u < t.nodeCount) :
    ((∃ g, applyRule r config t m = .ok g) ↔ ∃ g', applyRule r config t' (m.map f) = .ok g') ∧
    ∀ g g', applyRule r config t m = .ok g → applyRule r config t' (m.map f) = .ok g' →
      g.Isomorphic g' := by
  constructor
  · constructor
    · rintro ⟨g, hg⟩
      exact exists_applyRule_map hf hg
    · rintro ⟨g', hg'⟩
      obtain ⟨inverse, hinverse, hback, -⟩ := hf.exists_symm
      have hm' : (m.map f).map inverse = m := by
        rw [List.map_map]
        exact (List.map_congr_left fun u hu => hback u (hm u hu)).trans (List.map_id _)
      have hg := exists_applyRule_map hinverse hg'
      rwa [hm'] at hg
  · intro g g' hg hg'
    obtain ⟨hr, -, hresult⟩ := applyRule_eq_ok_iff.mp hg
    obtain ⟨-, -, hresult'⟩ := applyRule_eq_ok_iff.mp hg'
    have happlicable := Rule.applicable_of_rewrite_eq_ok hr hresult
    exact happlicable.isomorphic_map hr hliteral hf hresult hresult'

end

/-- The rule that removes a node `N` with an edge to a node `C`, and draws its other edges again
from that node. -/
def Rule.contract : Rule where
  id := some "contract"
  nodes := [⟨.leftOnly, "N", none⟩, ⟨.kept, "C", none⟩]
  edges := [⟨0, 1, .leftOnly, "-"⟩]
  constraints := []
  directives := [⟨0, 1, none, none⟩]
  wildcard := some "*"

/-- A node `N` that is joined twice to a node `C`, and once to a node `X`. -/
def Graph.fork : Graph where
  labels := ["N", "C", "X"]
  edges := [⟨0, 1, "-"⟩, ⟨0, 1, "="⟩, ⟨0, 2, "="⟩]
  endpoints_lt := by decide

/-- The same graph with other numbers, and with its edges in another order and direction. -/
def Graph.turnedFork : Graph where
  labels := ["X", "C", "N"]
  edges := [⟨0, 2, "="⟩, ⟨1, 2, "="⟩, ⟨2, 1, "-"⟩]
  endpoints_lt := by decide

theorem isIso_turnedFork :
    GraphView.IsIso (fun v => 2 - v) Graph.fork.view Graph.turnedFork.view := by
  refine Graph.isIso_view_iff.mpr ⟨rfl, fun {v} hv => ?_, fun {u v} hu hv => ?_, fun {v} hv => ?_,
    by decide⟩
  · exact (by decide : ∀ v < 3, 2 - v < 3) v hv
  · exact (by decide : ∀ u < 3, ∀ v < 3, 2 - u = 2 - v → u = v) u hu v hv
  · exact (by decide : ∀ v < 3, Graph.turnedFork.view.label (2 - v) = Graph.fork.view.label v) v hv

/-- The step succeeds from both graphs, with isomorphic results. -/
theorem applyRule_respects_isIso_contract : Rule.contract.TakesLiterals ∧
    ∃ g g', applyRule .contract ⟨true, .replace⟩ Graph.fork.view [0, 1] = .ok g ∧
      applyRule .contract ⟨true, .replace⟩ Graph.turnedFork.view [2, 1] = .ok g' ∧
      g.Isomorphic g' := by
  have hliteral : Rule.contract.TakesLiterals := fun e he _ => by
    rw [List.mem_singleton.mp he]
    decide
  have hr : Rule.contract.isConsistent = true := by decide +kernel
  have hm : Rule.contract.leftPattern.IsMatch Graph.fork.view [0, 1] :=
    (Pattern.mem_occurrences_iff Rule.contract.inRange_leftPattern).mp (by decide +kernel)
  obtain ⟨g, hresult⟩ := Rule.exists_rewrite hr (Rule.applicable_of_isMatch hr hm) ⟨true, .replace⟩
  have hg := applyRule_eq_ok_iff.mpr ⟨hr, rfl, hresult⟩
  obtain ⟨hsucceeds, hresults⟩ :=
    applyRule_respects_isIso hliteral isIso_turnedFork hm.lt_nodeCount
  obtain ⟨g', hg'⟩ := hsucceeds.mp ⟨g, hg⟩
  exact ⟨hliteral, g, g', hg, hg', hresults g g' hg hg'⟩

/-- **Steps from isomorphic graphs** lead to isomorphic graphs. -/
theorem Rewrites.exists_isomorphic (hstep : Rewrites config rules g g')
    (hliteral : ∀ r ∈ rules, r.TakesLiterals) (hiso : g.Isomorphic h) :
    ∃ h', Rewrites config rules h h' ∧ g'.Isomorphic h' := by
  obtain ⟨r, hr, m, hm, happly⟩ := hstep
  obtain ⟨hconsistent, -, hresult⟩ := applyRule_eq_ok_iff.mp happly
  obtain ⟨f, hf⟩ := hiso
  obtain ⟨h', happly'⟩ := exists_applyRule_map hf happly
  refine ⟨h', ⟨r, hr, m.map f, hm.map hf.liesIn, happly'⟩, ?_⟩
  exact (Rule.applicable_of_isMatch hconsistent hm).isomorphic_map hconsistent (hliteral r hr) hf
    hresult (applyRule_eq_ok_iff.mp happly').2.2

end GraphGrammar
