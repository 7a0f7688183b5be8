import GraphGrammar.Proofs.Graph.Fingerprint
import GraphGrammar.Proofs.Symmetry.Isomorphism
import GraphGrammar.Rewrite.Collector

/-!
# One graph of every class

Graphs that are handed one after the other to a collector of `GraphGrammar.UniqueGraphs` are kept if
no isomorphic graph came before. Only graphs with the same fingerprint are compared, which makes no
difference: isomorphic graphs have the same fingerprint.

## Main definitions

* `GraphGrammar.Represented` — graphs that are isomorphic to one of a list.
* `GraphGrammar.IsFirst` — positions at which a class of isomorphic graphs begins.
* `GraphGrammar.UniqueGraphs.Collects` — what is kept of a list of graphs.
* `GraphGrammar.UniqueGraphs.collect` — a collector after a list of graphs.

## Main results

* `GraphGrammar.UniqueGraphs.meets_iff` — only graphs with the same fingerprint need to be compared.
* `GraphGrammar.UniqueGraphs.Collects.insert`, `GraphGrammar.UniqueGraphs.collects_collect` — one
  more graph, and all graphs of a list.
-/

namespace GraphGrammar

/-- Whether a graph is isomorphic to one of a list. -/
def Represented (graphs : List Graph) (g : Graph) : Prop := ∃ h ∈ graphs, h.Isomorphic g

section

variable {graphs graphs' : List Graph} {g g' : Graph}

theorem Represented.mono (h : Represented graphs g) (hsub : graphs ⊆ graphs') :
    Represented graphs' g := by
  obtain ⟨k, hk, hiso⟩ := h
  exact ⟨k, hsub hk, hiso⟩

theorem Represented.congr (h : Represented graphs g) (hiso : g.Isomorphic g') :
    Represented graphs g' := by
  obtain ⟨k, hk, hkg⟩ := h
  exact ⟨k, hk, hkg.trans hiso⟩

theorem represented_append_iff : Represented (graphs ++ graphs') g ↔
    Represented graphs g ∨ Represented graphs' g := by
  simp only [Represented, List.mem_append, or_and_right, exists_or]

theorem represented_singleton_iff : Represented [g'] g ↔ g'.Isomorphic g := by
  simp only [Represented, List.mem_singleton, exists_eq_left]

/-- Whether the graph at a position of a list is isomorphic to none before it. -/
def IsFirst (graphs : List Graph) (i : Nat) : Prop :=
  ∃ g, graphs[i]? = some g ∧ ¬Represented (graphs.take i) g

theorem IsFirst.lt_length {i : Nat} (h : IsFirst graphs i) : i < graphs.length := by
  obtain ⟨g, hg, -⟩ := h
  exact (List.getElem?_eq_some_iff.mp hg).1

theorem isFirst_append_singleton_iff {i : Nat} : IsFirst (graphs ++ [g]) i ↔
    IsFirst graphs i ∨ i = graphs.length ∧ ¬Represented graphs g := by
  rcases Nat.lt_trichotomy i graphs.length with hi | rfl | hi
  · have hne : ¬(i = graphs.length ∧ ¬Represented graphs g) := fun h => absurd h.1 (by omega)
    rw [or_iff_left hne, IsFirst, IsFirst, List.getElem?_append_left hi,
      List.take_append_of_le_length (by omega)]
  · have hnot : ¬IsFirst graphs graphs.length := fun h => Nat.lt_irrefl _ h.lt_length
    rw [or_iff_right hnot, IsFirst, List.getElem?_concat_length, List.take_left]
    simp
  · refine iff_of_false (fun h => ?_) (fun h => ?_)
    · have := h.lt_length
      simp only [List.length_append, List.length_singleton] at this
      omega
    · rcases h with h | ⟨rfl, -⟩
      · have := h.lt_length
        omega
      · omega

end

namespace UniqueGraphs

variable {s s' : UniqueGraphs} {graphs : List Graph} {g : Graph}

/-! ### One graph -/

/-- Whether the fingerprints that are kept are those of the graphs. -/
def IsIndexed (s : UniqueGraphs) : Prop :=
  ∀ entry ∈ s.entries, entry.1 = entry.2.view.fingerprint

theorem represented_of_meets {fingerprint : String} (h : s.meets fingerprint g.view = true) :
    Represented s.graphs g := by
  obtain ⟨k, hk, hisomorphic⟩ := List.any_eq_true.mp h
  obtain ⟨entry, hentry, rfl⟩ := List.mem_map.mp hk
  exact ⟨_, List.mem_map_of_mem (List.mem_of_mem_filter hentry), isIsomorphic_iff.mp hisomorphic⟩

/-- **Only graphs with the same fingerprint** need to be compared. -/
theorem meets_iff (h : s.IsIndexed) :
    s.meets g.view.fingerprint g.view = true ↔ Represented s.graphs g := by
  refine ⟨represented_of_meets, fun ⟨k, hk, f, hf⟩ => ?_⟩
  obtain ⟨entry, hentry, rfl⟩ := List.mem_map.mp hk
  refine List.any_eq_true.mpr ⟨entry.2, List.mem_map_of_mem (List.mem_filter.mpr ⟨hentry, ?_⟩),
    isIsomorphic_iff.mpr ⟨f, hf⟩⟩
  rw [beq_iff_eq, h entry hentry, hf.fingerprint_eq]

theorem graphs_of_insert_eq_true (h : s.insert g = (s', true)) : s'.graphs = s.graphs ++ [g] := by
  rw [insert] at h
  split at h
  · cases h
  · cases h
    rw [graphs, List.map_append]
    rfl

theorem represented_of_insert_eq_false (h : s.insert g = (s', false)) :
    s'.graphs = s.graphs ∧ Represented s.graphs g := by
  rw [insert] at h
  split at h
  · next hmeets =>
    cases h
    exact ⟨rfl, represented_of_meets hmeets⟩
  · cases h

theorem insert_of_represented (h : s.IsIndexed) (hg : Represented s.graphs g) :
    s.insert g = ({ s with duplicates := s.duplicates + 1 }, false) :=
  if_pos ((meets_iff h).mpr hg)

theorem insert_of_not_represented (h : s.IsIndexed) (hg : ¬Represented s.graphs g) :
    s.insert g = ({ s with entries := s.entries ++ [(g.view.fingerprint, g)] }, true) :=
  if_neg fun hmeets => hg ((meets_iff h).mp hmeets)

/-- **A graph is new** if no isomorphic one is there. -/
theorem insert_eq_true_iff (h : s.IsIndexed) :
    (s.insert g).2 = true ↔ ¬Represented s.graphs g := by
  by_cases hg : Represented s.graphs g
  · simp [insert_of_represented h hg, hg]
  · simp [insert_of_not_represented h hg, hg]

/-! ### Graphs one after the other -/

/-- What is kept of a list of graphs. -/
structure Collects (s : UniqueGraphs) (graphs : List Graph) : Prop where
  /-- The fingerprints are those of the graphs. -/
  indexed : s.IsIndexed
  /-- Every class has a graph. -/
  represented_iff : ∀ g, Represented s.graphs g ↔ Represented graphs g
  /-- The graphs are those at which a class begins, in their order. -/
  firsts : ∃ is : List Nat, is.Pairwise (· < ·) ∧ (∀ i, i ∈ is ↔ IsFirst graphs i) ∧
    s.graphs.map some = is.map fun i => graphs[i]?
  /-- Every graph is kept or counted as a duplicate. -/
  size_add_duplicates : s.size + s.duplicates = graphs.length

/-- What a collector has after a list of graphs. -/
def collect (graphs : List Graph) : UniqueGraphs :=
  graphs.foldl (fun s g => (s.insert g).1) empty

theorem collects_empty : empty.Collects [] where
  indexed _ h := absurd h List.not_mem_nil
  represented_iff _ := Iff.rfl
  firsts := ⟨[], List.Pairwise.nil, fun i => iff_of_false List.not_mem_nil
    fun h => Nat.not_lt_zero i h.lt_length, rfl⟩
  size_add_duplicates := rfl

namespace Collects

/-- A duplicate. -/
theorem insert_of_represented (h : s.Collects graphs) (hg : Represented graphs g) :
    (s.insert g).1.Collects (graphs ++ [g]) := by
  rw [UniqueGraphs.insert_of_represented h.indexed ((h.represented_iff g).mpr hg)]
  refine ⟨h.indexed, fun k => ?_, ?_, ?_⟩
  · rw [represented_append_iff, represented_singleton_iff]
    refine (h.represented_iff k).trans ⟨Or.inl, fun hk => hk.elim (fun hk => hk) hg.congr⟩
  · obtain ⟨is, hsorted, hmem, hmap⟩ := h.firsts
    refine ⟨is, hsorted, fun i => ?_, hmap.trans (List.map_congr_left fun i hi => ?_)⟩
    · rw [isFirst_append_singleton_iff, hmem, or_iff_left fun hi => hi.2 hg]
    · rw [List.getElem?_append_left ((hmem i).mp hi).lt_length]
  · have := h.size_add_duplicates
    rw [List.length_append, List.length_singleton, ← this]
    rfl

/-- A new graph. -/
theorem insert_of_not_represented (h : s.Collects graphs) (hg : ¬Represented graphs g) :
    (s.insert g).1.Collects (graphs ++ [g]) := by
  have hnew := UniqueGraphs.insert_of_not_represented h.indexed fun hs =>
    hg ((h.represented_iff g).mp hs)
  have hgraphs : (s.insert g).1.graphs = s.graphs ++ [g] := by
    rw [hnew, UniqueGraphs.graphs, List.map_append]
    rfl
  refine ⟨fun entry hentry => ?_, fun k => ?_, ?_, ?_⟩
  · rw [hnew] at hentry
    rcases List.mem_append.mp hentry with hentry | hentry
    · exact h.indexed entry hentry
    · rw [List.mem_singleton.mp hentry]
  · rw [hgraphs, represented_append_iff, represented_append_iff, h.represented_iff]
  · obtain ⟨is, hsorted, hmem, hmap⟩ := h.firsts
    have hlt : ∀ i ∈ is, i < graphs.length := fun i hi => ((hmem i).mp hi).lt_length
    refine ⟨is ++ [graphs.length], ?_, fun i => ?_, ?_⟩
    · rw [List.pairwise_append]
      refine ⟨hsorted, List.pairwise_singleton _ _, fun i hi j hj => ?_⟩
      rw [List.mem_singleton.mp hj]
      exact hlt i hi
    · rw [isFirst_append_singleton_iff, List.mem_append, hmem, List.mem_singleton,
        and_iff_left hg]
    · rw [hgraphs, List.map_append, List.map_append, List.map_singleton, List.map_singleton,
        List.getElem?_concat_length, hmap]
      congr 1
      exact List.map_congr_left fun i hi => (List.getElem?_append_left (hlt i hi)).symm
  · have := h.size_add_duplicates
    rw [List.length_append, List.length_singleton, ← this, hnew, size, size]
    simp only [List.length_append, List.length_singleton]
    omega

/-- **One more graph.** -/
theorem insert (h : s.Collects graphs) (g : Graph) : (s.insert g).1.Collects (graphs ++ [g]) := by
  by_cases hg : Represented graphs g
  · exact h.insert_of_represented hg
  · exact h.insert_of_not_represented hg

theorem exists_insert_eq_true (h : s.Collects graphs) (hg : ¬Represented graphs g) :
    ∃ s', s.insert g = (s', true) ∧ s'.Collects (graphs ++ [g]) := by
  have hnew := UniqueGraphs.insert_of_not_represented h.indexed fun hs =>
    hg ((h.represented_iff g).mp hs)
  have hcollects := h.insert g
  rw [hnew] at hcollects
  exact ⟨_, hnew, hcollects⟩

theorem exists_insert_eq_false (h : s.Collects graphs) (hg : Represented graphs g) :
    ∃ s', s.insert g = (s', false) :=
  ⟨_, UniqueGraphs.insert_of_represented h.indexed ((h.represented_iff g).mpr hg)⟩

/-- Of two graphs that are kept, the later one is first in its class. -/
theorem pairwise (h : s.Collects graphs) : s.graphs.Pairwise fun g k => ¬g.Isomorphic k := by
  obtain ⟨is, hsorted, hmem, hmap⟩ := h.firsts
  have hpairs : (is.map fun i => graphs[i]?).Pairwise fun g? k? =>
      ∀ g ∈ g?, ∀ k ∈ k?, ¬g.Isomorphic k := by
    refine List.pairwise_map.mpr (hsorted.imp_of_mem fun {i j} _ hj hij g hg k hk hiso => ?_)
    obtain ⟨k', hk', hfirst⟩ := (hmem j).mp hj
    obtain rfl := Option.some.inj (hk'.symm.trans hk)
    refine hfirst ⟨g, List.mem_of_getElem? (i := i) ?_, hiso⟩
    rw [List.getElem?_take_of_lt hij]
    exact hg
  rw [← hmap] at hpairs
  exact (List.pairwise_map.mp hpairs).imp fun hgk => hgk _ rfl _ rfl

end Collects

/-- **All graphs of a list**, one after the other. -/
theorem collects_collect (graphs : List Graph) : (collect graphs).Collects graphs := by
  induction graphs using List.reverseRecOn with
  | nil => exact collects_empty
  | append_singleton graphs g ih =>
    rw [collect, List.foldl_concat, ← collect]
    exact ih.insert g

end UniqueGraphs

end GraphGrammar
