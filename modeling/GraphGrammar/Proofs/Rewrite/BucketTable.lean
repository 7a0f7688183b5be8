import GraphGrammar.Proofs.Rewrite.Collector
import GraphGrammar.Rewrite.BucketTable

/-!
# Tables of buckets

After any graphs were inserted, a table of buckets has one bucket for every fingerprint of a graph
that is kept, and this bucket has the places of all graphs that are kept with this fingerprint. So
every place that is tried holds a graph, the graphs that are compared with a new one are those with
its fingerprint, and one more graph changes the table as it changes the graphs without buckets.

## Main definitions

* `GraphGrammar.BucketTable.Files` — buckets that have the places of the graphs.
* `GraphGrammar.BucketTable.IsBucketed` — tables that have exactly the buckets that they need.
* `GraphGrammar.BucketTable.unique` — the graphs without the buckets.

## Main results

* `GraphGrammar.BucketTable.IsBucketed.exists_insert` — one more graph.
* `GraphGrammar.BucketTable.exists_insertAll` — all graphs of a list.
* `GraphGrammar.BucketTable.insertAll_keeps_firsts` — what a table has, and what it does with one
  more graph. -/

namespace GraphGrammar

namespace BucketTable

variable {s : BucketTable} {buckets : List (String × List Nat)} {graphs : List Graph} {g : Graph}
  {key : String}

/-! ### Places of graphs -/

/-- The places of the graphs with a fingerprint. -/
def placesOf (key : String) (graphs : List Graph) : List Nat :=
  (List.range graphs.length).filter fun i => (graphs[i]?).any fun h => h.view.fingerprint == key

theorem placesOf_concat (key : String) (graphs : List Graph) (g : Graph) :
    placesOf key (graphs ++ [g]) =
      placesOf key graphs ++ bif g.view.fingerprint == key then [graphs.length] else [] := by
  have hold : (List.range graphs.length).filter (fun i =>
      ((graphs ++ [g])[i]?).any fun h => h.view.fingerprint == key) = placesOf key graphs := by
    refine List.filter_congr fun i hi => ?_
    rw [List.getElem?_append_left (List.mem_range.mp hi)]
  rw [placesOf, List.length_append, List.length_singleton, List.range_succ, List.filter_append,
    hold,
    List.filter_singleton, List.getElem?_concat_length, Option.any_some]

theorem lt_of_mem_placesOf {i : Nat} (hi : i ∈ placesOf key graphs) : i < graphs.length :=
  List.mem_range.mp (List.mem_of_mem_filter hi)

/-- At the places are the graphs with the fingerprint, in their order. -/
theorem filterMap_placesOf (key : String) (graphs : List Graph) :
    (placesOf key graphs).filterMap (graphs[·]?) =
      graphs.filter fun h => h.view.fingerprint == key := by
  induction graphs using List.reverseRecOn with
  | nil => rfl
  | append_singleton graphs g ih =>
    have hold : (placesOf key graphs).filterMap ((graphs ++ [g])[·]?) =
        (placesOf key graphs).filterMap (graphs[·]?) :=
      List.filterMap_congr fun i hi => List.getElem?_append_left (lt_of_mem_placesOf hi)
    rw [placesOf_concat, List.filterMap_append, hold, ih, List.filter_append, List.filter_singleton]
    cases g.view.fingerprint == key with
    | true => simp
    | false => rfl

theorem placesOf_eq_nil_iff :
    placesOf key graphs = [] ↔ ∀ h ∈ graphs, h.view.fingerprint ≠ key := by
  constructor
  · intro hnil h hh heq
    have hmem : h ∈ (placesOf key graphs).filterMap (graphs[·]?) := by
      rw [filterMap_placesOf]
      exact List.mem_filter.mpr ⟨hh, beq_iff_eq.mpr heq⟩
    rw [hnil] at hmem
    exact absurd hmem List.not_mem_nil
  · intro hne
    refine List.filter_eq_nil_iff.mpr fun i _ => ?_
    rw [Bool.not_eq_true, Option.any_eq_false]
    exact fun h hh => beq_eq_false_iff_ne.mpr (hne h (List.mem_of_getElem? hh))

/-- Where all places hold graphs, they are compared in turn. -/
theorem meetsAt_eq {t : GraphView} {places : List Nat} (h : ∀ i ∈ places, i < graphs.length) :
    meetsAt graphs t places =
      some ((places.filterMap (graphs[·]?)).any fun k => isIsomorphic k.view t) := by
  induction places with
  | nil => rfl
  | cons i places ih =>
    obtain ⟨hi, hplaces⟩ := List.forall_mem_cons.mp h
    rw [meetsAt, List.filterMap_cons, List.getElem?_eq_getElem hi]
    dsimp only
    rw [List.any_cons, ih hplaces]
    cases isIsomorphic graphs[i].view t <;> rfl

/-! ### Buckets -/

/-- No two buckets have the same fingerprint, and every bucket has the places of the graphs with its
fingerprint. -/
structure Files (buckets : List (String × List Nat)) (graphs : List Graph) : Prop where
  /-- Fingerprints have one bucket. -/
  nodup : (buckets.map Prod.fst).Nodup
  /-- Buckets have the places of their graphs. -/
  places_eq : ∀ bucket ∈ buckets, bucket.2 = placesOf bucket.1 graphs

theorem enter_of_lookup_eq_some {places : List Nat} (h : buckets.lookup key = some places) :
    enter key buckets = buckets := by
  rw [enter, h]
  rfl

theorem enter_of_lookup_eq_none (h : buckets.lookup key = none) :
    enter key buckets = buckets ++ [(key, [])] := by
  rw [enter, h]
  rfl

theorem not_mem_of_lookup_eq_none (h : buckets.lookup key = none) :
    key ∉ buckets.map Prod.fst := by
  intro hmem
  obtain ⟨bucket, hbucket, rfl⟩ := List.mem_map.mp hmem
  simpa using List.lookup_eq_none_iff.mp h bucket hbucket

theorem mem_of_lookup_eq_some {places : List Nat} (h : buckets.lookup key = some places) :
    (key, places) ∈ buckets := by
  obtain ⟨l₁, l₂, rfl, -⟩ := List.lookup_eq_some_iff.mp h
  exact List.mem_append_right _ (List.mem_cons_self ..)

namespace Files

variable (h : Files buckets graphs)

include h

theorem lookup_eq_some {places : List Nat} (hplaces : buckets.lookup key = some places) :
    places = placesOf key graphs :=
  h.places_eq (key, places) (mem_of_lookup_eq_some hplaces)

/-- An empty bucket for a fingerprint that no graph has. -/
theorem enter (hkey : buckets.lookup key = none → ∀ k ∈ graphs, k.view.fingerprint ≠ key) :
    Files (enter key buckets) graphs := by
  cases hlookup : buckets.lookup key with
  | some places => rwa [enter_of_lookup_eq_some hlookup]
  | none =>
    rw [enter_of_lookup_eq_none hlookup]
    refine ⟨?_, fun bucket hbucket => ?_⟩
    · rw [List.map_append]
      refine List.nodup_append.mpr ⟨h.nodup, List.nodup_singleton key, fun k hk k' hk' heq => ?_⟩
      obtain rfl : k = key := heq.trans (List.mem_singleton.mp hk')
      exact not_mem_of_lookup_eq_none hlookup hk
    · rcases List.mem_append.mp hbucket with hbucket | hbucket
      · exact h.places_eq bucket hbucket
      · rw [List.mem_singleton.mp hbucket]
        exact (placesOf_eq_nil_iff.mpr (hkey hlookup)).symm

end Files

theorem map_fst_pushPlace (key : String) (i : Nat) (buckets : List (String × List Nat)) :
    (pushPlace key i buckets).map Prod.fst = buckets.map Prod.fst := by
  rw [pushPlace, List.map_map]
  refine List.map_congr_left fun bucket _ => ?_
  rw [Function.comp_apply]
  split
  · next heq => exact (beq_iff_eq.mp heq).symm
  · rfl

/-- One more place, of a graph that is stored behind the others. -/
theorem Files.pushPlace (h : Files buckets graphs) (g : Graph) :
    Files (BucketTable.pushPlace g.view.fingerprint graphs.length buckets) (graphs ++ [g]) := by
  refine ⟨(map_fst_pushPlace ..).symm ▸ h.nodup, fun bucket' hbucket' => ?_⟩
  obtain ⟨bucket, hbucket, rfl⟩ := List.mem_map.mp hbucket'
  have hplaces := h.places_eq bucket hbucket
  split
  · next heq =>
    rw [hplaces, beq_iff_eq.mp heq, placesOf_concat, beq_self_eq_true, cond_true]
  · next hne =>
    have hother : (g.view.fingerprint == bucket.1) = false :=
      beq_eq_false_iff_ne.mpr fun heq => hne (beq_iff_eq.mpr heq.symm)
    rw [hplaces, placesOf_concat, hother, cond_false, List.append_nil]

/-! ### One graph -/

/-- The buckets have the places of the graphs, and exactly the fingerprints of graphs have buckets.
-/
structure IsBucketed (s : BucketTable) : Prop where
  /-- Buckets have the places of the graphs. -/
  files : Files s.buckets s.graphs
  /-- The fingerprints with buckets are those of graphs. -/
  mem_iff : ∀ key, key ∈ s.buckets.map Prod.fst ↔ ∃ h ∈ s.graphs, h.view.fingerprint = key

/-- The graphs with their fingerprints, without buckets. -/
def unique (s : BucketTable) : UniqueGraphs :=
  ⟨s.graphs.map fun g => (g.view.fingerprint, g), s.duplicates⟩

theorem graphs_unique (s : BucketTable) : s.unique.graphs = s.graphs := by
  rw [UniqueGraphs.graphs, unique, List.map_map]
  exact List.map_id s.graphs

theorem withFingerprint_unique (s : BucketTable) (key : String) :
    s.unique.withFingerprint key = s.graphs.filter fun h => h.view.fingerprint == key := by
  rw [UniqueGraphs.withFingerprint, unique, List.filter_map, List.map_map]
  exact List.map_id _

/-- The graphs at the places of a bucket are those that are compared without buckets. -/
theorem meetsAt_placesOf (s : BucketTable) (key : String) (t : GraphView) :
    meetsAt s.graphs t (placesOf key s.graphs) = some (s.unique.meets key t) := by
  rw [meetsAt_eq fun i hi => lt_of_mem_placesOf hi, filterMap_placesOf, UniqueGraphs.meets,
    withFingerprint_unique]

namespace IsBucketed

variable (h : s.IsBucketed)

include h

theorem ne_of_lookup_eq_none (hlookup : s.buckets.lookup key = none) :
    ∀ k ∈ s.graphs, k.view.fingerprint ≠ key := by
  intro k hk heq
  exact not_mem_of_lookup_eq_none hlookup ((h.mem_iff key).mpr ⟨k, hk, heq⟩)

/-- The places that are tried are those of the graphs with the fingerprint. -/
theorem lookup_enter (key : String) :
    ((enter key s.buckets).lookup key).getD [] = placesOf key s.graphs := by
  cases hlookup : s.buckets.lookup key with
  | some places =>
    rw [enter_of_lookup_eq_some hlookup, hlookup]
    exact h.files.lookup_eq_some hlookup
  | none =>
    rw [enter_of_lookup_eq_none hlookup, List.lookup_append, hlookup,
      placesOf_eq_nil_iff.mpr (h.ne_of_lookup_eq_none hlookup)]
    simp

/-- **No bucket is empty**, so that there are no more buckets than graphs. -/
theorem bucketCount_le_size : s.bucketCount ≤ s.size := by
  have hsub : s.buckets.map Prod.fst ⊆ s.graphs.map (·.view.fingerprint) := fun key hkey =>
    List.mem_map.mpr ((h.mem_iff key).mp hkey)
  have hle := (h.files.nodup.subperm hsub).length_le
  rwa [List.length_map, List.length_map] at hle

/-- Whether a graph is there is found out as it is without buckets. -/
theorem contains_eq (g : Graph) :
    s.contains g = some (s.unique.meets g.view.fingerprint g.view) := by
  rw [contains, ← meetsAt_placesOf]
  cases hlookup : s.buckets.lookup g.view.fingerprint with
  | some places => rw [h.files.lookup_eq_some hlookup]
  | none =>
    rw [placesOf_eq_nil_iff.mpr (h.ne_of_lookup_eq_none hlookup)]
    rfl

/-- A graph that is not new leaves the buckets as they are. -/
theorem enter_eq (hmeets : s.unique.meets key g.view = true) : enter key s.buckets = s.buckets := by
  obtain ⟨k, hk, -⟩ := List.any_eq_true.mp hmeets
  rw [withFingerprint_unique] at hk
  obtain ⟨hmem, heq⟩ := List.mem_filter.mp hk
  cases hlookup : s.buckets.lookup key with
  | some places => exact enter_of_lookup_eq_some hlookup
  | none => exact absurd (beq_iff_eq.mp heq) (h.ne_of_lookup_eq_none hlookup k hmem)

/-- A graph that is new is put into the bucket of its fingerprint. -/
theorem pushPlace (g : Graph) (duplicates : Nat) : IsBucketed
    ⟨BucketTable.pushPlace g.view.fingerprint s.graphs.length (enter g.view.fingerprint s.buckets),
      s.graphs ++ [g], duplicates⟩ where
  files := (h.files.enter h.ne_of_lookup_eq_none).pushPlace g
  mem_iff key := by
    have hkeys : key ∈ (enter g.view.fingerprint s.buckets).map Prod.fst ↔
        key ∈ s.buckets.map Prod.fst ∨ key = g.view.fingerprint := by
      cases hlookup : s.buckets.lookup g.view.fingerprint with
      | some places =>
        rw [enter_of_lookup_eq_some hlookup, iff_self_or]
        rintro rfl
        exact List.mem_map_of_mem (mem_of_lookup_eq_some hlookup)
      | none =>
        rw [enter_of_lookup_eq_none hlookup]
        simp
    rw [map_fst_pushPlace, hkeys, h.mem_iff]
    simp only [List.mem_append, List.mem_singleton, or_and_right, exists_or, exists_eq_left]
    rw [eq_comm (a := key)]

/-- **One more graph** changes the table as it changes the graphs without buckets. -/
theorem exists_insert (g : Graph) : ∃ s', s.insert g = some (s', (s.unique.insert g).2) ∧
    s'.IsBucketed ∧ s'.unique = (s.unique.insert g).1 := by
  rw [insert, UniqueGraphs.insert, h.lookup_enter, meetsAt_placesOf]
  cases hmeets : s.unique.meets g.view.fingerprint g.view with
  | true =>
    refine ⟨_, rfl, ?_, rfl⟩
    rw [h.enter_eq hmeets]
    exact ⟨h.files, h.mem_iff⟩
  | false =>
    refine ⟨_, rfl, h.pushPlace g _, ?_⟩
    rw [unique, unique, List.map_append]
    rfl

end IsBucketed

/-! ### Graphs one after the other -/

theorem isBucketed_empty : empty.IsBucketed where
  files := ⟨List.nodup_nil, nofun⟩
  mem_iff _ := iff_of_false List.not_mem_nil fun ⟨_, hmem, _⟩ => List.not_mem_nil hmem

/-- **All graphs of a list**, one after the other. -/
theorem exists_insertAll (graphs : List Graph) : ∃ s, insertAll graphs = some s ∧ s.IsBucketed ∧
    s.unique = UniqueGraphs.collect graphs := by
  induction graphs using List.reverseRecOn with
  | nil => exact ⟨empty, rfl, isBucketed_empty, rfl⟩
  | append_singleton graphs g ih =>
    obtain ⟨s, hs, hbucketed, hunique⟩ := ih
    obtain ⟨s', hinsert, hbucketed', hunique'⟩ := hbucketed.exists_insert g
    refine ⟨s', ?_, hbucketed', ?_⟩
    · rw [insertAll, List.foldl_concat, ← insertAll, hs, add, Option.bind_some, hinsert]
      rfl
    · rw [hunique', hunique, UniqueGraphs.collect, UniqueGraphs.collect, List.foldl_concat]

/-- **A table keeps the first graph of every class.** After any list of graphs it has, in their
order, those that are isomorphic to none before them; no two of these are isomorphic; every other
graph is counted as a duplicate. Its buckets have the places of the graphs with their fingerprints,
and there are no more of them than graphs. One more graph is new exactly if it is isomorphic to none
of the list, and `contains` tells beforehand. -/
theorem insertAll_keeps_firsts (graphs : List Graph) : ∃ s, insertAll graphs = some s ∧
    (∃ is : List Nat, is.Pairwise (· < ·) ∧ (∀ i, i ∈ is ↔ IsFirst graphs i) ∧
      s.graphs.map some = is.map fun i => graphs[i]?) ∧
    (s.graphs.Pairwise fun g k => ¬g.Isomorphic k) ∧
    s.size + s.duplicates = graphs.length ∧
    s.IsBucketed ∧ s.bucketCount ≤ s.size ∧
    ∀ g, ∃ s' isNew isKnown, s.insert g = some (s', isNew) ∧ s.contains g = some isKnown ∧
      (isNew = true ↔ ∀ k ∈ graphs, ¬k.Isomorphic g) ∧
      (isKnown = true ↔ ∃ k ∈ graphs, k.Isomorphic g) ∧
      (isKnown = true ↔ isNew = false) := by
  obtain ⟨s, hs, hbucketed, hunique⟩ := exists_insertAll graphs
  have h : s.unique.Collects graphs := hunique ▸ UniqueGraphs.collects_collect graphs
  have hfirsts := h.firsts
  have hpairwise := h.pairwise
  rw [graphs_unique] at hfirsts hpairwise
  have hsize : s.unique.size = s.size := List.length_map _
  refine ⟨s, hs, hfirsts, hpairwise, hsize ▸ h.size_add_duplicates, hbucketed,
    hbucketed.bucketCount_le_size, fun g => ?_⟩
  obtain ⟨s', hinsert, -⟩ := hbucketed.exists_insert g
  have hnew := (UniqueGraphs.insert_eq_true_iff (g := g) h.indexed).trans
    (not_congr (h.represented_iff g))
  have hknown := (UniqueGraphs.meets_iff (g := g) h.indexed).trans (h.represented_iff g)
  refine ⟨s', _, _, hinsert, hbucketed.contains_eq g, ?_, hknown, ?_⟩
  · rw [hnew, Represented]
    simp only [not_exists, not_and]
  · rw [← Bool.not_eq_true, hnew, not_not, hknown]

end BucketTable

end GraphGrammar
