import GraphGrammar.Json.Decode
import GraphGrammar.Json.Writer
import GraphGrammar.Proofs.Json.Numeral
import GraphGrammar.Proofs.SortedSet

/-!
# Structures are read from the fields that were written

An object whose names are among the names of a structure, in their order, gives for every name the
field of this name, or none if there is none. Naturals of 64 bits, texts, lists and sets are read
as they were written. What was written beside a tag may be set aside.

## Main results

* `GraphGrammar.Json.members?_record` — the fields of a structure.
* `GraphGrammar.Json.tagged?_record` — the tag of a variant and its fields.
* `GraphGrammar.Json.list?_map`, `GraphGrammar.Json.set?_map` — lists and sets.
-/

namespace GraphGrammar.Json

variable {α : Type}

/-! ### Plain values -/

theorem count?_natural {n : Nat} (h : n < 2 ^ 64) : count? (natural n) = some n := by
  rw [count?, natural, naturalBelow?, Numeral.natural?, Option.filter_some]
  exact if_pos (decide_eq_true h)

theorem word32?_natural (word : UInt32) : word32? (natural word.toNat) = some word := by
  have hlt : decide (word.toNat < 1 <<< 32) = true := decide_eq_true word.toNat_lt
  rw [word32?, natural, naturalBelow?, Numeral.natural?, Option.filter_some, if_pos hlt,
    Option.map_some, UInt32.ofNat_toNat]

theorem mapM_map {item? : Json → Option α} {toJson : α → Json} {l : List α}
    (h : ∀ a ∈ l, item? (toJson a) = some a) : (l.map toJson).mapM item? = some l := by
  induction l with
  | nil => rfl
  | cons a l ih =>
    obtain ⟨ha, hl⟩ := List.forall_mem_cons.mp h
    rw [List.map_cons, List.mapM_cons, ha, ih hl]
    rfl

/-- **Lists.** -/
theorem list?_map {item? : Json → Option α} {toJson : α → Json} {l : List α}
    (h : ∀ a ∈ l, item? (toJson a) = some a) : list? item? (array (l.map toJson)) = some l :=
  mapM_map h

/-- **Sets.** -/
theorem set?_map [LT α] [DecidableLT α] [Trans (α := α) (· < ·) (· < ·) (· < ·)]
    [Std.Trichotomous (α := α) (· < ·)] [Std.Irrefl (α := α) (· < ·)]
    [Std.Antisymm (α := α) (· < ·)] {item? : Json → Option α} {toJson : α → Json} {s : SortedSet α}
    (h : ∀ a ∈ s.toList, item? (toJson a) = some a) :
    set? item? (array (s.toList.map toJson)) = some s := by
  rw [set?, list?_map h, Option.map_some, SortedSet.ofList_toList]

/-! ### Structures -/

@[simp]
theorem required?_some (read? : Json → Option α) (value : Json) :
    required? read? (some value) = read? value := rfl

@[simp]
theorem withDefault?_some (default : α) (read? : Json → Option α) (value : Json) :
    withDefault? default read? (some value) = read? value := rfl

@[simp]
theorem text?_text (s : String) : text? (text s) = some s := rfl

/-- An optional field, which is not written where there is no value. -/
theorem withDefault?_nullable? {read? : Json → Option α} {toJson : α → Json} {value : Option α}
    (hne : ∀ a, toJson a ≠ null) (h : ∀ a ∈ value, read? (toJson a) = some a) :
    withDefault? none (nullable? read?) (value.map toJson) = some value := by
  cases value with
  | none => rfl
  | some a =>
    rw [Option.map_some, withDefault?_some, nullable?, h a rfl]
    · rfl
    · exact hne a

/-- The fields with a name, where no name is repeated. -/
theorem filter_eq_lookup {fields : List (String × Json)} (h : (fields.map Prod.fst).Nodup)
    (name : String) : fields.filter (fun field => field.1 == name) =
      ((fields.lookup name).map fun value => (name, value)).toList := by
  induction fields with
  | nil => rfl
  | cons field fields ih =>
    obtain ⟨name', value⟩ := field
    obtain ⟨hnotin, hnodup⟩ := List.nodup_cons.mp h
    rw [List.filter_cons, List.lookup_cons]
    by_cases heq : name = name'
    · subst heq
      have hnone : fields.filter (fun field => field.1 == name) = [] :=
        List.filter_eq_nil_iff.mpr fun field hfield hname =>
          hnotin (List.mem_map.mpr ⟨field, hfield, beq_iff_eq.mp hname⟩)
      simp [hnone]
    · rw [beq_false_of_ne heq, beq_false_of_ne (Ne.symm heq), if_neg Bool.false_ne_true]
      exact ih hnodup

/-- **The fields of a structure.** -/
theorem members?_record {names : List String} {fields : List (String × Json)}
    (hnames : names.Nodup) (hfields : (fields.map Prod.fst).Sublist names) :
    (record fields).members? names = some (names.map fun name => fields.lookup name) := by
  have hwhole : ((fields.map fun field => ((some field.1 : Option String), field.2)).all
      fun field => field.1.isSome) = true := by
    simp
  have hfilter : ∀ name : String,
      (fields.map fun field => ((some field.1 : Option String), field.2)).filter
        (fun field => field.1 == some name) =
        (fields.filter fun field => field.1 == name).map fun field => (some field.1, field.2) := by
    intro name
    rw [List.filter_map]
    rfl
  rw [record, members?, namedFields?, if_pos hwhole]
  refine (congrArg (names.mapM ·) (funext fun name => ?_)).trans List.mapM_pure
  rw [hfilter, filter_eq_lookup (hfields.nodup hnames)]
  cases fields.lookup name <;> rfl

/-! ### Variants -/

@[simp]
theorem variant?_text (ofName? : String → Option α) (name : String) :
    variant? ofName? (text name) = ofName? name := rfl

@[simp]
theorem asideVariant?_text (ofName? : String → Option α) (name : String) :
    asideVariant? ofName? (text name) = ofName? name := rfl

theorem canSetAside_natural (levels : Nat) {n : Nat} (h : n < 2 ^ 64) :
    canSetAside levels (natural n) = true :=
  Numeral.isFinite_integer h false

theorem canSetAsideItems_texts (levels : Nat) (labels : List String) :
    canSetAsideItems levels (labels.map text) = true := by
  induction labels with
  | nil => rfl
  | cons label labels ih => exact ih

theorem canSetAside_texts {levels : Nat} (h : 0 < levels) (labels : List String) :
    canSetAside levels (array (labels.map text)) = true := by
  rw [canSetAside, canSetAsideItems_texts, decide_eq_true h]
  rfl

theorem canSetAsideFields_map (levels : Nat) (fields : List (String × Json)) :
    canSetAsideFields levels (fields.map fun field => (some field.1, field.2)) =
      fields.all fun field => canSetAside levels field.2 := by
  induction fields with
  | nil => rfl
  | cons field fields ih => rw [List.map_cons, canSetAsideFields, ih, List.all_cons]; rfl

/-- **The tag of a variant** and what stands beside it, which has no field of this name. -/
theorem tagged?_record {tag name : String} {fields : List (String × Json)} {level : Nat}
    (htag : tag ∉ fields.map Prod.fst)
    (haside : fields.all (fun field => canSetAside (levelLimit - 1 - level) field.2) = true) :
    (record ((tag, text name) :: fields)).tagged? tag level = some (name, record fields) := by
  have hpartition : ((((tag, text name) :: fields).map fun field =>
      ((some field.1 : Option String), field.2)).partition fun field => field.1 == some tag) =
      ([(some tag, text name)], fields.map fun field => (some field.1, field.2)) := by
    have hne : ∀ field ∈ fields, field.1 ≠ tag := fun field hfield heq =>
      htag (List.mem_map.mpr ⟨field, hfield, heq⟩)
    rw [List.partition_eq_filter_filter, List.map_cons, List.filter_cons, List.filter_cons]
    simp only [beq_self_eq_true, if_true, Bool.not_true, Bool.false_eq_true, if_false,
      Function.comp_apply, Prod.mk.injEq]
    constructor
    · rw [List.filter_eq_nil_iff.mpr]
      intro field hfield heq
      obtain ⟨field, hmem, rfl⟩ := List.mem_map.mp hfield
      exact hne field hmem (Option.some.inj (beq_iff_eq.mp heq))
    · refine List.filter_eq_self.mpr fun field hfield => ?_
      obtain ⟨field, hmem, rfl⟩ := List.mem_map.mp hfield
      simpa using hne field hmem
  rw [record, tagged?, hpartition]
  simp only [text, canSetAsideFields_map, haside, if_true]
  rfl

end GraphGrammar.Json
