import Mathlib.Data.List.Infix
import Mathlib.Logic.Function.Iterate
import GraphGrammar.Rewrite.Relabel

/-!
# Relabelling again

A relabelled node has the right label, the separator and the suffix that was kept. Relabelled again,
it is split at the first separator of its label. This is the one that was written, unless the right
label ends with a part of the separator such that right label and separator together have an earlier
one. Then a part of the separator is left over, which is taken for the beginning of the suffix, and
the label grows by this part whenever it is written.

A separator that has such a part is bordered: some part of it, neither empty nor all of it, is both
its beginning and its end. A separator of one character has none.

## Main definitions

* `GraphGrammar.IsOnlySeparator` — texts after which a separator is the first one.
* `GraphGrammar.IsBordered` — separators that overlap with themselves.

## Main results

* `GraphGrammar.afterFirst_eq_some_iff` — what follows the first separator.
* `GraphGrammar.afterFirst_append` — a longer text has the same first separator.
* `GraphGrammar.iterate_keepSuffix` — what relabelling again and again gives.
* `GraphGrammar.Relabeling.relabel_relabel_iff`,
  `GraphGrammar.Relabeling.relabel_relabel_iff_not_isBordered` — when relabelling again changes
  nothing. -/

namespace GraphGrammar

variable {separator text rest : List Char}

/-! ### The first separator -/

theorem afterFirst_eq_none_iff : afterFirst separator text = none ↔ ¬separator <:+: text := by
  induction text with
  | nil => cases separator <;> simp [afterFirst]
  | cons c text ih =>
    rw [afterFirst, List.infix_cons_iff, ← List.isPrefixOf_iff_prefix]
    split
    · next h => simp [h]
    · next h => rw [ih, eq_false h, false_or]

theorem exists_afterFirst_eq_some (h : separator <:+: text) :
    ∃ rest, afterFirst separator text = some rest :=
  Option.ne_none_iff_exists'.mp fun hnone => afterFirst_eq_none_iff.mp hnone h

theorem exists_afterFirst_append_self (separator text : List Char) :
    ∃ rest, afterFirst separator (text ++ separator) = some rest :=
  exists_afterFirst_eq_some ⟨text, [], List.append_nil _⟩

/-- The separator that is found, and no other is before it. -/
theorem exists_of_afterFirst_eq_some (h : afterFirst separator text = some rest) :
    ∃ front, text = front ++ separator ++ rest ∧
      ∀ front' rest', text = front' ++ separator ++ rest' → front.length ≤ front'.length := by
  induction text with
  | nil =>
    cases separator with
    | nil => exact ⟨[], by simpa [afterFirst] using h, fun _ _ _ => Nat.zero_le _⟩
    | cons c separator => simp [afterFirst] at h
  | cons c text ih =>
    rw [afterFirst] at h
    split at h
    · next hprefix =>
      obtain rfl := Option.some.inj h
      refine ⟨[], ?_, fun _ _ _ => Nat.zero_le _⟩
      exact (List.prefix_iff_eq_append.mp (List.isPrefixOf_iff_prefix.mp hprefix)).symm
    · next hprefix =>
      obtain ⟨front, rfl, hfirst⟩ := ih h
      refine ⟨c :: front, rfl, fun front' rest' heq => ?_⟩
      cases front' with
      | nil =>
        refine absurd (List.isPrefixOf_iff_prefix.mpr ?_) hprefix
        rw [heq]
        exact List.prefix_append separator rest'
      | cons c' front' =>
        exact Nat.succ_le_succ (hfirst front' rest' (List.cons.inj heq).2)

/-- **What follows the first separator.** -/
theorem afterFirst_eq_some_iff : afterFirst separator text = some rest ↔
    ∃ front, text = front ++ separator ++ rest ∧
      ∀ front' rest', text = front' ++ separator ++ rest' → front.length ≤ front'.length := by
  refine ⟨exists_of_afterFirst_eq_some, ?_⟩
  rintro ⟨front, heq, hfirst⟩
  obtain ⟨rest', h⟩ := exists_afterFirst_eq_some ⟨front, rest, heq.symm⟩
  obtain ⟨front', heq', hfirst'⟩ := exists_of_afterFirst_eq_some h
  have hlength := Nat.le_antisymm (hfirst front' rest' heq') (hfirst' front rest heq)
  rw [heq, List.append_assoc, List.append_assoc] at heq'
  obtain ⟨-, htail⟩ := List.append_inj heq' hlength
  rw [h, List.append_cancel_left htail]

/-- **A longer text** has the same first separator. -/
theorem afterFirst_append (h : afterFirst separator text = some rest) (more : List Char) :
    afterFirst separator (text ++ more) = some (rest ++ more) := by
  obtain ⟨front, rfl, hfirst⟩ := exists_of_afterFirst_eq_some h
  refine afterFirst_eq_some_iff.mpr ⟨front, by simp, fun front' rest' heq => ?_⟩
  -- A separator that begins before the first one would also end before it does.
  by_contra hlt
  have hlength : (front' ++ separator).length ≤ (front ++ separator ++ rest).length := by
    simp only [List.length_append]
    omega
  obtain ⟨rest'', hrest⟩ := List.prefix_of_prefix_length_le ⟨rest', heq.symm⟩
    (List.prefix_append _ more) hlength
  exact hlt (hfirst front' rest'' hrest.symm)

/-- A separator that is written after the text is the only one there, up to its end. -/
def IsOnlySeparator (separator text : List Char) : Prop :=
  ∀ front rest, text ++ separator = front ++ separator ++ rest → rest = []

theorem afterFirst_append_self_eq_nil_iff :
    afterFirst separator (text ++ separator) = some [] ↔ IsOnlySeparator separator text := by
  rw [afterFirst_eq_some_iff]
  constructor
  · rintro ⟨front, heq, hfirst⟩ front' rest' heq'
    have hle := hfirst front' rest' heq'
    have hlength := congrArg List.length heq
    have hlength' := congrArg List.length heq'
    simp only [List.length_append, List.length_nil] at hlength hlength'
    exact List.length_eq_zero_iff.mp (by omega)
  · intro h
    refine ⟨text, (List.append_nil _).symm, fun front rest heq => ?_⟩
    have hlength := congrArg List.length heq
    rw [h front rest heq] at hlength
    simp only [List.length_append, List.length_nil] at hlength
    omega

/-! ### Separators that overlap with themselves -/

/-- Some part of the separator, neither empty nor all of it, is its beginning and its end. -/
def IsBordered (separator : List Char) : Prop :=
  ∃ border, border ≠ [] ∧ border ≠ separator ∧ border <+: separator ∧ border <:+ separator

theorem not_isBordered_singleton (c : Char) : ¬IsBordered [c] := by
  rintro ⟨border, hne, hne', hprefix, -⟩
  rcases List.prefix_cons_iff.mp hprefix with rfl | ⟨l, rfl, hl⟩
  · exact hne rfl
  · exact hne' (by rw [List.prefix_nil.mp hl])

/-- A separator that is not bordered is the only one when it is written after a text without it. -/
theorem isOnlySeparator_of_not_isBordered (hborder : ¬IsBordered separator)
    (htext : ¬separator <:+: text) : IsOnlySeparator separator text := by
  intro front rest heq
  by_contra hrest
  rw [List.append_assoc] at heq
  rcases List.append_eq_append_iff.mp heq with ⟨extra, rfl, hextra⟩ | ⟨last, rfl, hlast⟩
  · -- The separator is found after the text, where nothing can follow it.
    have hlength := congrArg List.length hextra
    simp only [List.length_append] at hlength
    exact hrest (List.length_eq_zero_iff.mp (by omega))
  -- It begins with the last part of the text. Either this has it all, or they overlap.
  rcases List.append_eq_append_iff.mp hlast with ⟨extra, rfl, -⟩ | ⟨border, hbegin, hend⟩
  · exact htext ⟨front, extra, List.append_assoc ..⟩
  · refine hborder ⟨border, fun hnil => ?_, fun hall => ?_, ⟨rest, hend.symm⟩,
      ⟨last, hbegin.symm⟩⟩
    · rw [hnil, List.append_nil] at hbegin
      exact htext ⟨front, [], by rw [hbegin, List.append_nil]⟩
    · rw [hall] at hend
      exact hrest (List.append_right_eq_self.mp hend.symm)

/-- A bordered separator begins before the end of some text without it, when it is written after
this text. -/
theorem IsBordered.exists_not_isOnlySeparator (h : IsBordered separator) :
    ∃ text, ¬separator <:+: text ∧ ¬IsOnlySeparator separator text := by
  obtain ⟨border, hne, hne', ⟨last, hlast⟩, ⟨text, htext⟩⟩ := h
  refine ⟨text, fun hinfix => ?_, fun honly => ?_⟩
  · have hle := hinfix.length_le
    rw [← htext, List.length_append] at hle
    exact hne (List.length_eq_zero_iff.mp (by omega))
  · have hnil := honly [] last (by
      rw [List.nil_append, ← htext, List.append_assoc, htext, ← hlast])
    rw [hnil, List.append_nil] at hlast
    exact hne' hlast

/-! ### Relabelling -/

theorem keepSuffix_of_contains {separator right : String} (h : separator.toList <:+: right.toList)
    (current : String) : keepSuffix separator current right = right := by
  obtain ⟨rest, hrest⟩ := exists_afterFirst_eq_some h
  rw [keepSuffix, hrest, Option.isSome_some, Bool.or_true, if_pos rfl]

theorem keepSuffix_of_not_contains {separator current : String}
    (h : ¬separator.toList <:+: current.toList) (right : String) :
    keepSuffix separator current right = right := by
  rw [keepSuffix, afterFirst_eq_none_iff.mpr h, ite_self]

theorem keepSuffix_of_afterFirst {separator current right : String}
    (hright : ¬separator.toList <:+: right.toList) {suffix : List Char}
    (h : afterFirst separator.toList current.toList = some suffix) :
    keepSuffix separator current right = right ++ separator ++ String.ofList suffix := by
  have hne : separator.isEmpty = false := by
    rw [Bool.eq_false_iff]
    intro hempty
    rw [String.isEmpty_iff.mp hempty, String.toList_empty] at hright
    exact hright List.nil_infix
  rw [keepSuffix, hne, afterFirst_eq_none_iff.mpr hright, h]
  rfl

/-- **Relabelling again and again** writes what is left over of the separator again and again. -/
theorem iterate_keepSuffix {separator current right : String}
    (hright : ¬separator.toList <:+: right.toList) {suffix rest : List Char}
    (h : afterFirst separator.toList current.toList = some suffix)
    (hrest : afterFirst separator.toList (right ++ separator).toList = some rest) (n : Nat) :
    (fun label => keepSuffix separator label right)^[n + 1] current =
      right ++ separator ++ String.ofList ((List.replicate n rest).flatten ++ suffix) := by
  induction n with
  | zero => exact keepSuffix_of_afterFirst hright h
  | succ n ih =>
    have hagain : afterFirst separator.toList (right ++ separator ++
        String.ofList ((List.replicate n rest).flatten ++ suffix)).toList =
          some (rest ++ ((List.replicate n rest).flatten ++ suffix)) := by
      rw [String.toList_append, String.toList_ofList]
      exact afterFirst_append hrest _
    rw [Function.iterate_succ_apply', ih, keepSuffix_of_afterFirst hright hagain,
      List.replicate_succ, List.flatten_cons, List.append_assoc]

namespace Relabeling

variable {separator current right : String}

/-- **Relabelling again** changes nothing in three cases: the right label has the separator, the
label does not, or the separator that is written is the only one up to its end. -/
theorem relabel_relabel_iff :
    (preserveSuffix separator).relabel ((preserveSuffix separator).relabel current right) right =
        (preserveSuffix separator).relabel current right ↔
      separator.toList <:+: right.toList ∨ ¬separator.toList <:+: current.toList ∨
        IsOnlySeparator separator.toList right.toList := by
  simp only [relabel]
  by_cases hright : separator.toList <:+: right.toList
  · simp [keepSuffix_of_contains hright, hright]
  by_cases hcurrent : separator.toList <:+: current.toList
  · obtain ⟨suffix, hsuffix⟩ := exists_afterFirst_eq_some hcurrent
    obtain ⟨rest, hrest⟩ := exists_afterFirst_append_self separator.toList right.toList
    have htwice : keepSuffix separator (keepSuffix separator current right) right =
        right ++ separator ++ String.ofList (rest ++ suffix) := by
      have h := iterate_keepSuffix hright hsuffix (String.toList_append ▸ hrest) 1
      simpa using h
    have hsettled : keepSuffix separator (keepSuffix separator current right) right =
        keepSuffix separator current right ↔ rest = [] := by
      rw [htwice, keepSuffix_of_afterFirst hright hsuffix, String.append_right_inj,
        String.ofList_inj, List.append_left_eq_self]
    rw [hsettled, ← afterFirst_append_self_eq_nil_iff, hrest, Option.some.injEq]
    simp [hright, hcurrent]
  · simp [keepSuffix_of_not_contains hcurrent, keepSuffix_of_not_contains hright, hcurrent]

/-- **When relabelling again changes nothing.** For a label and a right label this is so exactly if
the right label has the separator, the label does not, or the separator that is written is the only
one up to its end. Otherwise what is left over of the separator comes before the suffix, once more
with every time. For all labels and right labels it is so exactly if the separator is not
bordered. -/
theorem relabel_relabel_iff_not_isBordered (separator : String) :
    (∀ current right,
      (preserveSuffix separator).relabel ((preserveSuffix separator).relabel current right) right =
          (preserveSuffix separator).relabel current right ↔
        separator.toList <:+: right.toList ∨ ¬separator.toList <:+: current.toList ∨
          IsOnlySeparator separator.toList right.toList) ∧
    (∀ current right suffix, ¬separator.toList <:+: right.toList →
      afterFirst separator.toList current.toList = some suffix →
      ∃ rest, afterFirst separator.toList (right ++ separator).toList = some rest ∧
        (rest = [] ↔ IsOnlySeparator separator.toList right.toList) ∧
        afterFirst separator.toList ((preserveSuffix separator).relabel current right).toList =
          some (rest ++ suffix) ∧
        ∀ n, (fun label => (preserveSuffix separator).relabel label right)^[n + 1] current =
          right ++ separator ++ String.ofList ((List.replicate n rest).flatten ++ suffix)) ∧
    ((∀ current right,
      (preserveSuffix separator).relabel ((preserveSuffix separator).relabel current right) right =
        (preserveSuffix separator).relabel current right) ↔ ¬IsBordered separator.toList) := by
  refine ⟨fun current right => relabel_relabel_iff, fun current right suffix hright h => ?_,
    fun h hborder => ?_, fun hborder current right => relabel_relabel_iff.mpr ?_⟩
  · obtain ⟨rest, hrest⟩ := exists_afterFirst_append_self separator.toList right.toList
    rw [String.toList_append, ← afterFirst_append_self_eq_nil_iff, hrest]
    refine ⟨rest, rfl, Option.some_inj.symm, ?_,
      iterate_keepSuffix hright h (String.toList_append ▸ hrest)⟩
    rw [relabel, keepSuffix_of_afterFirst hright h, String.toList_append, String.toList_append,
      String.toList_ofList]
    exact afterFirst_append hrest suffix
  · obtain ⟨right, hright, honly⟩ := hborder.exists_not_isOnlySeparator
    have hsettled := relabel_relabel_iff.mp (h separator (String.ofList right))
    rw [String.toList_ofList] at hsettled
    exact hsettled.elim hright fun hsettled => hsettled.elim (absurd (List.infix_refl _)) honly
  · by_cases hright : separator.toList <:+: right.toList
    · exact .inl hright
    · exact .inr (.inr (isOnlySeparator_of_not_isBordered hborder hright))

/-- With a colon as the separator, relabelling again changes nothing. -/
theorem relabel_relabel_iff_not_isBordered_colon : ¬IsBordered ":".toList ∧
    (∀ current right, (preserveSuffix ":").relabel ((preserveSuffix ":").relabel current right)
      right = (preserveSuffix ":").relabel current right) ∧
    ¬":".toList <:+: "O".toList ∧ afterFirst ":".toList "C:7".toList = some ['7'] ∧
    ∀ n, (fun label => (preserveSuffix ":").relabel label "O")^[n + 1] "C:7" = "O:7" := by
  have hborder : ¬IsBordered ":".toList := not_isBordered_singleton ':'
  have hright : ¬":".toList <:+: "O".toList := by decide
  have hsuffix : afterFirst ":".toList "C:7".toList = some ['7'] := by decide
  obtain ⟨-, hagain, hsettles⟩ := relabel_relabel_iff_not_isBordered ":"
  obtain ⟨rest, hrest, -, -, hiterate⟩ := hagain "C:7" "O" ['7'] hright hsuffix
  obtain rfl : [] = rest := Option.some.inj hrest
  refine ⟨hborder, hsettles.mpr hborder, hright, hsuffix, fun n => (hiterate n).trans ?_⟩
  simp

/-- With two colons as the separator, a right label that ends with a colon makes the label grow. -/
theorem not_relabel_relabel_colons :
    (preserveSuffix "::").relabel "N::7" "C:" = "C:::7" ∧
    (preserveSuffix "::").relabel "C:::7" "C:" = "C::::7" ∧
    ¬∀ separator current right : String, separator ≠ "" →
      (preserveSuffix separator).relabel ((preserveSuffix separator).relabel current right) right =
        (preserveSuffix separator).relabel current right := by
  have honce : (preserveSuffix "::").relabel "N::7" "C:" = "C:::7" := by decide
  have htwice : (preserveSuffix "::").relabel "C:::7" "C:" = "C::::7" := by decide
  refine ⟨honce, htwice, fun h => ?_⟩
  have hsettled := h "::" "N::7" "C:" (by decide)
  rw [honce, htwice] at hsettled
  exact absurd hsettled (by decide)

end Relabeling

end GraphGrammar
