import GraphGrammar.Proofs.Json.Token

/-!
# Values are read as they were written

Where a value may come, the tokens of a value bring the reader to where the value is complete,
whatever is open around it. Hence the text of a value is read as the value, with nothing left over.

## Main definitions

* `GraphGrammar.Json.Progress.resume` — the reader goes on after a step.

## Main results

* `GraphGrammar.Json.readFrom_tokens` — the tokens of a value are read as the value.
* `GraphGrammar.Json.read?_pretty` — so is its text on many lines.
-/

namespace GraphGrammar.Json

/-- The reader goes on after a step. -/
def Progress.resume (progress : Progress) (rest : List Token) : Option (Json × List Token) :=
  match progress with
  | .refused => none
  | .reading expected stack => readFrom expected stack rest
  | .complete value => some (value, rest)

theorem readFrom_cons (expected : Expected) (stack : List Frame) (t : Token) (rest : List Token) :
    readFrom expected stack (t :: rest) = (step expected stack t).resume rest := by
  rw [readFrom]
  cases step expected stack t <;> rfl

/-- The first item of an array is read like any other value. -/
theorem readFrom_firstItem (value : Json) (stack : List Frame) (rest : List Token) :
    readFrom .firstItem stack (tokens value ++ rest) =
      readFrom .value (.items [] :: stack) (tokens value ++ rest) := by
  match value with
  | null | bool _ | number _ | string _ => rfl
  | array [] | array (_ :: _) => rfl
  | object [] | object (_ :: _) => rfl

mutual

/-- **The tokens of a value** are read as the value. -/
theorem readFrom_tokens : ∀ (value : Json) (stack : List Frame) (rest : List Token),
    readFrom .value stack (tokens value ++ rest) = (deliver value stack).resume rest
  | null, _, _ => rfl
  | bool _, _, _ => rfl
  | number _, _, _ => rfl
  | string _, _, _ => rfl
  | array [], _, _ => rfl
  | array (item :: items), stack, rest => by
    rw [tokens, List.cons_append, readFrom_cons, List.append_assoc]
    refine (readFrom_firstItem item stack _).trans ?_
    rw [readFrom_tokens item]
    exact readFrom_itemTokens items [item] stack rest
  | object [], _, _ => rfl
  | object ((name, value) :: fields), stack, rest => by
    simp only [tokens, List.cons_append, List.append_assoc]
    refine (readFrom_tokens value (.fields [] name :: stack) _).trans ?_
    exact readFrom_fieldTokens fields [(name, value)] stack rest

/-- The items after the first. -/
theorem readFrom_itemTokens : ∀ (items read : List Json) (stack : List Frame) (rest : List Token),
    readFrom (.afterItem read) stack (itemTokens items ++ rest) =
      (deliver (array (read.reverse ++ items)) stack).resume rest
  | [], read, stack, rest => by
    rw [List.append_nil]
    rfl
  | item :: items, read, stack, rest => by
    simp only [itemTokens, List.cons_append, List.append_assoc]
    refine (readFrom_tokens item (.items read :: stack) _).trans ?_
    refine (readFrom_itemTokens items (item :: read) stack rest).trans ?_
    rw [List.reverse_cons, List.append_assoc, List.singleton_append]

/-- The fields after the first. -/
theorem readFrom_fieldTokens : ∀ (fields read : List (Option String × Json)) (stack : List Frame)
    (rest : List Token), readFrom (.afterField read) stack (fieldTokens fields ++ rest) =
      (deliver (object (read.reverse ++ fields)) stack).resume rest
  | [], read, stack, rest => by
    rw [List.append_nil]
    rfl
  | (name, value) :: fields, read, stack, rest => by
    simp only [fieldTokens, List.cons_append, List.append_assoc]
    refine (readFrom_tokens value (.fields read name :: stack) _).trans ?_
    refine (readFrom_fieldTokens fields ((name, value) :: read) stack rest).trans ?_
    rw [List.reverse_cons, List.append_assoc, List.singleton_append]

end

/-- **A value** is read from its text, whatever its texts and numerals, and nothing is left over. -/
theorem read?_pretty (value : Json) : read? value.pretty = some (value, true) := by
  have hread : readFrom .value [] (tokens value) = some (value, []) := by
    rw [← List.append_nil (tokens value), readFrom_tokens]
    rfl
  rw [read?, scan_pretty, hread]
  rfl

theorem readWhole?_pretty (value : Json) : readWhole? value.pretty = some value := by
  rw [readWhole?, read?_pretty]
  rfl

end GraphGrammar.Json
