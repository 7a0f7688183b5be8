import GraphGrammar.Json.Decode
import GraphGrammar.Json.Writer
import GraphGrammar.Report

/-!
# Reports as JSON texts

A report is written with the name of its family and, beside it, its details. The two may be read in
either order, or as the two items of an array. Details that come before the family are set aside
until it is known.

## Main definitions

* `GraphGrammar.Report.toJsonText` and `GraphGrammar.Report.ofJsonText?`.
-/

namespace GraphGrammar

namespace Report

/-- The details of a report as a value. -/
def detailToJson (r : Report) : Json :=
  .record ([("code", .text r.code), ("message", .text r.message),
      ("context", .record (r.context.entries.map fun fact => (fact.1, .text fact.2)))] ++
    (r.hint.map fun hint => ("hint", Json.text hint)).toList)

/-- A report as a value. -/
def toJson (r : Report) : Json :=
  .record [("family", .text r.family.name), ("detail", r.detailToJson)]

/-- A report as text. -/
def toJsonText (r : Report) : String := r.toJson.compact

/-- The facts that a value is; of two under one name the later counts. -/
def context? : Json → Option Context
  | .object fields => do
    some (Context.ofList (← fields.mapM fun field => do some (← field.1, ← field.2.text?)))
  | _ => none

/-- The report with the given family whose details a value is. In an array no detail may be
missing. -/
def ofDetail? (family : Family) (detail : Json) : Option Report := do
  let [code, message, context, hint] ← detail.members? ["code", "message", "context", "hint"] | none
  match detail, hint with
  | .array _, none => none
  | _, _ => some ⟨family, ← Json.required? Json.text? code, ← Json.required? Json.text? message,
      ← Json.withDefault? .empty context? context,
      ← Json.withDefault? none (Json.nullable? Json.text?) hint⟩

/-- Whether the first of the two names comes before the second among the fields of a value. -/
def comesBefore (first second : String) : Json → Bool
  | .object fields =>
    (fields.find? fun field => field.1 == some first || field.1 == some second).any fun field =>
      field.1 == some first
  | _ => false

/-- The family of a report with the given value. In an array, the family is written as its name. -/
def ofFamily? (value family : Json) : Option Family :=
  match value with
  | .array _ => do Family.ofName? (← family.text?)
  | _ => family.variant? Family.ofName?

/-- The report that a value is. -/
def ofJson? (value : Json) : Option Report := do
  let [some family, some detail] ← value.members? ["family", "detail"] | none
  let family ← ofFamily? value family
  if comesBefore "detail" "family" value && !detail.canSetAside (Json.levelLimit - 1) then none
  else ofDetail? family detail

/-- The report that a text is. -/
def ofJsonText? (text : String) : Option Report := do ofJson? (← Json.readWhole? text)

end Report

end GraphGrammar
