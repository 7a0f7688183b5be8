import GraphGrammar.SortedSet
import GraphGrammar.Json.Value

/-!
# From JSON values to structures

A structure is written as an object with its fields under their names, or as an array of its fields
in the order of their declaration. In an object, fields with other names are skipped, and a field
must not be repeated. In an array, fields at the end that have a default may be missing.

A variant without content is written as its name. A variant with fields is written like a
structure, its name being one more field, the *tag*: an object may have it anywhere, an array has it
first. What stands beside a tag is set aside until the variant is known. That is only possible when
it has no broken texts, no number beyond the doubles, and is not nested too deep.

## Main definitions

* `GraphGrammar.Json.members?` — the fields of a structure.
* `GraphGrammar.Json.variant?` — a variant without content.
* `GraphGrammar.Json.tagged?` — the tag of a variant and what stands beside it.
* `GraphGrammar.Json.canSetAside` — whether a value may stand beside a tag.
-/

namespace GraphGrammar.Json

/-! ### Plain values -/

/-- The text that a value is. -/
def text? : Json → Option String
  | string s => s
  | _ => none

/-- The truth value that a value is. -/
def bool? : Json → Option Bool
  | bool b => some b
  | _ => none

/-- The natural number below a bound that a value is. -/
def naturalBelow? (bound : Nat) : Json → Option Nat
  | number n => n.natural?.filter (· < bound)
  | _ => none

/-- The natural number of 64 bits that a value is. -/
def count? : Json → Option Nat := naturalBelow? (1 <<< 64)

/-- The natural number of 32 bits that a value is. -/
def word32? (value : Json) : Option UInt32 := (value.naturalBelow? (1 <<< 32)).map UInt32.ofNat

/-- The values of an array, each read by `item?`. -/
def list? {α : Type} (item? : Json → Option α) : Json → Option (List α)
  | array items => items.mapM item?
  | _ => none

/-- The set of the values of an array. -/
def set? {α : Type} [LT α] [DecidableLT α] [Trans (α := α) (· < ·) (· < ·) (· < ·)]
    (item? : Json → Option α) (value : Json) : Option (SortedSet α) :=
  (value.list? item?).map SortedSet.ofList

/-- A value that may be written as nothing. -/
def nullable? {α : Type} (read? : Json → Option α) : Json → Option (Option α)
  | null => some none
  | value => (read? value).map some

/-! ### Structures -/

/-- A field that must be there. -/
def required? {α : Type} (read? : Json → Option α) (field : Option Json) : Option α :=
  field.bind read?

/-- A field with a default. -/
def withDefault? {α : Type} (default : α) (read? : Json → Option α) (field : Option Json) :
    Option α :=
  match field with
  | none => some default
  | some value => read? value

/-- The fields of an object under some names, in the order of the names. -/
def namedFields? (names : List String) (fields : List (Option String × Json)) :
    Option (List (Option Json)) :=
  if fields.all fun field => field.1.isSome then
    names.mapM fun name =>
      match fields.filter fun field => field.1 == some name with
      | [] => some none
      | [field] => some (some field.2)
      | _ => none
  else none

/-- The fields of a structure, in the order of their names. -/
def members? (names : List String) : Json → Option (List (Option Json))
  | object fields => namedFields? names fields
  | array items =>
    if items.length ≤ names.length then
      some (items.map some ++ List.replicate (names.length - items.length) none)
    else none
  | _ => none

/-! ### Variants -/

mutual

/-- Whether a value may be set aside: it nests at most `levels` deep, its texts are whole, and its
numbers are finite as doubles. -/
def canSetAside (levels : Nat) : Json → Bool
  | null | bool _ => true
  | number n => n.isFinite
  | string s => s.isSome
  | array items => 0 < levels && canSetAsideItems (levels - 1) items
  | object fields => 0 < levels && canSetAsideFields (levels - 1) fields

/-- Whether every item of a list may be set aside. -/
def canSetAsideItems (levels : Nat) : List Json → Bool
  | [] => true
  | item :: items => canSetAside levels item && canSetAsideItems levels items

/-- Whether the names are whole and every value may be set aside. -/
def canSetAsideFields (levels : Nat) : List (Option String × Json) → Bool
  | [] => true
  | (name, value) :: fields =>
    name.isSome && canSetAside levels value && canSetAsideFields levels fields

end

/-- The number of levels that values which are set aside may nest, the levels around them
included. -/
def levelLimit : Nat := 127

/-- The variant that a value names, by its name or as an object with the name and nothing. -/
def variant? {α : Type} (ofName? : String → Option α) : Json → Option α
  | string (some name) => ofName? name
  | object [(some name, null)] => ofName? name
  | _ => none

/-- The variant that a value names which was set aside: nothing may then also be an empty object. -/
def asideVariant? {α : Type} (ofName? : String → Option α) : Json → Option α
  | object [(some name, object [])] => ofName? name
  | value => value.variant? ofName?

/-- The tag of a variant and what stands beside it, for a value inside of `level` levels. -/
def tagged? (tag : String) (level : Nat) : Json → Option (String × Json)
  | object fields =>
    let (tags, beside) := fields.partition fun field => field.1 == some tag
    match tags with
    | [(_, string (some name))] =>
      if canSetAsideFields (levelLimit - 1 - level) beside then some (name, object beside) else none
    | _ => none
  | array (string (some name) :: beside) =>
    if canSetAsideItems (levelLimit - 1 - level) beside then some (name, array beside) else none
  | _ => none

end GraphGrammar.Json
