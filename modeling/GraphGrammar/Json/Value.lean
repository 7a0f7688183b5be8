import GraphGrammar.Json.Token

/-!
# JSON values

A value is read from tokens by a machine with a stack: the stack holds the arrays and objects that
are open, and the state says what may come next. Each step takes one token, so reading ends with
the tokens.

## Main definitions

* `GraphGrammar.Json` — values, with fields in the order of the text, repeated ones included.
* `GraphGrammar.Json.readFrom` — the first value among tokens, and the tokens after it.
* `GraphGrammar.Json.read?` — the first value of a text.
-/

namespace GraphGrammar

/-- A value as it is written. -/
inductive Json where
  /-- Nothing. -/
  | null
  /-- A truth value. -/
  | bool (value : Bool)
  /-- A number. -/
  | number (value : Numeral)
  /-- A text; nothing for a broken one. -/
  | string (value : Option String)
  /-- A list of values. -/
  | array (items : List Json)
  /-- Values under names, in their order. Names may be broken and may be repeated. -/
  | object (fields : List (Option String × Json))

namespace Json

/-- The value of a text. -/
def text (s : String) : Json := string (some s)

/-- The value of a natural number. -/
def natural (n : Nat) : Json := number (.integer false n)

/-- The object with the given fields. -/
def record (fields : List (String × Json)) : Json :=
  object (fields.map fun field => (some field.1, field.2))

/-! ### Reading -/

/-- An open array or object, what was read of it last first. -/
inductive Frame where
  /-- An array, an item of which is being read. -/
  | items (read : List Json)
  /-- An object, the field `name` of which is being read. -/
  | fields (read : List (Option String × Json)) (name : Option String)

/-- What may come next. -/
inductive Expected where
  /-- A value. -/
  | value
  /-- A value or the end of the array that was just opened. -/
  | firstItem
  /-- A comma or the end of the array with the given items, last first. -/
  | afterItem (read : List Json)
  /-- A name or the end of the object that was just opened. -/
  | firstName
  /-- A name in the object with the given fields, last first. -/
  | name (read : List (Option String × Json))
  /-- The colon behind a name. -/
  | colon (read : List (Option String × Json)) (name : Option String)
  /-- A comma or the end of the object with the given fields, last first. -/
  | afterField (read : List (Option String × Json))

/-- What a step leads to. -/
inductive Progress where
  /-- The token may not stand here. -/
  | refused
  /-- More tokens are needed. -/
  | reading (expected : Expected) (stack : List Frame)
  /-- The value is complete. -/
  | complete (value : Json)

/-- What follows when a value is complete: it belongs to the innermost open frame. -/
def deliver (value : Json) : List Frame → Progress
  | [] => .complete value
  | .items read :: stack => .reading (.afterItem (value :: read)) stack
  | .fields read name :: stack => .reading (.afterField ((name, value) :: read)) stack

/-- One step where a value must come. -/
def startValue (stack : List Frame) (t : Token) : Progress :=
  match t with
  | .null => deliver null stack
  | .bool b => deliver (bool b) stack
  | .number n => deliver (number n) stack
  | .string s => deliver (string s) stack
  | .openBracket => .reading .firstItem stack
  | .openBrace => .reading .firstName stack
  | .closeBracket | .closeBrace | .colon | .comma | .invalid => .refused

/-- One step. -/
def step (expected : Expected) (stack : List Frame) (t : Token) : Progress :=
  match expected, t with
  | .value, t => startValue stack t
  | .firstItem, .closeBracket => deliver (array []) stack
  | .firstItem, t => startValue (.items [] :: stack) t
  | .afterItem read, .comma => .reading .value (.items read :: stack)
  | .afterItem read, .closeBracket => deliver (array read.reverse) stack
  | .firstName, .closeBrace => deliver (object []) stack
  | .firstName, .string name => .reading (.colon [] name) stack
  | .name read, .string name => .reading (.colon read name) stack
  | .colon read name, .colon => .reading .value (.fields read name :: stack)
  | .afterField read, .comma => .reading (.name read) stack
  | .afterField read, .closeBrace => deliver (object read.reverse) stack
  | _, _ => .refused

/-- The value that the tokens complete, and the tokens after it. -/
def readFrom (expected : Expected) (stack : List Frame) : List Token → Option (Json × List Token)
  | [] => none
  | t :: rest =>
    match step expected stack t with
    | .refused => none
    | .reading expected stack => readFrom expected stack rest
    | .complete value => some (value, rest)

/-- The first value of a text, and whether nothing but space comes after it. -/
def read? (s : String) : Option (Json × Bool) := do
  let (value, rest) ← readFrom .value [] (Token.scan s)
  some (value, rest.isEmpty)

/-- The value of a text that holds nothing else. -/
def readWhole? (s : String) : Option Json := do
  let (value, isWhole) ← read? s
  if isWhole then some value else none

end Json

end GraphGrammar
