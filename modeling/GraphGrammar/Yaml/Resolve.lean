import GraphGrammar.Json.Numeral
import GraphGrammar.Yaml.Token

/-!
# What scalars mean

A plain scalar is read as nothing, a truth value or a number if it looks like one, and as a text
otherwise. Digits behind a leading zero are a text. Integers have no width, but those that need more
than 64 bits are set apart, because no reader takes them.

The tags of the standard types settle what a scalar is read as, and any other tag makes it a text.

## Main definitions

* `GraphGrammar.Yaml.Meaning`, `GraphGrammar.Yaml.plainMeaning`, `GraphGrammar.Yaml.scalarMeaning`.
* `GraphGrammar.Yaml.natural?`, `GraphGrammar.Yaml.truth?`.
-/

namespace GraphGrammar.Yaml

/-- What a scalar means. -/
inductive Meaning where
  /-- Nothing. -/
  | nothing
  /-- A truth value. -/
  | truth (value : Bool)
  /-- A natural number of 64 bits. -/
  | natural (value : Nat)
  /-- A negative number of 64 bits. -/
  | negative
  /-- An integer that needs more than 64 bits. -/
  | wide
  /-- A number that is no integer. -/
  | decimal
  /-- A text. -/
  | text (value : String)
  /-- What contradicts its tag. -/
  | contradiction
deriving DecidableEq

/-- Whether a text is a word for nothing. -/
def isNothing (s : String) : Bool := ["null", "Null", "NULL", "~"].contains s

/-- The truth value that a text is. -/
def truth? (s : String) : Option Bool :=
  if ["true", "True", "TRUE"].contains s then some true
  else if ["false", "False", "FALSE"].contains s then some false
  else none

/-! ### Integers -/

/-- The number that digits of a base give; there must be at least one. -/
def digitsOf? (base : Nat) (digits : List Char) : Option Nat :=
  if digits.isEmpty then none
  else digits.foldlM (fun n d => do
    let v ← hexValue? d
    if v < base then some (base * n + v) else none) 0

/-- The number that an unsigned text is, in the base that it announces or with decimal digits. -/
def magnitude? : List Char → Option Nat
  | '0' :: 'x' :: digits => digitsOf? 16 digits
  | '0' :: 'o' :: digits => digitsOf? 8 digits
  | '0' :: 'b' :: digits => digitsOf? 2 digits
  | '0' :: d :: digits =>
    if (d :: digits).all (·.isDigit) then none else digitsOf? 10 ('0' :: d :: digits)
  | digits => digitsOf? 10 digits

/-- The natural number that a text is. It may have a plus sign. -/
def natural? (s : String) : Option Nat :=
  match s.toList with
  | '+' :: digits => magnitude? digits
  | digits => magnitude? digits

/-- The magnitude of the negative number that a text is. -/
def negated? (s : String) : Option Nat :=
  match s.toList with
  | '-' :: digits => magnitude? digits
  | _ => none

/-- Whether a text is digits behind a leading zero, possibly with a sign. -/
def isPaddedDigits (s : String) : Bool :=
  let digits := match s.toList with
    | '+' :: digits => digits
    | '-' :: digits => digits
    | digits => digits
  1 < digits.length && digits.head? == some '0' && digits.all (·.isDigit)

/-! ### Decimals -/

/-- Whether an unsigned text is a finite decimal number: digits with at most one point among them,
and possibly an exponent. -/
def isFiniteDecimal (text : List Char) : Bool :=
  let whole := text.takeWhile (·.isDigit)
  let rest := text.dropWhile (·.isDigit)
  let (fraction, rest) : List Char × List Char := match rest with
    | '.' :: rest => (rest.takeWhile (·.isDigit), rest.dropWhile (·.isDigit))
    | rest => ([], rest)
  if whole.isEmpty && fraction.isEmpty then false
  else
    match Numeral.exponentOf? rest with
    | none => false
    | some exponent =>
      Numeral.isBelowLimit (ofDigits (whole ++ fraction)) (exponent - fraction.length)

/-- Whether a text is a number with a point or an exponent, or a word for infinity or for no
number. -/
def isDecimal (s : String) : Bool :=
  let text := match s.toList with
    | '+' :: text => text
    | text => text
  [".inf", ".Inf", ".INF", "+.inf", "+.Inf", "+.INF", "-.inf", "-.Inf", "-.INF", ".nan", ".NaN",
    ".NAN"].contains s ||
  match s.toList, text with
  | '+' :: _, '-' :: _ => false
  | _, '-' :: text => isFiniteDecimal text
  | _, text => isFiniteDecimal text

/-! ### Meanings -/

/-- The meaning of a text as an integer. -/
def integerMeaning? (s : String) : Option Meaning :=
  match natural? s with
  | some n =>
    if n < 1 <<< 64 then some (.natural n) else if n < 1 <<< 128 then some .wide else none
  | none =>
    match negated? s with
    | some n => if n ≤ 1 <<< 63 then some .negative else if n ≤ 1 <<< 127 then some .wide else none
    | none => none

/-- The meaning of a plain scalar. -/
def plainMeaning (s : String) : Meaning :=
  if s.isEmpty || isNothing s then .nothing
  else
    match truth? s with
    | some b => .truth b
    | none => (integerMeaning? s).getD
        (if !isPaddedDigits s && isDecimal s then .decimal else .text s)

/-- The meaning of a scalar with the given tag. No scalar is a variant, and a tag that starts like
the name of one but is no text is passed over. -/
def scalarMeaning (tag : Option Tag) (style : Style) (s : String) : Meaning :=
  let untagged := if style = .plain then plainMeaning s else .text s
  match tag with
  | none => untagged
  | some tag =>
    if tag.namesVariant then .contradiction
    else if tag.isLocal then untagged
    else if tag = .standard "bool" then ((truth? s).map .truth).getD .contradiction
    else if tag = .standard "int" then (integerMeaning? s).getD .contradiction
    else if tag = .standard "float" then if isDecimal s then .decimal else .contradiction
    else if tag = .standard "null" then if isNothing s then .nothing else .contradiction
    else .text s

end GraphGrammar.Yaml
