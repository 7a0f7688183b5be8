/-!
# Numerals of JSON texts

A numeral is kept as it was written: an integer, or digits with a power of ten. Nothing is rounded.
What the readers of the library ask of a numeral is whether it is a natural number below a bound,
and whether it is finite as a double.

## Main definitions

* `GraphGrammar.Numeral`, `GraphGrammar.Numeral.ofText?`, `GraphGrammar.Numeral.text`.
* `GraphGrammar.Numeral.natural?`, `GraphGrammar.Numeral.isFinite`.
-/

namespace GraphGrammar

/-- The number with the given decimal digits. -/
def ofDigits (digits : List Char) : Nat := digits.foldl (fun n c => 10 * n + (c.toNat - 48)) 0

/-- A number as it is written. -/
inductive Numeral where
  /-- An integer, with its sign. -/
  | integer (negative : Bool) (magnitude : Nat)
  /-- Digits times a power of ten, written with a point or an exponent. -/
  | scaled (negative : Bool) (digits : Nat) (exponent : Int)
deriving DecidableEq

namespace Numeral

/-! ### Reading -/

/-- The exponent that a text starting with the letter for it gives. No text is no exponent. -/
def exponentOf? : List Char → Option Int
  | [] => some 0
  | c :: rest =>
    let (negative, digits) := match rest with
      | '-' :: digits => (true, digits)
      | '+' :: digits => (false, digits)
      | digits => (false, digits)
    if (c == 'e' || c == 'E') && !digits.isEmpty && digits.all (·.isDigit) then
      some (if negative then -(ofDigits digits : Int) else ofDigits digits)
    else none

/-- The numeral with the given sign whose unsigned text is given. -/
def ofUnsigned? (negative : Bool) (text : List Char) : Option Numeral :=
  let whole := text.takeWhile (·.isDigit)
  let rest := text.dropWhile (·.isDigit)
  if whole.isEmpty || (whole.head? == some '0' && 1 < whole.length) then none
  else
    match rest with
    | [] => some (integer negative (ofDigits whole))
    | '.' :: rest =>
      let fraction := rest.takeWhile (·.isDigit)
      if fraction.isEmpty then none
      else do
        let exponent ← exponentOf? (rest.dropWhile (·.isDigit))
        some (scaled negative (ofDigits (whole ++ fraction)) (exponent - fraction.length))
    | rest => do some (scaled negative (ofDigits whole) (← exponentOf? rest))

/-- The numeral that a text is. A leading zero is only allowed alone before the point. -/
def ofText? : List Char → Option Numeral
  | '-' :: text => ofUnsigned? true text
  | text => ofUnsigned? false text

/-! ### Writing -/

/-- The sign of a numeral. -/
def signText (negative : Bool) : String := if negative then "-" else ""

/-- A text of a numeral. -/
def text : Numeral → String
  | integer negative magnitude => signText negative ++ toString magnitude
  | scaled negative digits exponent =>
    signText negative ++ toString digits ++ "e" ++ toString exponent

/-! ### Questions -/

/-- The number, if the numeral is an integer without sign. -/
def natural? : Numeral → Option Nat
  | integer false magnitude => some magnitude
  | _ => none

/-! ### Doubles -/

/-- The smallest number that rounds to no finite double. -/
def doubleLimit : Nat := 1 <<< 1024 - 1 <<< 970

/-- Whether digits times a power of ten round to a finite double. A number with at most 308 places
before the point does, one with at least 310 does not. -/
def isBelowLimit (digits : Nat) (exponent : Int) : Bool :=
  let places := (toString digits).length + exponent
  digits == 0 || places ≤ 308 ||
    (places < 310 &&
      digits * Nat.pow 10 exponent.toNat < doubleLimit * Nat.pow 10 (-exponent).toNat)

/-- A number rounded to 53 significant bits. Of two numbers that are equally near, the one whose
last bit is zero is taken. -/
def roundToDouble (n : Nat) : Nat :=
  let unit := 1 <<< (n.log2 - 52)
  let quotient := n / unit
  let rest := n % unit
  if unit < 2 * rest || (unit == 2 * rest && quotient % 2 == 1) then (quotient + 1) * unit
  else quotient * unit

/-- The number of last digits of a number for which a word of 64 bits has no room. -/
def excessDigits (n : Nat) : Nat :=
  let count := (toString n).length
  if n / Nat.pow 10 (count - 20) < 1 <<< 64 then count - 20 else count - 19

/-- Whether the numeral is finite as a double. It is taken in steps: the leading digits, as many as
a word of 64 bits has room for, are rounded, and multiplied by a power of ten that is rounded by
itself. A number close to the limit may thereby fall on its other side. -/
def isFinite : Numeral → Bool
  | integer _ magnitude => isFiniteProduct magnitude 0
  | scaled _ digits exponent => isFiniteProduct digits exponent
where
  /-- Whether digits times a power of ten are finite in this way. -/
  isFiniteProduct (digits : Nat) (exponent : Int) : Bool :=
    let excess := excessDigits digits
    let leading := digits / Nat.pow 10 excess
    let exponent := exponent + excess
    leading == 0 || exponent < 0 ||
      (exponent ≤ 308 &&
        roundToDouble leading * roundToDouble (Nat.pow 10 exponent.toNat) < doubleLimit)

end Numeral

end GraphGrammar
