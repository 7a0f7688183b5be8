/-!
# Hexadecimal text

## Main definitions

* `GraphGrammar.hexText` and `GraphGrammar.ofHexText?` — bytes as pairs of lower-case digits.
-/

namespace GraphGrammar

/-- The digit for a number below sixteen. -/
def hexDigit (n : Nat) : Char := if n < 10 then Char.ofNat (48 + n) else Char.ofNat (87 + n)

/-- Bytes as text, two digits for each. -/
def hexText (bytes : List UInt8) : String :=
  String.ofList (bytes.flatMap fun b => [hexDigit (b.toNat / 16), hexDigit (b.toNat % 16)])

/-- The value of a digit, in either case. -/
def hexValue? (c : Char) : Option Nat :=
  if '0' ≤ c ∧ c ≤ '9' then some (c.toNat - 48)
  else if 'a' ≤ c ∧ c ≤ 'f' then some (c.toNat - 87)
  else if 'A' ≤ c ∧ c ≤ 'F' then some (c.toNat - 55)
  else none

/-- The bytes of a list of digits. -/
def ofHexDigits? : List Char → Option (List UInt8)
  | [] => some []
  | [_] => none
  | c :: d :: rest => do
    some (UInt8.ofNat (16 * (← hexValue? c) + (← hexValue? d)) :: (← ofHexDigits? rest))

/-- The bytes that a text stands for. -/
def ofHexText? (s : String) : Option (List UInt8) := ofHexDigits? s.toList

end GraphGrammar
