import GraphGrammar.Codec.LittleEndian

/-!
# Reading the byte layout

A reader takes what it reads from the front of the bytes and leaves the rest. It fails when the
bytes end too early or a text is not valid UTF-8.

## Main definitions

* `GraphGrammar.ByteReader` and its readers for numbers, texts and counted lists.
-/

namespace GraphGrammar

/-- A function that reads a value from the front of a list of bytes. -/
def ByteReader (α : Type) : Type := List UInt8 → Option (α × List UInt8)

namespace ByteReader

/-- The next `n` bytes. -/
def bytes (n : Nat) : ByteReader (List UInt8) := fun input =>
  if n ≤ input.length then some (input.take n, input.drop n) else none

/-- A number in `n` bytes. -/
def number (n : Nat) : ByteReader Nat := fun input => do
  let (taken, rest) ← bytes n input
  some (ofLittleEndian taken, rest)

/-- A number in four bytes. -/
def word32 : ByteReader UInt32 := fun input => do
  let (n, rest) ← number 4 input
  some (UInt32.ofNat n, rest)

/-- A text behind the number of its bytes. -/
def text : ByteReader String := fun input => do
  let (n, rest) ← number 8 input
  let (taken, rest) ← bytes n rest
  some (← String.fromUTF8? ⟨taken.toArray⟩, rest)

/-- As many values as a number says. -/
def replicate {α : Type} (item : ByteReader α) : Nat → ByteReader (List α)
  | 0 => fun input => some ([], input)
  | n + 1 => fun input => do
    let (a, rest) ← item input
    let (as, rest) ← replicate item n rest
    some (a :: as, rest)

/-- A list behind the number of its members. -/
def list {α : Type} (item : ByteReader α) : ByteReader (List α) := fun input => do
  let (n, rest) ← number 8 input
  replicate item n rest

end ByteReader

end GraphGrammar
