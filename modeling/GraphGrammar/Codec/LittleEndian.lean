/-!
# Numbers and texts as bytes

Numbers are written in a fixed number of bytes, the least significant first. A text is written as
its length in bytes, in eight bytes, followed by its bytes.

## Main definitions

* `GraphGrammar.littleEndian` and `GraphGrammar.ofLittleEndian`.
* `GraphGrammar.textBytes`.
-/

namespace GraphGrammar

/-- The `k` least significant bytes of a number, the least significant first. -/
def littleEndian (k n : Nat) : List UInt8 :=
  match k with
  | 0 => []
  | k + 1 => UInt8.ofNat n :: littleEndian k (n / 256)

/-- The number with the given bytes, the least significant first. -/
def ofLittleEndian : List UInt8 → Nat
  | [] => 0
  | b :: bytes => b.toNat + 256 * ofLittleEndian bytes

/-- A number in eight bytes. -/
def wordBytes (n : Nat) : List UInt8 := littleEndian 8 n

/-- A text as its length in bytes and its bytes. -/
def textBytes (s : String) : List UInt8 := wordBytes s.utf8ByteSize ++ s.toUTF8.toList

end GraphGrammar
