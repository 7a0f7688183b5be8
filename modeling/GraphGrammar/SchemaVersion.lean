/-!
# Versions of written forms

Every written graph and every written rule carries the version of its form. A reader accepts what
was written by its own major version, up to its own minor version.

## Main definitions

* `GraphGrammar.SchemaVersion` and its order.
* `GraphGrammar.SchemaVersion.reads` — which versions a reader accepts.
-/

namespace GraphGrammar

/-- The version of a written form. Versions are ordered by their parts, major first. -/
structure SchemaVersion where
  /-- Grows with changes that older readers cannot follow. -/
  major : UInt32
  /-- Grows with additions. -/
  minor : UInt32
  /-- Grows with corrections, which no reader looks at. -/
  patch : UInt32
deriving DecidableEq, Ord

namespace SchemaVersion

/-- Whether a reader of this version accepts what was written as `other`. -/
def reads (own other : SchemaVersion) : Bool := own.major == other.major && other.minor ≤ own.minor

/-- The version in full, as reports show it. -/
def text (v : SchemaVersion) : String :=
  "SchemaVersion \x7b major: " ++ toString v.major.toNat ++ ", minor: " ++ toString v.minor.toNat ++
    ", patch: " ++ toString v.patch.toNat ++ " \x7d"

/-- The version of written graphs. -/
def graphForm : SchemaVersion := ⟨1, 0, 0⟩

/-- The version of written rules. -/
def ruleForm : SchemaVersion := ⟨1, 0, 0⟩

end SchemaVersion

end GraphGrammar
