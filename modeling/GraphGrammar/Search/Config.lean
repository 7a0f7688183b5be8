import GraphGrammar.Fault
import GraphGrammar.Pattern.Constraint

/-!
# Settings of a search

## Main definitions

* `GraphGrammar.SearchConfig`, its default, and `GraphGrammar.SearchConfig.validate`.
-/

namespace GraphGrammar

/-- The settings of a search for matches. -/
structure SearchConfig where
  /-- The number of hits after which a search ends. -/
  maxHits : Nat
  /-- Whether symmetric matches are reported once. -/
  symmetryBreaking : Bool
  /-- The number of automorphisms after which their enumeration ends. -/
  maxAutomorphisms : Nat
deriving DecidableEq

namespace SearchConfig

/-- All hits, symmetric matches once. -/
def default : SearchConfig := ⟨countLimit, true, 4096⟩

/-- Refuses settings under which not even the identity would be found. -/
def validate (c : SearchConfig) : Except Fault Unit :=
  if c.maxAutomorphisms = 0 then .error .noAutomorphisms else .ok ()

end SearchConfig

end GraphGrammar
