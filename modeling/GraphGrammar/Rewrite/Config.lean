import GraphGrammar.Rewrite.Relabel
import GraphGrammar.Search.Config

/-!
# Settings of rewriting

## Main definitions

* `GraphGrammar.RewriteConfig`, `GraphGrammar.GrammarConfig`, their defaults and checks.
-/

namespace GraphGrammar

/-- The settings of the application of a rule. -/
structure RewriteConfig where
  /-- Whether every component of the left side acts on a copy of its own of the component of the
  target in which it was found. -/
  addEachComponent : Bool
  /-- How label changes write the new label. -/
  relabeling : Relabeling
deriving DecidableEq

namespace RewriteConfig

/-- One copy of the target, labels replaced. -/
def default : RewriteConfig := ⟨false, .replace⟩

/-- Refuses an empty separator. -/
def validate (c : RewriteConfig) : Except Fault Unit := c.relabeling.validate

end RewriteConfig

/-- The settings of searching and rewriting. -/
structure GrammarConfig where
  /-- The settings of the search for matches. -/
  search : SearchConfig
  /-- The settings of the application of rules. -/
  rewrite : RewriteConfig
deriving DecidableEq

namespace GrammarConfig

/-- The defaults of both parts. -/
def default : GrammarConfig := ⟨.default, .default⟩

/-- Checks both parts, the search first. -/
def validate (c : GrammarConfig) : Except Fault Unit := do
  c.search.validate
  c.rewrite.validate

end GrammarConfig

end GraphGrammar
