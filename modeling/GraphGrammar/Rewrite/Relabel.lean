import GraphGrammar.Fault

/-!
# New labels for relabelled nodes

A label change gives a node the right label of the rule. With a separator, only the part of the
label before the first separator is replaced, and the rest is kept: `C:12` becomes `O:12`.

## Main definitions

* `GraphGrammar.afterFirst` — what follows the first separator.
* `GraphGrammar.Relabeling` and `GraphGrammar.Relabeling.relabel`.
-/

namespace GraphGrammar

/-- What follows the first occurrence of `separator`, if it occurs. -/
def afterFirst (separator : List Char) : List Char → Option (List Char)
  | [] => if separator.isEmpty then some [] else none
  | c :: l =>
    if separator.isPrefixOf (c :: l) then some ((c :: l).drop separator.length)
    else afterFirst separator l

/-- The label `right` followed by the separator and what follows it in `current`. Without a
separator in `current`, or with one in `right`, it is `right` alone. -/
def keepSuffix (separator current right : String) : String :=
  if separator.isEmpty || (afterFirst separator.toList right.toList).isSome then right
  else
    match afterFirst separator.toList current.toList with
    | none => right
    | some rest => right ++ separator ++ String.ofList rest

/-- How label changes write the new label. -/
inductive Relabeling where
  /-- The right label replaces the label. -/
  | replace
  /-- The right label replaces the part before the first separator. -/
  | preserveSuffix (separator : String)
deriving DecidableEq

namespace Relabeling

/-- The label that replaces `current`, where the rule has the right label `right`. -/
def relabel (mode : Relabeling) (current right : String) : String :=
  match mode with
  | replace => right
  | preserveSuffix separator => keepSuffix separator current right

/-- Refuses an empty separator. -/
def validate : Relabeling → Except Fault Unit
  | replace => .ok ()
  | preserveSuffix separator => if separator.isEmpty then .error .emptySeparator else .ok ()

end Relabeling

end GraphGrammar
