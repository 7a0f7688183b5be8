/-!
# Reports of what went wrong

A report is the outward form of an error: the part of the library it belongs to, a stable code, a
message, the facts of the case under their names, and possibly a hint. Its one-line text is fixed
here.

## Main definitions

* `GraphGrammar.Family` — the parts of the library that reports belong to.
* `GraphGrammar.Context` — named facts, ascending by name.
* `GraphGrammar.Report` and `GraphGrammar.Report.text`.
-/

namespace GraphGrammar

/-- The part of the library that a report belongs to. -/
inductive Family where
  /-- The structure of graphs. -/
  | graph
  /-- The model of rules. -/
  | rule
  /-- The search for matches. -/
  | search
  /-- The application of rules. -/
  | application
  /-- Configurations. -/
  | config
  /-- Written forms. -/
  | writtenForm
deriving DecidableEq

namespace Family

/-- The name under which the family is written. -/
def name : Family → String
  | graph => "Graph"
  | rule => "Rule"
  | search => "Match"
  | application => "Apply"
  | config => "Config"
  | writtenForm => "Serde"

/-- The words that open the text of a report of the family. -/
def opening : Family → String
  | graph => "graph error: "
  | rule => "rule error: "
  | search => "match error: "
  | application => "apply error: "
  | config => "config error: "
  | writtenForm => "serde error: "

/-- The families in the order of their declaration. -/
def all : List Family := [graph, rule, search, application, config, writtenForm]

/-- The family written under a name. -/
def ofName? (name : String) : Option Family := all.find? fun f => f.name == name

end Family

/-- Named facts, ascending by name. -/
structure Context where
  /-- The facts with their names, ascending by name. -/
  entries : List (String × String)
  /-- No name occurs twice, and the names ascend. -/
  ascending : entries.Pairwise fun a b => a.1 < b.1
deriving DecidableEq

namespace Context

/-- No facts. -/
def empty : Context := ⟨[], List.Pairwise.nil⟩

/-- The facts `l` with the fact `value` under `name`, which replaces one of the same name. -/
def insertInto (name value : String) : List (String × String) → List (String × String)
  | [] => [(name, value)]
  | fact :: l =>
    if name < fact.1 then (name, value) :: fact :: l
    else if fact.1 < name then fact :: insertInto name value l
    else (fact.1, value) :: l

theorem mem_of_mem_insertInto {name value : String} {x : String × String}
    {l : List (String × String)} (h : x ∈ insertInto name value l) :
    x.1 = name ∨ ∃ y ∈ l, y.1 = x.1 := by
  induction l with
  | nil =>
    rw [insertInto, List.mem_singleton] at h
    exact Or.inl (h ▸ rfl)
  | cons fact l ih =>
    rw [insertInto] at h
    split at h
    · rcases List.mem_cons.mp h with rfl | h
      · exact Or.inl rfl
      · exact Or.inr ⟨x, h, rfl⟩
    · split at h
      · rcases List.mem_cons.mp h with rfl | h
        · exact Or.inr ⟨_, List.mem_cons_self .., rfl⟩
        · obtain h | ⟨y, hy, hyx⟩ := ih h
          · exact Or.inl h
          · exact Or.inr ⟨y, List.mem_cons_of_mem _ hy, hyx⟩
      · rcases List.mem_cons.mp h with rfl | h
        · exact Or.inr ⟨fact, List.mem_cons_self .., rfl⟩
        · exact Or.inr ⟨x, List.mem_cons_of_mem _ h, rfl⟩

theorem pairwise_insertInto (name value : String) {l : List (String × String)}
    (h : l.Pairwise fun a b => a.1 < b.1) :
    (insertInto name value l).Pairwise fun a b => a.1 < b.1 := by
  induction l with
  | nil => simp [insertInto]
  | cons fact l ih =>
    obtain ⟨hb, hl⟩ := List.pairwise_cons.mp h
    rw [insertInto]
    split
    · next hlt =>
      refine List.pairwise_cons.mpr ⟨fun x hx => ?_, h⟩
      rcases List.mem_cons.mp hx with rfl | hx
      · exact hlt
      · exact Trans.trans hlt (hb x hx)
    · split
      · next hgt =>
        refine List.pairwise_cons.mpr ⟨fun x hx => ?_, ih hl⟩
        obtain hx | ⟨y, hy, hyx⟩ := mem_of_mem_insertInto hx
        · exact hx ▸ hgt
        · exact hyx ▸ hb y hy
      · exact List.pairwise_cons.mpr ⟨hb, hl⟩

/-- The facts with `value` under `name`. -/
def insert (c : Context) (name value : String) : Context :=
  ⟨insertInto name value c.entries, pairwise_insertInto name value c.ascending⟩

/-- The facts of a list; of two under one name the later counts. -/
def ofList (l : List (String × String)) : Context :=
  l.foldl (fun c fact => c.insert fact.1 fact.2) empty

end Context

/-- The outward form of an error. -/
structure Report where
  /-- The part of the library it belongs to. -/
  family : Family
  /-- A stable code for programs. -/
  code : String
  /-- A message for people. -/
  message : String
  /-- The facts of the case. -/
  context : Context
  /-- What may help. -/
  hint : Option String
deriving DecidableEq

namespace Report

/-- The one-line text of a report: what it says, its code, its facts if there are any, and its
hint if there is one. -/
def text (r : Report) : String :=
  r.family.opening ++ r.message ++ " (code: " ++ r.code ++ ")" ++
    (if r.context.entries.isEmpty then ""
      else " | context: [" ++
        ", ".intercalate (r.context.entries.map fun fact => fact.1 ++ "=" ++ fact.2) ++ "]") ++
    (match r.hint with
      | none => ""
      | some hint => " | hint: " ++ hint)

end Report

end GraphGrammar
