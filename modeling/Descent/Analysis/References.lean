import Descent.Grammar.Walk
import Descent.Session

/-
  This file defines the table of productions by name and the
  resolution of calls between productions.

  Key definitions include:
    * `References.enterProductions`
    * `References.resolve`
-/

namespace Descent

namespace References

/- Enter one production; the last one of a name wins. -/
def enterProduction
    (s : Session)
    (entry : Production × ProdId) : Session :=
  let (p, id) := entry
  let s :=
    if Assoc.contains p.name s.productionTable then
      s.error p.place s!"{p.name} occurs on the left hand side of more than one production."
    else
      s
  { s with productionTable := Assoc.insert p.name id s.productionTable }

/- Enter all productions and forget the facts about earlier ones. -/
def enterProductions
    (g : Grammar)
    (s : Session) : Session :=
  g.productions.toList.zipIdx.foldl enterProduction
    { s with facts := Facts.ofSize g.productions.size }

/- Resolve an expansion if it is a call. -/
def resolveCall
    (g : Grammar)
    (s : Session)
    (id : ExpId) : Session :=
  match g.form id with
  | .nonterminal name _ _ =>
      match s.production? name with
      | some target =>
          { s with
            facts :=
              { s.facts with
                callers := s.facts.callers.modify target (· ++ [id]) } }
      | none => s.error (g.place id) s!"Non-terminal {name} has not been defined."
  | _ => s

/- Resolve the calls of all productions. -/
def resolve
    (g : Grammar)
    (s : Session) : Session :=
  ((g.productions.toList.filterMap Production.expansion?).flatMap
    (g.preOrder fun _ => true)).foldl (resolveCall g) s

end References

end Descent
