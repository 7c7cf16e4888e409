import Descent.Grammar.Walk
import Descent.Session

/-
  This file defines which expansions match the empty sequence
  of tokens, by flags for the productions that are raised
  until a whole pass raises none.

  Key definitions include:
    * `Nullable.nullable`
    * `Nullable.raiseFlags`
    * `Nullable.checkRepetitions`
-/

namespace Descent

namespace Nullable

------------------------------------------------------------
-- Expansions
------------------------------------------------------------

/- The expansion matches the empty sequence, looked at to a given depth. -/
def nullableTo
    (g : Grammar)
    (flag : String → Bool) : Nat → ExpId → Bool
  | 0, _ => false
  | depth + 1, id =>
      match g.form id with
      | .nonterminal name _ _ => flag name
      | .action _ => true
      | .lookahead _ => true
      | .terminal _ _ _ => false
      | .oneOrMore body => nullableTo g flag depth body
      | .zeroOrMore _ => true
      | .zeroOrOne _ => true
      | .choice alternatives => alternatives.any (nullableTo g flag depth)
      | .sequence units => units.all (nullableTo g flag depth)
      | .tryBlock body _ _ => nullableTo g flag depth body

/- The flag of the production with a name. -/
def flagOf
    (s : Session)
    (name : String) : Bool :=
  match s.production? name with
  | some p => s.facts.emptyPossible.getD p false
  | none => false

/- The expansion matches the empty sequence as far as the flags tell. -/
def nullable
    (g : Grammar)
    (s : Session)
    (id : ExpId) : Bool :=
  nullableTo g (flagOf s) (g.expansions.size + 1) id

------------------------------------------------------------
-- Productions
------------------------------------------------------------

/- Raise the flag of a production. -/
def raise
    (s : Session)
    (p : ProdId) : Session :=
  { s with
    facts := { s.facts with emptyPossible := s.facts.emptyPossible.setIfInBounds p true } }

/- Look at one production; the result says whether its flag was raised. -/
def visitProduction
    (g : Grammar)
    (acc : Session × Bool)
    (entry : Production × ProdId) : Session × Bool :=
  let (s, changed) := acc
  let (p, id) := entry
  match p.expansion? with
  | none => (s, changed)
  | some body =>
      if !s.facts.emptyPossible.getD id true && nullable g s body then
        (raise s id, true)
      else
        (s, changed)

/- Look at all productions once. -/
def pass
    (g : Grammar)
    (s : Session) : Session × Bool :=
  g.productions.toList.zipIdx.foldl (visitProduction g) (s, false)

/- Passes until one raises no flag, and their number. -/
def passes
    (g : Grammar) : Nat → Nat → Session → Session × Nat
  | 0, count, s => (s, count)
  | fuel + 1, count, s =>
      let (s, changed) := pass g s
      if changed then passes g fuel (count + 1) s else (s, count + 1)

/-
  Raise the flags of all productions that match the empty
  sequence.  Every pass but the last raises a flag, so there
  is at most one pass more than there are productions.
-/
def raiseFlags
    (g : Grammar)
    (s : Session) : Session × Nat :=
  passes g (g.productions.size + 1) 0 s

------------------------------------------------------------
-- Repetitions
------------------------------------------------------------

/- The body of a repetition and how the repetition is written. -/
def repetition?
    (g : Grammar)
    (id : ExpId) : Option (ExpId × String) :=
  match g.form id with
  | .oneOrMore body => some (body, "(...)+")
  | .zeroOrMore body => some (body, "(...)*")
  | .zeroOrOne body => some (body, "(...)?")
  | _ => none

/- Check that a repetition consumes a token each time. -/
def checkRepetition
    (g : Grammar)
    (s : Session)
    (id : ExpId) : Session :=
  match repetition? g id with
  | some (body, image) =>
      if nullable g s body then
        s.error (g.place id)
          s!"Expansion within \"{image}\" can be matched by empty string."
      else
        s
  | none => s

/- Check all repetitions. -/
def checkRepetitions
    (g : Grammar)
    (s : Session) : Session :=
  ((g.productions.toList.filterMap Production.expansion?).flatMap
    (g.preOrder fun _ => true)).foldl (checkRepetition g) s

end Nullable

end Descent
