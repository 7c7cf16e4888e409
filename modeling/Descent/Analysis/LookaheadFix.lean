import Descent.Grammar.Walk
import Descent.Session

/-
  This file defines what becomes of a stated lookahead where
  there is no choice to make.  It is moved into a choice with
  one alternative right after the head of its sequence, where
  its guard is evaluated like any other; its amount has no
  meaning there and is dropped.

  Key definitions include:
    * `LookaheadFix.needsFix?`
    * `LookaheadFix.fixSequence`
    * `LookaheadFix.run`
-/

namespace Descent

namespace LookaheadFix

/- The owner of an expansion makes a choice between its parts. -/
def atChoicePoint
    (g : Grammar)
    (id : ExpId) : Bool :=
  match g.ownerNode? id with
  | none => false
  | some owner =>
      match g.form owner with
      | .choice _ => true
      | .zeroOrMore _ => true
      | .oneOrMore _ => true
      | .zeroOrOne _ => true
      | _ => false

/-
  The stated lookahead of a sequence that is not at a choice
  point, with the other units of the sequence.
-/
def needsFix?
    (g : Grammar)
    (id : ExpId) : Option (ExpId × Lookahead × List ExpId) :=
  if atChoicePoint g id then
    none
  else
    match g.form id with
    | .sequence (head :: rest) =>
        match g.form head with
        | .lookahead la => if la.explicit then some (head, la, rest) else none
        | _ => none
    | _ => none

/- The warning about a lookahead whose amount is dropped. -/
def droppedMessage
    (la : Lookahead) : String :=
  if la.guard.isSome then
    "Encountered LOOKAHEAD(...) at a non-choice location.  " ++
      "Only semantic lookahead will be considered here."
  else
    "Encountered LOOKAHEAD(...) at a non-choice location.  This will be ignored."

/- Move the lookahead of a sequence into a choice of its own. -/
def moveLookahead
    (g : Grammar)
    (id head : ExpId)
    (la : Lookahead)
    (rest : List ExpId) : Grammar :=
  let place := g.place head
  let (action, g) := g.addExpansion (.action "") place
  let (alternative, g) := g.addExpansion (.sequence [head, action]) place
  let (choice, g) := g.addExpansion (.choice [alternative]) place
  let (placeholder, g) :=
    g.addExpansion (.lookahead ⟨la.amount, false, none, none⟩) place
  let g := g.modifyNode head fun n => { n with form := .lookahead ⟨0, true, la.guard, none⟩ }
  let g := g.adopt alternative [head, action]
  let g := g.adopt choice [alternative]
  let g := g.adopt id [choice, placeholder]
  g.modifyNode id fun n => { n with form := .sequence (placeholder :: choice :: rest) }

/- Fix one expansion if it needs it. -/
def fixSequence
    (gs : Grammar × Session)
    (id : ExpId) : Grammar × Session :=
  let (g, s) := gs
  match needsFix? g id with
  | none => (g, s)
  | some (head, la, rest) =>
      let s := if la.amount != 0 then s.warning (g.place head) (droppedMessage la) else s
      (moveLookahead g id head la rest, s)

/- Fix the body of a production, inner expansions first. -/
def fixBody
    (gs : Grammar × Session)
    (body : ExpId) : Grammar × Session :=
  (gs.1.postOrder body).foldl fixSequence gs

/- Fix all productions. -/
def run
    (g : Grammar)
    (s : Session) : Grammar × Session :=
  (g.productions.toList.filterMap Production.expansion?).foldl fixBody (g, s)

end LookaheadFix

end Descent
