import Descent.Analysis.Nullable
import Descent.Automaton.KindSet

/-
  This file defines what a decision on one token has to know
  about an expansion: the kinds that it can start with, whether
  a guard is met on the way, and whether it can begin with code
  written by hand.

  Key definitions include:
    * `First`
    * `firstOf`
    * `beginsWithCode`
-/

namespace Descent

------------------------------------------------------------
-- Productions written by hand
------------------------------------------------------------

/- The production of a name. -/
def productionNamed?
    (g : Grammar)
    (s : Session)
    (name : String) : Option Production :=
  (s.production? name).map g.production

/- The body of the production of a name, if it is not written by hand. -/
def bodyOf?
    (g : Grammar)
    (s : Session)
    (name : String) : Option ExpId :=
  (productionNamed? g s name).bind Production.expansion?

/- The expansion calls a production written by hand. -/
def callsCode
    (g : Grammar)
    (s : Session)
    (id : ExpId) : Bool :=
  match g.form id with
  | .nonterminal name _ _ => ((productionNamed? g s name).map Production.isCode).getD false
  | _ => false

/- The lookahead of a unit is stated in the grammar. -/
def isStatedLookahead
    (g : Grammar)
    (id : ExpId) : Bool :=
  match g.form id with
  | .lookahead la => la.explicit
  | _ => false

/-
  Some unit of a sequence begins with code, where units are
  tried until one is not empty or states a lookahead.
-/
def unitsBeginWithCode
    (g : Grammar)
    (s : Session)
    (begins : ExpId → Bool) : List ExpId → Bool
  | [] => false
  | u :: us =>
      if isStatedLookahead g u then
        false
      else
        begins u || (Nullable.nullable g s u && unitsBeginWithCode g s begins us)

/- The expansion can begin with code, looked at to a given depth. -/
def beginsWithCodeTo
    (g : Grammar)
    (s : Session) : Nat → ExpId → Bool
  | 0, _ => false
  | depth + 1, id =>
      match g.form id with
      | .nonterminal name _ _ =>
          match productionNamed? g s name with
          | none => false
          | some p =>
              match p.body with
              | .code _ _ => true
              | .rules body _ => beginsWithCodeTo g s depth body
      | .choice alternatives => alternatives.any (beginsWithCodeTo g s depth)
      | .sequence units => unitsBeginWithCode g s (beginsWithCodeTo g s depth) units
      | .oneOrMore body => beginsWithCodeTo g s depth body
      | .zeroOrMore body => beginsWithCodeTo g s depth body
      | .zeroOrOne body => beginsWithCodeTo g s depth body
      | .tryBlock body _ _ => beginsWithCodeTo g s depth body
      | .terminal _ _ _ => false
      | .action _ => false
      | .lookahead _ => false

/-
  The expansion can begin with code written by hand before a
  token or a stated lookahead.  A way down that is longer than
  the number of expansions would never end.
-/
def beginsWithCode
    (g : Grammar)
    (s : Session)
    (id : ExpId) : Bool :=
  beginsWithCodeTo g s (g.expansions.size + 1) id

------------------------------------------------------------
-- First kinds
------------------------------------------------------------

/- The kinds that an expansion starts with, and whether a guard was met. -/
structure First where
  kinds : KindSet := {}
  guarded : Bool := false
  deriving Repr, DecidableEq, Inhabited

namespace First

/- What two expansions start with. -/
def union
    (a b : First) : First :=
  ⟨⟨a.kinds.mask ||| b.kinds.mask⟩, a.guarded || b.guarded⟩

/- What several expansions start with. -/
def unions
    (fs : List First) : First :=
  fs.foldl union {}

end First

/- What is looked for by the lookahead before a unit, if it is not the sequence itself. -/
def scanBefore?
    (g : Grammar)
    (seq : ExpId) : Option ExpId → Option ExpId
  | none => none
  | some before =>
      match g.form before with
      | .lookahead la => la.target.filter (· != seq)
      | _ => none

/-
  What a sequence starts with.  Code written by hand starts
  with whatever the lookahead before it looks for.
-/
def firstOfUnits
    (g : Grammar)
    (s : Session)
    (first : ExpId → First)
    (seq : ExpId) : Option ExpId → List ExpId → First
  | _, [] => {}
  | before, u :: us =>
      let here :=
        if callsCode g s u then
          match scanBefore? g seq before with
          | some scan => first scan
          | none => {}
        else
          first u
      if Nullable.nullable g s u then
        here.union (firstOfUnits g s first seq (some u) us)
      else
        here

/- What an expansion starts with, looked at to a given depth. -/
def firstTo
    (g : Grammar)
    (s : Session) : Nat → ExpId → First
  | 0, _ => {}
  | depth + 1, id =>
      match g.form id with
      | .terminal regex _ _ =>
          let kind := (g.regex regex).kind
          { kinds := if kind < s.tokenCount then KindSet.empty.insert kind else {} }
      | .nonterminal name _ _ =>
          match bodyOf? g s name with
          | some body => firstTo g s depth body
          | none => {}
      | .choice alternatives => First.unions (alternatives.map (firstTo g s depth))
      | .sequence units =>
          let hasGuard := ((g.headLookahead? id).bind (·.guard)).isSome
          let f := firstOfUnits g s (firstTo g s depth) id none units
          { f with guarded := f.guarded || hasGuard }
      | .oneOrMore body => firstTo g s depth body
      | .zeroOrMore body => firstTo g s depth body
      | .zeroOrOne body => firstTo g s depth body
      | .tryBlock body _ _ => firstTo g s depth body
      | .action _ => {}
      | .lookahead _ => {}

/-
  A depth for what an expansion starts with.  Without left
  recursion no way down is longer than the number of
  expansions, unless it passes what a lookahead before code
  looks for; ways that so come back to themselves never end.
-/
def firstLevels
    (g : Grammar) : Nat :=
  stackLevels + (g.expansions.size + 1)

/- What an expansion starts with. -/
def firstOf
    (g : Grammar)
    (s : Session)
    (id : ExpId) : First :=
  firstTo g s (firstLevels g) id

end Descent
