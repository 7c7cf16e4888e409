import Descent.Grammar.Basic

/-
  This file defines walks over expansions and token
  expressions.  A walk goes down at most as many steps as
  there are nodes, which is enough in every grammar whose
  nodes are not their own parts.

  Key definitions include:
    * `stackLevels`
    * `Grammar.preOrder`
    * `Grammar.postOrder`
    * `Grammar.regexPreOrder`
    * `Grammar.productionOf?`
-/

namespace Descent

/-
  More levels than any stack holds.  A walk that comes to this
  depth would never come back.
-/
def stackLevels : Nat := 4294967296

namespace Grammar

------------------------------------------------------------
-- Walks down
------------------------------------------------------------

/- A node before its parts, to a given depth. -/
def preOrderTo
    (g : Grammar)
    (descend : Expansion → Bool) : Nat → ExpId → List ExpId
  | 0, _ => []
  | depth + 1, id =>
      id ::
        (if descend (g.form id) then
          (g.children id).flatMap (preOrderTo g descend depth)
        else
          [])

/-
  All nodes below an expansion, each before its parts, without
  the parts of nodes that are not descended into.
-/
def preOrder
    (g : Grammar)
    (descend : Expansion → Bool)
    (root : ExpId) : List ExpId :=
  g.preOrderTo descend (g.expansions.size + 1) root

/- A node after its parts, to a given depth. -/
def postOrderTo
    (g : Grammar) : Nat → ExpId → List ExpId
  | 0, _ => []
  | depth + 1, id =>
      (g.children id).flatMap (postOrderTo g depth) ++ [id]

/- All nodes below an expansion, each after its parts. -/
def postOrder
    (g : Grammar)
    (root : ExpId) : List ExpId :=
  g.postOrderTo (g.expansions.size + 1) root

/- A token expression before its parts, to a given depth. -/
def regexPreOrderTo
    (g : Grammar) : Nat → RegexId → List RegexId
  | 0, _ => []
  | depth + 1, id =>
      id :: (g.regexChildren id).flatMap (regexPreOrderTo g depth)

/- All parts of a token expression, each before its own parts. -/
def regexPreOrder
    (g : Grammar)
    (root : RegexId) : List RegexId :=
  g.regexPreOrderTo (g.regexes.size + 1) root

------------------------------------------------------------
-- The way up
------------------------------------------------------------

/- The production reached within a number of steps up. -/
def productionWithin?
    (g : Grammar) : Nat → ExpId → Option ProdId
  | 0, _ => none
  | steps + 1, id =>
      match (g.node id).owner with
      | some (.production p) => some p
      | some (.node up) => productionWithin? g steps up
      | none => none

/- The production whose body holds an expansion. -/
def productionOf?
    (g : Grammar)
    (id : ExpId) : Option ProdId :=
  g.productionWithin? (g.expansions.size + 1) id

end Grammar

end Descent
