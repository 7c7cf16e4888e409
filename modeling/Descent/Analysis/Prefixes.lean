import Descent.Analysis.Nullable

/-
  This file defines the beginnings of token sequences up to a
  length: those that an expansion can start with, and those
  that can follow it.

  Key definitions include:
    * `Match`
    * `Prefixes.Setting`
    * `Prefixes.firstSet`
    * `Prefixes.followSet`
-/

namespace Descent

/-
  A beginning of a token sequence.  It keeps its number when
  it is handed on unchanged and gets a new one when it grows.
-/
structure Match where
  id : Nat
  tokens : List Kind
  deriving Repr, DecidableEq, Inhabited

namespace Prefixes

------------------------------------------------------------
-- What a walk knows
------------------------------------------------------------

/- What a walk is about. -/
structure Setting where
  grammar : Grammar
  session : Session
  /- The length at which a match is complete. -/
  limit : Nat
  /- A guard stops the walk. -/
  stopAtGuards : Bool := false

/- What a walk has come to. -/
structure Progress where
  /- The complete matches. -/
  complete : Array Match := #[]
  nextId : Nat := 0
  /- For each expansion, the last round in which its followers were asked for. -/
  marks : Assoc ExpId Nat := []
  nextRound : Nat := 1
  deriving Inhabited

/- A step of a walk. -/
abbrev Walk := StateM Progress

/- A match with a new number. -/
def newMatch
    (tokens : List Kind) : Walk Match :=
  modifyGet fun w => (⟨w.nextId + 1, tokens⟩, { w with nextId := w.nextId + 1 })

/- The empty match alone, with which a walk starts. -/
def emptyMatch : Walk (List Match) := do
  return [← newMatch []]

/- A new round. -/
def newRound : Walk Nat :=
  modifyGet fun w => (w.nextRound, { w with nextRound := w.nextRound + 1 })

/- Add complete matches. -/
def addComplete
    (ms : List Match) : Walk Unit :=
  modify fun w => { w with complete := w.complete ++ ms.toArray }

/- The complete matches, which are forgotten. -/
def takeComplete : Walk (List Match) :=
  modifyGet fun w => (w.complete.toList, { w with complete := #[] })

------------------------------------------------------------
-- First tokens
------------------------------------------------------------

/- Two lists hold the same matches, by number. -/
def sameMatches
    (a b : List Match) : Bool :=
  a.map (·.id) == b.map (·.id)

/- Let matches grow by a token; those that are complete are put aside. -/
def grow
    (limit : Nat)
    (kind : Kind) : List Match → Walk (List Match)
  | [] => return []
  | m :: ms => do
      let longer ← newMatch (m.tokens ++ [kind])
      if limit ≤ longer.tokens.length then
        addComplete [longer]
        grow limit kind ms
      else
        return longer :: (← grow limit kind ms)

/- Hand matches to the parts of a sequence until none is left. -/
def through
    (step : List Match → ExpId → Walk (List Match)) :
    List Match → List ExpId → Walk (List Match)
  | current, [] => return current
  | current, u :: us => do
      let current ← step current u
      if current.isEmpty then return [] else through step current us

/- Hand matches to each alternative. -/
def across
    (step : List Match → ExpId → Walk (List Match))
    (partials : List Match) : List ExpId → Walk (List Match)
  | [] => return []
  | alt :: alts => do
      let here ← step partials alt
      return here ++ (← across step partials alts)

/-
  Hand matches to a body again and again.  The matches of each
  time are collected until there are none, or no new ones.
  After so many times another walk takes over.
-/
def again
    (beyond : Walk (List Match))
    (step : List Match → Walk (List Match)) : Nat → List Match → Walk (List Match)
  | 0, _ => beyond
  | times + 1, current => do
      let next ← step current
      if next.isEmpty || sameMatches next current then
        return []
      else
        return next ++ (← again beyond step times next)

/-
  The number of times a body is tried.  Every time makes each
  match longer if the body consumes a token.
-/
def timesBound
    (c : Setting) : Nat :=
  c.limit + 2

/-
  Let matches grow by what an expansion starts with.  At a given
  depth another walk takes over.
-/
def firstSetTo
    (c : Setting)
    (beyond : Walk (List Match)) : Nat → List Match → ExpId → Walk (List Match)
  | 0, _, _ => beyond
  | depth + 1, partials, id =>
      match c.grammar.form id with
      | .terminal regex _ _ => grow c.limit (c.grammar.regex regex).kind partials
      | .nonterminal name _ _ =>
          match c.session.production? name with
          | none => return []
          | some p =>
              match (c.grammar.production p).body with
              | .rules body _ => firstSetTo c beyond depth partials body
              | .code _ _ => do
                  addComplete partials
                  return []
      | .choice alternatives => across (firstSetTo c beyond depth) partials alternatives
      | .sequence units => through (firstSetTo c beyond depth) partials units
      | .oneOrMore body =>
          again beyond (fun ms => firstSetTo c beyond depth ms body) (timesBound c) partials
      | .zeroOrMore body => do
          let step := fun ms => firstSetTo c beyond depth ms body
          let more ← again beyond step (timesBound c) partials
          return partials ++ more
      | .zeroOrOne body => do
          let more ← firstSetTo c beyond depth partials body
          return partials ++ more
      | .tryBlock body _ _ => firstSetTo c beyond depth partials body
      | .lookahead la =>
          if c.stopAtGuards && la.guard.isSome then return [] else return partials
      | .action _ => return partials

/-
  A depth that no walk exceeds in a grammar without left
  recursion: between two tokens no production is entered twice.
-/
def firstDepth
    (c : Setting) : Nat :=
  (c.limit + 2) * (c.grammar.expansions.size + 1) * (c.grammar.productions.size + 1)

/-
  Let matches grow by what an expansion starts with.  Complete
  matches are put aside, the others are the result.
-/
def firstSet
    (c : Setting)
    (partials : List Match)
    (id : ExpId) : Walk (List Match) :=
  firstSetTo c (return []) (firstDepth c) partials id

------------------------------------------------------------
-- Following tokens
------------------------------------------------------------

/-
  Ask for the followers of an expansion in a round; the answer
  is no when that was already done.
-/
def mark
    (id : ExpId)
    (round : Nat) : Walk Bool :=
  modifyGet fun w =>
    if Assoc.get? id w.marks == some round then
      (false, w)
    else
      (true, { w with marks := Assoc.insert id round w.marks })

/-
  Go on with matches after the owner of an expansion: those
  that have grown in a new round, then the others in this one.
-/
def splitFollow
    (follow : List Match → Nat → Walk (List Match))
    (matched before : List Match)
    (round : Nat) : Walk (List Match) := do
  let isOld := fun (m : Match) => before.any fun o => o.id == m.id
  let grown := matched.filter fun m => !isOld m
  let same := matched.filter isOld
  let out ←
    if grown.isEmpty then
      pure []
    else do
      let fresh ← newRound
      follow grown fresh
  if same.isEmpty then
    return out
  else
    return out ++ (← follow same round)

/- The units of a sequence after one of them. -/
def unitsAfter
    (units : List ExpId)
    (id : ExpId) : List ExpId :=
  (units.dropWhile (· != id)).drop 1

/-
  Let matches grow by what follows an expansion.  At a given
  depth another walk takes over.
-/
def followSetTo
    (c : Setting)
    (beyond : Walk (List Match)) : Nat → List Match → ExpId → Nat → Walk (List Match)
  | 0, _, _, _ => beyond
  | depth + 1, partials, id, round => do
      if !(← mark id round) then
        return []
      else
        match (c.grammar.node id).owner with
        | none => return partials
        | some (.production p) =>
            across (fun ms caller => followSetTo c beyond depth ms caller round) partials
              (c.session.facts.callers.getD p [])
        | some (.node owner) =>
            let first := firstSetTo c beyond (firstDepth c)
            let follow := fun ms r => followSetTo c beyond depth ms owner r
            match c.grammar.form owner with
            | .sequence units => do
                let current ← through first partials (unitsAfter units id)
                if current.isEmpty then
                  return []
                else
                  splitFollow follow current partials round
            | .oneOrMore _ => do
                let more ← again beyond (fun ms => first ms id) (timesBound c) partials
                splitFollow follow (partials ++ more) partials round
            | .zeroOrMore _ => do
                let more ← again beyond (fun ms => first ms id) (timesBound c) partials
                splitFollow follow (partials ++ more) partials round
            | _ => follow partials round

/-
  A depth for walks to followers.  In one round a way up comes
  to every expansion at most once, unless a later round has
  been there in between; ways up that so come back again and
  again never end.
-/
def followDepth
    (c : Setting) : Nat :=
  stackLevels + (c.limit + 2) * (c.grammar.expansions.size + 2)

/- Let matches grow by what follows an expansion. -/
def followSet
    (c : Setting)
    (partials : List Match)
    (id : ExpId)
    (round : Nat) : Walk (List Match) :=
  followSetTo c (return []) (followDepth c) partials id round

end Prefixes

end Descent
