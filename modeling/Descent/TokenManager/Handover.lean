import Descent.Lexer.Tables
import Descent.TokenManager.Frame

/-
  This file defines the routines of a generated token manager
  between literals and the automaton.  When no literal goes on
  after a position, what the automaton has matched by then and
  the state that it has reached follow from the literals that
  were alive, so that no character is read twice.

  Key definitions include:
    * `Handover.stopAtPos`
    * `Handover.stopLiteral`
    * `Handover.startAutomaton`
    * `Handover.startWithState`
-/

namespace Descent

namespace Handover

------------------------------------------------------------
-- Ends of literals
------------------------------------------------------------

/- The routine that ends a token with a literal. -/
def stopAtPos
    (o : Options) : Frame.Routine :=
  Frame.privateRoutine o false "jjStopAtPos(int pos, int kind)"
    [ "   jjmatchedKind = kind;",
      "   jjmatchedPos = pos;",
      "   return pos + 1;" ]

/- The routine that goes on in the automaton after a literal has ended. -/
def startWithState
    (o : Options)
    (st : LexState) : Frame.Routine :=
  Frame.privateRoutine o false
    s!"jjStartNfaWithStates_{st.index}(int pos, int kind, int state)"
    ([ "   jjmatchedKind = kind;",
        "   jjmatchedPos = pos;" ] ++
      Frame.readCharOr o "   " "pos + 1" ++
      [ s!"   return jjMoveNfa_{st.index}(state, pos + 1);" ])

------------------------------------------------------------
-- Literals that do not go on
------------------------------------------------------------

/- The condition that some literal of a set was alive. -/
def aliveTest
    (o : Options)
    (words : Nat)
    (kinds : KindSet) : String :=
  let tests :=
    (kinds.words words).zipIdx.filterMap fun (w, j) =>
      if w == 0 then none else some s!"(active{j} & {Frame.word o w}) != 0L"
  " || ".intercalate tests

/- The lines that set kind and position inside a condition. -/
def guardedMatch
    (condition : String)
    (kind : Kind)
    (pos : Nat) : List String :=
  [ s!"            if ({condition})",
    "            \x7b",
    s!"               jjmatchedKind = {kind};",
    s!"               jjmatchedPos = {pos};",
    "            \x7d" ]

/-
  The lines that record what the automaton had matched after a
  position.  A later match by a literal is kept.
-/
def recordMatch
    (st : LexState)
    (pos : Nat)
    (r : Resume) : List String :=
  if pos == 0 then
    [s!"            jjmatchedKind = {r.kind};"] ++
      (if st.initMatch.isSome then ["            jjmatchedPos = 0;"] else [])
  else if pos == r.pos then
    if st.literals.subStringAt.getD pos false then
      guardedMatch s!"jjmatchedPos != {pos}" r.kind pos
    else
      [ s!"            jjmatchedKind = {r.kind};",
        s!"            jjmatchedPos = {pos};" ]
  else if r.pos > 0 then
    guardedMatch s!"jjmatchedPos < {r.pos}" r.kind r.pos
  else
    guardedMatch "jjmatchedPos == 0" r.kind r.pos

/- The line that returns the state of the automaton. -/
def returnState
    (q : Option StateId) : String :=
  s!"            return {Frame.orMinusOne q};"

/- The lines for literals that agree on what the automaton knows. -/
def bucketLines
    (o : Options)
    (st : LexState)
    (pos : Nat)
    (bucket : Resume × KindSet) : List String :=
  let (r, kinds) := bucket
  let test := aliveTest o st.literals.words kinds
  [s!"         if ({test})"] ++
    if r.kind == noKind then
      [returnState r.state]
    else
      [ "         \x7b" ] ++ recordMatch st pos r ++
        [ returnState r.state, "         \x7d" ]

/- The block for a position, if any literal is known there. -/
def positionLines
    (o : Options)
    (st : LexState)
    (pos : Nat) : List String :=
  match st.literals.buckets.getD pos [] with
  | [] => []
  | bs =>
      [s!"      case {pos}:"] ++ bs.flatMap (bucketLines o st pos) ++
        [ "         return -1;" ]

/- The words of literals as parameters. -/
def activeParams
    (o : Options)
    (t : LiteralTable) : String :=
  Frame.commas ((List.range t.words).map fun j => s!"{o.longType} active{j}")

/-
  The routine that says from which state the automaton goes on
  when the literals that were alive at a position end in
  nothing.  At the last position no literal is alive.
-/
def stopLiteral
    (o : Options)
    (st : LexState) : Frame.Routine :=
  let t := st.literals
  Frame.privateRoutine o true
    s!"jjStopStringLiteralDfa_{st.index}(int pos, {activeParams o t})"
    ([ "   switch (pos)", "   \x7b" ] ++
      (List.range (t.maxLen - 1)).flatMap (positionLines o st) ++
      [ "      default :",
        "         return -1;",
        "   \x7d" ])

/- The routine that goes on in the automaton from there. -/
def startAutomaton
    (o : Options)
    (st : LexState) : Frame.Routine :=
  let t := st.literals
  let n := st.index
  let args := Frame.commas ((List.range t.words).map fun j => s!"active{j}")
  Frame.privateRoutine o true s!"jjStartNfa_{n}(int pos, {activeParams o t})"
    [ if st.mixed then
        s!"   return jjMoveNfa_{n}(0, pos + 1);"
      else
        s!"   return jjMoveNfa_{n}(jjStopStringLiteralDfa_{n}(pos, {args}), pos + 1);" ]

end Handover

end Descent
