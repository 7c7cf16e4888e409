import Descent.Lexer.Tables
import Descent.TokenManager.Frame

/-
  This file defines the routine of a generated token manager
  that runs the automaton of a lexical state.  Small automata
  are written as nested switches, large ones as a table.

  Key definitions include:
    * `Machine.isDirect`
    * `Machine.tables`
    * `Machine.transitions`
    * `Machine.write`
-/

namespace Descent

namespace Machine

/- The most states that are written as switches. -/
def directLimit : Nat := 30

/- The automaton is written as switches. -/
def isDirect
    (d : Dfa) : Bool :=
  d.states.size ≤ directLimit

------------------------------------------------------------
-- Tables
------------------------------------------------------------

/- The arrays of a state's automaton. -/
def tables
    (o : Options)
    (st : LexState) : List String :=
  let n := st.index
  let intervals := st.alphabet.intervals
  let states := st.dfa.states.toList
  [ Frame.intArray o s!"jjClassStart_{n}" (intervals.map fun (lo, _, _) => toString lo),
    Frame.intArray o s!"jjClassOf_{n}" (intervals.map fun (_, _, c) => toString c),
    Frame.intArray o s!"jjAccept_{n}"
      (states.map fun q => toString (q.accept.getD noKind)) ] ++
    if isDirect st.dfa then
      []
    else
      [ Frame.intArray o s!"jjNextState_{n}"
          (states.flatMap fun q => q.targets.map Frame.orMinusOne) ]

/- The lines of the search for the class of a character. -/
def classSearch
    (o : Options)
    (st : LexState) : List String :=
  let n := st.index
  let access := if o.isCpp then "static" else "private static"
  let last :=
    if o.isCpp then toString (st.alphabet.intervals.length - 1)
    else s!"jjClassStart_{n}.length - 1"
  let half := if o.isCpp then "/ 2" else ">>> 1"
  [ s!"{access} int jjCharClass_{n}(int c)",
    "\x7b",
    "   int lo = 0;",
    s!"   int hi = {last};",
    "   while (lo < hi)",
    "   \x7b",
    s!"      int mid = (lo + hi + 1) {half};",
    s!"      if (jjClassStart_{n}[mid] <= c)",
    "         lo = mid;",
    "      else",
    "         hi = mid - 1;",
    "   \x7d",
    s!"   return jjClassOf_{n}[lo];",
    "\x7d" ]

------------------------------------------------------------
-- Switches
------------------------------------------------------------

/- The classes that lead to each target, by ascending target. -/
def classesByTarget
    (q : DfaState) : Assoc StateId (List ClassId) :=
  q.targets.zipIdx.foldl
    (fun table (target, cls) =>
      match target with
      | some t => Assoc.alterSorted t (fun cs => cs.getD [] ++ [cls]) table
      | none => table)
    []

/- The lines that go to a target. -/
def targetLines
    (entry : StateId × List ClassId) : List String :=
  let (target, classes) := entry
  [ "               " ++ " ".intercalate (classes.map fun c => s!"case {c}:"),
    s!"                  state = {target};",
    "                  break;" ]

/- The lines of a state, if anything leads on from it. -/
def stateLines
    (entry : DfaState × StateId) : List String :=
  let (q, id) := entry
  match classesByTarget q with
  | [] => []
  | targets =>
      [ s!"         case {id}:",
        "            switch (cls)",
        "            \x7b" ] ++
        targets.flatMap targetLines ++
        [ "               default:",
          "                  state = -1;",
          "                  break;",
          "            \x7d",
          "            break;" ]

/- The lines of all transitions as switches. -/
def directLines
    (d : Dfa) : List String :=
  [ "      switch (state)", "      \x7b" ] ++
    d.states.toList.zipIdx.flatMap stateLines ++
    [ "         default:",
      "            state = -1;",
      "            break;",
      "      \x7d" ]

/- The lines that make one transition. -/
def transitions
    (st : LexState) : List String :=
  if isDirect st.dfa then
    directLines st.dfa
  else
    [s!"      state = jjNextState_{st.index}[state * {st.dfa.numClasses} + cls];"]

------------------------------------------------------------
-- The routine
------------------------------------------------------------

/- The routine that runs the automaton. -/
def run
    (o : Options)
    (st : LexState) : Frame.Routine :=
  let n := st.index
  Frame.privateRoutine o false s!"jjMoveNfa_{n}(int startState, int curPos)"
    ([ "   if (startState < 0)",
        "      return curPos + 1;",
        "   int state = startState;",
        "   for (;;)",
        "   \x7b",
        s!"      int cls = jjCharClass_{n}(curChar);" ] ++
      transitions st ++
      [ s!"      if (state >= 0 && jjAccept_{n}[state] != {noKind})",
        "      \x7b",
        s!"         jjmatchedKind = jjAccept_{n}[state];",
        "         jjmatchedPos = curPos;",
        "      \x7d",
        "      ++curPos;",
        "      if (state < 0)",
        "         return curPos;" ] ++
      Frame.readCharOr o "      " "curPos" ++
      [ "   \x7d" ])

/- Write the automaton of a state. -/
def write
    (o : Options)
    (st : LexState)
    (out : Output) : Output :=
  Frame.writeRoutine o (out.lines (tables o st ++ classSearch o st)) (run o st)

end Machine

end Descent
