import Descent.TokenManager.Actions
import Descent.TokenManager.Cascade
import Descent.TokenManager.Handover
import Descent.TokenManager.Machine
import Descent.TokenManager.NextToken

/-
  This file defines the generation of a token manager from a
  lexer: its data, the routines of each lexical state, and the
  routines that its users call.

  Key definitions include:
    * `TokenManager.writeState`
    * `TokenManager.generate`
-/

namespace Descent

namespace TokenManager

/- Write the routines of a lexical state. -/
def writeState
    (o : Options)
    (out : Output)
    (st : LexState) : Output :=
  let both := st.hasNfa && st.literals.maxLen > 0
  let out :=
    if both then
      [Handover.stopLiteral o st, Handover.startAutomaton o st].foldl
        (Frame.writeRoutine o) out
    else
      out
  let out := Cascade.write o st out
  let out :=
    if both then Frame.writeRoutine o out (Handover.startWithState o st) else out
  if st.hasNfa then Machine.write o st out else out

/- Write the token manager of a lexer. -/
def generate
    (g : Grammar)
    (s : Session)
    (lx : Lexer)
    (out : Output) : Output :=
  let o := s.options
  let out := Constants.write g s lx out
  let out :=
    if lx.states.any fun st => st.literals.maxLen > 0 then
      Frame.writeRoutine o out (Handover.stopAtPos o)
    else
      out
  let out := lx.states.foldl (writeState o) out
  let out := Frame.writeRoutine o out (NextToken.fillToken o)
  let out :=
    NextToken.writeCommented o "/** Get the next Token. */" out
      (NextToken.getNextToken s lx)
  let out := Actions.write s lx out
  NextToken.writeCommented o "/** Switch to specified lex state. */" out
    (NextToken.switchTo o lx.states.size)

end TokenManager

end Descent
