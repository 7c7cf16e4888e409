import Descent.Analysis.Conflict
import Descent.Analysis.LeftRecursion
import Descent.Analysis.LookaheadFix
import Descent.Analysis.References
import Descent.Analysis.RegexLoop
import Descent.Analysis.TokenTable

/-
  This file defines the analysis of a grammar before any code
  is generated: lookaheads are put in order, names are
  resolved, tokens are numbered, and the grammar is checked
  for what a generated parser cannot deal with.

  Key definitions include:
    * `analyze`
-/

namespace Descent

namespace Analysis

/- Warn that a larger default lookahead turns the checks off. -/
def warnLookahead
    (s : Session) : Session :=
  let o := s.options
  if o.lookahead > 1 && !o.forceLaCheck && o.sanityCheck then
    s.globalWarning
      ("Lookahead adequacy checking not being performed since option LOOKAHEAD " ++
        "is more than 1.  Set option FORCE_LA_CHECK to true to force checking.")
  else
    s

/- Resolve names and number tokens. -/
def resolve
    (g : Grammar)
    (s : Session) : Grammar × Session :=
  let (g, s) := LookaheadFix.run g (warnLookahead s)
  let s := References.resolve g (References.enterProductions g s)
  let (g, s) := TokenTable.checkSections g s
  let s := TokenTable.collectNames g s
  let (g, s) := TokenTable.assignKinds g s
  if s.options.userTokenManager then
    TokenTable.numberReferences g s
  else
    TokenTable.resolveReferences g s

/- Look for empty repetitions, cycles and, if there are none, conflicts. -/
def sanityCheck
    (g : Grammar)
    (s : Session) : Session :=
  let s := Nullable.checkRepetitions g s
  let s := LeftRecursion.check g s
  let s := if s.options.userTokenManager then s else RegexLoop.check g s
  if s.diagnostics.errorCount == 0 then Conflict.check g s else s

end Analysis

/-
  Analyze a grammar.  The grammar and the session change even
  when the analysis stops at a checkpoint.
-/
def analyze
    (g : Grammar)
    (s : Session) : Grammar × Session × Except Failure Unit :=
  let (g, s) := Analysis.resolve g s
  match s.diagnostics.checkpoint with
  | .error e => (g, s, .error e)
  | .ok () =>
      let (s, _) := Nullable.raiseFlags g s
      let s := if s.options.sanityCheck then Analysis.sanityCheck g s else s
      (g, s, s.diagnostics.checkpoint)

end Descent
