import Descent.Analysis
import Descent.Parser
import Descent.TokenManager

/-
  This file defines the generation of code from a grammar in
  its two steps: the grammar is analyzed, then the token
  manager and the parser are written.  Each step fails if
  errors have been recorded by its end.

  Key definitions include:
    * `GeneratedCode`
    * `Generation`
    * `Generation.advance`
    * `generate`
-/

namespace Descent

------------------------------------------------------------
-- Results
------------------------------------------------------------

/- What a run produces. -/
structure GeneratedCode where
  /- The lexer and its code, unless the user brings a token manager. -/
  tokenManager : Option (Lexer × Output)
  parser : Output
  /- The kinds that each decision expects, in words of 32 bits. -/
  masks : Array (List Nat)
  /- The number of entry points into speculation. -/
  entryCount : Nat
  diagnostics : Diagnostics
  deriving Repr, DecidableEq, Inhabited

/- The lexer of a grammar and its code, unless the user brings a token manager. -/
def produceTokenManager
    (g : Grammar)
    (s : Session) : Session × Except Failure (Option (Lexer × Output)) :=
  if s.options.userTokenManager then
    (s, .ok none)
  else
    let (s, built) := Lexer.build g s
    (s, built.map fun lx => some (lx, TokenManager.generate g s lx {}))

/- The code of an analyzed grammar. -/
def produce
    (g : Grammar)
    (s : Session) : Except Failure GeneratedCode := do
  let (s, built) := produceTokenManager g s
  let tokenManager ← built
  let (parser, s, result) := Parser.generate g s {}
  result
  return {
    tokenManager := tokenManager,
    parser := parser,
    masks := s.parser.masks,
    entryCount := s.parser.entryCount,
    diagnostics := s.diagnostics }

------------------------------------------------------------
-- Steps
------------------------------------------------------------

/- How far a run has come. -/
inductive Generation where
  | ready (g : Grammar) (s : Session)
  | analyzed (g : Grammar) (s : Session)
  | complete (code : GeneratedCode)

namespace Generation

/- A run that has not begun. -/
def start
    (g : Grammar)
    (o : Options) : Generation :=
  .ready g (Session.new o)

/- Take the next step; a complete run stays as it is. -/
def advance : Generation → Except Failure Generation
  | .ready g s => do
      let (g, s, result) := analyze g s
      result
      return .analyzed g s
  | .analyzed g s => do
      let code ← produce g s
      return .complete code
  | .complete code => .ok (.complete code)

/- Nothing is left to do. -/
def isComplete : Generation → Bool
  | .complete _ => true
  | _ => false

end Generation

/- Generate the code of a grammar. -/
def generate
    (g : Grammar)
    (o : Options) : Except Failure GeneratedCode := do
  let (g, s, result) := analyze g (Session.new o)
  result
  produce g s

end Descent
