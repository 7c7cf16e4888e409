import Descent.Location

/-
  This file defines the causes that stop a run, and their
  wording.  Single problems of a grammar are collected as
  diagnostics instead.

  Key definitions include:
    * `Failure`
    * `Failure.message`
-/

namespace Descent

/- Why a run stopped. -/
inductive Failure where
  /- Errors had been recorded when a checkpoint was reached. -/
  | tooManyErrors (errors : Nat)
  /- A unicode escape in scanner input is malformed. -/
  | invalidEscape (at_ : Location)
  /- No token starts or ends where the scanner stands. -/
  | lexical (state : String) (at_ : Location) (found : String)
  /- The settings cannot be read. -/
  | badOptions
  /- A lexical state is used and not declared. -/
  | unknownLexicalState (name : String)
  deriving Repr, DecidableEq

/- The wording of a failure. -/
def Failure.message : Failure → String
  | .tooManyErrors errors =>
      s!"Detected {errors} errors; generation aborted."
  | .invalidEscape ⟨line, column⟩ =>
      s!"Invalid escape character at line {line} column {column}."
  | .lexical _ ⟨line, column⟩ found =>
      s!"Lexical error at line {line}, column {column}.  Encountered: {found}"
  | .badOptions =>
      "invalid options"
  | .unknownLexicalState name =>
      s!"lexical state \"{name}\" is not declared by the grammar"

end Descent
