import Descent.Failure

/-
  This file defines the record of problems found in a grammar.
  Analysis never stops at the first problem: it records each
  one, and a checkpoint between stages decides whether to go
  on.

  Key definitions include:
    * `Severity`
    * `Diagnostic`
    * `Diagnostic.text`
    * `Diagnostics`
    * `Diagnostics.checkpoint`
    * `Diagnostics.summary`
-/

namespace Descent

------------------------------------------------------------
-- One problem
------------------------------------------------------------

/- How bad a problem is. -/
inductive Severity where
  | error
  | warning
  deriving Repr, DecidableEq

/- A recorded problem; one of the whole grammar has no place. -/
structure Diagnostic where
  severity : Severity
  place : Option Location
  message : String
  deriving Repr, DecidableEq

/- The line that reports a problem. -/
def Diagnostic.text
    (d : Diagnostic) : String :=
  let kind := match d.severity with
    | .error => "Error"
    | .warning => "Warning"
  match d.place with
  | some ⟨line, column⟩ =>
      s!"{kind}: Line {line}, Column {column}: {d.message}"
  | none => s!"{kind}: {d.message}"

------------------------------------------------------------
-- The record
------------------------------------------------------------

/- The problems recorded so far, in order. -/
structure Diagnostics where
  entries : Array Diagnostic := #[]
  deriving Repr, DecidableEq, Inhabited

namespace Diagnostics

/- Record one problem. -/
def push
    (ds : Diagnostics)
    (d : Diagnostic) : Diagnostics :=
  ⟨ds.entries.push d⟩

/- Record an error. -/
def error
    (ds : Diagnostics)
    (place : Location)
    (message : String) : Diagnostics :=
  ds.push ⟨.error, some place, message⟩

/- Record a warning. -/
def warning
    (ds : Diagnostics)
    (place : Location)
    (message : String) : Diagnostics :=
  ds.push ⟨.warning, some place, message⟩

/- Record a warning about the whole grammar. -/
def globalWarning
    (ds : Diagnostics)
    (message : String) : Diagnostics :=
  ds.push ⟨.warning, none, message⟩

/- The problems of one severity, in order. -/
def ofSeverity
    (ds : Diagnostics)
    (severity : Severity) : List Diagnostic :=
  ds.entries.toList.filter (·.severity == severity)

/- The recorded errors. -/
def errors
    (ds : Diagnostics) : List Diagnostic :=
  ds.ofSeverity .error

/- The recorded warnings. -/
def warnings
    (ds : Diagnostics) : List Diagnostic :=
  ds.ofSeverity .warning

/- The number of errors. -/
def errorCount
    (ds : Diagnostics) : Nat :=
  ds.errors.length

/- The number of warnings. -/
def warningCount
    (ds : Diagnostics) : Nat :=
  ds.warnings.length

/- Stop once any error has been recorded. -/
def checkpoint
    (ds : Diagnostics) : Except Failure Unit :=
  if ds.errorCount > 0 then
    .error (.tooManyErrors ds.errorCount)
  else
    .ok ()

/- The closing line of a run. -/
def summary
    (ds : Diagnostics) : String :=
  s!"Detected {ds.errorCount} errors and {ds.warningCount} warnings."

end Diagnostics

end Descent
