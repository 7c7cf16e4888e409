import Descent.Assoc
import Descent.Diagnostic
import Descent.Grammar.Basic
import Descent.Options

/-
  This file defines what a run of the generator has found out:
  the tables that analysis fills and that the generators of
  the token manager and of the parser read.

  Key definitions include:
    * `WalkStatus`
    * `Facts`
    * `RoutineName`
    * `ScanRequest`
    * `ParserTables`
    * `Session`
-/

namespace Descent

------------------------------------------------------------
-- Facts about productions
------------------------------------------------------------

/- How far a search for cycles has come with a node. -/
inductive WalkStatus where
  | unvisited
  | onStack
  /- On the stack, and a cycle through it has been found. -/
  | onStackReported
  | done
  deriving Repr, DecidableEq, Inhabited

/- What analysis knows about each production. -/
structure Facts where
  /- It derives the empty sequence of tokens. -/
  emptyPossible : Array Bool := #[]
  /- The productions that it can begin with. -/
  leftExpansions : Array (List ProdId) := #[]
  walkStatus : Array WalkStatus := #[]
  /- The expansions that call it. -/
  callers : Array (List ExpId) := #[]
  deriving Repr, DecidableEq, Inhabited

/- Nothing is known about a number of productions. -/
def Facts.ofSize
    (n : Nat) : Facts :=
  { emptyPossible := Array.replicate n false,
    leftExpansions := Array.replicate n [],
    walkStatus := Array.replicate n .unvisited,
    callers := Array.replicate n [] }

/- What happens at the end of the file. -/
structure EofSpec where
  action : Option String
  nextState : Option String
  place : Location
  deriving Repr, DecidableEq, Inhabited

------------------------------------------------------------
-- Tables of the parser generator
------------------------------------------------------------

/- What a speculative routine is called. -/
inductive RoutineName where
  /- An entry point of a decision. -/
  | entry (n : Nat)
  /- A routine for an expansion of a production. -/
  | routine (production : String) (place : Location) (n : Nat)
  /- No routine of its own: one token is scanned in place. -/
  | token (kind : Kind)
  deriving Repr, DecidableEq, Inhabited

namespace RoutineName

/- The name as generated code writes it. -/
def text : RoutineName → String
  | .entry n => s!"_{n}"
  | .routine production place n =>
      s!"R_{production}_{place.line}_{place.column}_{n}"
  | .token kind => s!"jj_scan_token({kind})"

/- One token is scanned in place. -/
def isToken : RoutineName → Bool
  | .token _ => true
  | _ => false

end RoutineName

/- An expansion to look for within a number of tokens. -/
structure ScanRequest where
  exp : ExpId
  count : Nat
  deriving Repr, DecidableEq, Inhabited

/- What the parser generator keeps while it works. -/
structure ParserTables where
  /- The number of generated labels. -/
  labelCount : Nat := 0
  /- The number of entry points into speculation. -/
  entryCount : Nat := 0
  /- The number of token masks for error messages. -/
  maskCount : Nat := 0
  /- The kinds of each such mask, in words of 32 bits. -/
  masks : Array (List Nat) := #[]
  /- Some speculative routine evaluates a guard. -/
  lookaheadNeeded : Bool := false
  /- The names of speculative routines. -/
  routineNames : Assoc ExpId RoutineName := []
  routineIndex : Assoc ExpId Nat := []
  /- The entry points, in order. -/
  entries : Array ScanRequest := #[]
  /- All requests for routines, in order. -/
  requests : Array ScanRequest := #[]
  /- The largest request for each expansion, in order of the first one. -/
  routines : Assoc ExpId ScanRequest := []
  /- The known minimum sizes. -/
  minSizes : Assoc ExpId Nat := []
  /- The expansions whose sizes are being measured, the last one first. -/
  measuring : List ExpId := []
  deriving Repr, DecidableEq, Inhabited

------------------------------------------------------------
-- Sessions
------------------------------------------------------------

/- The state of a run. -/
structure Session where
  options : Options := {}
  diagnostics : Diagnostics := {}
  /- Productions by name. -/
  productionTable : Assoc String ProdId := []
  /- Token expressions by name. -/
  namedTokens : Assoc String RegexId := []
  /- The names of token kinds. -/
  namesOfTokens : Assoc Kind String := []
  /- The token expressions that define the kinds. -/
  regexesOfTokens : Assoc Kind RegexId := []
  /- The next token kind. -/
  tokenCount : Nat := 1
  /- For each lexical state, string literals by upper case form, then by text. -/
  simpleTokens : Assoc String (Assoc String (Assoc String RegexId)) := []
  eof : Option EofSpec := none
  facts : Facts := {}
  parser : ParserTables := {}
  deriving Repr, DecidableEq, Inhabited

namespace Session

/- The state before a run. -/
def new
    (options : Options) : Session :=
  { options := options }

/- Forget everything but the settings. -/
def reset
    (s : Session) : Session :=
  new s.options

/- The production of a name. -/
def production?
    (s : Session)
    (name : String) : Option ProdId :=
  Assoc.get? name s.productionTable

/- Record an error. -/
def error
    (s : Session)
    (place : Location)
    (message : String) : Session :=
  { s with diagnostics := s.diagnostics.error place message }

/- Record a warning. -/
def warning
    (s : Session)
    (place : Location)
    (message : String) : Session :=
  { s with diagnostics := s.diagnostics.warning place message }

/- Record a warning about the whole grammar. -/
def globalWarning
    (s : Session)
    (message : String) : Session :=
  { s with diagnostics := s.diagnostics.globalWarning message }

/- The token expression that defines a kind. -/
def definition?
    (s : Session)
    (g : Grammar)
    (kind : Kind) : Option RegexNode :=
  (Assoc.get? kind s.regexesOfTokens).map g.regex

end Session

end Descent
