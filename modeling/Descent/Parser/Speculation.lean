import Descent.Parser.MinSize
import Descent.Parser.Scaffold

/-
  This file defines the routines of a generated parser that
  look for an expansion ahead of it.  A decision enters through
  an entry point with a budget of tokens; routines call each
  other, return true when they fail, and are cut off where the
  budget is used up.

  Key definitions include:
    * `Speculation.request`
    * `Speculation.requestParts`
    * `Speculation.requestAll`
    * `ScanStep`
    * `Speculation.steps`
    * `Speculation.entryLines`
    * `Speculation.routineLines`
-/

namespace Descent

namespace Speculation

------------------------------------------------------------
-- Requests
------------------------------------------------------------

/-
  The token that an expansion comes down to, if it goes
  through sequences of one unit and calls only.
-/
def soleToken?
    (g : Grammar)
    (s : Session) : Nat → ExpId → Option Kind
  | 0, _ => none
  | steps + 1, id =>
      match g.form id with
      | .sequence [_, unit] => soleToken? g s steps unit
      | .nonterminal name _ _ =>
          match bodyOf? g s name with
          | some body => soleToken? g s steps body
          | none => none
      | .terminal regex _ _ => some (g.regex regex).kind
      | _ => none

/- Name the routine of an expansion that has no name. -/
def nameRoutine
    (g : Grammar)
    (id : ExpId)
    (t : ParserTables) : ParserTables :=
  let n := t.labelCount + 1
  let name := .routine (Scaffold.productionName g id) (g.place id) n
  { t with
    labelCount := n,
    routineNames := Assoc.insertSorted id name t.routineNames,
    routineIndex := Assoc.insertSorted id n t.routineIndex }

/- Enter a request unless one with as large a budget is known. -/
def enter
    (r : ScanRequest)
    (t : ParserTables) : ParserTables :=
  match Assoc.get? r.exp t.routines with
  | some known =>
      if r.count ≤ known.count then
        t
      else
        { t with
          requests := t.requests.push r, routines := Assoc.insert r.exp r t.routines }
  | none =>
      { t with
        requests := t.requests.push r, routines := Assoc.insert r.exp r t.routines }

/-
  Request the routine of an expansion with a budget.  One that
  comes down to a token gets no routine when it is named.
-/
def request
    (g : Grammar)
    (s : Session)
    (id : ExpId)
    (count : Nat)
    (t : ParserTables) : ParserTables :=
  if Assoc.contains id t.routineNames then
    enter ⟨id, count⟩ t
  else
    match soleToken? g s (g.expansions.size + 1) id with
    | some kind =>
        { t with routineNames := Assoc.insertSorted id (.token kind) t.routineNames }
    | none => enter ⟨id, count⟩ (nameRoutine g id t)

/-
  Go through the units of a sequence while the budget lasts.
  Each unit uses up the fewest tokens that it consumes.
-/
def whileBudget
    {α : Type}
    (g : Grammar)
    (s : Session)
    (visit : ExpId → Nat → StateM ParserTables α) :
    Nat → List ExpId → StateM ParserTables (List α)
  | _, [] => return []
  | count, u :: us => do
      let here ← visit u count
      let left := count - (← MinSize.remembered g s u)
      if left == 0 then
        return [here]
      else
        return here :: (← whileBudget g s visit left us)

/- Request the routines that an expansion calls, to a given depth. -/
def requestPartsTo
    (g : Grammar)
    (s : Session) : Nat → ExpId → Nat → StateM ParserTables Unit
  | 0, _, _ => return ()
  | depth + 1, id, count =>
      match g.form id with
      | .nonterminal name _ _ =>
          match bodyOf? g s name with
          | some body => modify (request g s body count)
          | none => return ()
      | .choice alternatives =>
          modify fun t => alternatives.foldl (fun t alt => request g s alt count t) t
      | .sequence units => do
          let _ ← whileBudget g s (requestPartsTo g s depth) count (units.drop 1)
          return ()
      | .tryBlock body _ _ => requestPartsTo g s depth body count
      | .oneOrMore body => modify (request g s body count)
      | .zeroOrMore body => modify (request g s body count)
      | .zeroOrOne body => modify (request g s body count)
      | .terminal _ _ _ => return ()
      | .action _ => return ()
      | .lookahead _ => return ()

/- Request the routines that an expansion calls. -/
def requestParts
    (g : Grammar)
    (s : Session)
    (r : ScanRequest) : StateM ParserTables Unit :=
  requestPartsTo g s (g.expansions.size + 1) r.exp r.count

/- Go through the requests, which grow on the way. -/
def requestFrom
    (g : Grammar)
    (s : Session) : Nat → Nat → ParserTables → ParserTables
  | 0, _, t => t
  | fuel + 1, index, t =>
      match t.requests[index]? with
      | none => t
      | some r => requestFrom g s fuel (index + 1) ((requestParts g s r).run t).2

/-
  More requests than can be made: an expansion is requested
  again only with a larger budget, and no budget is larger
  than that of some entry point.
-/
def requestBound
    (g : Grammar)
    (t : ParserTables) : Nat :=
  t.requests.size +
    ((t.requests.toList.map (·.count)).foldl max 0 + 2) * (g.expansions.size + 1)

/- Request all routines that the entry points need. -/
def requestAll
    (g : Grammar)
    (s : Session)
    (t : ParserTables) : ParserTables :=
  requestFrom g s (requestBound g t) 0 t

------------------------------------------------------------
-- Steps of a routine
------------------------------------------------------------

end Speculation

/- One step of a routine; a call is that of the routine of an expansion. -/
inductive ScanStep where
  | token (label : String)
  | call (callee : ExpId)
  /- Code written by hand, which ends the search with success. -/
  | code
  /- Alternatives with their guards. -/
  | choice (alternatives : List (Option String × ExpId))
  | oneOrMore (callee : ExpId)
  | zeroOrMore (callee : ExpId)
  | zeroOrOne (callee : ExpId)
  deriving Repr, DecidableEq

namespace Speculation

/- The name of the routine of an expansion. -/
def nameOf?
    (t : ParserTables)
    (id : ExpId) : Option RoutineName :=
  Assoc.get? id t.routineNames

/- The expansion is scanned in place as one token. -/
def isInline
    (t : ParserTables)
    (id : ExpId) : Bool :=
  ((nameOf? t id).map RoutineName.isToken).getD false

/- The alternatives of a choice with their guards. -/
def guardedAlternatives
    (g : Grammar)
    (alternatives : List ExpId) : List (Option String × ExpId) :=
  alternatives.map fun alt => ((g.headLookahead? alt).bind (·.guard), alt)

/- Note that some routine evaluates a guard. -/
def noteGuards
    (alternatives : List (Option String × ExpId)) : StateM ParserTables Unit :=
  modify fun t =>
    { t with
      lookaheadNeeded := t.lookaheadNeeded || alternatives.any fun a => a.1.isSome }

/- The steps for an expansion within a budget, to a given depth. -/
def stepsTo
    (g : Grammar)
    (s : Session) : Nat → ExpId → Nat → StateM ParserTables (List ScanStep)
  | 0, _, _ => return []
  | depth + 1, id, count => do
      if isInline (← get) id then
        return []
      else
        match g.form id with
        | .terminal regex _ _ => return [.token (Scaffold.tokenLabel g s regex)]
        | .nonterminal name _ _ =>
            match bodyOf? g s name with
            | some body => return [.call body]
            | none => return [.code]
        | .choice alternatives => do
            let alternatives := guardedAlternatives g alternatives
            noteGuards alternatives
            return [.choice alternatives]
        | .sequence units => do
            let parts ← whileBudget g s (stepsTo g s depth) count (units.drop 1)
            return parts.flatten
        | .tryBlock body _ _ => stepsTo g s depth body count
        | .oneOrMore body => return [.oneOrMore body]
        | .zeroOrMore body => return [.zeroOrMore body]
        | .zeroOrOne body => return [.zeroOrOne body]
        | .action _ => return []
        | .lookahead _ => return []

/- The steps of a routine. -/
def steps
    (g : Grammar)
    (s : Session)
    (r : ScanRequest) : StateM ParserTables (List ScanStep) :=
  stepsTo g s (g.expansions.size + 1) r.exp r.count

------------------------------------------------------------
-- Writing
------------------------------------------------------------

/- The name of the routine of an expansion as generated code writes it. -/
def nameText
    (t : ParserTables)
    (id : ExpId) : String :=
  ((nameOf? t id).map RoutineName.text).getD ""

/- The call that tells whether an expansion fails. -/
def callText
    (t : ParserTables)
    (id : ExpId) : String :=
  if isInline t id then nameText t id else s!"jj_3{nameText t id}()"

/- The statement that leaves a routine, with the trace of a production. -/
def returnText
    (o : Options)
    (traced : Option String)
    (failed : Bool) : String :=
  let value := if failed then "true" else "false"
  match traced with
  | none => s!"return {value};"
  | some name =>
      let verdict := if failed then "FAILED" else "SUCCEEDED"
      let condition := if o.errorReporting then "if (!jj_rescan) " else ""
      s!"\x7b {condition}trace_return(\"{name}(LOOKAHEAD {verdict})\"); return {value}; \x7d"

/- The line that declares the saved position. -/
def savedPosition
    (o : Options) : String :=
  let type := if o.isCpp then "Token *" else "Token"
  s!"    {type} xsp;"

/- The lines for one alternative of a choice; the last one ends the search. -/
def alternativeLines
    (t : ParserTables)
    (fail : String)
    (isLast : Bool)
    (alternative : Option String × ExpId) : List String :=
  let (guard, alt) := alternative
  let before := match guard with
    | some code =>
        [ "    jj_lookingAhead = true;", s!"    jj_semLA = {code};",
          "    jj_lookingAhead = false;" ]
    | none => []
  let guardTest := if guard.isSome then "!jj_semLA || " else ""
  let call := callText t alt
  before ++
    if isLast then
      [ s!"    if ({guardTest}{call}) {fail}" ]
    else
      [ s!"    if ({guardTest}{call}) \x7b", "    jj_scanpos = xsp;" ]

/- The lines for the alternatives of a choice. -/
def choiceLines
    (t : ParserTables)
    (fail : String) : List (Option String × ExpId) → List String
  | [] => []
  | [alternative] => alternativeLines t fail true alternative
  | alternative :: rest =>
      alternativeLines t fail false alternative ++ choiceLines t fail rest

/- The step saves a position to come back to. -/
def savesPosition : ScanStep → Bool
  | .choice alternatives => alternatives.length != 1
  | .oneOrMore _ => true
  | .zeroOrMore _ => true
  | .zeroOrOne _ => true
  | .token _ => false
  | .call _ => false
  | .code => false

/- The loop that repeats a call until it fails. -/
def loopLines
    (call : String) : List String :=
  [ "    while (true) \x7b",
    "      xsp = jj_scanpos;",
    s!"      if ({call}) \x7b jj_scanpos = xsp; break; \x7d",
    "    \x7d" ]

/- The lines of a step. -/
def stepLines
    (o : Options)
    (t : ParserTables)
    (traced : Option String) : ScanStep → List String
  | .token label => [ s!"    if (jj_scan_token({label})) {returnText o traced true}" ]
  | .call callee => [ s!"    if ({callText t callee}) {returnText o traced true}" ]
  | .code =>
      [ "    if (true) \x7b jj_la = 0; jj_scanpos = jj_lastpos; " ++
          returnText o traced false ++ "\x7d" ]
  | .choice alternatives =>
      (if alternatives.length != 1 then [ "    xsp = jj_scanpos;" ] else []) ++
        choiceLines t (returnText o traced true) alternatives ++
        List.replicate (alternatives.length - 1) "    \x7d"
  | .oneOrMore callee =>
      s!"    if ({callText t callee}) {returnText o traced true}" ::
        loopLines (callText t callee)
  | .zeroOrMore callee => loopLines (callText t callee)
  | .zeroOrOne callee =>
      [ "    xsp = jj_scanpos;", s!"    if ({callText t callee}) jj_scanpos = xsp;" ]

/- The lines of steps; the saved position is declared before its first use. -/
def stepsLines
    (o : Options)
    (t : ParserTables)
    (traced : Option String)
    (declared : Bool) : List ScanStep → List String
  | [] => []
  | step :: rest =>
      let saves := savesPosition step
      (if saves && !declared then [savedPosition o] else []) ++
        stepLines o t traced step ++
        stepsLines o t traced (declared || saves) rest

/- The first line of a routine. -/
def routineHeader
    (o : Options)
    (signature : String) : String :=
  if o.isCpp then
    s!" inline bool {signature}"
  else
    s!"  {o.staticModifier}private {o.booleanType} {signature}"

/- The lines of a routine. -/
def routineLines
    (g : Grammar)
    (o : Options)
    (t : ParserTables)
    (id : ExpId)
    (steps : List ScanStep) : List String :=
  let traced :=
    if o.debugLookahead && g.isProductionBody id then
      some (Text.escapeUnicode (Scaffold.productionName g id))
    else
      none
  let traceLine := match traced with
    | some name =>
        let condition := if o.errorReporting then "if (!jj_rescan) " else ""
        [ s!"    {condition}trace_call(\"{name}(LOOKING AHEAD...)\");" ]
    | none => []
  let limited := o.isCpp && o.depthLimit > 0
  [ routineHeader o s!"jj_3{nameText t id}()", " \x7b" ] ++
    (if o.isCpp then [ "    if (jj_done) return true;" ] else []) ++
    (if limited then [ "#define __ERROR_RET__ true" ] else []) ++
    Scaffold.depthCheck o false ++ traceLine ++
    stepsLines o t traced false steps ++
    [ s!"    {returnText o traced false}" ] ++
    Scaffold.depthCheckEnd o ++
    (if limited then [ "#undef __ERROR_RET__" ] else []) ++
    [ "  \x7d", "" ]

/- The lines of an entry point. -/
def entryLines
    (o : Options)
    (t : ParserTables)
    (id : ExpId) : List String :=
  let name := nameText t id
  let depth := if o.depthLimit > 0 then " && !jj_depth_error" else ""
  let slot := ((Assoc.get? id t.routineIndex).getD 1) - 1
  [ routineHeader o s!"jj_2{name}(int xla)", " \x7b",
    "    jj_la = xla; jj_lastpos = jj_scanpos = token;" ] ++
    (if o.isCpp then
      [ "    jj_done = false;", s!"    return (!jj_3{name}() || jj_done){depth};" ]
    else
      [ s!"    try \x7b return (!jj_3{name}(){depth}); \x7d",
        "    catch(LookaheadSuccess ls) \x7b return true; \x7d" ]) ++
    (if o.errorReporting then
      [ (if o.isCpp then " " else "    finally ") ++ s!"\x7b jj_save({slot}, xla); \x7d" ]
    else
      []) ++
    [ "  \x7d", "" ]

/- Write an entry point and request its routine. -/
def writeEntry
    (o : Options)
    (acc : Output × ParserTables)
    (r : ScanRequest) : Output × ParserTables :=
  let (out, t) := acc
  (out.lines (entryLines o t r.exp),
   { t with requests := t.requests.push r, routines := Assoc.insert r.exp r t.routines })

/- Write a routine, unless it is a token in place. -/
def writeRoutine
    (g : Grammar)
    (s : Session)
    (acc : Output × ParserTables)
    (r : ScanRequest) : Output × ParserTables :=
  let (out, t) := acc
  if isInline t r.exp then
    (out, t)
  else
    let (steps, t) := (steps g s r).run t
    (out.lines (routineLines g s.options t r.exp steps), t)

/- Write all entry points and routines. -/
def writeAll
    (g : Grammar)
    (s : Session)
    (out : Output)
    (t : ParserTables) : Output × ParserTables :=
  let (out, t) := t.entries.toList.foldl (writeEntry s.options) (out, t)
  let t := requestAll g s t
  (t.routines.map (·.2)).foldl (writeRoutine g s) (out, t)

end Speculation

end Descent
