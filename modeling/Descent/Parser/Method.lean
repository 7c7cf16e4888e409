import Descent.Parser.Decision
import Descent.Parser.Scaffold

/-
  This file defines the methods of a generated parser.  Every
  production becomes a method whose body follows its
  expansion, with a decision at every choice point.

  Key definitions include:
    * `Method.body`
    * `Method.write`
-/

namespace Descent

namespace Method

open Fragment (ofText indent dedent raw)

------------------------------------------------------------
-- Pieces of a body
------------------------------------------------------------

/- The check that leaves a method after the first error. -/
def errorCheck
    (o : Options) : Fragment :=
  if o.isCpp && o.stopOnFirstError then
    ofText "\n    \x7b if (hasError) \x7b return __ERROR_RET__; \x7d \x7d\n"
  else
    []

/- The start of a statement that may keep a result. -/
def resultText : Option String → Fragment
  | some result => ofText s!"{result} = "
  | none => []

/- The statement that consumes a token. -/
def tokenStatement
    (o : Options)
    (label : String)
    (result member : Option String) : Fragment :=
  let tail := match member with
    | none => ");"
    | some m => (if o.isCpp then ")->" else ").") ++ m ++ ";"
  ofText "\n" ++ resultText result ++ ofText s!"jj_consume_token({label}{tail}" ++
    errorCheck o

/- The statement that calls the method of a production. -/
def callStatement
    (o : Options)
    (name : String)
    (result : Option String)
    (args : String) : Fragment :=
  ofText "\n" ++ resultText result ++ ofText s!"{name}({args});" ++ errorCheck o

/- What happens when no alternative can be taken. -/
def noAlternative
    (o : Options) : Fragment :=
  ofText "\njj_consume_token(-1);\n" ++
    if o.isCpp then
      ofText
        ("errorHandler->handleParseError(token, getToken(1), __FUNCTION__, this), " ++
          "hasError = true;") ++
        (if o.stopOnFirstError then ofText "return __ERROR_RET__;\n" else [])
    else
      ofText "throw new ParseException();"

/- The expansion is an action. -/
def isAction
    (g : Grammar)
    (id : ExpId) : Bool :=
  match g.form id with
  | .action _ => true
  | _ => false

/-
  A unit of a sequence.  Without exceptions every unit is
  guarded by the error flag, but for the last action of a
  production.
-/
def unitCode
    (g : Grammar)
    (o : Options)
    (seq unit : ExpId)
    (isLast : Bool)
    (code : Fragment) : Fragment :=
  if o.isCpp && (!isAction g unit || !g.isProductionBody seq || !isLast) then
    ofText "\nif (!hasError) \x7b" ++ code ++ ofText "\n\x7d"
  else
    code

/- A clause that catches an exception. -/
def catchCode
    (c : CatchClause) : Fragment :=
  ofText s!" catch ({c.type} {c.name}) \x7b" ++ raw c.code ++ ofText "\n\x7d"

/- A statement whose exceptions are caught. -/
def tryCode
    (body : Fragment)
    (catches : List CatchClause)
    (cleanup : Option String) : Fragment :=
  ofText "\ntry \x7b" ++ indent ++ body ++ dedent ++ ofText "\n\x7d" ++
    catches.flatMap catchCode ++
    match cleanup with
    | some code => ofText " finally \x7b" ++ raw code ++ ofText "\n\x7d"
    | none => []

/- Take the next label. -/
def takeLabel : StateM ParserTables Nat :=
  modifyGet fun t => (t.labelCount + 1, { t with labelCount := t.labelCount + 1 })

/- A loop that is left where its body cannot go on. -/
def loopCode
    (o : Options)
    (label : Nat)
    (before decision after : Fragment) : Fragment :=
  ofText "\n" ++
    (if o.isCpp then [] else ofText s!"label_{label}:\n") ++
    ofText (if o.isCpp then "while (!hasError) \x7b" else "while (true) \x7b") ++ indent ++
    before ++ decision ++ after ++ dedent ++ ofText "\n\x7d" ++
    (if o.isCpp then ofText s!"\nend_label_{label}: ;" else [])

/- The statement that leaves a loop. -/
def leaveLoop
    (o : Options)
    (label : Nat) : Fragment :=
  ofText (if o.isCpp then s!"\ngoto end_label_{label};" else s!"\nbreak label_{label};")

------------------------------------------------------------
-- Bodies
------------------------------------------------------------

/- The code of an expansion, to a given depth. -/
def bodyTo
    (g : Grammar)
    (s : Session) : Nat → ExpId → StateM ParserTables Fragment
  | 0, _ => return []
  | depth + 1, id =>
      let o := s.options
      match g.form id with
      | .terminal regex result member =>
          return tokenStatement o (Scaffold.tokenLabel g s regex) result member
      | .nonterminal name result args => return callStatement o name result args
      | .action code => return raw code
      | .choice alternatives => do
          let codes ← alternatives.mapM (bodyTo g s depth)
          let conditions := alternatives.map (conditionOfSequence g s)
          let d ← Decision.build g s (conditions.zip codes) (noAlternative o)
          return d.render s
      | .sequence units => do
          let units := units.drop 1
          let codes ← units.mapM (bodyTo g s depth)
          return (units.zip codes).zipIdx.flatMap fun ((unit, code), i) =>
            unitCode g o id unit (i + 1 == units.length) code
      | .oneOrMore body => do
          let label ← takeLabel
          let code ← bodyTo g s depth body
          let d ← Decision.build g s [(conditionOfSequence g s body, ofText "\n;")]
            (leaveLoop o label)
          return loopCode o label code (d.render s) []
      | .zeroOrMore body => do
          let label ← takeLabel
          let d ← Decision.build g s [(conditionOfSequence g s body, ofText "\n;")]
            (leaveLoop o label)
          let code ← bodyTo g s depth body
          return loopCode o label [] (d.render s) code
      | .zeroOrOne body => do
          let code ← bodyTo g s depth body
          let d ← Decision.build g s [(conditionOfSequence g s body, code)] (ofText "\n;")
          return d.render s
      | .tryBlock body catches cleanup => do
          let code ← bodyTo g s depth body
          return tryCode code catches cleanup
      | .lookahead _ => return []

/- The code of an expansion. -/
def body
    (g : Grammar)
    (s : Session)
    (id : ExpId) : StateM ParserTables Fragment :=
  bodyTo g s (g.expansions.size + 1) id

------------------------------------------------------------
-- Methods
------------------------------------------------------------

/- The lines that define what a method returns after an error. -/
def errorReturn
    (p : Production) : String :=
  let type := Text.trim p.returnType
  let value :=
    if type.toList.contains '*' then "NULL" else if type == "void" then "" else "0"
  s!"\n#if !defined ERROR_RET_{p.name}\n#define ERROR_RET_{p.name} {value}\n#endif\n" ++
    s!"#define __ERROR_RET__ ERROR_RET_{p.name}\n"

/- The header of a method. -/
def header
    (o : Options)
    (p : Production)
    (out : Output) : Output :=
  if o.isCpp then
    out.methodHeader p.returnType o.parserName s!"{p.name}({p.params})"
  else
    let access := p.access.getD "public"
    let type := Text.trim p.returnType
    out.write
      (s!"  {o.staticModifier}final {access} {type} {p.name}({p.params}) " ++
        "throws ParseException" ++ Scaffold.throwsText p)

/- The lines that start the trace of a method. -/
def traceStart
    (o : Options)
    (name : String) : List String :=
  if o.debugParser then
    [""] ++
      (if o.isCpp then Scaffold.cppTrace name else [ s!"    trace_call(\"{name}\");" ]) ++
      [ "    try \x7b" ]
  else
    []

/- The lines that end the trace of a method. -/
def traceEnd
    (o : Options)
    (name : String) : List String :=
  if o.debugParser then
    if o.isCpp then [ "    \x7d catch(...) \x7b \x7d" ] else Scaffold.javaTraceEnd name
  else
    []

/- The line after actions that leave a method which returns a value. -/
def missingReturn
    (o : Options)
    (p : Production) : List String :=
  if p.jumpPatched && !p.isVoid then
    if o.isCpp then
      [ "    throw \"Missing return statement in function\";" ]
    else
      let type := if o.legacyExceptionHandling then "Error" else "RuntimeException"
      [ s!"    throw new {type}(\"Missing return statement in function\");" ]
  else
    []

/- Write the method of a production. -/
def write
    (g : Grammar)
    (s : Session)
    (p : Production)
    (id : ExpId)
    (declarations : String)
    (out : Output)
    (t : ParserTables) : Output × ParserTables :=
  let o := s.options
  let name := Text.escapeUnicode p.name
  let definesReturn :=
    o.isCpp && (o.stopOnFirstError || (o.depthLimit > 0 && !p.isVoid))
  let out := (header o p out).write " \x7b"
  let out := if definesReturn then out.write (errorReturn p) else out
  let out := out.lines (Scaffold.depthCheck o p.isVoid) |>.lines (traceStart o name)
  let out :=
    if (Text.trim declarations).isEmpty then out else (out.line "").write declarations
  let (code, t) := (body g s id).run t
  let out := out.write (code.render (if o.debugParser then 6 else 4)).1 |>.line ""
  let out := out.lines (missingReturn o p) |>.lines (traceEnd o name)
  let out := if o.isCpp && !p.isVoid then out.line "assert(false);" else out
  let out := if definesReturn then out.line "\n#undef __ERROR_RET__\n" else out
  (out.lines (Scaffold.depthCheckEnd o) |>.lines ["\x7d", ""], t)

end Method

end Descent
