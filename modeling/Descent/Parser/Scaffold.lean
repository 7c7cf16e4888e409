import Descent.Grammar.Walk
import Descent.Output
import Descent.Session

/-
  This file defines the parts that the methods of a generated
  parser have in common: modifiers, the guard against too deep
  nesting, traces, and the methods written by hand.

  Key definitions include:
    * `Scaffold.depthCheck`
    * `Scaffold.depthCheckEnd`
    * `Scaffold.cppCode`
    * `Scaffold.javaCode`
-/

namespace Descent

namespace Scaffold

/- The name of the production that an expansion belongs to. -/
def productionName
    (g : Grammar)
    (id : ExpId) : String :=
  ((g.productionOf? id).map fun p => (g.production p).name).getD ""

/- A token expression as generated code names its kind. -/
def tokenLabel
    (g : Grammar)
    (s : Session)
    (id : RegexId) : String :=
  let r := g.regex id
  if r.label.isEmpty then
    (Assoc.get? r.kind s.namesOfTokens).getD (toString r.kind)
  else
    r.label

------------------------------------------------------------
-- Nesting
------------------------------------------------------------

/- The lines that count the nesting of methods at their start. -/
def depthCheck
    (o : Options)
    (isVoid : Bool) : List String :=
  let limit := o.depthLimit
  if limit == 0 then
    []
  else if o.isCpp then
    let leave := if isVoid then "return;" else "return __ERROR_RET__;"
    [ s!"if(jj_depth_error)\x7b {leave} \x7d",
      "__jj_depth_inc __jj_depth_counter(this);",
      s!"if(jj_depth > {limit}) \x7b",
      "  jj_depth_error = true;",
      "  jj_consume_token(-1);",
      "  errorHandler->handleParseError(token, getToken(1), __FUNCTION__, this), hasError = true;",
      s!"  {leave}",
      "\x7d" ]
  else
    [ s!"if(++jj_depth > {limit}) \x7b",
      "  jj_consume_token(-1);",
      "  throw new ParseException();",
      "\x7d",
      "try \x7b" ]

/- The lines that end the counting. -/
def depthCheckEnd
    (o : Options) : List String :=
  if o.depthLimit > 0 && !o.isCpp then
    [ " \x7d finally \x7b", "   --jj_depth;", " \x7d" ]
  else
    []

------------------------------------------------------------
-- Traces
------------------------------------------------------------

/- The lines that trace a method in C++. -/
def cppTrace
    (name : String) : List String :=
  [ s!"    JJEnter<std::function<void()>> jjenter([this]() \x7btrace_call  (\"{name}\"); \x7d);",
    s!"    JJExit <std::function<void()>> jjexit ([this]() \x7btrace_return(\"{name}\"); \x7d);" ]

/- The lines that end the trace of a method in Java. -/
def javaTraceEnd
    (name : String) : List String :=
  [ "    \x7d finally \x7b", s!"      trace_return(\"{name}\");", "    \x7d" ]

------------------------------------------------------------
-- Methods written by hand
------------------------------------------------------------

/- The exceptions of a method beyond the usual one. -/
def throwsText
    (p : Production) : String :=
  String.join (p.throws.map fun t => s!", {t}")

/- A method written by hand in C++. -/
def cppCode
    (o : Options)
    (p : Production)
    (code : String)
    (out : Output) : Output :=
  let name := Text.escapeUnicode p.name
  let out := (out.methodHeader p.returnType o.parserName s!"{p.name}({p.params})").line " \x7b"
  let out :=
    if o.debugParser then
      out.line "" |>.lines (cppTrace name) |>.line "    try \x7b"
    else
      out
  let out := (out.write code).line ""
  let out := if o.debugParser then out.line "    \x7d catch(...) \x7b \x7d" else out
  out.lines ["  \x7d", ""]

/- A method written by hand in Java. -/
def javaCode
    (o : Options)
    (p : Production)
    (code : String)
    (out : Output) : Output :=
  let name := Text.escapeUnicode p.name
  let access := (p.access.map fun a => s!"{a} ").getD ""
  let type := Text.trim p.returnType
  let out := out.write
    (s!"  {o.staticModifier}{access}{type} {p.name}({p.params}) throws ParseException" ++
      throwsText p ++ " \x7b")
  let out :=
    if o.debugParser then
      out.line "" |>.line s!"    trace_call(\"{name}\");" |>.write "    try \x7b"
    else
      out
  let out := (out.line "").write code |>.line ""
  let out := if o.debugParser then out.lines (javaTraceEnd name) else out
  out.lines ["  \x7d", ""]

end Scaffold

end Descent
