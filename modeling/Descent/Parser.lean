import Descent.Parser.Method
import Descent.Parser.Speculation

/-
  This file defines the generation of a parser from an
  analyzed grammar: methods go to the main file, speculative
  routines to the header.

  Key definitions include:
    * `Parser.minimumSize`
    * `Parser.generate`
-/

namespace Descent

namespace Parser

/- The fewest tokens that an expansion consumes, remembered in the session. -/
def minimumSize
    (g : Grammar)
    (s : Session)
    (id : ExpId) : Nat × Session :=
  let (size, t) := (MinSize.remembered g s id).run s.parser
  (size, { s with parser := t })

/- Write the method of one production. -/
def writeProduction
    (g : Grammar)
    (acc : Output × Session)
    (p : Production) : Output × Session :=
  let (out, s) := acc
  match p.body with
  | .code .cpp code => (Scaffold.cppCode s.options p code out, s)
  | .code .java code =>
      if s.options.isCpp then
        (out, s.error p.place "Cannot use JAVACODE productions with C++ output (yet).")
      else
        (Scaffold.javaCode s.options p code out, s)
  | .rules id declarations =>
      let (out, t) := Method.write g s p id declarations out s.parser
      (out, { s with parser := t })

/-
  Write the parser of a grammar.  The session changes by
  tables and errors; what was written counts even if errors
  have been recorded.
-/
def generate
    (g : Grammar)
    (s : Session)
    (out : Output) : Output × Session × Except Failure Unit :=
  let (out, s) :=
    g.productions.toList.foldl (writeProduction g) (out, { s with parser := {} })
  let (out, t) := Speculation.writeAll g s (out.switch .header) s.parser
  (out.switch .main, { s with parser := t }, s.diagnostics.checkpoint)

end Parser

end Descent
