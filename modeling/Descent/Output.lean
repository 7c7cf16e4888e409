import Descent.Text.Escape

/-
  This file defines where generated code goes: the main file,
  or the header with declarations and speculative routines.

  Key definitions include:
    * `Channel`
    * `Output`
    * `Output.methodHeader`
-/

namespace Descent

/- The two files of generated code. -/
inductive Channel where
  | main
  | header
  deriving Repr, DecidableEq, Inhabited

/- What both files hold so far, and which one is written to. -/
structure Output where
  main : String := ""
  header : String := ""
  channel : Channel := .main
  deriving Repr, DecidableEq, Inhabited

namespace Output

/- Append a text to the current file. -/
def write
    (out : Output)
    (text : String) : Output :=
  match out.channel with
  | .main => { out with main := out.main ++ text }
  | .header => { out with header := out.header ++ text }

/- Append a text and a line end to the current file. -/
def line
    (out : Output)
    (text : String) : Output :=
  (out.write text).write "\n"

/- Append several lines to the current file. -/
def lines
    (out : Output)
    (texts : List String) : Output :=
  texts.foldl line out

/- Go on in another file. -/
def switch
    (out : Output)
    (channel : Channel) : Output :=
  { out with channel := channel }

/-
  The two headers of a method that is defined outside its
  class: the declaration goes to the header file, the start of
  the definition to the main file.
-/
def methodHeader
    (out : Output)
    (returnType className signature : String) : Output :=
  let type := Text.trim returnType
  ((out.switch .header).line s!"  {type} {signature};")
    |>.switch .main
    |>.write s!"\n{type} {className}::{signature}"

end Output

end Descent
