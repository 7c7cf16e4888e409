/-
  This file defines pieces of generated code whose indentation
  is settled only when they are written, so that nested
  constructs can be put together from the inside out.

  Key definitions include:
    * `Fragment`
    * `Fragment.ofText`
    * `Fragment.raw`
    * `Fragment.render`
-/

namespace Descent

------------------------------------------------------------
-- Pieces
------------------------------------------------------------

/- One piece of a fragment. -/
inductive Piece where
  | text (s : String)
  | newline
  | indent
  | dedent
  /- From here on a new line starts in the first column. -/
  | rawStart
  /- From here on a new line is indented again. -/
  | rawEnd
  deriving Repr, DecidableEq

/- Generated code in pieces. -/
abbrev Fragment := List Piece

namespace Fragment

/- A text piece, or nothing for the empty text. -/
def textPiece
    (cs : List Char) : Fragment :=
  if cs.isEmpty then [] else [.text (String.ofList cs.reverse)]

/-
  Split characters at their line ends; the characters of the
  current line are kept in reverse.
-/
def splitLines
    (current : List Char) : List Char → Fragment
  | [] => textPiece current
  | '\r' :: '\n' :: rest => textPiece current ++ .newline :: splitLines [] rest
  | c :: rest =>
      if c == '\n' || c == '\r' then
        textPiece current ++ .newline :: splitLines [] rest
      else
        splitLines (c :: current) rest

/- A text whose line ends become places of indentation. -/
def ofText
    (s : String) : Fragment :=
  splitLines [] s.toList

/- Code taken over as it stands: a new line, then the code without indentation. -/
def raw
    (code : String) : Fragment :=
  .rawStart :: .newline :: ofText code ++ [.rawEnd]

/- One step further in. -/
def indent : Fragment :=
  [.indent]

/- One step back out. -/
def dedent : Fragment :=
  [.dedent]

------------------------------------------------------------
-- Writing
------------------------------------------------------------

/- The columns of one indentation step. -/
def step : Nat := 2

/- What writing keeps track of. -/
structure Pen where
  indent : Nat
  indenting : Bool := true
  out : String := ""

/- Write one piece. -/
def Pen.write
    (pen : Pen) : Piece → Pen
  | .text s => { pen with out := pen.out ++ s }
  | .newline =>
      let blanks := if pen.indenting then pen.indent else 0
      { pen with out := pen.out ++ "\n" ++ "".pushn ' ' blanks }
  | .indent => { pen with indent := pen.indent + step }
  | .dedent => { pen with indent := pen.indent - step }
  | .rawStart => { pen with indenting := false }
  | .rawEnd => { pen with indenting := true }

/-
  The text of a fragment that starts the given number of
  columns in, and the indentation after it.
-/
def render
    (f : Fragment)
    (indent : Nat) : String × Nat :=
  let pen := f.foldl Pen.write { indent := indent }
  (pen.out, pen.indent)

end Fragment

end Descent
