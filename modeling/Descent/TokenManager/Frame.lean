import Descent.Options
import Descent.Output

/-
  This file defines the parts that the members of a generated
  token manager have in common: headers of routines, guarded
  reading of characters, words and arrays.

  Key definitions include:
    * `Frame.Routine`
    * `Frame.privateRoutine`
    * `Frame.writeRoutine`
    * `Frame.readChar`
    * `Frame.array`
-/

namespace Descent

namespace Frame

------------------------------------------------------------
-- Words
------------------------------------------------------------

/- The number one as a 64-bit literal. -/
def one
    (o : Options) : String :=
  if o.isCpp then "1ULL" else "1L"

/- A 64-bit word as a literal. -/
def word
    (o : Options)
    (w : Nat) : String :=
  s!"0x{Text.hex w}{o.longSuffix}"

/- The literal of the word without bits where a word is not passed on. -/
def noBits : String := "0L"

/- What stands before a member of the character stream. -/
def stream
    (o : Options) : String :=
  if o.isCpp then "input_stream->" else "input_stream."

/- What stands before a member of a token. -/
def arrow
    (o : Options) : String :=
  if o.isCpp then "->" else "."

/- No token. -/
def null
    (o : Options) : String :=
  if o.isCpp then "nullptr" else "null"

/- The type of tokens. -/
def tokenType
    (o : Options) : String :=
  if o.isCpp then "Token *" else "Token"

/- A number that may be missing. -/
def orMinusOne : Option Nat → String
  | some n => toString n
  | none => "-1"

/- Texts in a row. -/
def commas
    (texts : List String) : String :=
  ", ".intercalate texts

------------------------------------------------------------
-- Routines
------------------------------------------------------------

/- A member function of the token manager. -/
structure Routine where
  /- Where no header file declares it, what stands before the type. -/
  modifiers : String
  returnType : String
  signature : String
  body : List String
  deriving Repr, DecidableEq, Inhabited

/- A routine that only the token manager itself calls. -/
def privateRoutine
    (o : Options)
    (isFinal : Bool)
    (signature : String)
    (body : List String) : Routine :=
  let fixed := if isFinal then "final " else ""
  { modifiers := s!"private {o.staticModifier}{fixed}",
    returnType := "int",
    signature := signature,
    body := body }

/- Write a routine. -/
def writeRoutine
    (o : Options)
    (out : Output)
    (r : Routine) : Output :=
  let out :=
    if o.isCpp then
      (out.methodHeader r.returnType o.tokenManagerName r.signature).line ""
    else
      out.line s!"{r.modifiers}{r.returnType} {r.signature}"
  ((out.line "\x7b").lines r.body).line "\x7d"

------------------------------------------------------------
-- Reading characters
------------------------------------------------------------

/- The lines that read a character; some lines run at the end of the input. -/
def readChar
    (o : Options)
    (indent : String)
    (atEnd : List String) : List String :=
  let inner := atEnd.map fun l => s!"{indent}   {l}"
  if o.isCpp then
    [s!"{indent}if (input_stream->endOfInput()) \x7b"] ++ inner ++
      [s!"{indent}\x7d", s!"{indent}curChar = input_stream->readChar();"]
  else
    [ s!"{indent}try \x7b curChar = input_stream.readChar(); \x7d",
      s!"{indent}catch(java.io.IOException e) \x7b" ] ++ inner ++ [s!"{indent}\x7d"]

/- The lines that read a character, or return at the end of the input. -/
def readCharOr
    (o : Options)
    (indent result : String) : List String :=
  if o.isCpp then
    [ s!"{indent}if (input_stream->endOfInput()) \x7b return {result}; \x7d",
      s!"{indent}curChar = input_stream->readChar();" ]
  else
    [ s!"{indent}try \x7b curChar = input_stream.readChar(); \x7d",
      s!"{indent}catch(java.io.IOException e) \x7b return {result}; \x7d" ]

------------------------------------------------------------
-- Arrays
------------------------------------------------------------

/- Cells in lines of a given number, each line on its own. -/
def cellRows
    (perLine : Nat)
    (cells : List String) : String :=
  String.join
    (cells.zipIdx.map fun (cell, i) =>
      (if i % perLine == 0 then "\n   " else "") ++ cell ++ ", ")

/- An array: what stands before its cells, and the cells. -/
def array
    (start : String)
    (perLine : Nat)
    (cells : List String) : String :=
  s!"{start} = \x7b{cellRows perLine cells}\n\x7d;"

/- A constant array of numbers. -/
def intArray
    (o : Options)
    (name : String)
    (cells : List String) : String :=
  array (if o.isCpp then s!"static const int {name}[]" else s!"static final int[] {name}")
    16 cells

/- A constant array of 64-bit words. -/
def wordArray
    (o : Options)
    (name : String)
    (words : List Nat) : String :=
  array
    (if o.isCpp then s!"static const unsigned long long {name}[]"
      else s!"static final long[] {name}")
    4 (words.map (word o))

/- A constant text as an array of its characters, with a zero at the end. -/
def unitArray
    (units : List Nat) : String :=
  commas (units.map (fun u => s!"0x{Text.hex u}") ++ ["0"])

end Frame

end Descent
