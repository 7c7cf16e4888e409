import Descent.Lexer.Tables
import Descent.TokenManager.Frame

/-
  This file defines the data of a generated token manager: its
  fields, the texts of literals, the names of lexical states,
  and which kinds belong to which class.

  Key definitions include:
    * `Constants.writeFields`
    * `Constants.images`
    * `Constants.stateNames`
    * `Constants.nextStates`
    * `Constants.classMask`
-/

namespace Descent

namespace Lexer

/- Some kind is of a class. -/
def hasClass
    (lx : Lexer)
    (cls : TokenClass) : Bool :=
  lx.kinds.any fun a => a.any (·.cls == cls)

/- Some kind of a class has an action. -/
def hasActionOf
    (lx : Lexer)
    (cls : TokenClass) : Bool :=
  lx.kinds.any fun a => a.any fun a => a.cls == cls && a.action.isSome

/- Some kind changes the lexical state. -/
def changesState
    (lx : Lexer) : Bool :=
  lx.kinds.any fun a => a.any (·.nextState.isSome)

end Lexer

/- What is done at the end of the file. -/
def Session.eofAction?
    (s : Session) : Option String :=
  s.eof.bind (·.action)

/- Something is done for some kind or at the end of the file. -/
def Lexer.hasActions
    (lx : Lexer)
    (s : Session) : Bool :=
  lx.kinds.any (fun a => a.any (·.action.isSome)) || s.eofAction?.isSome

namespace Constants

------------------------------------------------------------
-- Fields
------------------------------------------------------------

/- The token manager has to put texts of tokens together. -/
def keepsImage
    (s : Session)
    (lx : Lexer) : Bool :=
  lx.hasActions s || lx.hasClass .more

/- The fields in a header file. -/
def cppFields
    (withImage : Bool) : List String :=
  [ "  int curLexState = 0;",
    "  int defaultLexState = 0;",
    "  int jjmatchedPos;",
    "  int jjmatchedKind;",
    "  JJChar curChar;" ] ++
    if withImage then
      [ "  JJString jjimage;",
        "  JJString image;",
        "  int jjimageLen;",
        "  int lengthOfMatch;" ]
    else
      []

/- The fields in a class body. -/
def javaFields
    (withImage : Bool) : List String :=
  [ "int curLexState = 0;",
    "int defaultLexState = 0;",
    "int jjmatchedPos;",
    "int jjmatchedKind;",
    "protected char curChar;" ] ++
    if withImage then
      [ "StringBuilder jjimage = new StringBuilder();",
        "StringBuilder image = jjimage;",
        "int jjimageLen;",
        "int lengthOfMatch;" ]
    else
      []

/- Write the fields. -/
def writeFields
    (s : Session)
    (lx : Lexer)
    (out : Output) : Output :=
  let o := s.options
  if o.isCpp then
    ((out.switch .header).lines (cppFields (keepsImage s lx))).switch .main
  else
    out.lines ((javaFields (keepsImage s lx)).map fun l => o.staticModifier ++ l)

------------------------------------------------------------
-- Texts of literals
------------------------------------------------------------

/- The units of the one text of each kind. -/
def images
    (g : Grammar)
    (s : Session)
    (lx : Lexer) : List (Option (List Nat)) :=
  (List.range s.tokenCount).map fun k => (lx.literalImage? g k).map Text.units

/- The columns after which a list of texts goes on in a new line. -/
def lineWidth : Nat := 80

/-
  Entries in lines.  A line ends before the entry with which
  its width is reached, and that entry does not count towards
  the next line.
-/
def wrapFrom : Nat → List String → String
  | _, [] => ""
  | used, e :: es =>
      let used := used + e.length
      if used ≥ lineWidth then
        "\n" ++ e ++ wrapFrom 0 es
      else
        e ++ wrapFrom used es

/- A character inside a string literal of generated code. -/
def unitText
    (u : Nat) : String :=
  if u ≤ 0xff then
    "\\" ++ String.ofList (Nat.toDigits 8 u)
  else
    Text.unitEscape u

/- The entry of a kind in the array of texts. -/
def imageEntry : Option (List Nat) → String
  | none => "null, "
  | some us => "\"" ++ String.join (us.map unitText) ++ "\", "

/- The array of texts in a class body. -/
def javaImages
    (images : List (Option (List Nat))) : List String :=
  [ "",
    "/** Token literal values. */",
    "public static final String[] jjstrLiteralImages = \x7b" ++
      wrapFrom 0 (images.map imageEntry) ++ "\x7d;" ]

/- The array of texts in a header file. -/
def cppImages
    (images : List (Option (List Nat))) : List String :=
  [ "", "/** Token literal values. */" ] ++
    (images.zipIdx.map fun (image, k) =>
      s!"static JJChar jjstrLiteralChars_{k}[] = \x7b" ++
        Frame.unitArray (image.getD []) ++ "\x7d;") ++
    [ "",
      "static const JJString jjstrLiteralImages[] = \x7b" ++
        wrapFrom 0
          ((List.range images.length).map fun k => s!"jjstrLiteralChars_{k}, ") ++
        "\x7d;" ]

/- Write the texts of literals. -/
def writeImages
    (g : Grammar)
    (s : Session)
    (lx : Lexer)
    (out : Output) : Output :=
  if s.options.isCpp then
    ((out.switch .header).lines (cppImages (images g s lx))).switch .main
  else
    out.lines (javaImages (images g s lx))

------------------------------------------------------------
-- Lexical states
------------------------------------------------------------

/- The lines that list the names of lexical states. -/
def stateNames
    (o : Options)
    (names : List String) : List String :=
  [ "", "/** Lexer state names. */" ] ++
    if o.isCpp then
      (names.zipIdx.map fun (name, i) =>
        s!"static const JJChar lexStateNames_arr_{i}[] = \x7b" ++
          Frame.unitArray (Text.units name) ++ "\x7d;") ++
        [ "static const JJString lexStateNames[] = \x7b" ] ++
        ((List.range names.length).map fun i => s!"   lexStateNames_arr_{i}, ") ++
        [ "\x7d;" ]
    else
      [ "public static final String[] lexStateNames = \x7b" ] ++
        (names.map fun name => s!"   \"{name}\",") ++
        [ "\x7d;" ]

/- The lexical state after each kind; the end of the file is kind 0. -/
def nextStates
    (s : Session)
    (lx : Lexer) : List (Option Nat) :=
  (List.range s.tokenCount).map fun k =>
    let next := (lx.attrs? k).bind (·.nextState)
    if k == 0 then lx.eofNextState <|> next else next

/- The lines that list the lexical states after kinds, if any changes it. -/
def stateChanges
    (s : Session)
    (lx : Lexer) : List String :=
  if lx.changesState || lx.eofNextState.isSome then
    [ "",
      "/** Lex State array. */",
      Frame.array
        (if s.options.isCpp then "static const int jjnewLexState[]"
          else "public static final int[] jjnewLexState")
        25 ((nextStates s lx).map Frame.orMinusOne) ]
  else
    []

------------------------------------------------------------
-- Classes of kinds
------------------------------------------------------------

/- A kind counts as one of a class; special tokens are skipped too. -/
def countsAs
    (lx : Lexer)
    (cls : TokenClass)
    (kind : Kind) : Bool :=
  match lx.classOf? kind with
  | some c => c == cls || (c == .special && cls == .skip)
  | none => false

/- The kinds that count as ones of a class. -/
def classMask
    (s : Session)
    (lx : Lexer)
    (cls : TokenClass) : KindSet :=
  KindSet.ofList ((List.range s.tokenCount).filter (countsAs lx cls))

/- The lines that say which kinds belong to which class. -/
def classMasks
    (s : Session)
    (lx : Lexer) : List String :=
  let mask := fun name cls =>
    Frame.wordArray s.options name
      ((classMask s lx cls).words (s.tokenCount / KindSet.wordBits + 1))
  [mask "jjtoToken" .token, mask "jjtoSkip" .skip] ++
    (if lx.hasClass .special then [mask "jjtoSpecial" .special] else []) ++
    (if lx.hasClass .more then [mask "jjtoMore" .more] else [])

------------------------------------------------------------
-- All of them
------------------------------------------------------------

/- Write the data of the token manager. -/
def write
    (g : Grammar)
    (s : Session)
    (lx : Lexer)
    (out : Output) : Output :=
  let out := writeImages g s lx (writeFields s lx out)
  out.lines
    (stateNames s.options (lx.states.toList.map (·.name)) ++ stateChanges s lx ++
      classMasks s lx)

end Constants

end Descent
