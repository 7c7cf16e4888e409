import Descent.TokenManager.Constants

/-
  This file defines the routines of a generated token manager
  that run the actions of kinds, one routine for each class.

  Key definitions include:
    * `Actions.casesOf`
    * `Actions.routine?`
    * `Actions.write`
-/

namespace Descent

namespace Actions

------------------------------------------------------------
-- Lines of code
------------------------------------------------------------

/- The lines of a text; a line end after the last line opens no new one. -/
def linesOf
    (text : String) : List (List Char) :=
  let lines := text.toList.splitOn '\n'
  if lines.getLast? == some [] then lines.dropLast else lines

/- A line without the blanks at its end. -/
def trimEnd
    (cs : List Char) : String :=
  String.ofList (cs.reverse.dropWhile Text.isBlank).reverse

------------------------------------------------------------
-- Routines
------------------------------------------------------------

/- A routine for the actions of a class. -/
structure Group where
  cls : TokenClass
  name : String
  deriving Repr, DecidableEq, Inhabited

/- The routines, in order. -/
def groups : List Group :=
  [ ⟨.skip, "SkipLexicalActions"⟩,
    ⟨.more, "MoreLexicalActions"⟩,
    ⟨.token, "TokenLexicalActions"⟩ ]

/- The kinds of a class and their actions; special tokens count as skipped. -/
def casesOf
    (s : Session)
    (lx : Lexer)
    (cls : TokenClass) : List (Kind × String) :=
  let atEnd := if cls == .token then s.eofAction?.toList.map fun a => (0, a) else []
  let others := lx.kinds.toList.zipIdx.filterMap fun (a, kind) => do
    let a ← a
    let action ← a.action
    if a.cls == cls || (cls == .skip && a.cls == .special) then
      some (kind, action)
    else
      none
  atEnd ++ others

/- The lines that bring the text of a token up to date before an action. -/
def imageLines
    (o : Options)
    (cls : TokenClass)
    (kind : Kind) : List String :=
  let s := Frame.stream o
  if cls == .more then
    [ s!"         image.append({s}GetSuffix(jjimageLen));",
      "         jjimageLen = 0;" ]
  else if kind != 0 then
    [ s!"         image.append({s}GetSuffix(jjimageLen + " ++
        "(lengthOfMatch = jjmatchedPos + 1)));" ]
  else
    []

/- The lines of one action. -/
def caseLines
    (o : Options)
    (cls : TokenClass)
    (entry : Kind × String) : List String :=
  let (kind, action) := entry
  [s!"      case {kind} :"] ++ imageLines o cls kind ++
    ((linesOf action).map fun l => "         " ++ trimEnd l) ++
    [ "         break;" ]

/- The routine for a class, if any kind of it has an action. -/
def routine?
    (s : Session)
    (lx : Lexer)
    (group : Group) : Option Frame.Routine :=
  let o := s.options
  let cls := group.cls
  match casesOf s lx cls with
  | [] => none
  | cases =>
      let params :=
        if cls == .more then ""
        else if o.isCpp then "Token *matchedToken"
        else "Token matchedToken"
      some
        { modifiers := o.staticModifier,
          returnType := "void",
          signature := s!"{group.name}({params})",
          body :=
            (if cls == .more then
              [ "   jjimageLen += (lengthOfMatch = jjmatchedPos + 1);" ]
            else
              []) ++
              [ "   switch(jjmatchedKind)", "   \x7b" ] ++
              cases.flatMap (caseLines o cls) ++
              [ "      default :",
                "         break;",
                "   \x7d" ] }

/- Write the routines for actions. -/
def write
    (s : Session)
    (lx : Lexer)
    (out : Output) : Output :=
  (groups.filterMap (routine? s lx)).foldl
    (fun out r => Frame.writeRoutine s.options (out.line "") r) out

end Actions

end Descent
