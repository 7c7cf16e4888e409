import Descent.TokenManager.Constants

/-
  This file defines the routines of a generated token manager
  that its users call: the next token, and the change of the
  lexical state.

  Key definitions include:
    * `NextToken.fillToken`
    * `NextToken.stateMatch`
    * `NextToken.getNextToken`
    * `NextToken.switchTo`
-/

namespace Descent

namespace NextToken

------------------------------------------------------------
-- Making tokens
------------------------------------------------------------

/- The places of a token, as fields and as what the stream calls them. -/
def placeFields : List (String × String) :=
  [ ("beginLine", "getBeginLine"),
    ("endLine", "getEndLine"),
    ("beginColumn", "getBeginColumn"),
    ("endColumn", "getEndColumn") ]

/- The routine that makes a token of what has been matched. -/
def fillToken
    (o : Options) : Frame.Routine :=
  let s := Frame.stream o
  let start :=
    if o.isCpp then
      [ "   Token *t;",
        "   JJString curTokenImage;",
        "   JJString im = jjstrLiteralImages[jjmatchedKind];",
        s!"   curTokenImage = (im.length() == 0) ? {s}GetImage() : im;",
        "   t = Token::newToken(jjmatchedKind, curTokenImage);",
        "   t->specialToken = nullptr;",
        "   t->next = nullptr;" ]
    else
      [ "   final Token t;",
        "   final String curTokenImage;",
        "   String im = jjstrLiteralImages[jjmatchedKind];",
        s!"   curTokenImage = (im == null) ? {s}GetImage() : im;",
        "   t = Token.newToken(jjmatchedKind, curTokenImage);" ]
  let places := placeFields.map fun (field, getter) =>
    s!"   t{Frame.arrow o}{field} = {s}{getter}();"
  { modifiers := s!"protected {o.staticModifier}",
    returnType := Frame.tokenType o,
    signature := "jjFillToken()",
    body := start ++ places ++ [ "   return t;" ] }

------------------------------------------------------------
-- Matching in a state
------------------------------------------------------------

/- A set of characters below 128 in two words. -/
def charWords
    (cs : List Nat) : Nat × Nat :=
  let mask := (cs.filter (· < 128)).foldl (fun m c => m ||| 1 <<< c) 0
  (mask % (1 <<< 64), mask >>> 64)

/- The condition that the current character is one to pass over, if there are any. -/
def skipCondition?
    (o : Options)
    (st : LexState) : Option String :=
  let (low, high) := charWords (st.skipChars.map (·.1))
  let one := Frame.one o
  let parts :=
    (if low == 0 then []
      else [s!"curChar <= 63 && ({Frame.word o low} & ({one} << curChar)) != 0L"]) ++
    (if high == 0 then []
      else
        [ s!"curChar > 63 && curChar < 128 && ({Frame.word o high} & " ++
            s!"({one} << (curChar & 077))) != 0L" ])
  if parts.isEmpty then none else some (" || ".intercalate parts)

/- The lines that pass over characters. -/
def skipLines
    (o : Options)
    (st : LexState)
    (indent : String) : List String :=
  match skipCondition? o st with
  | none => []
  | some condition =>
      if o.isCpp then
        [ s!"{indent}input_stream->backup(0);",
          s!"{indent}while ({condition})",
          s!"{indent}\x7b",
          s!"{indent}   if (input_stream->endOfInput()) goto EOFLoop;",
          s!"{indent}   curChar = input_stream->BeginToken();",
          s!"{indent}\x7d" ]
      else
        [ s!"{indent}try \x7b input_stream.backup(0);",
          s!"{indent}   while ({condition})",
          s!"{indent}      curChar = input_stream.BeginToken();",
          s!"{indent}\x7d",
          s!"{indent}catch (java.io.IOException e1) \x7b continue EOFLoop; \x7d" ]

/- The lines that say what is matched before any character is. -/
def initLines
    (st : LexState)
    (indent : String) : List String :=
  match st.initMatch with
  | some kind =>
      [ s!"{indent}jjmatchedKind = {kind};",
        s!"{indent}jjmatchedPos = -1;",
        s!"{indent}curPos = 0;" ]
  | none =>
      [ s!"{indent}jjmatchedKind = {noKind};",
        s!"{indent}jjmatchedPos = 0;" ]

/- The lines by which a wildcard wins over larger kinds of one character. -/
def wildcardLines
    (st : LexState)
    (indent : String) : List String :=
  match st.anyChar with
  | none => []
  | some any =>
      if st.initMatch.isSome then
        [ s!"{indent}if (jjmatchedPos < 0 || (jjmatchedPos == 0 && jjmatchedKind > {any}))",
          s!"{indent}\x7b",
          s!"{indent}   jjmatchedKind = {any};",
          s!"{indent}   jjmatchedPos = 0;",
          s!"{indent}\x7d" ]
      else
        [ s!"{indent}if (jjmatchedPos == 0 && jjmatchedKind > {any})",
          s!"{indent}\x7b",
          s!"{indent}   jjmatchedKind = {any};",
          s!"{indent}\x7d" ]

/- The lines that match a token in a state. -/
def stateMatch
    (o : Options)
    (indent : String)
    (st : LexState) : List String :=
  skipLines o st indent ++ initLines st indent ++
    [s!"{indent}curPos = jjMoveStringLiteralDfa0_{st.index}();"] ++
    wildcardLines st indent

/- The lines that match a token in the current state. -/
def matchLines
    (o : Options)
    (lx : Lexer) : List String :=
  match lx.states.toList with
  | [] => []
  | [st] => stateMatch o "   " st
  | sts =>
      [ "   switch(curLexState)", "   \x7b" ] ++
        (sts.flatMap fun st =>
          [s!"     case {st.index}:"] ++ stateMatch o "       " st ++ [ "       break;" ]) ++
        [ "   \x7d" ]

------------------------------------------------------------
-- What a match leads to
------------------------------------------------------------

/- The condition that the matched kind is in a table. -/
def maskTest
    (o : Options)
    (table : String) : String :=
  s!"({table}[jjmatchedKind >> 6] & ({Frame.one o} << (jjmatchedKind & 077))) != 0L"

/- A line that stands only under a condition. -/
def lineIf
    (b : Bool)
    (line : String) : List String :=
  if b then [line] else []

/- The lines for the end of the input. -/
def eofLines
    (s : Session)
    (lx : Lexer) : List String :=
  [ "      jjmatchedKind = 0;",
    "      jjmatchedPos = -1;",
    "      matchedToken = jjFillToken();" ] ++
    lineIf (lx.hasClass .special)
      s!"      matchedToken{Frame.arrow s.options}specialToken = specialToken;" ++
    lineIf s.eofAction?.isSome "      TokenLexicalActions(matchedToken);" ++
    (match lx.eofNextState with
      | some i => [s!"      curLexState = {i};"]
      | none => []) ++
    [ "      return matchedToken;" ]

/- The lines that read the first character of a token. -/
def beginLines
    (s : Session)
    (lx : Lexer) : List String :=
  if s.options.isCpp then
    [ "   if (input_stream->endOfInput())", "   \x7b" ] ++ eofLines s lx ++
      [ "   \x7d", "   curChar = input_stream->BeginToken();" ]
  else
    [ "   try",
      "   \x7b",
      "      curChar = input_stream.BeginToken();",
      "   \x7d",
      "   catch(Exception e)",
      "   \x7b" ] ++
      eofLines s lx ++ [ "   \x7d" ]

/- The lines that forget the text of the last token. -/
def clearImage
    (o : Options) : List String :=
  [ "   image = jjimage;",
    if o.isCpp then "   image.clear();" else "   image.setLength(0);",
    "   jjimageLen = 0;" ]

/- The change of the lexical state after a match. -/
def changeState : String :=
  "if (jjnewLexState[jjmatchedKind] != -1) curLexState = jjnewLexState[jjmatchedKind];"

/- Some kind that is passed over has an action. -/
def hasSkipActions
    (lx : Lexer) : Bool :=
  lx.hasActionOf .skip || lx.hasActionOf .special

/- Some token, or the end of the file, has an action. -/
def hasTokenActions
    (s : Session)
    (lx : Lexer) : Bool :=
  lx.hasActionOf .token || s.eofAction?.isSome

/- The lines for a kind that is a token. -/
def tokenLines
    (s : Session)
    (lx : Lexer) : List String :=
  let o := s.options
  let test := maskTest o "jjtoToken"
  [ s!"        if ({test})",
    "        \x7b",
    "           matchedToken = jjFillToken();" ] ++
    lineIf (lx.hasClass .special)
      s!"           matchedToken{Frame.arrow o}specialToken = specialToken;" ++
    lineIf (hasTokenActions s lx) "           TokenLexicalActions(matchedToken);" ++
    lineIf lx.changesState s!"           {changeState}" ++
    [ "           return matchedToken;", "        \x7d" ]

/- The lines that chain special tokens. -/
def specialLines
    (o : Options)
    (withActions : Bool) : List String :=
  let arrow := Frame.arrow o
  let null := Frame.null o
  let test := maskTest o "jjtoSpecial"
  [ s!"           if ({test})",
    "           \x7b",
    "              matchedToken = jjFillToken();",
    s!"              if (specialToken == {null})",
    "                 specialToken = matchedToken;",
    "              else",
    "              \x7b",
    s!"                 matchedToken{arrow}specialToken = specialToken;",
    s!"                 specialToken = (specialToken{arrow}next = matchedToken);",
    "              \x7d" ] ++
    lineIf withActions "              SkipLexicalActions(matchedToken);" ++
    [ "           \x7d" ] ++
    if withActions then
      [ "           else", s!"              SkipLexicalActions({null});" ]
    else
      []

/- The lines for a kind that is passed over. -/
def passLines
    (s : Session)
    (lx : Lexer) : List String :=
  let o := s.options
  let test := maskTest o "jjtoSkip"
  if !(lx.hasClass .skip || lx.hasClass .special) then
    []
  else
    [ s!"        else if ({test})", "        \x7b" ] ++
      (if lx.hasClass .special then
        specialLines o (hasSkipActions lx)
      else
        lineIf (hasSkipActions lx) s!"           SkipLexicalActions({Frame.null o});") ++
      lineIf lx.changesState s!"           {changeState}" ++
      [ if o.isCpp then "           goto EOFLoop;" else "           continue EOFLoop;",
        "        \x7d" ]

/- The lines for a kind that a token goes on after. -/
def moreLines
    (s : Session)
    (lx : Lexer) : List String :=
  let o := s.options
  if !lx.hasClass .more then
    []
  else
    (if lx.hasActionOf .more then
      [ "        MoreLexicalActions();" ]
    else
      lineIf (hasSkipActions lx || hasTokenActions s lx)
        "        jjimageLen += jjmatchedPos + 1;") ++
      lineIf lx.changesState s!"        {changeState}" ++
      [ "        curPos = 0;", s!"        jjmatchedKind = {noKind};" ] ++
      if o.isCpp then
        [ "        if (!input_stream->endOfInput()) \x7b",
          "           curChar = input_stream->readChar();",
          "           continue;",
          "        \x7d" ]
      else
        [ "        try \x7b",
          "           curChar = input_stream.readChar();",
          "           continue;",
          "        \x7d",
          "        catch (java.io.IOException e1) \x7b \x7d" ]

/- The line that traces a match. -/
def traceLine : String :=
  "        debugStream.println(\"****** FOUND A \" + tokenImage[jjmatchedKind] + \" MATCH (\"" ++
    " + TokenMgrError.addEscapes(new String(input_stream.GetSuffix(jjmatchedPos + 1)))" ++
    " + \") ******\\n\");"

/- The lines for a match. -/
def foundLines
    (s : Session)
    (lx : Lexer) : List String :=
  let o := s.options
  [ s!"     if (jjmatchedKind != {noKind})",
    "     \x7b",
    "        if (jjmatchedPos + 1 < curPos)",
    s!"           {Frame.stream o}backup(curPos - jjmatchedPos - 1);" ] ++
    lineIf (o.debugTokenManager && !o.isCpp) traceLine ++
    tokenLines s lx ++ passLines s lx ++ moreLines s lx ++
    [ "     \x7d" ]

------------------------------------------------------------
-- Failure
------------------------------------------------------------

/- The line that takes the text before an error. -/
def errorAfter
    (o : Options) : String :=
  let nothing := if o.isCpp then "JJString()" else "\"\""
  s!"        error_after = curPos <= 1 ? {nothing} : {Frame.stream o}GetImage();"

/- The lines that report that nothing matches. -/
def errorLines
    (o : Options)
    (hasMore : Bool) : List String :=
  let s := Frame.stream o
  [ s!"     int error_line = {s}getEndLine();",
    s!"     int error_column = {s}getEndColumn();" ] ++
    (if o.isCpp then
      [ "     JJString error_after;",
        "     bool EOFSeen = false;",
        "     if (input_stream->endOfInput()) \x7b" ]
    else
      [ "     String error_after = null;",
        "     boolean EOFSeen = false;",
        "     try \x7b input_stream.readChar(); input_stream.backup(1); \x7d",
        "     catch (java.io.IOException e1) \x7b" ]) ++
    [ "        EOFSeen = true;",
      errorAfter o,
      "        if (curChar == '\\n' || curChar == '\\r') \x7b",
      "           error_line++;",
      "           error_column = 0;",
      "        \x7d",
      "        else",
      "           error_column++;",
      "     \x7d",
      "     if (!EOFSeen) \x7b",
      s!"        {s}backup(1);",
      errorAfter o,
      "     \x7d" ] ++
    if o.isCpp then
      [ "     errorHandler->lexicalError(EOFSeen, curLexState, error_line, error_column, " ++
          "error_after, curChar, this);" ] ++
        lineIf hasMore "     return nullptr;"
    else
      [ "     throw new TokenMgrError(EOFSeen, curLexState, error_line, error_column, " ++
          "error_after, curChar, TokenMgrError.LEXICAL_ERROR);" ]

------------------------------------------------------------
-- The routines
------------------------------------------------------------

/- The variables of the routine for the next token. -/
def locals
    (o : Options)
    (hasSpecial : Bool) : List String :=
  if o.isCpp then
    lineIf hasSpecial "  Token *specialToken = nullptr;" ++
      [ "  Token *matchedToken = nullptr;" ]
  else
    lineIf hasSpecial "  Token specialToken = null;" ++ [ "  Token matchedToken;" ]

/- The routine for the next token. -/
def getNextToken
    (s : Session)
    (lx : Lexer) : Frame.Routine :=
  let o := s.options
  let hasMore := lx.hasClass .more
  { modifiers := s!"public {o.staticModifier}",
    returnType := Frame.tokenType o,
    signature := "getNextToken()",
    body :=
      locals o (lx.hasClass .special) ++
        [ "  int curPos = 0;",
          "",
          "  EOFLoop :",
          "  for (;;)",
          "  \x7b" ] ++
        beginLines s lx ++
        (if hasMore || lx.hasActions s then clearImage o else []) ++
        (if hasMore then [ "", "   for (;;)", "   \x7b" ] else []) ++
        matchLines o lx ++ foundLines s lx ++ errorLines o hasMore ++
        lineIf hasMore "   \x7d" ++
        [ "  \x7d" ] ++
        lineIf (o.isCpp && !hasMore) "  return nullptr;" }

/- The routine that changes the lexical state. -/
def switchTo
    (o : Options)
    (count : Nat) : Frame.Routine :=
  { modifiers := s!"public {o.staticModifier}",
    returnType := "void",
    signature := "SwitchTo(int lexState)",
    body :=
      if o.isCpp then
        [ s!"  if (lexState >= {count} || lexState < 0) \x7b",
          "    JJString message;",
          "    message += JJWIDE(Error: Ignoring invalid lexical state : );",
          "    message += lexState; message += JJWIDE(. State unchanged.);",
          "    errorHandler->lexicalError(message, this);",
          "  \x7d",
          "  else",
          "    curLexState = lexState;" ]
      else
        [ s!"  if (lexState >= {count} || lexState < 0)",
          "    throw new TokenMgrError(\"Error: Ignoring invalid lexical state : \" + " ++
            "lexState + \". State unchanged.\", TokenMgrError.INVALID_LEXICAL_STATE);",
          "  else",
          "    curLexState = lexState;" ] }

/- Write a routine under a comment that only a class body holds. -/
def writeCommented
    (o : Options)
    (comment : String)
    (out : Output)
    (r : Frame.Routine) : Output :=
  let out := out.line ""
  Frame.writeRoutine o (if o.isCpp then out else out.line comment) r

end NextToken

end Descent
