import Descent.Lexer.Tables
import Descent.TokenManager.Frame

/-
  This file defines the routines of a generated token manager
  that match string literals, one routine for each position.
  A routine is first made as a switch over the characters
  whose blocks are lists of statements, and then written.

  Key definitions include:
    * `Cascade.Commit`
    * `Cascade.Statement`
    * `Cascade.Block`
    * `Cascade.Level`
    * `Cascade.level`
    * `Cascade.write`
-/

namespace Descent

namespace Cascade

------------------------------------------------------------
-- Statements
------------------------------------------------------------

/- What is done where a literal ends. -/
inductive Commit where
  /- Return with this kind. -/
  | stop (kind : Kind)
  /- Return with what the automaton finds from a state, this kind failing that. -/
  | resume (kind : Kind) (state : StateId)
  /- Remember this kind and go on. -/
  | note (kind : Kind)
  deriving Repr, DecidableEq, Inhabited

/- A statement of a block. -/
inductive Statement where
  | commit (c : Commit)
  /- Do the first of several things whose literal is still alive. -/
  | tests (arms : List (Kind × Commit))
  /- Return with what the next position finds for these arguments. -/
  | descend (args : List String)
  /- Return with what the automaton finds from the start. -/
  | automaton
  /- Return with what the automaton finds after the position before this one. -/
  | fallBack
  /- Return with a number of characters read. -/
  | giveUp (count : Nat)
  /- Leave the switch. -/
  | leave
  deriving Repr, DecidableEq, Inhabited

/- The commit returns. -/
def Commit.returns : Commit → Bool
  | .stop _ => true
  | .resume _ _ => true
  | .note _ => false

/- The statement returns, whatever has been matched. -/
def Statement.returns : Statement → Bool
  | .commit c => c.returns
  | .tests _ => false
  | .descend _ => true
  | .automaton => true
  | .fallBack => true
  | .giveUp _ => true
  | .leave => false

/- A block of a switch: its characters and its statements. -/
structure Block where
  labels : List Nat
  body : List Statement
  deriving Repr, DecidableEq, Inhabited

/- The routine of one position. -/
structure Level where
  pos : Nat
  blocks : List Block
  /- What is done for all other characters. -/
  otherwise : Statement
  /- What is done after the switch. -/
  after : List Statement
  deriving Repr, DecidableEq, Inhabited

------------------------------------------------------------
-- Making routines
------------------------------------------------------------

/- The words of kinds that satisfy a condition on their longest literal. -/
def wordsWith
    (t : LiteralTable)
    (p : Nat → Bool) : List Nat :=
  (List.range t.words).filter fun j => p (t.maxLenForWord j)

/- What is done where a literal ends at a position. -/
def commitOf
    (st : LexState)
    (pos : Nat)
    (kind : Kind) : Commit :=
  let printed := st.literals.reportedKind pos kind st.anyChar
  if st.literals.isSubString kind then
    .note printed
  else
    match st.literals.stateFor? pos kind with
    | some q => .resume printed q
    | none => .stop printed

/-
  The statements for literals that end at a position.  All
  literals of one character that end at the first position are
  alike, so only the least kind counts there.
-/
def endStatements
    (st : LexState)
    (pos : Nat)
    (ended : KindSet) : List Statement :=
  match ended.kinds with
  | [] => []
  | k :: ks =>
      if pos == 0 then
        [.commit (commitOf st pos k)]
      else
        [.tests ((k :: ks).map fun k => (k, commitOf st pos k))]

/- The arguments for the routine of the next position. -/
def descendArgs
    (o : Options)
    (t : LiteralTable)
    (pos : Nat)
    (alive : KindSet) : List String :=
  if pos == 0 then
    (wordsWith t (1 ≤ ·)).map fun j => Frame.word o (alive.word j)
  else
    (wordsWith t (pos ≤ ·)).map fun j =>
      let w := alive.word j
      s!"active{j}, " ++ if w == 0 then Frame.noBits else Frame.word o w

/- The statement after those for literals that end at a position. -/
def nextStatement
    (o : Options)
    (st : LexState)
    (pos : Nat)
    (alive : KindSet) : Statement :=
  if !alive.isEmpty then
    .descend (descendArgs o st.literals pos alive)
  else if pos != 0 then
    .leave
  else if st.hasNfa then
    .automaton
  else
    .giveUp 1

/- The block for the characters of an entry. -/
def blockOf
    (o : Options)
    (st : LexState)
    (pos : Nat)
    (entry : Nat × KindInfo) : Block :=
  let (key, info) := entry
  { labels := st.literals.caseLabels key,
    body := endStatements st pos info.ended ++ [nextStatement o st pos info.alive] }

/- What is done for characters without an entry. -/
def otherwiseOf
    (st : LexState)
    (pos : Nat) : Statement :=
  if st.hasNfa then
    if pos == 0 then .automaton else .leave
  else
    .giveUp (pos + 1)

/- The entries of a position; the first one leaves out what is skipped beforehand. -/
def entriesAt
    (st : LexState)
    (pos : Nat) : List (Nat × KindInfo) :=
  let entries := st.literals.entries.getD pos []
  if pos == 0 then
    entries.filter fun (key, _) => !st.skipKeys.contains key
  else
    entries

/- The routine of a position. -/
def level
    (o : Options)
    (st : LexState)
    (pos : Nat) : Level :=
  let blocks := (entriesAt st pos).map (blockOf o st pos)
  let otherwise := otherwiseOf st pos
  let leaves :=
    otherwise == .leave || blocks.any fun b => b.body.contains .leave
  { pos := pos,
    blocks := blocks,
    otherwise := otherwise,
    after :=
      if leaves then
        [if st.hasNfa then .fallBack else .giveUp (pos + 1)]
      else
        [] }

------------------------------------------------------------
-- Writing routines
------------------------------------------------------------

/- The words of live literals; none for a word without longer ones. -/
def actives
    (t : LiteralTable)
    (pos : Nat) : String :=
  Frame.commas
    ((List.range t.words).map fun j =>
      if pos ≤ t.maxLenForWord j then s!"active{j}" else Frame.noBits)

/- The lines of a commit. -/
def commitLines
    (st : LexState)
    (pos : Nat)
    (c : Commit) : List String :=
  let indent := if pos == 0 then "         " else "            "
  match c with
  | .stop kind => [s!"{indent}return jjStopAtPos({pos}, {kind});"]
  | .resume kind state =>
      [s!"{indent}return jjStartNfaWithStates_{st.index}({pos}, {kind}, {state});"]
  | .note kind =>
      if st.initMatch.isSome || pos != 0 then
        [ "         \x7b",
          s!"{indent}jjmatchedKind = {kind};",
          s!"{indent}jjmatchedPos = {pos};",
          "         \x7d" ]
      else
        [s!"{indent}jjmatchedKind = {kind};"]

/- The line that asks whether a literal is still alive. -/
def testLine
    (o : Options)
    (isFirst : Bool)
    (kind : Kind) : String :=
  let bit := Frame.word o (1 <<< (kind % KindSet.wordBits))
  let start := if isFirst then "if" else "else if"
  s!"         {start} ((active{kind / KindSet.wordBits} & {bit}) != 0L)"

/- The lines of a statement; `indent` is for what is not a commit. -/
def statementLines
    (o : Options)
    (st : LexState)
    (pos : Nat)
    (indent : String) : Statement → List String
  | .commit c => commitLines st pos c
  | .tests arms =>
      arms.zipIdx.flatMap fun ((kind, c), i) =>
        testLine o (i == 0) kind :: commitLines st pos c
  | .descend args =>
      [s!"{indent}return jjMoveStringLiteralDfa{pos + 1}_{st.index}(" ++
        Frame.commas args ++ ");"]
  | .automaton => [s!"{indent}return jjMoveNfa_{st.index}(0, 0);"]
  | .fallBack =>
      [s!"{indent}return jjStartNfa_{st.index}({pos - 1}, " ++
        actives st.literals pos ++ ");"]
  | .giveUp count => [s!"{indent}return {count};"]
  | .leave => [s!"{indent}break;"]

/- The parameters of the routine of a position. -/
def params
    (o : Options)
    (t : LiteralTable) : Nat → List String
  | 0 => []
  | 1 => (wordsWith t (1 ≤ ·)).map fun j => s!"{o.longType} active{j}"
  | pos =>
      (wordsWith t (pos ≤ · + 1)).map fun j =>
        s!"{o.longType} old{j}, {o.longType} active{j}"

/- The automaton takes over from the table of literals. -/
def handsOver
    (st : LexState) : Bool :=
  st.hasNfa && !st.mixed

/- The lines that return when no literal is alive any more. -/
def aliveCheck
    (st : LexState)
    (pos : Nat) : List String :=
  if pos ≤ 1 then
    []
  else
    let t := st.literals
    let checks :=
      (wordsWith t (pos ≤ · + 1)).map fun j => s!"(active{j} &= old{j})"
    let olds :=
      (List.range t.words).map fun j =>
        if pos ≤ t.maxLenForWord j + 1 then s!"old{j}" else Frame.noBits
    [ "   if ((" ++ " | ".intercalate checks ++ ") == 0L)",
      if handsOver st then
        s!"      return jjStartNfa_{st.index}({pos - 2}, " ++ Frame.commas olds ++ ");"
      else
        s!"      return {pos};" ]

/- The lines that read the character of a position. -/
def readLines
    (o : Options)
    (st : LexState)
    (pos : Nat) : List String :=
  if pos == 0 then
    []
  else
    Frame.readChar o "   "
      ((if handsOver st then
          [s!"jjStopStringLiteralDfa_{st.index}({pos - 1}, " ++
            actives st.literals pos ++ ");"]
        else
          []) ++
        [s!"return {pos};"])

/- The lines of a block. -/
def blockLines
    (o : Options)
    (st : LexState)
    (pos : Nat)
    (b : Block) : List String :=
  b.labels.map (fun c => s!"      case {c}:") ++
    b.body.flatMap (statementLines o st pos "         ")

/- The lines of a routine. -/
def levelLines
    (o : Options)
    (st : LexState)
    (l : Level) : List String :=
  aliveCheck st l.pos ++ readLines o st l.pos ++
    [ "   switch(curChar)", "   \x7b" ] ++
    l.blocks.flatMap (blockLines o st l.pos) ++
    [ "      default :" ] ++
    statementLines o st l.pos "         " l.otherwise ++
    [ "   \x7d" ] ++
    l.after.flatMap (statementLines o st l.pos "   ")

/- The routine of a position as a member function. -/
def routine
    (o : Options)
    (st : LexState)
    (l : Level) : Frame.Routine :=
  Frame.privateRoutine o false
    (s!"jjMoveStringLiteralDfa{l.pos}_{st.index}(" ++
      Frame.commas (params o st.literals l.pos) ++ ")")
    (levelLines o st l)

/- The routine of a state without literals. -/
def emptyRoutine
    (o : Options)
    (st : LexState) : Frame.Routine :=
  Frame.privateRoutine o false s!"jjMoveStringLiteralDfa0_{st.index}()"
    (statementLines o st 0 "   " (otherwiseOf st 0))

/- Write the routines of a state. -/
def write
    (o : Options)
    (st : LexState)
    (out : Output) : Output :=
  let routines :=
    if st.literals.maxLen == 0 then
      [emptyRoutine o st]
    else
      (List.range st.literals.maxLen).map fun pos => routine o st (level o st pos)
  routines.foldl (Frame.writeRoutine o) out

end Cascade

end Descent
