import Descent.Lexer.Input
import Descent.Lexer.Tables

/-
  This file defines how a lexer reads a text.  At every place
  the table of literals is followed first; where no literal
  goes on, the automaton takes over.  One attempt finds the
  best match at a place; the scanner makes attempts until it
  has a token.

  Key definitions include:
    * `Token`
    * `Attempt`
    * `LexState.attempt`
    * `Scanner`
    * `Scanner.nextToken?`
    * `Scanner.tokens?`
-/

namespace Descent

------------------------------------------------------------
-- One attempt
------------------------------------------------------------

/- What an attempt has come to. -/
structure Attempt where
  /- The best kind so far. -/
  kind : Kind
  /- The position of its last unit; -1 is the empty match. -/
  pos : Int
  /- The unit read last. -/
  current : Nat
  /- How many units were read after the first one. -/
  read : Nat := 0
  deriving Repr, DecidableEq, Inhabited

namespace Attempt

/- Take over a match that ends at a position. -/
def matched
    (a : Attempt)
    (kind : Kind)
    (pos : Nat) : Attempt :=
  { a with kind := kind, pos := pos }

/- Read one more unit. -/
def advance
    (a : Attempt)
    (c : Nat) : Attempt :=
  { a with current := c, read := a.read + 1 }

end Attempt

namespace LexState

/- Let the automaton read the current unit; an accepted kind is the match so far. -/
def stepDfa
    (st : LexState)
    (q : StateId)
    (pos : Nat)
    (a : Attempt) : Option StateId × Attempt :=
  let next := st.dfa.step? st.alphabet q a.current
  match next.bind st.dfa.accept? with
  | some kind => (next, a.matched kind pos)
  | none => (next, a)

/-
  Run the automaton from a state on the current unit and the
  rest.  The result is the number of units looked at.
-/
def runDfa
    (st : LexState)
    (q : StateId)
    (pos : Nat)
    (a : Attempt) : List Nat → Nat × Attempt
  | [] => (pos + 1, (stepDfa st q pos a).2)
  | c :: rest =>
      match stepDfa st q pos a with
      | (some q, a) => runDfa st q (pos + 1) (a.advance c) rest
      | (none, a) => (pos + 1, a)

/- Run the automaton from a state, if there is one. -/
def runFrom
    (st : LexState)
    (q : Option StateId)
    (pos : Nat)
    (a : Attempt)
    (rest : List Nat) : Nat × Attempt :=
  match q with
  | some q => runDfa st q pos a rest
  | none => (pos + 1, a)

/- Start with the automaton. -/
def runAtStart
    (st : LexState)
    (a : Attempt)
    (rest : List Nat) : Nat × Attempt :=
  if st.hasNfa then runDfa st st.dfa.start 0 a rest else (1, a)

/-
  The match of the automaton on a beginning of literals counts
  more than the match so far.
-/
def prefersResume
    (st : LexState)
    (a : Attempt)
    (pos : Nat)
    (r : Resume) : Bool :=
  if pos == 0 then
    true
  else if pos == r.pos then
    !st.literals.subStringAt.getD pos false || a.pos != (pos : Int)
  else if r.pos > 0 then
    a.pos < (r.pos : Int)
  else
    a.pos == 0

/-
  Stop following literals after a position.  The state from
  which the automaton goes on is that of any literal that was
  still alive.
-/
def stopLiterals
    (st : LexState)
    (a : Attempt)
    (pos : Nat)
    (alive : KindSet) : Option StateId × Attempt :=
  if st.literals.maxLen ≤ pos + 1 then
    (none, a)
  else
    match (st.literals.buckets.getD pos []).find? fun (_, ks) => !(ks.inter alive).isEmpty with
    | none => (none, a)
    | some (r, _) =>
        if r.kind != noKind && prefersResume st a pos r then
          let a := { a with kind := r.kind }
          (r.state, if pos != 0 || st.initMatch.isSome then { a with pos := r.pos } else a)
        else
          (r.state, a)

/- Let the automaton take over after a beginning of literals. -/
def takeOver
    (st : LexState)
    (a : Attempt)
    (pos : Nat)
    (alive : KindSet)
    (rest : List Nat) : Nat × Attempt :=
  let (q, a) := if st.mixed then (some st.dfa.start, a) else stopLiterals st a pos alive
  runFrom st q (pos + 1) a rest

/-
  Commit to a literal that ends at a position and that no
  other extends.  The automaton may still find a longer match.
-/
def commit
    (st : LexState)
    (a : Attempt)
    (pos : Nat)
    (kind : Kind)
    (rest : List Nat) : Nat × Attempt :=
  let a := a.matched (st.literals.reportedKind pos kind st.anyChar) pos
  match st.literals.stateFor? pos kind, rest with
  | some q, c :: rest => runDfa st q (pos + 1) (a.advance c) rest
  | _, _ => (pos + 1, a)

/- Follow the literals that are alive before a position. -/
def followLiterals
    (st : LexState)
    (pos : Nat)
    (alive : KindSet)
    (a : Attempt) : List Nat → Nat × Attempt
  | [] =>
      if st.hasNfa then (pos, (stopLiterals st a (pos - 1) alive).2) else (pos, a)
  | c :: rest =>
      let a := a.advance c
      let noMore := fun (a : Attempt) =>
        if st.hasNfa then takeOver st a (pos - 1) alive rest else (pos + 1, a)
      match st.literals.kindInfo? pos c with
      | none => noMore a
      | some (_, info) =>
          let goOn := fun (a : Attempt) =>
            if info.alive.isEmpty then
              noMore a
            else
              let next := info.alive.inter alive
              if next.isEmpty then
                if st.hasNfa && !st.mixed then
                  takeOver st a (pos - 1) alive rest
                else
                  (pos + 1, a)
              else
                followLiterals st (pos + 1) next a rest
          match (info.ended.inter alive).least? with
          | none => goOn a
          | some kind =>
              if st.literals.isSubString kind then
                goOn (a.matched (st.literals.reportedKind pos kind st.anyChar) pos)
              else
                commit st a pos kind rest

/- Follow the literals from the first unit on. -/
def startLiterals
    (st : LexState)
    (a : Attempt)
    (rest : List Nat) : Nat × Attempt :=
  if st.literals.maxLen == 0 || st.skipKeys.contains a.current then
    runAtStart st a rest
  else
    match st.literals.kindInfo? 0 a.current with
    | none => runAtStart st a rest
    | some (_, info) =>
        let goOn := fun (a : Attempt) =>
          if info.alive.isEmpty then
            runAtStart st a rest
          else
            followLiterals st 1 info.alive a rest
        match info.ended.least? with
        | none => goOn a
        | some kind =>
            if st.literals.isSubString kind then
              let a :=
                { a with kind := st.literals.reportedKind 0 kind st.anyChar }
              goOn (if st.initMatch.isSome then { a with pos := 0 } else a)
            else
              commit st a 0 kind rest

/- Before an attempt only the empty match is known, if there is one. -/
def blankAttempt
    (st : LexState)
    (current : Nat) : Attempt :=
  match st.initMatch with
  | some kind => { kind := kind, pos := -1, current := current }
  | none => { kind := noKind, pos := 0, current := current }

/-
  Find the best match of the first unit and the rest.  A
  wildcard wins over the empty match, and over a longer kind
  number on one unit.
-/
def attempt
    (st : LexState)
    (first : Nat)
    (rest : List Nat) : Nat × Attempt :=
  let (looked, a) := startLiterals st (st.blankAttempt first) rest
  match st.anyChar with
  | some any =>
      if a.pos < 0 || (a.pos == 0 && any < a.kind) then
        (looked, { a with kind := any, pos := 0 })
      else
        (looked, a)
  | none => (looked, a)

end LexState

------------------------------------------------------------
-- Tokens
------------------------------------------------------------

/- A match that is handed on, without its special tokens. -/
structure Lexeme where
  kind : Kind
  image : String
  start : Location
  stop : Location
  deriving Repr, DecidableEq, Inhabited

/- A token with the special tokens before it. -/
structure Token where
  lexeme : Lexeme
  specials : List Lexeme := []
  deriving Repr, DecidableEq, Inhabited

/- A scanner at work. -/
structure Scanner where
  lexer : Lexer
  input : Input
  /- The number of the lexical state. -/
  state : Nat := 0
  /- The unit read last. -/
  current : Nat := 0
  /- The special tokens since the last token. -/
  specials : List Lexeme := []
  /- Where the last empty match was, and in which state. -/
  lastEmpty : Option (Nat × Nat) := none
  deriving Inhabited

namespace Scanner

/- A scanner at the start of a text. -/
def ofText
    (lx : Lexer)
    (text : String)
    (o : Options) : Except Failure Scanner :=
  (Input.ofText text o.tabSize o.javaUnicodeEscape).map fun input =>
    { lexer := lx, input := input }

/- The current lexical state. -/
def lexState
    (sc : Scanner) : LexState :=
  sc.lexer.state sc.state

/- Go to a lexical state by name. -/
def switchTo
    (sc : Scanner)
    (name : String) : Except Failure Scanner :=
  (sc.lexer.stateNamed name).map fun st => { sc with state := st.index }

/- Go to a lexical state if one is given. -/
def enter
    (sc : Scanner)
    (next : Option Nat) : Scanner :=
  { sc with state := next.getD sc.state }

/- The units read since the token began, as a match of a kind. -/
def lexeme
    (sc : Scanner)
    (kind : Kind) : Lexeme :=
  { kind := kind,
    image := Text.ofUnits sc.input.image,
    start := sc.input.beginPlace,
    stop := sc.input.endPlace }

/- Hand on a match as a token. -/
def token
    (sc : Scanner)
    (kind : Kind) : Token × Scanner :=
  (⟨sc.lexeme kind, sc.specials⟩, { sc with specials := [] })

/- The place that a lexical error names. -/
def errorPlace
    (sc : Scanner) : Location :=
  let place := sc.input.endPlace
  if sc.input.atEnd then
    if sc.current == 0x0a || sc.current == 0x0d then
      ⟨place.line + 1, 0⟩
    else
      ⟨place.line, place.column + 1⟩
  else
    place

/- What a lexical error says was found. -/
def errorFound
    (sc : Scanner)
    (looked : Nat) : String :=
  let image := if sc.input.atEnd then sc.input.image else sc.input.image.dropLast
  let after := Text.escape (Text.ofUnits (if looked ≤ 1 then [] else image))
  if sc.input.atEnd then
    s!"<EOF> after : \"{after}\""
  else
    let current := Text.escape (Text.ofUnits [sc.current])
    s!"\"{current}\" ({sc.current}), after : \"{after}\""

/- The failure when nothing matches. -/
def lexicalError
    (sc : Scanner)
    (looked : Nat) : Failure :=
  .lexical sc.lexState.name sc.errorPlace (sc.errorFound looked)

------------------------------------------------------------
-- Steps
------------------------------------------------------------

/- What comes after an attempt. -/
inductive Step where
  /- The scanner hands on a token or fails. -/
  | done (result : Except Failure Token)
  /- A new token begins. -/
  | restart
  /- The token that was begun goes on. -/
  | proceed

/- Units to pass over: how many there are, and the first other one. -/
def passOver
    (st : LexState)
    (current : Nat) : List Nat → Nat × Option Nat
  | [] =>
      if Assoc.contains current st.skipChars then (1, none) else (0, some current)
  | c :: rest =>
      if Assoc.contains current st.skipChars then
        let (n, first) := passOver st c rest
        (n + 1, first)
      else
        (0, some current)

/- Read the rest of an attempt off the input and give back what it did not use. -/
def consume
    (sc : Scanner)
    (looked : Nat)
    (a : Attempt) : Scanner :=
  let input := { sc.input with next := sc.input.next + a.read }
  let extra := (looked : Int) - a.pos - 1
  { sc with
    current := a.current,
    input := if a.kind != noKind && extra > 0 then input.backup extra.toNat else input }

/- Deal with a match according to its class. -/
def deliver
    (sc : Scanner)
    (kind : Kind) : Step × Scanner :=
  let attrs := sc.lexer.attrs? kind
  let next := attrs.bind (·.nextState)
  match (attrs.map (·.cls)).getD .token with
  | .token =>
      let (t, sc) := sc.token kind
      (.done (.ok t), sc.enter next)
  | .special =>
      (.restart, { sc with specials := sc.specials ++ [sc.lexeme kind] }.enter next)
  | .skip => (.restart, sc.enter next)
  | .more =>
      let sc := sc.enter next
      match sc.input.read with
      | (some c, input) => (.proceed, { sc with current := c, input := input })
      | (none, input) =>
          let sc := { sc with input := input }
          (.done (.error (sc.lexicalError 0)), sc)

/- An attempt at the unit read last, which is not passed over. -/
def attemptHere
    (sc : Scanner) : Step × Scanner :=
  let start := sc.input.next - 1
  let st := sc.lexState
  let (looked, a) := st.attempt sc.current sc.input.rest
  let sc := sc.consume looked a
  if a.kind == noKind then
    (.done (.error (sc.lexicalError looked)), sc)
  else if a.pos < 0 then
    if sc.lastEmpty == some (start, sc.state) then
      (.done (.error (sc.lexicalError looked)), sc)
    else
      { sc with lastEmpty := some (start, sc.state) }.deliver a.kind
  else
    sc.deliver a.kind

/-
  Pass over units, then make an attempt.  A unit that is passed
  over makes the token begin anew after it.
-/
def step
    (sc : Scanner) : Step × Scanner :=
  let (passed, first) := passOver sc.lexState sc.current sc.input.rest
  if passed == 0 then
    sc.attemptHere
  else
    let begins := sc.input.next + passed - 1
    match first with
    | none =>
        (.restart, { sc with input := { sc.input with next := begins, tokenBegin := begins } })
    | some c =>
        attemptHere
          { sc with
            current := c,
            input := { sc.input with next := begins + 1, tokenBegin := begins } }

/- The token at the end of the file. -/
def endToken
    (sc : Scanner) : Token × Scanner :=
  (sc.enter sc.lexer.eofNextState).token 0

/- Begin a token with the next unit, or end the file. -/
def begin
    (sc : Scanner) : Step × Scanner :=
  match sc.input.beginToken with
  | (some c, input) => { sc with current := c, input := input }.step
  | (none, input) =>
      let (t, sc) := { sc with input := input }.endToken
      (.done (.ok t), sc)

------------------------------------------------------------
-- Whole tokens
------------------------------------------------------------

/- Make steps until the scanner hands on a token or fails. -/
def steps
    (fuel : Nat)
    (outcome : Step × Scanner) : Option (Except Failure Token × Scanner) :=
  match outcome with
  | (.done result, sc) => some (result, sc)
  | (.restart, sc) =>
      match fuel with
      | 0 => none
      | fuel + 1 => steps fuel sc.begin
  | (.proceed, sc) =>
      match fuel with
      | 0 => none
      | fuel + 1 => steps fuel sc.step

/-
  More steps than can be made before the scanner stands where
  it stood before, in the same state and with the same last
  empty match.
-/
def stepBound
    (sc : Scanner) : Nat :=
  (sc.input.units.size + 1) * (sc.lexer.states.size + 1) * (sc.lexer.states.size + 2)

/-
  The next token or a failure, and the scanner after it.  There
  is no result when the scanner would make steps forever.
-/
def nextToken?
    (sc : Scanner) : Option (Except Failure Token × Scanner) :=
  steps sc.stepBound sc.begin

/- Tokens up to the end of the file, with a bound on their number. -/
def tokensWithin? : Nat → Scanner → Option (Except Failure (List Token) × Scanner)
  | 0, _ => none
  | fuel + 1, sc =>
      match sc.nextToken? with
      | none => none
      | some (.error e, sc) => some (.error e, sc)
      | some (.ok t, sc) =>
          if t.lexeme.kind == 0 then
            some (.ok [t], sc)
          else
            match tokensWithin? fuel sc with
            | some (.ok ts, sc) => some (.ok (t :: ts), sc)
            | other => other

/- All tokens up to and including the one at the end of the file. -/
def tokens?
    (sc : Scanner) : Option (Except Failure (List Token) × Scanner) :=
  tokensWithin? (sc.stepBound + 1) sc

end Scanner

end Descent
