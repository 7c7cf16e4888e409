import Descent.Automaton.LiteralTable
import Descent.Automaton.Thompson
import Descent.Grammar.Walk
import Descent.Session

/-
  This file defines the lexer of a grammar.  The kinds of each
  lexical state are divided between the table of string
  literals and an automaton for all other tokens, and what a
  scanner has to know about a state as a whole is worked out.

  Key definitions include:
    * `KindAttrs`
    * `LexState`
    * `Lexer`
    * `Lexer.build`
    * `Lexer.literalImage?`
-/

namespace Descent

------------------------------------------------------------
-- Tables
------------------------------------------------------------

/- What a scanner does with a kind. -/
structure KindAttrs where
  cls : TokenClass
  action : Option String
  /- The number of the lexical state to go to. -/
  nextState : Option Nat
  regex : RegexId
  ignoreCase : Bool
  deriving Repr, DecidableEq, Inhabited

/- A lexical state. -/
structure LexState where
  name : String
  index : Nat
  /- The active kinds, ascending. -/
  kinds : List Kind
  literals : LiteralTable
  alphabet : Alphabet
  /- The automaton of all kinds that are not in the table of literals. -/
  dfa : Dfa
  hasNfa : Bool
  /- The kind that matches the empty text. -/
  initMatch : Option Kind
  /- The smallest kind that matches any one character. -/
  anyChar : Option Kind
  /- Literals with and without regard to case are mixed. -/
  mixed : Bool
  /- Characters that are passed over before every token, with their kinds. -/
  skipChars : Assoc Nat Kind := []
  /- The keys of the table of literals that this makes superfluous. -/
  skipKeys : List Nat := []
  /- Some unfinished token is continued in this state. -/
  reachedOnMore : Bool := false
  deriving Repr, DecidableEq, Inhabited

/- The automaton can read a character first. -/
def LexState.canStart
    (st : LexState)
    (c : Nat) : Bool :=
  st.hasNfa && (st.dfa.step? st.alphabet st.dfa.start c).isSome

/- A lexer. -/
structure Lexer where
  states : Array LexState
  /- What to do with each kind; `none` if no scanner sees it. -/
  kinds : Array (Option KindAttrs)
  /- The state to go to at the end of the file. -/
  eofNextState : Option Nat
  ignoreCase : Bool
  deriving Repr, DecidableEq, Inhabited

namespace Lexer

/- A lexical state by number. -/
def state
    (lx : Lexer)
    (index : Nat) : LexState :=
  lx.states.getD index default

/- A lexical state by name. -/
def stateNamed
    (lx : Lexer)
    (name : String) : Except Failure LexState :=
  match lx.states.find? (·.name == name) with
  | some st => .ok st
  | none => .error (.unknownLexicalState name)

/- What to do with a kind. -/
def attrs?
    (lx : Lexer)
    (kind : Kind) : Option KindAttrs :=
  lx.kinds.getD kind none

/- The class of a kind. -/
def classOf?
    (lx : Lexer)
    (kind : Kind) : Option TokenClass :=
  if kind == 0 then some .token else (lx.attrs? kind).map (·.cls)

/-
  The one text of a kind.  A kind has none when it may end a
  token that began as another kind, or when letters in it may
  be written in either case.
-/
def literalImage?
    (lx : Lexer)
    (g : Grammar)
    (kind : Kind) : Option String :=
  if kind == 0 then
    some ""
  else do
    let a ← lx.attrs? kind
    let image ← (g.regex a.regex).literal?
    let continues := lx.states.any fun st => st.reachedOnMore && st.kinds.contains kind
    let varies := (a.ignoreCase || lx.ignoreCase) && !Text.isCaseless image
    if a.cls != .token || continues || varies then none else some image

end Lexer

------------------------------------------------------------
-- Labels
------------------------------------------------------------

/- A kind as warnings and traces write it. -/
def kindLabel
    (g : Grammar)
    (s : Session)
    (kind : Kind) : String :=
  match s.definition? g kind with
  | some r =>
      match r.literal? with
      | some image => s!" \"{Text.escape image}\""
      | none =>
          if r.label.isEmpty then s!" <token of kind {kind}>" else s!" <{r.label}>"
  | none => s!" <token of kind {kind}>"

namespace Lexer

------------------------------------------------------------
-- Collecting kinds
------------------------------------------------------------

/- An active kind: its number, its expression and whether its section ignores case. -/
structure Active where
  kind : Kind
  regex : RegexId
  ignoreCase : Bool
  deriving Repr, DecidableEq, Inhabited

/- The kinds collected so far, also by lexical state. -/
structure Collected where
  kinds : Array (Option KindAttrs)
  active : Array (List Active)

/- The number of a lexical state that must be declared. -/
def requireState
    (g : Grammar)
    (name : String) : Except Failure Nat :=
  match g.stateIndex? name with
  | some i => .ok i
  | none => .error (.unknownLexicalState name)

/- The number of a lexical state that must be declared if it is given. -/
def requireState?
    (g : Grammar) : Option String → Except Failure (Option Nat)
  | some name => (requireState g name).map some
  | none => .ok none

/- Make a kind active in a lexical state, once. -/
def activate
    (g : Grammar)
    (a : Active)
    (c : Collected)
    (state : String) : Except Failure Collected := do
  let i ← requireState g state
  return { c with
    active := c.active.modify i fun as =>
      if as.any (·.kind == a.kind) then as else as ++ [a] }

/- The kind of an entry that a scanner sees. -/
def scannedKind?
    (r : RegexNode)
    (tokenKinds : Nat) : Option Kind :=
  match r.form with
  | .endOfFile => none
  | .reference _ _ => none
  | _ =>
      if r.isPrivate || r.kind == 0 || tokenKinds ≤ r.kind then none else some r.kind

/- Collect one entry of a section. -/
def collectSpec
    (g : Grammar)
    (tokenKinds : Nat)
    (sec : TokenSection)
    (states : List String)
    (c : Collected)
    (spec : TokenSpec) : Except Failure Collected :=
  match scannedKind? (g.regex spec.regex) tokenKinds with
  | none => .ok c
  | some kind => do
      let next ← requireState? g spec.nextState
      let attrs : KindAttrs := ⟨sec.cls, spec.action, next, spec.regex, sec.ignoreCase⟩
      states.foldlM (activate g ⟨kind, spec.regex, sec.ignoreCase⟩)
        { c with kinds := c.kinds.setIfInBounds kind (some attrs) }

/- Collect the entries of a section. -/
def collectSection
    (g : Grammar)
    (tokenKinds : Nat)
    (c : Collected)
    (i : SectionId) : Except Failure Collected :=
  let sec := g.tokenSection i
  sec.specs.foldlM (collectSpec g tokenKinds sec (g.statesOf i)) c

/- Collect all kinds. -/
def collect
    (g : Grammar)
    (tokenKinds : Nat) : Except Failure Collected :=
  (List.range g.sections.size).foldlM (collectSection g tokenKinds)
    { kinds := Array.replicate tokenKinds none,
      active := Array.replicate g.lexicalStates.length [] }

------------------------------------------------------------
-- Warnings
------------------------------------------------------------

/- Some character of an expression is beyond the first 256. -/
def usesWideChars
    (g : Grammar)
    (id : RegexId) : Bool :=
  (g.regexPreOrder id).any fun r =>
    match (g.regex r).form with
    | .literal image => image.toList.any fun c => c.toNat > 0xff
    | .chars _ items =>
        (CharRanges.ofItems false items false).any fun (_, hi) => hi > 0xff
    | _ => false

/- The warning about characters that need a suitable reader. -/
def wideCharsMessage : String :=
  "Non-ASCII characters used in regular expression.Please make sure you use the correct " ++
    "Reader when you create the parser, one that can handle your character set."

/- Warn once about the first active expression with wide characters. -/
def warnWideChars
    (g : Grammar)
    (active : List Active)
    (acc : Session × Bool) : Session × Bool :=
  let (s, given) := acc
  if given || s.options.javaUnicodeEscape || s.options.userCharStream then
    (s, given)
  else
    match active.find? fun a => usesWideChars g a.regex with
    | some a => (s.warning (g.regex a.regex).place wideCharsMessage, true)
    | none => (s, false)

/- Warn about a kind that matches the empty text. -/
def warnEmptyMatch
    (g : Grammar)
    (stateName : String)
    (s : Session) : Option Kind → Session
  | none => s
  | some kind =>
      let (place, label) := match s.definition? g kind with
        | some r => (r.place, r.label)
        | none => ({}, "")
      let named := if label.isEmpty then "" else s!" for {label}"
      s.warning place
        (s!"Regular expression{named} can be matched by the empty string (\"\") in " ++
          s!"lexical state {stateName}. This can result in an endless loop of empty " ++
          "string matches.")

/- Warn about a literal that is reported as another kind. -/
def warnShadowed
    (g : Grammar)
    (st : LexState)
    (s : Session)
    (lit : Literal) : Session :=
  let printed := st.literals.reportedKind (lit.image.length - 1) lit.kind st.anyChar
  if printed == lit.kind then
    s
  else
    match s.definition? g lit.kind with
    | none => s
    | some r =>
        let image := Text.escape (r.literal?.getD "")
        let label := kindLabel g s printed
        s.globalWarning
          (s!" \"{image}\" cannot be matched as a string literal token at line " ++
            s!"{r.place.line}, column {r.place.column}. It will be matched as {label}.")

------------------------------------------------------------
-- Characters to pass over
------------------------------------------------------------

/- A kind is passed over without action and without change of state. -/
def isPlainSkip
    (kinds : Array (Option KindAttrs))
    (kind : Kind) : Bool :=
  match kinds.getD kind none with
  | some a => a.cls == .skip && a.action.isNone && a.nextState.isNone
  | none => false

/-
  The kind for which a character is passed over: the first of
  some literals that nothing extends and that is a plain skip.
  A literal that is reported as another kind ends the search.
-/
def skipKind?
    (st : LexState)
    (kinds : Array (Option KindAttrs)) : List Kind → Option Kind
  | [] => none
  | k :: ks =>
      if st.literals.isSubString k then
        skipKind? st kinds ks
      else if st.literals.reportedKind 0 k st.anyChar != k then
        none
      else if isPlainSkip kinds k then
        some k
      else
        skipKind? st kinds ks

/- The kinds of the first word of a mask that is not empty. -/
def firstWordKinds
    (s : KindSet) : List Kind :=
  match s.kinds with
  | [] => []
  | k :: ks =>
      (k :: ks).takeWhile fun j => j / KindSet.wordBits == k / KindSet.wordBits

/- The characters to pass over, with their kinds. -/
def findSkips
    (st : LexState)
    (kinds : Array (Option KindAttrs)) : List (Nat × Kind) :=
  (st.literals.entries.getD 0 []).filterMap fun (c, info) =>
    if 128 ≤ c || st.canStart c then
      none
    else
      (skipKind? st kinds (firstWordKinds info.ended)).map fun k => (c, k)

/- Enter a character to pass over, with its case forms if case is ignored. -/
def enterSkip
    (ignoreCase : Bool)
    (table : Assoc Nat Kind)
    (skip : Nat × Kind) : Assoc Nat Kind :=
  let (c, kind) := skip
  let table := Assoc.insertSorted c kind table
  if ignoreCase then
    [Text.upperUnit c, Text.lowerUnit c].foldl
      (fun t v => Assoc.alterSorted v (·.getD kind) t) table
  else
    table

/- Work out the characters to pass over. -/
def withSkips
    (st : LexState)
    (kinds : Array (Option KindAttrs))
    (ignoreCase : Bool) : LexState :=
  let skips := findSkips st kinds
  { st with
    skipChars := skips.foldl (enterSkip ignoreCase) [],
    skipKeys := skips.map (·.1) }

------------------------------------------------------------
-- Lexical states
------------------------------------------------------------

/- The text of a literal that the table of literals may hold. -/
def tableImage?
    (r : RegexNode) : Option String :=
  r.literal?.filter fun image => !image.isEmpty

/- The literals among active kinds. -/
def literalsOf
    (g : Grammar)
    (active : List Active) : List Literal :=
  active.filterMap fun a =>
    (tableImage? (g.regex a.regex)).map fun image => ⟨a.kind, Text.units image, a.ignoreCase⟩

/- Literals with and without regard to case are mixed. -/
def isMixed
    (literals : List Literal) : Bool :=
  literals.any (·.ignoreCase) && literals.any fun l => !l.ignoreCase

/- The kinds that go into the automaton. -/
def automatonKinds
    (g : Grammar)
    (ignoreCase mixed : Bool)
    (active : List Active) : List (RegexId × Kind × Bool) :=
  active.filterMap fun a =>
    let r := g.regex a.regex
    if r.matchesAnyChar || ((tableImage? r).isSome && !mixed) then
      none
    else
      some (a.regex, a.kind, a.ignoreCase || ignoreCase)

/- The tables of a lexical state. -/
def tablesOf
    (g : Grammar)
    (ignoreCase : Bool)
    (name : String)
    (index : Nat)
    (active : List Active) : LexState :=
  let literals := literalsOf g active
  let mixed := isMixed literals
  let anyChar :=
    (active.filterMap fun a =>
      if (g.regex a.regex).matchesAnyChar then some a.kind else none).min?
  let nfa := Thompson.ofKinds g (automatonKinds g ignoreCase mixed active)
  let alphabet := Alphabet.ofNfa nfa
  let dfa := Dfa.ofNfa nfa alphabet
  let table := LiteralTable.build (if mixed then [] else literals) ignoreCase mixed
  { name := name,
    index := index,
    kinds := (active.map (·.kind)).mergeSort (· ≤ ·),
    literals :=
      if nfa.hasMoves && !mixed then table.withResume dfa alphabet anyChar else table,
    alphabet := alphabet,
    dfa := dfa,
    hasNfa := nfa.hasMoves,
    initMatch := (dfa.accept? dfa.start).filter (· != 0),
    anyChar := anyChar,
    mixed := mixed }

/- Build one lexical state and warn about what is odd in it. -/
def buildState
    (g : Grammar)
    (kinds : Array (Option KindAttrs))
    (acc : Session × Bool × Array LexState)
    (entry : (String × List Active) × Nat) : Session × Bool × Array LexState :=
  let (s, given, states) := acc
  let ((name, active), index) := entry
  let ignoreCase := s.options.ignoreCase
  let (s, given) := warnWideChars g active (s, given)
  let st := tablesOf g ignoreCase name index active
  let s := warnEmptyMatch g name s st.initMatch
  let s := st.literals.literals.foldl (warnShadowed g st) s
  (s, given, states.push (withSkips st kinds ignoreCase))

/- The states in which some unfinished token is continued. -/
def moreTargets
    (kinds : Array (Option KindAttrs))
    (states : Array LexState) : List Nat :=
  states.toList.flatMap fun st =>
    st.kinds.filterMap fun k =>
      match kinds.getD k none with
      | some a => if a.cls == .more then some (a.nextState.getD st.index) else none
      | none => none

/-
  Build the lexer of a grammar.  The session changes by
  warnings; a state that is not declared is a failure.
-/
def build
    (g : Grammar)
    (s : Session) : Session × Except Failure Lexer :=
  let collected := do
    let c ← collect g s.tokenCount
    let eofNext ← requireState? g (s.eof.bind (·.nextState))
    return (c, eofNext)
  match collected with
  | .error e => (s, .error e)
  | .ok (c, eofNext) =>
      let (s, _, states) :=
        ((g.lexicalStates.zip c.active.toList).zipIdx).foldl (buildState g c.kinds)
          (s, false, #[])
      let targets := moreTargets c.kinds states
      let states := states.map fun st =>
        { st with reachedOnMore := targets.contains st.index }
      (s, .ok
        { states := states, kinds := c.kinds, eofNextState := eofNext,
          ignoreCase := s.options.ignoreCase })

end Lexer

end Descent
