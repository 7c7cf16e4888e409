import Descent.Assoc
import Descent.Automaton.Dfa
import Descent.Automaton.KindSet
import Descent.Text.LetterCase

/-
  This file defines how string literals are recognized by
  position: for every position and character, which literals
  go on and which end there.  The automaton of the other
  tokens takes over where no literal goes on; from where it
  does so is worked out here for every beginning of a literal.

  Key definitions include:
    * `Literal`
    * `KindInfo`
    * `LiteralTable`
    * `LiteralTable.build`
    * `LiteralTable.withResume`
    * `LiteralTable.kindInfo?`
    * `LiteralTable.caseLabels`
-/

namespace Descent

open Text (lowerUnit upperUnit)

/- The number that stands for no kind; it is larger than every kind. -/
def noKind : Kind := 2147483647

------------------------------------------------------------
-- Entries
------------------------------------------------------------

/-
  The literals that go on, and those that end, at one place of
  the table, with their numbers.
-/
structure KindInfo where
  alive : KindSet := {}
  ended : KindSet := {}
  aliveCount : Nat := 0
  endedCount : Nat := 0
  deriving Repr, DecidableEq, Inhabited

namespace KindInfo

/- Enter a literal that goes on, unless it has been entered before. -/
def insertAlive
    (i : KindInfo)
    (k : Kind) : KindInfo :=
  if i.alive.contains k then
    i
  else
    { i with alive := i.alive.insert k, aliveCount := i.aliveCount + 1 }

/- Enter a literal that ends, unless it has been entered before. -/
def insertEnded
    (i : KindInfo)
    (k : Kind) : KindInfo :=
  if i.ended.contains k then
    i
  else
    { i with ended := i.ended.insert k, endedCount := i.endedCount + 1 }

end KindInfo

/- A string literal that is active in a lexical state. -/
structure Literal where
  kind : Kind
  image : List Nat
  /- The section of the literal ignores case. -/
  ignoreCase : Bool := false
  deriving Repr, DecidableEq, Inhabited

/-
  What the automaton knows after a beginning of a literal: the
  best kind so far, the position of its last character, and
  the state reached, if any.
-/
structure Resume where
  kind : Kind := noKind
  pos : Nat := 0
  state : Option StateId
  deriving Repr, DecidableEq, Inhabited

------------------------------------------------------------
-- Tables
------------------------------------------------------------

/- The literals of a lexical state by position. -/
structure LiteralTable where
  /- The words of every kind mask. -/
  words : Nat := 1
  /- The entries of each position, by ascending character. -/
  entries : Array (Assoc Nat KindInfo) := #[]
  maxLen : Nat := 0
  /- For each word, the length of the longest literal in it, less one. -/
  longest : List Nat := []
  /- One more than the largest kind. -/
  maxStrKind : Nat := 0
  literals : List Literal := []
  /- The literals that another literal may extend, ascending. -/
  subStrings : List Kind := []
  /- Positions at which some such literal ends. -/
  subStringAt : List Bool := []
  /- For each literal, what the automaton knows after each beginning. -/
  resumes : Assoc Kind (List Resume) := []
  /- For each position, the literals by what the automaton knows. -/
  buckets : Array (Assoc Resume KindSet) := #[]
  ignoreCase : Bool := false
  deriving Repr, DecidableEq, Inhabited

namespace LiteralTable

------------------------------------------------------------
-- Entering literals
------------------------------------------------------------

/-
  The characters under which a character of a literal is
  entered: its lower case form if all tokens ignore case, else
  itself, with its case forms if its section ignores case.
-/
def keysOf
    (allIgnoreCase literalIgnoresCase : Bool)
    (c : Nat) : List Nat :=
  if allIgnoreCase then
    [lowerUnit c]
  else if literalIgnoresCase then
    Text.caseVariants c
  else
    [c]

/- Enter one character of a literal at its position. -/
def enterChar
    (allIgnoreCase : Bool)
    (lit : Literal)
    (c : Nat)
    (isLast : Bool)
    (table : Assoc Nat KindInfo) : Assoc Nat KindInfo :=
  (keysOf allIgnoreCase lit.ignoreCase c).foldl
    (fun t key =>
      Assoc.alterSorted key
        (fun info =>
          if isLast then (info.getD {}).insertEnded lit.kind
          else (info.getD {}).insertAlive lit.kind)
        t)
    table

/- Enter the characters of a literal from a position on. -/
def enterChars
    (allIgnoreCase : Bool)
    (lit : Literal) :
    Nat → List Nat → Array (Assoc Nat KindInfo) → Array (Assoc Nat KindInfo)
  | _, [], entries => entries
  | i, c :: rest, entries =>
      let entries := if i < entries.size then entries else entries.push []
      enterChars allIgnoreCase lit (i + 1) rest
        (entries.modify i (enterChar allIgnoreCase lit c rest.isEmpty))

/- Note the length of a literal for the word of its kind. -/
def noteLength
    (longest : List Nat)
    (lit : Literal) : List Nat :=
  longest.modify (lit.kind / KindSet.wordBits) (max · (lit.image.length - 1))

/- The length of the longest literal whose kind is in a word, less one. -/
def maxLenForWord
    (t : LiteralTable)
    (word : Nat) : Nat :=
  t.longest.getD word 0

------------------------------------------------------------
-- Literals that extend others
------------------------------------------------------------

/- One text begins like another, up to case. -/
def beginsLike
    (longer shorter : List Nat) : Bool :=
  shorter.length ≤ longer.length &&
    (longer.zip shorter).all fun (c, d) =>
      c == d || lowerUnit d == c || upperUnit d == c

/- Some other literal may extend this one. -/
def isExtended
    (literals : List Literal)
    (allIgnoreCase : Bool)
    (lit : Literal) : Bool :=
  literals.any fun other =>
    other.kind != lit.kind &&
      (lit.image.isPrefixOf other.image ||
        (allIgnoreCase && beginsLike other.image lit.image))

/- Put a kind into an ascending list. -/
def insertKind
    (k : Kind) : List Kind → List Kind
  | [] => [k]
  | x :: xs =>
      if k < x then k :: x :: xs
      else if k == x then x :: xs
      else x :: insertKind k xs

/-
  The table of some literals; empty ones are left out.  Where
  literals with and without regard to case are mixed, every
  literal counts as one that may be extended.
-/
def build
    (literals : List Literal)
    (ignoreCase mixed : Bool) : LiteralTable :=
  let literals :=
    (literals.filter fun l => !l.image.isEmpty).mergeSort fun a b => a.kind ≤ b.kind
  let maxStrKind := (literals.getLast?.map fun l => l.kind + 1).getD 0
  let maxLen := (literals.map fun l => l.image.length).foldl max 0
  let words := maxStrKind / KindSet.wordBits + 1
  let extended := literals.filter fun l => mixed || isExtended literals ignoreCase l
  { words := words,
    entries :=
      literals.foldl (fun es l => enterChars ignoreCase l 0 l.image es) #[],
    maxLen := maxLen,
    longest := literals.foldl noteLength (List.replicate words 0),
    maxStrKind := maxStrKind,
    literals := literals,
    subStrings := extended.foldl (fun ks l => insertKind l.kind ks) [],
    subStringAt :=
      (List.range maxLen).map fun i => extended.any fun l => l.image.length == i + 1,
    ignoreCase := ignoreCase }

/- The kind of the literal with exactly this text. -/
def kindOf
    (t : LiteralTable)
    (image : List Nat) : Kind :=
  ((t.literals.find? fun l => l.image == image).map (·.kind)).getD noKind

/- Another literal may extend the literal of this kind. -/
def isSubString
    (t : LiteralTable)
    (kind : Kind) : Bool :=
  t.subStrings.contains kind

------------------------------------------------------------
-- Where the automaton takes over
------------------------------------------------------------

/-
  The kind that the automaton accepts after reading on from a
  state.  After the first character a wildcard with a smaller
  kind wins over an accepted kind.
-/
def acceptedKind
    (d : Dfa)
    (anyChar : Option Kind)
    (pos : Nat)
    (next : Option StateId) : Kind :=
  let kind := (next.bind d.accept?).getD noKind
  match anyChar with
  | some any => if pos == 0 && kind != noKind && any < kind then any else kind
  | none => kind

/-
  What is known after one more character of a literal.  A
  literal that ends here with a smaller kind wins; else an
  accepted kind counts; else what was known before does.
-/
def resumeNext
    (t : LiteralTable)
    (d : Dfa)
    (a : Alphabet)
    (anyChar : Option Kind)
    (image : List Nat)
    (before : Resume)
    (pos c : Nat) : Resume :=
  match before.state with
  | none => before
  | some q =>
      let next := d.step? a q c
      let kind := acceptedKind d anyChar pos next
      if t.kindOf (image.take (pos + 1)) < kind then
        { kind := noKind, pos := 0, state := next }
      else if kind != noKind then
        { kind := kind, pos := pos, state := next }
      else
        { before with state := next }

/- What is known after each beginning of a literal, from a position on. -/
def resumesFrom
    (t : LiteralTable)
    (d : Dfa)
    (a : Alphabet)
    (anyChar : Option Kind)
    (image : List Nat) : Resume → Nat → List Nat → List Resume
  | _, _, [] => []
  | before, pos, c :: rest =>
      let r := resumeNext t d a anyChar image before pos c
      r :: resumesFrom t d a anyChar image r (pos + 1) rest

/- What is known after each beginning of a literal. -/
def resumesOf
    (t : LiteralTable)
    (d : Dfa)
    (a : Alphabet)
    (anyChar : Option Kind)
    (lit : Literal) : List Resume :=
  resumesFrom t d a anyChar lit.image { state := some d.start } 0 lit.image

/- Enter a literal under what is known at each position, if anything is. -/
def enterResumes
    (kind : Kind) :
    Nat → List Resume → Array (Assoc Resume KindSet) → Array (Assoc Resume KindSet)
  | _, [], buckets => buckets
  | i, r :: rest, buckets =>
      let buckets :=
        if r.kind == noKind && r.state.isNone then
          buckets
        else
          buckets.modify i (Assoc.alter r fun s => (s.getD {}).insert kind)
      enterResumes kind (i + 1) rest buckets

/- Work out where the automaton takes over. -/
def withResume
    (t : LiteralTable)
    (d : Dfa)
    (a : Alphabet)
    (anyChar : Option Kind) : LiteralTable :=
  let resumes := t.literals.map fun l => (l.kind, resumesOf t d a anyChar l)
  { t with
    resumes :=
      resumes.foldl (fun m (k, rs) => Assoc.insertSorted k rs m) t.resumes,
    buckets :=
      resumes.foldl (fun bs (k, rs) => enterResumes k 0 rs bs)
        (Array.replicate t.maxLen []) }

/- The state to go on from after a literal has matched through a position. -/
def stateFor?
    (t : LiteralTable)
    (pos : Nat)
    (kind : Kind) : Option StateId :=
  ((t.buckets.getD pos []).find? fun (r, ks) =>
    r.state.isSome && ks.contains kind).bind fun (r, _) => r.state

/- A smaller kind of another token that matches the literal through a position. -/
def shadowing?
    (t : LiteralTable)
    (kind : Kind)
    (pos : Nat) : Option Kind := do
  let rs ← Assoc.get? kind t.resumes
  let r ← rs[pos]?
  if r.kind < kind ∧ r.pos = pos then some r.kind else none

/-
  The kind that is reported when a literal ends at a position.
  A wildcard competes with literals of one character only.
-/
def reportedKind
    (t : LiteralTable)
    (pos : Nat)
    (kind : Kind)
    (anyChar : Option Kind) : Kind :=
  match t.shadowing? kind pos with
  | some k => k
  | none =>
      match anyChar with
      | some any => if pos == 0 && any < kind then any else kind
      | none => kind

------------------------------------------------------------
-- Looking characters up
------------------------------------------------------------

/- The entry that a character matches at a position, and its key. -/
def kindInfo?
    (t : LiteralTable)
    (pos c : Nat) : Option (Nat × KindInfo) := do
  let table ← t.entries[pos]?
  match Assoc.get? c table with
  | some info => some (c, info)
  | none =>
      if t.ignoreCase then
        [lowerUnit c, upperUnit c].findSome? fun key =>
          match Assoc.get? key table with
          | some info =>
              if upperUnit key == c || lowerUnit key == c then some (key, info) else none
          | none => none
      else
        none

/- The characters of generated code that stand for a key. -/
def caseLabels
    (t : LiteralTable)
    (key : Nat) : List Nat :=
  if t.ignoreCase then
    (if upperUnit key != key then [upperUnit key] else []) ++
      (if lowerUnit key != key then [lowerUnit key] else []) ++ [key]
  else
    [key]

end LiteralTable

end Descent
