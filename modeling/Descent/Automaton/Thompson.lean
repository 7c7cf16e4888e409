import Descent.Automaton.CharRanges
import Descent.Automaton.Nfa

/-
  This file defines how token expressions become automata.
  Every part of an expression adds a segment with one entry
  and one exit, and the segments are joined by silent moves.

  Key definitions include:
    * `Segment`
    * `Thompson.segment`
    * `Thompson.addKind`
    * `Thompson.ofKinds`
-/

namespace Descent

/- The entry and the exit of a part of an automaton. -/
structure Segment where
  entry : StateId
  exit : StateId
  deriving Repr, DecidableEq

namespace Thompson

open Text (units caseVariants)

/- A step that adds to an automaton. -/
abbrev Construct := StateM Nfa

------------------------------------------------------------
-- States and moves
------------------------------------------------------------

/- Add a state. -/
def addState : Construct StateId :=
  modifyGet fun m => (m.states.size, { m with states := m.states.push {} })

/- Add a silent move. -/
def addSilent
    (source target : StateId) : Construct Unit :=
  modify fun m =>
    { m with
      states := m.states.modify source fun s =>
        { s with silent := s.silent ++ [target] } }

/- Add moves to one target. -/
def addMoves
    (source target : StateId)
    (classes : List CharClass) : Construct Unit :=
  modify fun m =>
    { m with
      states := m.states.modify source fun s =>
        { s with moves := s.moves ++ classes.map fun cls => (cls, target) } }

/- Add an entry and an exit. -/
def addPair : Construct Segment := do
  let entry ← addState
  let exit ← addState
  return ⟨entry, exit⟩

------------------------------------------------------------
-- Segments
------------------------------------------------------------

/- Add one state for each unit, with moves to it; the result is the last state. -/
def spell
    (ignoreCase : Bool)
    (source : StateId) : List Nat → Construct StateId
  | [] => return source
  | c :: rest => do
      let next ← addState
      let variants := if ignoreCase then caseVariants c else [c]
      addMoves source next (variants.map .single)
      spell ignoreCase next rest

/- The segment of a string literal. -/
def literalSegment
    (image : List Nat)
    (ignoreCase : Bool) : Construct Segment := do
  let entry ← addState
  match image with
  | [] =>
      let exit ← addState
      addSilent entry exit
      return ⟨entry, exit⟩
  | _ => return ⟨entry, ← spell ignoreCase entry image⟩

/- The segment of a character list. -/
def charsSegment
    (negated : Bool)
    (items : List CharItem)
    (ignoreCase : Bool) : Construct Segment := do
  let seg ← addPair
  let ranges := CharRanges.ofItems negated items ignoreCase
  addMoves seg.entry seg.exit (ranges.map fun (lo, hi) => .ofRange lo hi)
  return seg

/- Join segments one after the other, from a state on; the result is the last exit. -/
def chain
    (current : StateId) : List (Construct Segment) → Construct StateId
  | [] => return current
  | part :: rest => do
      let seg ← part
      addSilent current seg.entry
      chain seg.exit rest

/- The segment of parts one after the other. -/
def sequenceSegment
    (parts : List (Construct Segment)) : Construct Segment := do
  let seg ← addPair
  let last ← chain seg.entry parts
  addSilent last seg.exit
  return seg

/- The segment of one of several parts. -/
def choiceSegment
    (parts : List (Construct Segment)) : Construct Segment := do
  let seg ← addPair
  parts.forM fun part => do
    let inner ← part
    addSilent seg.entry inner.entry
    addSilent inner.exit seg.exit
  return seg

/- The segment of a part that may be left out or gone through again. -/
def repeatSegment
    (part : Construct Segment)
    (optional looping : Bool) : Construct Segment := do
  let seg ← addPair
  let inner ← part
  addSilent seg.entry inner.entry
  addSilent inner.exit seg.exit
  if looping then addSilent inner.exit inner.entry
  if optional then addSilent seg.entry seg.exit
  return seg

/- The parts of a bounded repetition: the required copies, then the optional ones. -/
def repetitionParts
    (part : Construct Segment)
    (least : Nat)
    (most : Option Nat) : List (Construct Segment) :=
  List.replicate least part ++
    match most with
    | none => [repeatSegment part true true]
    | some most => List.replicate (most - least) (repeatSegment part true false)

/-
  The segment of a token expression.  A reference stands for
  the segment of its target, unless the target is already
  being expanded, which gives a segment that matches nothing.
-/
def segmentTo
    (g : Grammar)
    (ignoreCase : Bool) : Nat → List RegexId → RegexId → Construct Segment
  | 0, _, _ => addPair
  | depth + 1, expanding, id =>
      match (g.regex id).form with
      | .literal image => literalSegment (units image) ignoreCase
      | .chars negated items => charsSegment negated items ignoreCase
      | .reference _ (some target) =>
          if expanding.contains target then
            addPair
          else
            segmentTo g ignoreCase depth (target :: expanding) target
      | .reference _ none => addPair
      | .endOfFile => addPair
      | .sequence parts =>
          sequenceSegment (parts.map (segmentTo g ignoreCase depth expanding))
      | .choice parts =>
          choiceSegment (parts.map (segmentTo g ignoreCase depth expanding))
      | .oneOrMore body =>
          repeatSegment (segmentTo g ignoreCase depth expanding body) false true
      | .zeroOrMore body =>
          repeatSegment (segmentTo g ignoreCase depth expanding body) true true
      | .zeroOrOne body =>
          repeatSegment (segmentTo g ignoreCase depth expanding body) true false
      | .repetition body least most =>
          sequenceSegment
            (repetitionParts (segmentTo g ignoreCase depth expanding body) least most)

/-
  The deepest nesting of expressions: every reference on the
  way enters a new target, and between two references there
  are at most as many expressions as the grammar has.
-/
def depthBound
    (g : Grammar) : Nat :=
  (g.regexes.size + 1) * (g.regexes.size + 2)

/- The segment of a token expression. -/
def segment
    (g : Grammar)
    (ignoreCase : Bool)
    (id : RegexId) : Construct Segment :=
  segmentTo g ignoreCase (depthBound g) [] id

------------------------------------------------------------
-- Kinds
------------------------------------------------------------

/- Let the end of a segment accept a kind, or the smaller of two. -/
def accepting
    (q : StateId)
    (kind : Kind) : Construct Unit :=
  modify fun m =>
    { m with
      states := m.states.modify q fun s =>
        { s with accept := some ((s.accept.map (min · kind)).getD kind) } }

/- Add a token expression that accepts a kind. -/
def addKind
    (g : Grammar)
    (id : RegexId)
    (kind : Kind)
    (ignoreCase : Bool) : Construct Unit := do
  let seg ← segment g ignoreCase id
  accepting seg.exit kind
  addSilent (← get).start seg.entry

/- The automaton of several kinds. -/
def ofKinds
    (g : Grammar)
    (kinds : List (RegexId × Kind × Bool)) : Nfa :=
  ((kinds.forM fun (id, kind, ignoreCase) => addKind g id kind ignoreCase).run {}).2

end Thompson

end Descent
