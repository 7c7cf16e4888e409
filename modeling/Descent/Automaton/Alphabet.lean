import Descent.Automaton.Nfa
import Descent.Text.Units

/-
  This file defines the division of the characters into
  classes that an automaton does not tell apart.  The
  alphabet is cut wherever some move begins or ends, and the
  pieces with equal moves form one class.

  Key definitions include:
    * `Alphabet`
    * `Alphabet.classify`
    * `Alphabet.intervals`
    * `Alphabet.ofNfa`
-/

namespace Descent

open Text (maxUnit)

/- Index of a class of characters. -/
abbrev ClassId := Nat

/- A division of the characters into classes. -/
structure Alphabet where
  /- Pieces of the alphabet: the first character and the class. -/
  pieces : List (Nat × ClassId)
  /- One character of each class. -/
  representatives : Array Nat
  deriving Repr, DecidableEq, Inhabited

namespace Alphabet

/- The number of classes. -/
def numClasses
    (a : Alphabet) : Nat :=
  a.representatives.size

/- The class of the last piece that starts at or before a character. -/
def classOf
    (c : Nat)
    (best : ClassId) : List (Nat × ClassId) → ClassId
  | [] => best
  | (start, cls) :: rest => if start ≤ c then classOf c cls rest else best

/- The class of a character; those beyond the largest unit count as it. -/
def classify
    (a : Alphabet)
    (c : Nat) : ClassId :=
  classOf (min c maxUnit) 0 a.pieces

/- The pieces with their first and last characters. -/
def intervalsOf : List (Nat × ClassId) → List (Nat × Nat × ClassId)
  | [] => []
  | [(start, cls)] => [(start, maxUnit, cls)]
  | (start, cls) :: (next, cls') :: rest =>
      (start, next - 1, cls) :: intervalsOf ((next, cls') :: rest)

/- The pieces with their first and last characters. -/
def intervals
    (a : Alphabet) : List (Nat × Nat × ClassId) :=
  intervalsOf a.pieces

------------------------------------------------------------
-- Classes of an automaton
------------------------------------------------------------

/- Sort numbers and keep one of each. -/
def sortUnique
    (xs : List Nat) : List Nat :=
  ((xs.mergeSort (· ≤ ·)).foldl
    (fun acc x => if acc.head? = some x then acc else x :: acc) []).reverse

/- The characters at which the moves of an automaton change. -/
def cuts
    (m : Nfa) : List Nat :=
  sortUnique
    (0 :: m.states.toList.flatMap fun s =>
      s.moves.flatMap fun (cls, _) =>
        let (lo, hi) := cls.bounds
        if hi < maxUnit then [lo, hi + 1] else [lo])

/- What a character does: the targets of each state that it moves. -/
abbrev Signature := List (StateId × List StateId)

/- The signature of a character. -/
def signature
    (m : Nfa)
    (c : Nat) : Signature :=
  (List.range m.states.size).filterMap fun q =>
    match sortUnique (m.targets q c) with
    | [] => none
    | targets => some (q, targets)

/- Classes in the making. -/
structure Sorting where
  signatures : Array Signature := #[]
  representatives : Array Nat := #[]
  pieces : List (Nat × ClassId) := []

/- Put one character into the class of its signature. -/
def Sorting.place
    (s : Sorting)
    (c : Nat)
    (sig : Signature) : Sorting :=
  match s.signatures.findIdx? (· == sig) with
  | some cls => { s with pieces := (c, cls) :: s.pieces }
  | none =>
      { signatures := s.signatures.push sig,
        representatives := s.representatives.push c,
        pieces := (c, s.signatures.size) :: s.pieces }

/- The classes that an automaton tells apart. -/
def ofNfa
    (m : Nfa) : Alphabet :=
  let sorting : Sorting := (cuts m).foldl (fun s c => s.place c (signature m c)) {}
  { pieces := sorting.pieces.reverse, representatives := sorting.representatives }

end Alphabet

end Descent
