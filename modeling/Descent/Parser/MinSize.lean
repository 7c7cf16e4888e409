import Descent.Parser.First

/-
  This file defines the fewest tokens that an expansion
  consumes.  An expansion that is already being measured
  counts as endless, and a measurement stops once it exceeds a
  size that is already known to be possible.  A session marks
  what it measures, and remembers the sizes that it has been
  asked for.

  Key definitions include:
    * `MinSize.below`
    * `MinSize.of`
    * `MinSize.measureTo`
    * `MinSize.remembered`
-/

namespace Descent

namespace MinSize

/- The size of an expansion that has no finite one. -/
def infinite : Nat := 4294967295

/- The least size of some alternatives and a bound; one token is small enough. -/
def leastOf
    (size : ExpId → Nat → Nat) : Nat → List ExpId → Nat
  | least, [] => least
  | least, alt :: alts =>
      if least ≤ 1 then least else leastOf size (min least (size alt least)) alts

/-
  The sum of the sizes of some units, given up beyond a bound.
  A sum that is too large for a size counts as endless.
-/
def sumOf
    (size : ExpId → Nat)
    (bound : Nat) : Nat → List ExpId → Nat
  | sum, [] => sum
  | sum, u :: us =>
      let here := size u
      if sum == infinite || here == infinite then
        sumOf size bound infinite us
      else
        let total := min (sum + here) infinite
        if bound < total then total else sumOf size bound total us

/-
  The size of an expansion as far as it is not beyond a bound,
  while some expansions are being measured.
-/
def below
    (g : Grammar)
    (s : Session) : Nat → List ExpId → ExpId → Nat → Nat
  | 0, _, _, _ => infinite
  | depth + 1, open_, id, bound =>
      if open_.contains id then
        infinite
      else
        let size := below g s depth (id :: open_)
        match g.form id with
        | .terminal _ _ _ => 1
        | .nonterminal name _ _ =>
            match bodyOf? g s name with
            | some body => size body infinite
            | none => infinite
        | .choice alternatives => leastOf size bound alternatives
        | .sequence units => sumOf (size · infinite) bound 0 (units.drop 1)
        | .tryBlock body _ _ => size body infinite
        | .oneOrMore body => size body infinite
        | .zeroOrMore _ => 0
        | .zeroOrOne _ => 0
        | .action _ => 0
        | .lookahead _ => 0

/- The fewest tokens that an expansion consumes. -/
def of
    (g : Grammar)
    (s : Session)
    (id : ExpId) : Nat :=
  below g s (g.expansions.size + 1) [] id infinite

------------------------------------------------------------
-- Measuring in a session
------------------------------------------------------------

/- Measure alternatives one after the other for the least size. -/
def measureLeast
    (measure : ExpId → Nat → StateM ParserTables Nat) :
    Nat → List ExpId → StateM ParserTables Nat
  | least, [] => return least
  | least, alt :: alts => do
      if least ≤ 1 then
        return least
      else
        let size ← measure alt least
        measureLeast measure (min least size) alts

/- Measure units one after the other for the sum of their sizes. -/
def measureSum
    (measure : ExpId → StateM ParserTables Nat)
    (bound : Nat) : Nat → List ExpId → StateM ParserTables Nat
  | sum, [] => return sum
  | sum, u :: us => do
      let here ← measure u
      if sum == infinite || here == infinite then
        measureSum measure bound infinite us
      else
        let total := min (sum + here) infinite
        if bound < total then
          return total
        else
          measureSum measure bound total us

/- Measure an expansion by its parts. -/
def measureParts
    (g : Grammar)
    (s : Session)
    (measure : ExpId → Nat → StateM ParserTables Nat)
    (id : ExpId)
    (bound : Nat) : StateM ParserTables Nat :=
  match g.form id with
  | .terminal _ _ _ => return 1
  | .nonterminal name _ _ =>
      match bodyOf? g s name with
      | some body => measure body infinite
      | none => return infinite
  | .choice alternatives => measureLeast measure bound alternatives
  | .sequence units => measureSum (measure · infinite) bound 0 (units.drop 1)
  | .tryBlock body _ _ => measure body infinite
  | .oneOrMore body => measure body infinite
  | .zeroOrMore _ => return 0
  | .zeroOrOne _ => return 0
  | .action _ => return 0
  | .lookahead _ => return 0

/-
  Measure an expansion as far as it is not beyond a bound, to
  a given depth.  What is measured is marked meanwhile.  Only
  a size that is not measured for another one is looked up
  and remembered.
-/
def measureTo
    (g : Grammar)
    (s : Session) : Nat → ExpId → Nat → StateM ParserTables Nat
  | 0, _, _ => return infinite
  | depth + 1, id, bound => do
      let t ← get
      let outermost := bound == infinite && t.measuring.isEmpty
      match if outermost then Assoc.get? id t.minSizes else none with
      | some size => return size
      | none =>
          if t.measuring.contains id then
            return infinite
          else
            set { t with measuring := id :: t.measuring }
            let size ← measureParts g s (measureTo g s depth) id bound
            modify fun t => { t with measuring := t.measuring.erase id }
            if outermost then
              modify fun t =>
                { t with minSizes := Assoc.insertSorted id size t.minSizes }
            return size

/- The fewest tokens that an expansion consumes, remembered for the next time. -/
def remembered
    (g : Grammar)
    (s : Session)
    (id : ExpId) : StateM ParserTables Nat :=
  measureTo g s (g.expansions.size + 1) id infinite

end MinSize

end Descent
