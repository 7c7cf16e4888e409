import Descent.Grammar.Basic

/-
  This file defines nondeterministic automata over 16-bit
  units, their silent closure, and the kind that a set of
  states accepts.

  Key definitions include:
    * `CharClass`
    * `Nfa`
    * `Nfa.closure`
    * `Nfa.acceptOf`
    * `Nfa.move`
-/

namespace Descent

/- Index of an automaton state. -/
abbrev StateId := Nat

------------------------------------------------------------
-- Machines
------------------------------------------------------------

/- The characters of one move. -/
inductive CharClass where
  | single (c : Nat)
  | range (lo hi : Nat)
  deriving Repr, DecidableEq

namespace CharClass

/- The first and the last character of a class. -/
def bounds : CharClass → Nat × Nat
  | .single c => (c, c)
  | .range lo hi => (lo, hi)

/- A character belongs to a class. -/
def contains
    (cls : CharClass)
    (c : Nat) : Bool :=
  cls.bounds.1 ≤ c && c ≤ cls.bounds.2

/- The class of an inclusive range. -/
def ofRange
    (lo hi : Nat) : CharClass :=
  if lo = hi then .single lo else .range lo hi

end CharClass

/- A state with its moves, its silent moves and the kind it accepts. -/
structure NfaState where
  moves : List (CharClass × StateId) := []
  silent : List StateId := []
  accept : Option Kind := none
  deriving Repr, DecidableEq, Inhabited

/- A nondeterministic automaton. -/
structure Nfa where
  states : Array NfaState := #[{}]
  start : StateId := 0
  deriving Repr, DecidableEq, Inhabited

namespace Nfa

/- A state of the automaton. -/
def state
    (m : Nfa)
    (q : StateId) : NfaState :=
  m.states.getD q default

/- Some state reads input. -/
def hasMoves
    (m : Nfa) : Bool :=
  m.states.any fun s => !s.moves.isEmpty

------------------------------------------------------------
-- Silent moves
------------------------------------------------------------

/-
  Visit the states of a stack and what they reach silently.
  Every call takes one state off the stack, and a state enters
  the stack only when it is first visited.
-/
def visit
    (m : Nfa) : Nat → List StateId → Array Bool → Array Bool
  | 0, _, seen => seen
  | _ + 1, [], seen => seen
  | fuel + 1, q :: stack, seen =>
      let fresh := ((m.state q).silent.eraseDups).filter fun t => !seen.getD t true
      visit m fuel (fresh ++ stack) (fresh.foldl (fun s t => s.setIfInBounds t true) seen)

/- The states reachable from a set by silent moves, in ascending order. -/
def closure
    (m : Nfa)
    (qs : List StateId) : List StateId :=
  let n := m.states.size
  let seen := qs.foldl (fun s q => s.setIfInBounds q true) (Array.replicate n false)
  let seen := m.visit (qs.length + n + 1) qs seen
  (List.range n).filter fun q => seen.getD q false

/- The least kind of a list. -/
def leastKind
    (kinds : List Kind) : Option Kind :=
  kinds.min?

/- The least kind accepted in a set of states. -/
def acceptOf
    (m : Nfa)
    (qs : List StateId) : Option Kind :=
  leastKind (qs.filterMap fun q => (m.state q).accept)

/- The states that one state reaches by reading a character. -/
def targets
    (m : Nfa)
    (q : StateId)
    (c : Nat) : List StateId :=
  (m.state q).moves.filterMap fun (cls, t) =>
    if cls.contains c then some t else none

/- The states that a set reaches by reading a character. -/
def move
    (m : Nfa)
    (qs : List StateId)
    (c : Nat) : List StateId :=
  qs.flatMap fun q => m.targets q c

end Nfa

end Descent
