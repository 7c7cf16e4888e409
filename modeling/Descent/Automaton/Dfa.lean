import Descent.Automaton.Alphabet

/-
  This file defines deterministic automata over classes of
  characters and how they are made from nondeterministic
  ones.  A state stands for a set of states of the other
  automaton; states are numbered as they are found, and the
  one found last is worked on first.

  Key definitions include:
    * `Dfa`
    * `Dfa.ofNfa`
    * `Dfa.run`
-/

namespace Descent

------------------------------------------------------------
-- Machines
------------------------------------------------------------

/- A state: its target for each class, and the kind it accepts. -/
structure DfaState where
  targets : List (Option StateId)
  accept : Option Kind := none
  deriving Repr, DecidableEq, Inhabited

/- A deterministic automaton. -/
structure Dfa where
  states : Array DfaState
  start : StateId := 0
  numClasses : Nat
  deriving Repr, DecidableEq, Inhabited

namespace Dfa

/- The target of a state for a class. -/
def target?
    (d : Dfa)
    (q : StateId)
    (cls : ClassId) : Option StateId :=
  ((d.states.getD q default).targets[cls]?).join

/- The kind that a state accepts. -/
def accept?
    (d : Dfa)
    (q : StateId) : Option Kind :=
  (d.states.getD q default).accept

/- The state reached by reading one character. -/
def step?
    (d : Dfa)
    (a : Alphabet)
    (q : StateId)
    (c : Nat) : Option StateId :=
  d.target? q (a.classify c)

/- The state reached by reading characters. -/
def run
    (d : Dfa)
    (a : Alphabet)
    (q : StateId)
    (cs : List Nat) : Option StateId :=
  cs.foldlM (d.step? a) q

------------------------------------------------------------
-- Sets of states
------------------------------------------------------------

/- An automaton in the making. -/
structure Subsets where
  /- The set that each state found so far stands for. -/
  sets : Array (List StateId)
  /- The targets of each state found so far. -/
  rows : Array (List (Option StateId))
  /- The states that have no targets yet, the last found first. -/
  pending : List StateId
  deriving Repr, DecidableEq, Inhabited

namespace Subsets

/- The number of the state for a set, found or new. -/
def find
    (s : Subsets)
    (set : List StateId)
    (numClasses : Nat) : StateId × Subsets :=
  match s.sets.findIdx? (· == set) with
  | some q => (q, s)
  | none =>
      (s.sets.size,
       { sets := s.sets.push set,
         rows := s.rows.push (List.replicate numClasses none),
         pending := s.sets.size :: s.pending })

/- The targets of a set for a list of representatives. -/
def targets
    (m : Nfa)
    (numClasses : Nat)
    (set : List StateId) : List Nat → Subsets → List (Option StateId) × Subsets
  | [], s => ([], s)
  | c :: rest, s =>
      match m.move set c with
      | [] =>
          let (row, s) := targets m numClasses set rest s
          (none :: row, s)
      | reached =>
          let (q, s) := s.find (m.closure reached) numClasses
          let (row, s) := targets m numClasses set rest s
          (some q :: row, s)

/- Work on pending states until none is left. -/
def close
    (m : Nfa)
    (a : Alphabet) : Nat → Subsets → Subsets
  | 0, s => s
  | fuel + 1, s =>
      match s.pending with
      | [] => s
      | q :: pending =>
          let set := s.sets.getD q []
          let (row, s) :=
            targets m a.numClasses set a.representatives.toList
              { s with pending := pending }
          close m a fuel { s with rows := s.rows.setIfInBounds q row }

/- Only the state of the start set. -/
def initial
    (m : Nfa)
    (a : Alphabet) : Subsets :=
  { sets := #[m.closure [m.start]],
    rows := #[List.replicate a.numClasses none],
    pending := [0] }

/- All sets that are reachable; there are no more than all subsets. -/
def ofNfa
    (m : Nfa)
    (a : Alphabet) : Subsets :=
  close m a ((1 <<< m.states.size) + 1) (initial m a)

end Subsets

/- The deterministic automaton of a nondeterministic one. -/
def ofNfa
    (m : Nfa)
    (a : Alphabet) : Dfa :=
  let s := Subsets.ofNfa m a
  { states := (s.sets.zip s.rows).map fun (set, row) =>
      { targets := row, accept := m.acceptOf set },
    numClasses := a.numClasses }

end Dfa

end Descent
