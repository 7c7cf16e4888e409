import Descent.Lexer.Scanner
import Mathlib.Algebra.Order.Group.Int
import Mathlib.Tactic.Common

/-
  Where the literals hand over to the automaton.

  An attempt follows the table of literals and then lets the
  automaton go on.  `LexState.handover` is the first half
  alone: how many units were read, what the best match is by
  then, and from which state the automaton goes on.  An
  attempt is the handover, a scan by the automaton, and the
  choice of a wildcard at the end.

  Main declarations:
    * `LexState.scan`
    * `LexState.handover`
    * `LexState.best_attempt`
    * `LexState.attempt_tracks`
-/

------------------------------------------------------------
-- Best matches
------------------------------------------------------------

namespace Descent

/- The kind and the last position of the match so far. -/
def Attempt.best
    (a : Attempt) : Nat × Int :=
  (a.kind, a.pos)

@[simp] theorem Attempt.best_matched
    (a : Attempt)
    (kind pos : Nat) :
    (a.matched kind pos).best = (kind, (pos : Int)) :=
  rfl

@[simp] theorem Attempt.best_advance
    (a : Attempt)
    (c : Nat) :
    (a.advance c).best = a.best :=
  rfl

namespace LexState

/- The match so far after a unit that ends at a position. -/
def improve
    (st : LexState)
    (q pos : Nat)
    (b : Nat × Int) : Nat × Int :=
  match st.dfa.accept? q with
  | some kind => (kind, (pos : Int))
  | none => b

/- The best match when the automaton reads on from a state. -/
def scan
    (st : LexState)
    (q pos : Nat)
    (b : Nat × Int) : List Nat → Nat × Int
  | [] => b
  | c :: rest =>
      match st.dfa.step? st.alphabet q c with
      | none => b
      | some q' =>
          scan st q' (pos + 1) (st.improve q' pos b) rest

theorem stepDfa_eq
    (st : LexState)
    (q pos : Nat)
    (a : Attempt) :
    (stepDfa st q pos a).1 =
        st.dfa.step? st.alphabet q a.current ∧
      (stepDfa st q pos a).2.best =
        (match st.dfa.step? st.alphabet q a.current with
          | none => a.best
          | some q' => st.improve q' pos a.best) := by
  unfold stepDfa improve
  cases st.dfa.step? st.alphabet q a.current with
  | none => exact ⟨rfl, rfl⟩
  | some q' =>
      simp only [Option.bind_some]
      cases st.dfa.accept? q' with
      | none => exact ⟨rfl, rfl⟩
      | some kind => exact ⟨rfl, rfl⟩

theorem best_runDfa
    (st : LexState)
    (q pos : Nat)
    (a : Attempt)
    (rest : List Nat) :
    (runDfa st q pos a rest).2.best =
      st.scan q pos a.best (a.current :: rest) := by
  induction rest generalizing q pos a with
  | nil =>
      unfold runDfa scan
      rw [(stepDfa_eq st q pos a).2]
      cases st.dfa.step? st.alphabet q a.current <;> rfl
  | cons c rest ih =>
      have hStep := stepDfa_eq st q pos a
      unfold runDfa scan
      generalize stepDfa st q pos a = outcome at hStep ⊢
      rcases outcome with ⟨next, a'⟩
      rcases hStep with ⟨hNext, hBest⟩
      change next = _ at hNext
      subst hNext
      generalize st.dfa.step? st.alphabet q a.current = target
        at hBest ⊢
      cases target with
      | none => exact hBest
      | some q' =>
          change a'.best = st.improve q' pos a.best at hBest
          change (runDfa st q' (pos + 1) (a'.advance c)
            rest).2.best = _
          rw [ih, Attempt.best_advance, hBest]
          rfl

------------------------------------------------------------
-- The handover
------------------------------------------------------------

/- What the literals hand over to the automaton. -/
structure Handover where
  /- The state from which the automaton goes on. -/
  state : Option Nat
  /- The units that have been read. -/
  read : Nat
  best : Nat × Int
  /- The units that have not been read. -/
  rest : List Nat

/- Stop following literals, as to the best match. -/
def stopBest
    (st : LexState)
    (b : Nat × Int)
    (pos : Nat)
    (alive : KindSet) : Option Nat × (Nat × Int) :=
  let stopped := stopLiterals st
    { kind := b.1, pos := b.2, current := 0 } pos alive
  (stopped.1, stopped.2.best)

/- Hand over after the literals that are alive at a position. -/
def handStop
    (st : LexState)
    (pos : Nat)
    (alive : KindSet)
    (b : Nat × Int)
    (rest : List Nat) : Handover :=
  if st.hasNfa then
    { state := (st.stopBest b (pos - 1) alive).1,
      read := pos,
      best := (st.stopBest b (pos - 1) alive).2,
      rest := rest }
  else { state := none, read := pos, best := b, rest := rest }

/- Hand over after a literal that nothing extends. -/
def handCommit
    (st : LexState)
    (pos kind : Nat)
    (rest : List Nat) : Handover :=
  { state := st.literals.stateFor? pos kind,
    read := pos + 1,
    best :=
      (st.literals.reportedKind pos kind st.anyChar,
        (pos : Int)),
    rest := rest }

/- The entry for a unit at a position. -/
def infoFor
    (st : LexState)
    (pos c : Nat) : KindInfo :=
  ((st.literals.kindInfo? pos c).map (·.2)).getD {}

/- Follow the literals that are alive before a position. -/
def handFollow
    (st : LexState)
    (pos : Nat)
    (alive : KindSet)
    (b : Nat × Int) : List Nat → Handover
  | [] => st.handStop pos alive b []
  | c :: rest =>
      let info := st.infoFor pos c
      let goOn := fun b =>
        if (info.alive.inter alive).isEmpty then
          st.handStop pos alive b (c :: rest)
        else
          handFollow st (pos + 1) (info.alive.inter alive) b
            rest
      match (info.ended.inter alive).least? with
      | none => goOn b
      | some kind =>
          if st.literals.isSubString kind then
            goOn
              (st.literals.reportedKind pos kind st.anyChar,
                (pos : Int))
          else st.handCommit pos kind rest

/- The match before an attempt. -/
def blank
    (st : LexState) : Nat × Int :=
  (st.blankAttempt 0).best

/- Hand over before anything has been read. -/
def handAtStart
    (st : LexState)
    (b : Nat × Int)
    (us : List Nat) : Handover :=
  { state := if st.hasNfa then some st.dfa.start else none,
    read := 0, best := b, rest := us }

/- Follow the literals from the first unit on. -/
def handover
    (st : LexState)
    (first : Nat)
    (rest : List Nat) : Handover :=
  if st.literals.maxLen = 0 then
    st.handAtStart st.blank (first :: rest)
  else
    let info := st.infoFor 0 first
    let goOn := fun b =>
      if info.alive.isEmpty then
        st.handAtStart b (first :: rest)
      else st.handFollow 1 info.alive b rest
    match info.ended.least? with
    | none => goOn st.blank
    | some kind =>
        if st.literals.isSubString kind then
          goOn
            (st.literals.reportedKind 0 kind st.anyChar, 0)
        else st.handCommit 0 kind rest

/- What was not read is the rest of the text. -/
theorem rest_handStop
    (st : LexState)
    (pos : Nat)
    (alive : KindSet)
    (b : Nat × Int)
    (us : List Nat) :
    (st.handStop pos alive b us).read = pos ∧
      (st.handStop pos alive b us).rest = us := by
  unfold handStop
  split <;> exact ⟨rfl, rfl⟩

theorem rest_handFollow
    (st : LexState)
    (pos : Nat)
    (alive : KindSet)
    (b : Nat × Int)
    (us : List Nat) :
    ∃ m, (st.handFollow pos alive b us).read = pos + m ∧
      (st.handFollow pos alive b us).rest = us.drop m := by
  induction us generalizing pos alive b with
  | nil => exact ⟨0, rest_handStop st pos alive b []⟩
  | cons c us ih =>
      have hGoOn : ∀ b, ∃ m,
          (if ((st.infoFor pos c).alive.inter alive).isEmpty then
            st.handStop pos alive b (c :: us)
          else
            st.handFollow (pos + 1)
              ((st.infoFor pos c).alive.inter alive) b
              us).read = pos + m ∧
          (if ((st.infoFor pos c).alive.inter alive).isEmpty then
            st.handStop pos alive b (c :: us)
          else
            st.handFollow (pos + 1)
              ((st.infoFor pos c).alive.inter alive) b
              us).rest = (c :: us).drop m := by
        intro b
        split
        · exact ⟨0, rest_handStop st pos alive b (c :: us)⟩
        · rcases ih (pos + 1)
            ((st.infoFor pos c).alive.inter alive) b with
            ⟨m, hRead, hRest⟩
          exact ⟨m + 1, by rw [hRead]; omega, hRest⟩
      unfold handFollow
      dsimp only
      split
      · exact hGoOn b
      · split
        · exact hGoOn _
        · exact ⟨1, rfl, rfl⟩

theorem rest_handover
    (st : LexState)
    (first : Nat)
    (us : List Nat) :
    (st.handover first us).rest =
      (first :: us).drop (st.handover first us).read := by
  have hFollow : ∀ alive b,
      (st.handFollow 1 alive b us).rest =
        (first :: us).drop
          (st.handFollow 1 alive b us).read := by
    intro alive b
    rcases rest_handFollow st 1 alive b us with
      ⟨m, hRead, hRest⟩
    rw [hRead, hRest, Nat.add_comm]
    rfl
  unfold handover
  dsimp only
  split
  · rfl
  · split
    · split
      · rfl
      · exact hFollow _ _
    · split
      · split
        · rfl
        · exact hFollow _ _
      · rfl

/- Let the automaton go on after a handover. -/
def finish
    (st : LexState)
    (h : Handover) : Nat × Int :=
  match h.state with
  | none => h.best
  | some q => st.scan q h.read h.best h.rest

/- A wildcard wins over no match and over larger kinds. -/
def settle
    (anyChar : Option Nat)
    (b : Nat × Int) : Nat × Int :=
  match anyChar with
  | none => b
  | some any =>
      if b.2 < 0 ∨ (b.2 = 0 ∧ any < b.1) then (any, 0) else b

------------------------------------------------------------
-- Attempts
------------------------------------------------------------

theorem stopLiterals_eq
    (st : LexState)
    (a : Attempt)
    (pos : Nat)
    (alive : KindSet) :
    (stopLiterals st a pos alive).1 =
        (st.stopBest a.best pos alive).1 ∧
      (stopLiterals st a pos alive).2.best =
        (st.stopBest a.best pos alive).2 ∧
      (stopLiterals st a pos alive).2.current = a.current ∧
      (stopLiterals st a pos alive).2.read = a.read := by
  unfold stopBest stopLiterals
  split
  · exact ⟨rfl, rfl, rfl, rfl⟩
  · split
    · exact ⟨rfl, rfl, rfl, rfl⟩
    · next r _ _ =>
        have hSame :
            prefersResume st
              { kind := a.best.1, pos := a.best.2,
                current := 0 } pos r =
              prefersResume st a pos r :=
          rfl
        rw [hSame]
        split
        · dsimp only
          split <;> exact ⟨rfl, rfl, rfl, rfl⟩
        · exact ⟨rfl, rfl, rfl, rfl⟩

theorem best_commit
    (st : LexState)
    (a : Attempt)
    (pos kind : Nat)
    (rest : List Nat) :
    (commit st a pos kind rest).2.best =
      st.finish (st.handCommit pos kind rest) := by
  unfold commit finish handCommit
  dsimp only
  cases st.literals.stateFor? pos kind with
  | none => rfl
  | some q =>
      cases rest with
      | nil => rfl
      | cons c rest =>
          change (runDfa st q (pos + 1) _ rest).2.best = _
          rw [best_runDfa]
          rfl

theorem best_takeOver
    {st : LexState}
    (hMixed : st.mixed = false)
    (hNfa : st.hasNfa = true)
    (a : Attempt)
    {pos : Nat}
    (hPos : 0 < pos)
    (alive : KindSet)
    (rest : List Nat) :
    (takeOver st a (pos - 1) alive rest).2.best =
      st.finish (st.handStop pos alive a.best
        (a.current :: rest)) := by
  have hStop := stopLiterals_eq st a (pos - 1) alive
  unfold takeOver
  rw [if_neg (by simp [hMixed]), Nat.sub_add_cancel hPos]
  unfold handStop finish
  rw [if_pos hNfa]
  generalize stopLiterals st a (pos - 1) alive = stopped
    at hStop ⊢
  rcases stopped with ⟨q, a'⟩
  rcases hStop with ⟨hState, hBest, hCurrent, -⟩
  change q = _ at hState
  change a'.best = _ at hBest
  change a'.current = _ at hCurrent
  dsimp only
  rw [← hState, ← hBest]
  unfold runFrom
  cases q with
  | none => rfl
  | some q =>
      dsimp only
      rw [best_runDfa, hCurrent]

/- Where no literal goes on, the automaton takes over. -/
theorem best_noMore
    {st : LexState}
    (hMixed : st.mixed = false)
    (a : Attempt)
    {pos : Nat}
    (hPos : 0 < pos)
    (alive : KindSet)
    (rest : List Nat) :
    (if st.hasNfa then takeOver st a (pos - 1) alive rest
        else (pos + 1, a)).2.best =
      st.finish (st.handStop pos alive a.best
        (a.current :: rest)) := by
  by_cases hNfa : st.hasNfa = true
  · rw [if_pos hNfa]
    exact best_takeOver hMixed hNfa a hPos alive rest
  · rw [if_neg hNfa, handStop, if_neg hNfa]
    rfl

theorem best_followLiterals
    {st : LexState}
    (hMixed : st.mixed = false)
    (pos : Nat)
    (hPos : 0 < pos)
    (alive : KindSet)
    (a : Attempt)
    (rest : List Nat) :
    (followLiterals st pos alive a rest).2.best =
      st.finish (st.handFollow pos alive a.best rest) := by
  induction rest generalizing pos alive a with
  | nil =>
      unfold followLiterals handFollow handStop finish
      split
      · rw [(stopLiterals_eq st a (pos - 1) alive).2.1]
        dsimp only
        split <;> rfl
      · rfl
  | cons c rest ih =>
      -- Going on after the literals that end here are dealt with.
      have hGoOn : ∀ (info : KindInfo) (a : Attempt),
          a.current = c →
          (if info.alive.isEmpty then
              (if st.hasNfa then
                takeOver st a (pos - 1) alive rest
              else (pos + 1, a))
            else if (info.alive.inter alive).isEmpty then
              (if st.hasNfa && !st.mixed then
                takeOver st a (pos - 1) alive rest
              else (pos + 1, a))
            else
              followLiterals st (pos + 1)
                (info.alive.inter alive) a rest).2.best =
            st.finish
              (if (info.alive.inter alive).isEmpty then
                st.handStop pos alive a.best (c :: rest)
              else
                st.handFollow (pos + 1)
                  (info.alive.inter alive) a.best rest) := by
        intro info a hCurrent
        have hStop := best_noMore hMixed a hPos alive rest
        rw [hCurrent] at hStop
        by_cases hNone : info.alive.isEmpty = true
        · have hInter : (info.alive.inter alive).isEmpty =
              true := by
            simp only [KindSet.isEmpty, beq_iff_eq] at hNone ⊢
            simp [KindSet.inter, hNone]
          rw [if_pos hNone, if_pos hInter]
          exact hStop
        · rw [if_neg hNone]
          split
          · rw [hMixed, Bool.not_false, Bool.and_true]
            exact hStop
          · exact ih (pos + 1) (Nat.succ_pos pos) _ a
      unfold followLiterals handFollow infoFor
      dsimp only
      cases hInfo : st.literals.kindInfo? pos c with
      | none =>
          have hEnded : (KindSet.inter
              (({} : KindInfo).ended) alive).least? = none := by
            simp [KindSet.inter, KindSet.least?,
              KindSet.kinds, KindSet.contains]
          have hAlive : ((KindSet.inter
              (({} : KindInfo).alive) alive)).isEmpty =
                true := by
            simp [KindSet.inter, KindSet.isEmpty]
          simp only [Option.map_none, Option.getD_none, hEnded,
            hAlive, if_true]
          have hStop := best_noMore hMixed (a.advance c) hPos
            alive rest
          exact hStop
      | some found =>
          rcases found with ⟨key, info⟩
          simp only [Option.map_some, Option.getD_some]
          cases (info.ended.inter alive).least? with
          | none => exact hGoOn info (a.advance c) rfl
          | some kind =>
              dsimp only
              split
              · exact hGoOn info
                  ((a.advance c).matched _ pos) rfl
              · exact best_commit st (a.advance c) pos kind rest

theorem best_runAtStart
    (st : LexState)
    (a : Attempt)
    (rest : List Nat) :
    (runAtStart st a rest).2.best =
      st.finish (st.handAtStart a.best (a.current :: rest)) := by
  unfold runAtStart handAtStart finish
  by_cases hNfa : st.hasNfa = true
  · rw [if_pos hNfa, if_pos hNfa, best_runDfa]
  · rw [if_neg hNfa, if_neg hNfa]

theorem best_blankAttempt
    (st : LexState)
    (c : Nat) :
    (st.blankAttempt c).best = st.blank := by
  unfold blank blankAttempt
  split <;> rfl

theorem current_blankAttempt
    (st : LexState)
    (c : Nat) :
    (st.blankAttempt c).current = c := by
  unfold blankAttempt
  split <;> rfl

theorem blank_of_initMatch_none
    {st : LexState}
    (hInit : st.initMatch = none) :
    st.blank = (noKind, 0) := by
  unfold blank blankAttempt
  rw [hInit]
  rfl

theorem blank_of_initMatch_some
    {st : LexState}
    {kind : Nat}
    (hInit : st.initMatch = some kind) :
    st.blank = (kind, -1) := by
  unfold blank blankAttempt
  rw [hInit]
  rfl

theorem best_startLiterals
    {st : LexState}
    (hMixed : st.mixed = false ∨ st.literals.maxLen = 0)
    {first : Nat}
    (hSkip : st.skipKeys.contains first = false)
    (rest : List Nat) :
    (startLiterals st (st.blankAttempt first) rest).2.best =
      st.finish (st.handover first rest) := by
  have hCurrent := current_blankAttempt st first
  have hStart := best_runAtStart st (st.blankAttempt first) rest
  rw [best_blankAttempt, hCurrent] at hStart
  unfold startLiterals handover infoFor
  rw [hCurrent, hSkip, Bool.or_false]
  by_cases hEmpty : st.literals.maxLen = 0
  · rw [if_pos (by simp [hEmpty]), if_pos hEmpty]
    exact hStart
  rw [if_neg (by simp [hEmpty]), if_neg hEmpty]
  have hPlain : st.mixed = false := hMixed.resolve_right hEmpty
  cases hInfo : st.literals.kindInfo? 0 first with
  | none =>
      have hEnded : ({} : KindInfo).ended.least? = none := by
        simp [KindSet.least?, KindSet.kinds, KindSet.contains]
      have hAlive : ({} : KindInfo).alive.isEmpty = true :=
        rfl
      simp only [Option.map_none, Option.getD_none, hEnded,
        hAlive, if_true]
      exact hStart
  | some found =>
      rcases found with ⟨key, info⟩
      have hGoOn : ∀ (a : Attempt) (b : Nat × Int),
          a.current = first → a.best = b →
          (if info.alive.isEmpty then runAtStart st a rest
            else followLiterals st 1 info.alive a rest).2.best =
            st.finish
              (if info.alive.isEmpty then
                st.handAtStart b (first :: rest)
              else st.handFollow 1 info.alive b rest) := by
        rintro a b hFirst rfl
        split
        · rw [best_runAtStart, hFirst]
        · exact best_followLiterals hPlain 1 Nat.one_pos _ a
            rest
      simp only [Option.map_some, Option.getD_some]
      cases info.ended.least? with
      | none =>
          exact hGoOn (st.blankAttempt first) st.blank hCurrent
            (best_blankAttempt st first)
      | some kind =>
          dsimp only
          split
          · refine hGoOn _ _ ?_ ?_
            · split <;> rfl
            · -- Without an empty match the position is zero already.
              unfold blankAttempt Attempt.best
              cases st.initMatch <;> rfl
          · exact best_commit st _ 0 kind rest

/-
  An attempt is the handover, a scan by the automaton and the
  choice of a wildcard.
-/
theorem best_attempt
    {st : LexState}
    (hMixed : st.mixed = false ∨ st.literals.maxLen = 0)
    {first : Nat}
    (hSkip : st.skipKeys.contains first = false)
    (rest : List Nat) :
    (st.attempt first rest).2.best =
      settle st.anyChar
        (st.finish (st.handover first rest)) := by
  rw [← best_startLiterals hMixed hSkip rest]
  unfold attempt settle
  dsimp only
  cases st.anyChar with
  | none => rfl
  | some any =>
      dsimp only
      generalize startLiterals st (st.blankAttempt first) rest
        = result
      rcases result with ⟨looked, a⟩
      by_cases hWins : a.pos < 0 ∨ (a.pos = 0 ∧ any < a.kind)
      · rw [if_pos (by simpa using hWins)]
        exact (if_pos hWins).symm
      · rw [if_neg (by simpa using hWins)]
        exact (if_neg hWins).symm

------------------------------------------------------------
-- Units that are read
------------------------------------------------------------

/- What is known at a position is about what was read by then. -/
def KnowsPast
    (st : LexState) : Prop :=
  ∀ pos, ∀ e ∈ st.literals.buckets.getD pos [], e.1.pos ≤ pos

/-
  The books of an attempt on some units after the first one:
  what was looked at is what was read, only the empty match is
  empty, and if the table knows no more than it should, no
  match ends beyond what was read.
-/
structure Tracks
    (st : LexState)
    (rest : Nat)
    (result : Nat × Attempt) : Prop where
  looked : result.1 = result.2.read + 1
  read : result.2.read ≤ rest
  least : -1 ≤ result.2.pos
  most : st.KnowsPast → result.2.pos ≤ result.2.read
  empty :
    result.2.pos < 0 → st.initMatch = some result.2.kind

/- An attempt that has read up to a position. -/
structure At
    (st : LexState)
    (pos : Nat)
    (a : Attempt) : Prop where
  read : a.read = pos
  least : -1 ≤ a.pos
  most : st.KnowsPast → a.pos ≤ pos
  empty : a.pos < 0 → st.initMatch = some a.kind

theorem At.tracks
    {st : LexState}
    {pos rest : Nat}
    {a : Attempt}
    (hAt : At st pos a)
    (hRest : pos ≤ rest) :
    Tracks st rest (pos + 1, a) where
  looked := by rw [hAt.read]
  read := hAt.read.trans_le hRest
  least := hAt.least
  most hPast := hAt.read ▸ hAt.most hPast
  empty := hAt.empty

theorem At.matched
    {st : LexState}
    {pos : Nat}
    {a : Attempt}
    (hAt : At st pos a)
    (kind : Nat) :
    At st pos (a.matched kind pos) where
  read := hAt.read
  least := by
    change (-1 : Int) ≤ (pos : Int)
    omega
  most _ := le_rfl
  empty hNegative := by
    change (pos : Int) < 0 at hNegative
    omega

theorem At.advance
    {st : LexState}
    {pos : Nat}
    {a : Attempt}
    (hAt : At st pos a)
    (c : Nat) :
    At st (pos + 1) (a.advance c) where
  read := congrArg (· + 1) hAt.read
  least := hAt.least
  most hPast := (hAt.most hPast).trans (by omega)
  empty := hAt.empty

theorem At.stepDfa
    {st : LexState}
    {pos : Nat}
    {a : Attempt}
    (hAt : At st pos a)
    (q : Nat) :
    At st pos (stepDfa st q pos a).2 := by
  unfold LexState.stepDfa
  dsimp only
  split
  · exact hAt.matched _
  · exact hAt

theorem tracks_runDfa
    {st : LexState}
    (q : Nat)
    {pos : Nat}
    {a : Attempt}
    (hAt : At st pos a)
    (rest : List Nat) :
    Tracks st (pos + rest.length) (runDfa st q pos a rest) := by
  induction rest generalizing q pos a with
  | nil =>
      unfold runDfa
      exact (hAt.stepDfa q).tracks (Nat.le_add_right _ _)
  | cons c rest ih =>
      have hStep := hAt.stepDfa q
      unfold runDfa
      split
      · next q' a' hEq =>
          rw [hEq] at hStep
          have hNext := ih q' (hStep.advance c)
          rwa [List.length_cons, Nat.add_comm rest.length,
            ← Nat.add_assoc]
      · next a' hEq =>
          rw [hEq] at hStep
          exact hStep.tracks (Nat.le_add_right _ _)

theorem At.stopLiterals
    {st : LexState}
    {pos read : Nat}
    {a : Attempt}
    (hAt : At st read a)
    (hPos : pos ≤ read)
    (alive : KindSet) :
    At st read (stopLiterals st a pos alive).2 := by
  unfold LexState.stopLiterals
  split
  · exact hAt
  · split
    · exact hAt
    · next r ks hFound =>
        split
        · dsimp only
          split
          · refine ⟨hAt.read, ?_, fun hPast => ?_,
              fun hNegative => ?_⟩
            · change (-1 : Int) ≤ (r.pos : Int)
              omega
            · have hKnown := hPast pos _
                (List.mem_of_find?_eq_some hFound)
              change r.pos ≤ pos at hKnown
              change (r.pos : Int) ≤ (read : Int)
              omega
            · change (r.pos : Int) < 0 at hNegative
              omega
          · next hNeither =>
              refine ⟨hAt.read, hAt.least, hAt.most,
                fun hNegative => ?_⟩
              have hSome := hAt.empty hNegative
              rw [hSome] at hNeither
              simp at hNeither
        · exact hAt

theorem tracks_takeOver
    {st : LexState}
    {pos : Nat}
    (hPos : 0 < pos)
    {a : Attempt}
    (hAt : At st pos a)
    (alive : KindSet)
    (rest : List Nat) :
    Tracks st (pos + rest.length)
      (takeOver st a (pos - 1) alive rest) := by
  have hStopped : At st pos
      (if st.mixed then (some st.dfa.start, a)
        else stopLiterals st a (pos - 1) alive).2 := by
    split
    · exact hAt
    · exact hAt.stopLiterals (Nat.sub_le _ _) alive
  unfold takeOver runFrom
  generalize (if st.mixed then (some st.dfa.start, a)
    else stopLiterals st a (pos - 1) alive) = stopped
    at hStopped ⊢
  rcases stopped with ⟨q, a'⟩
  rw [Nat.sub_add_cancel hPos]
  cases q with
  | none => exact hStopped.tracks (Nat.le_add_right _ _)
  | some q => exact tracks_runDfa q hStopped rest

theorem tracks_commit
    {st : LexState}
    {pos : Nat}
    {a : Attempt}
    (hAt : At st pos a)
    (kind : Nat)
    (rest : List Nat) :
    Tracks st (pos + rest.length)
      (commit st a pos kind rest) := by
  have hMatched := hAt.matched
    (st.literals.reportedKind pos kind st.anyChar)
  unfold commit
  dsimp only
  split
  · next q c rest' _ =>
      have hNext := tracks_runDfa q (hMatched.advance c)
        rest'
      rwa [List.length_cons, Nat.add_comm rest'.length,
        ← Nat.add_assoc]
  · exact hMatched.tracks (Nat.le_add_right _ _)

theorem tracks_followLiterals
    {st : LexState}
    (pos : Nat)
    (alive : KindSet)
    {a : Attempt}
    (hAt : At st pos a)
    (rest : List Nat) :
    Tracks st (pos + rest.length)
      (followLiterals st (pos + 1) alive a rest) := by
  induction rest generalizing pos alive a with
  | nil =>
      unfold followLiterals
      split
      · exact (hAt.stopLiterals le_rfl alive).tracks
          (Nat.le_add_right _ _)
      · exact hAt.tracks (Nat.le_add_right _ _)
  | cons c rest ih =>
      have hLength : pos + (c :: rest).length =
          pos + 1 + rest.length := by
        rw [List.length_cons]
        omega
      rw [hLength]
      have hNoMore : ∀ a, At st (pos + 1) a →
          Tracks st (pos + 1 + rest.length)
            (if st.hasNfa then
              takeOver st a (pos + 1 - 1) alive rest
            else (pos + 1 + 1, a)) := by
        intro a hAt
        split
        · exact tracks_takeOver (Nat.succ_pos pos) hAt
            alive rest
        · exact hAt.tracks (Nat.le_add_right _ _)
      have hGoOn : ∀ (info : KindInfo) (a : Attempt),
          At st (pos + 1) a →
          Tracks st (pos + 1 + rest.length)
            (if info.alive.isEmpty then
              (if st.hasNfa then
                takeOver st a (pos + 1 - 1) alive rest
              else (pos + 1 + 1, a))
            else if (info.alive.inter alive).isEmpty then
              (if st.hasNfa && !st.mixed then
                takeOver st a (pos + 1 - 1) alive rest
              else (pos + 1 + 1, a))
            else
              followLiterals st (pos + 1 + 1)
                (info.alive.inter alive) a rest) := by
        intro info a hAt
        split
        · exact hNoMore a hAt
        · split
          · split
            · exact tracks_takeOver (Nat.succ_pos pos)
                hAt alive rest
            · exact hAt.tracks (Nat.le_add_right _ _)
          · exact ih (pos + 1) _ hAt
      have hHere := hAt.advance c
      unfold followLiterals
      dsimp only
      split
      · exact hNoMore _ hHere
      · next info _ =>
          split
          · exact hGoOn info _ hHere
          · split
            · exact hGoOn info _ (hHere.matched _)
            · exact tracks_commit hHere _ rest

/- The books of every attempt are right. -/
theorem attempt_tracks
    (st : LexState)
    (first : Nat)
    (rest : List Nat) :
    Tracks st rest.length (st.attempt first rest) := by
  have hBlank : At st 0 (st.blankAttempt first) := by
    unfold blankAttempt
    split
    · next kind hInit =>
        refine ⟨rfl, le_rfl, fun _ => ?_, fun _ => hInit⟩
        change (-1 : Int) ≤ ((0 : Nat) : Int)
        omega
    · refine ⟨rfl, ?_, fun _ => le_rfl, fun hNegative => ?_⟩
      · change (-1 : Int) ≤ 0
        omega
      · cases hNegative
  have hStart : ∀ a, At st 0 a →
      Tracks st rest.length (runAtStart st a rest) := by
    intro a hAt
    unfold runAtStart
    split
    · have hRun := tracks_runDfa st.dfa.start hAt rest
      rwa [Nat.zero_add] at hRun
    · exact hAt.tracks (Nat.zero_le _)
  have hLiterals : Tracks st rest.length
      (startLiterals st (st.blankAttempt first) rest) := by
    unfold startLiterals
    split
    · exact hStart _ hBlank
    split
    · exact hStart _ hBlank
    next info _ =>
      have hGoOn : ∀ a, At st 0 a →
          Tracks st rest.length
            (if info.alive.isEmpty then runAtStart st a rest
            else followLiterals st 1 info.alive a rest) := by
        intro a hAt
        split
        · exact hStart a hAt
        · have hFollow := tracks_followLiterals 0
            info.alive hAt rest
          rwa [Nat.zero_add] at hFollow
      dsimp only
      split
      · exact hGoOn _ hBlank
      · next kind _ =>
          split
          · refine hGoOn _ ?_
            split
            · refine ⟨hBlank.read, ?_, fun _ => le_rfl,
                fun hNegative => ?_⟩
              · change (-1 : Int) ≤ 0
                omega
              · cases hNegative
            · next hNone =>
                refine ⟨hBlank.read, hBlank.least, hBlank.most,
                  fun hNegative => ?_⟩
                rw [hBlank.empty hNegative] at hNone
                exact absurd rfl hNone
          · have hCommit := tracks_commit hBlank kind rest
            rwa [Nat.zero_add] at hCommit
  unfold attempt
  generalize startLiterals st (st.blankAttempt first) rest
    = result at hLiterals ⊢
  rcases result with ⟨looked, a⟩
  dsimp only
  split
  · split
    · refine ⟨hLiterals.looked, hLiterals.read, ?_,
        fun _ => ?_, fun hNegative => ?_⟩
      · change (-1 : Int) ≤ 0
        omega
      · change (0 : Int) ≤ (a.read : Int)
        omega
      · cases hNegative
    · exact hLiterals
  · exact hLiterals

end LexState

end Descent
