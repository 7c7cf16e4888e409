import Descent.Grammar.Builder
import Descent.Proofs.BuiltLexer
import Descent.Proofs.Scanning
import Mathlib

/-
  Scanners that make no progress.

  An empty match takes nothing from the text.  A scanner gives
  up when it makes an empty match where it made the last one,
  in the same lexical state, but it remembers only one state.
  So it goes on forever exactly when it comes to an offset at
  which empty matches lead from one lexical state to another
  and back; otherwise it is done after a bounded number of
  steps.

  Main declarations:
    * `Scanner.Stalls`
    * `Scanner.Endless`
    * `Scanner.Circles`
    * `Scanner.tokens?_eq_none_iff`
-/

------------------------------------------------------------
-- Runs
------------------------------------------------------------

namespace Descent

namespace Scanner

/-
  What follows an outcome while the tokens of a text are
  sought: nothing after the end of the file or a failure.
-/
def move : Step × Scanner → Option (Step × Scanner)
  | (.done (.error _), _) => none
  | (.done (.ok t), sc) =>
      if t.lexeme.kind = 0 then none else some sc.begin
  | (.restart, sc) => some sc.begin
  | (.proceed, sc) => some sc.step

/- A run comes from one outcome to another. -/
def Reaches
    (a b : Step × Scanner) : Prop :=
  Relation.ReflTransGen (fun a b => move a = some b) a b

/- A run that never ends. -/
def Endless
    (a : Step × Scanner) : Prop :=
  ∃ run : Nat → Step × Scanner, run 0 = a ∧
    ∀ n, move (run n) = some (run (n + 1))

/-
  A lexical state leads to another one, or to itself, by an
  empty match at an offset.
-/
def Stalls
    (lx : Lexer)
    (us : Array SourceUnit)
    (offset q q' : Nat) : Prop :=
  ∃ c rest, unitsFrom us offset = c :: rest ∧
    Assoc.contains c (lx.state q).skipChars = false ∧
    ((lx.state q).attempt c rest).2.kind ≠ noKind ∧
    ((lx.state q).attempt c rest).2.pos < 0 ∧
    ((lx.attrs? ((lx.state q).attempt c rest).2.kind).bind
      (·.nextState)).getD q = q'

/-
  An outcome after which a run goes on, with the lexical state
  and the offset.
-/
def GoesOn
    (lx : Lexer)
    (us : Array SourceUnit)
    (q offset : Nat) : Step × Scanner → Prop
  | (.done (.error _), _) => False
  | (.done (.ok t), sc) =>
      t.lexeme.kind ≠ 0 ∧ Rests lx us sc q offset sc.specials
  | (.restart, sc) => Rests lx us sc q offset sc.specials
  | (.proceed, sc) =>
      ∃ start, Stands lx us sc q start offset sc.specials

/-
  Such an outcome, where what the scanner remembers is an
  earlier empty match or the one that led to this state.
-/
structure Waits
    (lx : Lexer)
    (us : Array SourceUnit)
    (q offset : Nat)
    (a : Step × Scanner) : Prop where
  goesOn : GoesOn lx us q offset a
  last :
    ∀ offset' p, a.2.lastEmpty = some (offset', p) →
      offset' ≤ offset ∧
        (offset' = offset → Stalls lx us offset p q)

section Runs

variable {lx : Lexer} {us : Array SourceUnit}

/- There is one empty match at most. -/
theorem Stalls.unique
    {offset q q₁ q₂ : Nat}
    (hFirst : Stalls lx us offset q q₁)
    (hSecond : Stalls lx us offset q q₂) :
    q₁ = q₂ := by
  rcases hFirst with ⟨c, rest, hText, -, -, -, rfl⟩
  rcases hSecond with ⟨c', rest', hText', -, -, -, rfl⟩
  rw [hText, List.cons.injEq] at hText'
  rcases hText' with ⟨rfl, rfl⟩
  rfl

theorem Stalls.inside
    {offset q q' : Nat}
    (hStalls : Stalls lx us offset q q') :
    offset < us.size := by
  rcases hStalls with ⟨c, rest, hText, -⟩
  have hLength := congrArg List.length hText
  rw [length_unitsFrom, List.length_cons] at hLength
  omega

/- Only the states of the lexer match the empty text. -/
theorem Stalls.state_lt
    {offset q q' : Nat}
    (hStalls : Stalls lx us offset q q') :
    q < lx.states.size := by
  rcases hStalls with ⟨c, rest, -, -, hKind, hPos, -⟩
  by_contra hOutside
  have hTracks := LexState.attempt_tracks (lx.state q) c rest
  have hSome := hTracks.empty hPos
  rw [Lexer.state_of_size_le (not_lt.mp hOutside)] at hSome
  cases hSome

/- An empty match takes nothing, and any other takes a unit. -/
theorem next_consume_bounds
    {sc : Scanner}
    {q start offset : Nat}
    {specials : List Lexeme}
    (hStands : Stands lx us sc q start offset specials)
    {result : Nat × Attempt}
    (hTracks : LexState.Tracks (lx.state q)
      (unitsFrom us (offset + 1)).length result)
    (hKind : result.2.kind ≠ noKind) :
    (sc.consume result.1 result.2).input.next ≤ us.size ∧
      (result.2.pos < 0 →
        (sc.consume result.1 result.2).input.next = offset) ∧
      (0 ≤ result.2.pos →
        offset < (sc.consume result.1 result.2).input.next) := by
  have hLooked := hTracks.looked
  have hRead := hTracks.read
  have hLeast := hTracks.least
  have hStarted := hStands.started
  have hInside := hStands.inside
  rw [length_unitsFrom] at hRead
  rw [input_consume hStands _ hKind]
  dsimp only
  split
  · omega
  · omega

------------------------------------------------------------
-- One step
------------------------------------------------------------

theorem lastEmpty_deliver
    (sc : Scanner)
    (k : Kind) :
    (sc.deliver k).2.lastEmpty = sc.lastEmpty := by
  unfold deliver
  dsimp only
  split
  · rfl
  · rfl
  · rfl
  · split
    · rfl
    · rfl

/- After a match a run goes on or ends. -/
theorem goesOn_deliver
    {sc : Scanner}
    {q start stop : Nat}
    (hTook : Took lx us sc q start stop sc.specials)
    (hStarted : start ≤ stop)
    (hStop : stop ≤ us.size)
    (k : Nat) :
    GoesOn lx us
        (((lx.attrs? k).bind (·.nextState)).getD q) stop
        (sc.deliver k) ∨
      (move (sc.deliver k) = none ∧
        (k = 0 ∨ us.size ≤ stop)) := by
  have hDelivers := delivers_deliver hTook rfl rfl hStarted
    hStop (k := k)
  unfold Delivers at hDelivers
  cases hClass : ((lx.attrs? k).map (·.cls)).getD .token with
  | token =>
      rw [hClass] at hDelivers
      rcases hDelivers with ⟨sc', hOutcome, hRests⟩
      rw [hOutcome]
      by_cases hZero : k = 0
      · right
        exact ⟨if_pos hZero, .inl hZero⟩
      · left
        refine ⟨hZero, ?_⟩
        rw [hRests.specials]
        exact hRests
  | special =>
      rw [hClass] at hDelivers
      rcases hDelivers with ⟨sc', hOutcome, hRests⟩
      left
      rw [hOutcome]
      change Rests lx us sc' _ stop sc'.specials
      rw [hRests.specials]
      exact hRests
  | skip =>
      rw [hClass] at hDelivers
      rcases hDelivers with ⟨sc', hOutcome, hRests⟩
      left
      rw [hOutcome]
      change Rests lx us sc' _ stop sc'.specials
      rw [hRests.specials]
      exact hRests
  | more =>
      rw [hClass] at hDelivers
      dsimp only at hDelivers
      split at hDelivers
      · rcases hDelivers with ⟨sc', hOutcome, hStands⟩
        left
        rw [hOutcome]
        refine ⟨start, ?_⟩
        rw [hStands.specials]
        exact hStands
      · next hEnd =>
          rcases hDelivers with
            ⟨name, place, found, sc', hOutcome⟩
          right
          rw [hOutcome]
          exact ⟨rfl, .inr (not_lt.mp hEnd)⟩

/-
  What a step from an offset and a lexical state comes to: the
  run ends, goes on further into the text, or goes on at the
  same offset after an empty match.
-/
inductive Comes
    (lx : Lexer)
    (us : Array SourceUnit)
    (q offset : Nat)
    (last : Option (Nat × Nat))
    (b : Step × Scanner) : Prop where
  | ended
      (hEnds : move b = none)
      (hGuard : ∀ q', Stalls lx us offset q q' →
        last = some (offset, q))
  | advanced
      {q' offset' : Nat}
      (hGoes : GoesOn lx us q' offset' b)
      (hLater : offset < offset')
      (hMatch : ∀ p, ¬ Stalls lx us offset q p)
      (hLast : b.2.lastEmpty = last ∨
        ∃ p, b.2.lastEmpty = some (offset', p) ∧
          Stalls lx us offset' p q')
  | stalled
      {q' : Nat}
      (hGoes : GoesOn lx us q' offset b)
      (hStalls : Stalls lx us offset q q')
      (hGuard : last ≠ some (offset, q))
      (hLast : b.2.lastEmpty = some (offset, q))

/- Where no unit is passed over, an attempt decides. -/
theorem stalls_iff
    {q offset c : Nat}
    {rest : List Nat}
    (hText : unitsFrom us offset = c :: rest)
    (hPass : Assoc.contains c (lx.state q).skipChars = false)
    {looked : Nat}
    {a : Attempt}
    (hAttempt : (lx.state q).attempt c rest = (looked, a))
    (q' : Nat) :
    Stalls lx us offset q q' ↔
      a.kind ≠ noKind ∧ a.pos < 0 ∧
        ((lx.attrs? a.kind).bind (·.nextState)).getD q =
          q' := by
  have hSnd : ((lx.state q).attempt c rest).2 = a :=
    congrArg Prod.snd hAttempt
  constructor
  · rintro ⟨c', rest', hText', -, hKind, hPos, hNext⟩
    rw [hText, List.cons.injEq] at hText'
    rw [← hText'.1, ← hText'.2, hSnd] at hKind hPos hNext
    exact ⟨hKind, hPos, hNext⟩
  · intro hStalls
    rw [← hSnd] at hStalls
    exact ⟨c, rest, hText, hPass, hStalls⟩

/- An empty match: the guard ends the run or it goes on here. -/
theorem comes_of_empty
    (hInit : ∀ q, (lx.state q).initMatch ≠ some 0)
    {sc : Scanner}
    {q start offset : Nat}
    (hStands : Stands lx us sc q start offset sc.specials)
    {looked : Nat}
    {a : Attempt}
    (hTracks : LexState.Tracks (lx.state q)
      (unitsFrom us (offset + 1)).length (looked, a))
    (hKind : a.kind ≠ noKind)
    (hNegative : a.pos < 0)
    (hStalls : Stalls lx us offset q
      (((lx.attrs? a.kind).bind (·.nextState)).getD q)) :
    Comes lx us q offset sc.lastEmpty
      (if sc.lastEmpty == some (offset, q) then
        (.done (.error ((sc.consume looked a).lexicalError
          looked)), sc.consume looked a)
      else
        ({ sc.consume looked a with
          lastEmpty := some (offset, q) } : Scanner).deliver
            a.kind) := by
  have hTook := took_consume hStands looked hKind
  have hSame := (next_consume_bounds hStands hTracks
    hKind).2.1 hNegative
  dsimp only at hSame
  split
  · next hAgain =>
      apply Comes.ended rfl
      intro _ _
      exact beq_iff_eq.mp hAgain
  · next hFirst =>
      generalize hMarked : { sc.consume looked a with
        lastEmpty := some (offset, q) } = marked
      have hTook' : Took lx us marked q start offset
          marked.specials := by
        rw [← hMarked]
        exact ⟨hTook.lexer, hTook.units, hSame,
          hTook.tokenBegin, hTook.state, rfl⟩
      have hLast : marked.lastEmpty = some (offset, q) := by
        rw [← hMarked]
      rcases goesOn_deliver hTook' hStands.started
        hStands.inside.le a.kind with
        hGoes | ⟨-, hZero | hEnd⟩
      · apply Comes.stalled hGoes hStalls _
          ((lastEmpty_deliver _ _).trans hLast)
        intro hSome
        rw [hSome] at hFirst
        simp at hFirst
      · have hEmpty := hTracks.empty hNegative
        dsimp only at hEmpty
        rw [hZero] at hEmpty
        exact absurd hEmpty (hInit q)
      · have hInside := hStands.inside
        omega

/- A match of some units: the run goes on after it or ends. -/
theorem comes_of_match
    {sc : Scanner}
    {q start offset : Nat}
    (hStands : Stands lx us sc q start offset sc.specials)
    {looked : Nat}
    {a : Attempt}
    (hTracks : LexState.Tracks (lx.state q)
      (unitsFrom us (offset + 1)).length (looked, a))
    (hKind : a.kind ≠ noKind)
    (hNonnegative : 0 ≤ a.pos)
    (hNone : ∀ p, ¬ Stalls lx us offset q p) :
    Comes lx us q offset sc.lastEmpty
      ((sc.consume looked a).deliver a.kind) := by
  have hTook := took_consume hStands looked hKind
  have hBounds := next_consume_bounds hStands hTracks hKind
  have hLater := hBounds.2.2 hNonnegative
  rcases goesOn_deliver hTook
    (hStands.started.trans hLater.le) hBounds.1 a.kind with
    hGoes | ⟨hEnds, -⟩
  · exact .advanced hGoes hLater hNone
      (.inl (lastEmpty_deliver _ _))
  · apply Comes.ended hEnds
    intro q' hStalls
    exact absurd hStalls (hNone q')

/- An attempt where no unit is passed over. -/
theorem comes_attemptHere
    (hInit : ∀ q, (lx.state q).initMatch ≠ some 0)
    {sc : Scanner}
    {q start offset : Nat}
    (hStands : Stands lx us sc q start offset sc.specials)
    (hPass : Assoc.contains sc.current
      (lx.state q).skipChars = false) :
    Comes lx us q offset sc.lastEmpty sc.attemptHere := by
  have hRest : sc.input.rest = unitsFrom us (offset + 1) := by
    rw [rest_eq, hStands.units, hStands.next]
  obtain rfl : sc.state = q := hStands.state
  have hState : sc.lexState = lx.state sc.state := by
    unfold lexState
    rw [hStands.lexer]
  have hTracks := LexState.attempt_tracks
    (lx.state sc.state) sc.current (unitsFrom us (offset + 1))
  unfold attemptHere
  dsimp only
  rw [hState, hRest]
  cases hAttempt : (lx.state sc.state).attempt sc.current
      (unitsFrom us (offset + 1)) with
  | mk looked a =>
      rw [hAttempt] at hTracks
      have hStalls := stalls_iff hStands.text hPass hAttempt
      dsimp only
      by_cases hNo : a.kind = noKind
      · rw [if_pos (by simpa using hNo)]
        apply Comes.ended rfl
        intro q' hHere
        exact absurd hNo ((hStalls q').mp hHere).1
      rw [if_neg (by simpa using hNo)]
      split
      · next hNegative =>
          have hNext : sc.input.next - 1 = offset := by
            rw [hStands.next, Nat.add_sub_cancel]
          rw [hNext]
          exact comes_of_empty hInit hStands hTracks hNo
            hNegative ((hStalls _).mpr ⟨hNo, hNegative, rfl⟩)
      · next hNonnegative =>
          exact comes_of_match hStands hTracks hNo
            (not_lt.mp hNonnegative)
            fun p hHere =>
              hNonnegative ((hStalls p).mp hHere).2.1

/- A step that begins with units to pass over. -/
theorem Comes.later
    {q offset offset' : Nat}
    {last : Option (Nat × Nat)}
    {b : Step × Scanner}
    (hComes : Comes lx us q offset' last b)
    (hLater : offset < offset')
    (hNone : ∀ p, ¬ Stalls lx us offset q p) :
    Comes lx us q offset last b := by
  cases hComes with
  | ended hEnds _ =>
      apply Comes.ended hEnds
      intro q' hStalls
      exact absurd hStalls (hNone q')
  | advanced hGoes hFurther _ hLast =>
      exact .advanced hGoes (hLater.trans hFurther) hNone hLast
  | stalled hGoes hStalls _ hLast =>
      exact .advanced hGoes hLater hNone
        (.inr ⟨q, hLast, hStalls⟩)

theorem comes_step
    (hInit : ∀ q, (lx.state q).initMatch ≠ some 0)
    {sc : Scanner}
    {q start offset : Nat}
    (hStands : Stands lx us sc q start offset sc.specials) :
    Comes lx us q offset sc.lastEmpty sc.step := by
  rcases step_spec hStands with ⟨hPass, hStep⟩ |
    ⟨c, passed, tail, sc', hText, hPassed, hLast, hStep⟩
  · rw [hStep]
    exact comes_attemptHere hInit hStands hPass
  · have hNone : ∀ p, ¬ Stalls lx us offset q p := by
      intro p hStalls
      rcases hStalls with ⟨c', rest, hText', hPass, -⟩
      rw [hText, List.cons_append, List.cons.injEq] at hText'
      rw [← hText'.1, hPassed c List.mem_cons_self] at hPass
      cases hPass
    rcases hStep with ⟨hStep, hRests⟩ | ⟨hStep, hLater, hPass⟩
    · rw [hStep]
      have hGoes : GoesOn lx us q
          (offset + (passed.length + 1)) (.restart, sc') := by
        change Rests lx us sc' q _ sc'.specials
        rw [hRests.specials]
        exact hRests
      exact .advanced hGoes (by omega) hNone (.inl hLast)
    · have hSpecials := hLater.specials
      rw [← hSpecials] at hLater
      rw [hStep, ← hLast]
      apply Comes.later _ _ hNone
      · exact offset + (passed.length + 1)
      · exact comes_attemptHere hInit hLater hPass
      · omega

theorem comes_begin
    (hInit : ∀ q, (lx.state q).initMatch ≠ some 0)
    {sc : Scanner}
    {q offset : Nat}
    (hRests : Rests lx us sc q offset sc.specials) :
    Comes lx us q offset sc.lastEmpty sc.begin := by
  rcases begin_spec hRests with ⟨sc', hBegin, hStands, hLast⟩ |
    ⟨hEnd, sc', hBegin⟩
  · have hSpecials := hStands.specials
    rw [← hSpecials] at hStands
    rw [hBegin, ← hLast]
    exact comes_step hInit hStands
  · rw [hBegin]
    apply Comes.ended rfl
    intro q' hStalls
    have hInside := hStalls.inside
    omega

/- What follows an outcome after which a run goes on. -/
theorem comes_move
    (hInit : ∀ q, (lx.state q).initMatch ≠ some 0)
    {q offset : Nat}
    {a : Step × Scanner}
    (hGoes : GoesOn lx us q offset a) :
    ∃ b, move a = some b ∧
      Comes lx us q offset a.2.lastEmpty b := by
  rcases a with ⟨outcome, sc⟩
  cases outcome with
  | done result =>
      cases result with
      | error e => cases hGoes
      | ok t =>
          refine ⟨sc.begin, ?_, comes_begin hInit hGoes.2⟩
          exact if_neg hGoes.1
  | restart => exact ⟨sc.begin, rfl, comes_begin hInit hGoes⟩
  | proceed =>
      rcases hGoes with ⟨start, hStands⟩
      exact ⟨sc.step, rfl, comes_step hInit hStands⟩

/- A run that goes on remembers its last empty match. -/
theorem Waits.comes
    (hInit : ∀ q, (lx.state q).initMatch ≠ some 0)
    {q offset : Nat}
    {a : Step × Scanner}
    (hWaits : Waits lx us q offset a) :
    ∃ b, move a = some b ∧
      ((move b = none ∧
          ∀ q', Stalls lx us offset q q' →
            a.2.lastEmpty = some (offset, q)) ∨
        (∃ q' offset', Waits lx us q' offset' b ∧
          offset < offset' ∧
          ∀ p, ¬ Stalls lx us offset q p) ∨
        (∃ q', Waits lx us q' offset b ∧
          Stalls lx us offset q q' ∧
          a.2.lastEmpty ≠ some (offset, q) ∧
          b.2.lastEmpty = some (offset, q))) := by
  rcases comes_move hInit hWaits.goesOn with ⟨b, hMove, hComes⟩
  refine ⟨b, hMove, ?_⟩
  cases hComes with
  | ended hEnds hGuard => exact .inl ⟨hEnds, hGuard⟩
  | @advanced q' offset' hGoes hLater hNone hLast =>
      refine .inr (.inl ⟨q', offset', ⟨hGoes, ?_⟩, hLater,
        hNone⟩)
      intro offset₁ p hSome
      rcases hLast with hSame | ⟨p', hHere, hStalls⟩
      · rw [hSame] at hSome
        have hBefore := (hWaits.last offset₁ p hSome).1
        exact ⟨by omega, fun hEq => by omega⟩
      · rw [hHere] at hSome
        cases hSome
        exact ⟨le_rfl, fun _ => hStalls⟩
  | @stalled q' hGoes hStalls hGuard hLast =>
      refine .inr (.inr ⟨q', ⟨hGoes, ?_⟩, hStalls, hGuard,
        hLast⟩)
      intro offset₁ p hSome
      rw [hLast] at hSome
      cases hSome
      exact ⟨le_rfl, fun _ => hStalls⟩

------------------------------------------------------------
-- Circles
------------------------------------------------------------

/-
  Empty matches at an offset lead from a lexical state to
  another one and back.
-/
def Circles
    (lx : Lexer)
    (us : Array SourceUnit)
    (offset q : Nat) : Prop :=
  ∃ q', Stalls lx us offset q q' ∧ q' ≠ q ∧
    Relation.ReflTransGen (Stalls lx us offset) q' q

/- A state that leads to itself leads nowhere else. -/
theorem Stalls.eq_of_reaches
    {offset q p : Nat}
    (hSame : Stalls lx us offset q q)
    (hPath : Relation.ReflTransGen (Stalls lx us offset) q p) :
    p = q := by
  induction hPath with
  | refl => rfl
  | tail _ hStep ih =>
      rw [ih] at hStep
      exact hStep.unique hSame

theorem Circles.next
    {offset q q' : Nat}
    (hCircles : Circles lx us offset q)
    (hStalls : Stalls lx us offset q q') :
    Circles lx us offset q' := by
  rcases hCircles with ⟨p, hFirst, hOther, hBack⟩
  have hSame : p = q' := hFirst.unique hStalls
  subst hSame
  rcases hBack.cases_head with hEq | ⟨q'', hNext, hRest⟩
  · exact absurd hEq hOther
  refine ⟨q'', hNext, ?_, hRest.tail hStalls⟩
  intro hFixed
  rw [hFixed] at hNext hRest
  exact hOther (hNext.eq_of_reaches hRest).symm

/- On a circle a run goes on at the same offset. -/
theorem Waits.circles
    (hInit : ∀ q, (lx.state q).initMatch ≠ some 0)
    {q offset : Nat}
    {a : Step × Scanner}
    (hWaits : Waits lx us q offset a)
    (hCircles : Circles lx us offset q) :
    ∃ b, move a = some b ∧
      ∃ q', Waits lx us q' offset b ∧
        Circles lx us offset q' := by
  rcases hCircles with ⟨p, hStalls, hOther, hBack⟩
  -- The last empty match led here, so it was not made here.
  have hPasses : a.2.lastEmpty ≠ some (offset, q) := by
    intro hLast
    have hSelf := (hWaits.last offset q hLast).2 rfl
    exact hOther (hStalls.unique hSelf)
  rcases hWaits.comes hInit with ⟨b, hMove, hComes⟩
  refine ⟨b, hMove, ?_⟩
  rcases hComes with ⟨-, hGuard⟩ | ⟨q', offset', -, -, hNone⟩ |
    ⟨q', hWaits', hStalls', -, -⟩
  · exact absurd (hGuard p hStalls) hPasses
  · exact absurd hStalls (hNone p)
  · refine ⟨q', hWaits', ?_⟩
    apply Circles.next _ hStalls'
    exact ⟨p, hStalls, hOther, hBack⟩

/- What moves keep up, and never end at, goes on forever. -/
theorem endless_of_moves
    {P : Step × Scanner → Prop}
    (hMoves : ∀ a, P a → ∃ b, move a = some b ∧ P b)
    {a : Step × Scanner}
    (hStart : P a) :
    Endless a := by
  choose next hNext hKept using hMoves
  let run : Nat → { a // P a } := fun n =>
    n.rec ⟨a, hStart⟩ fun _ b => ⟨next b.1 b.2, hKept b.1 b.2⟩
  refine ⟨fun n => (run n).1, rfl, ?_⟩
  intro n
  exact hNext (run n).1 (run n).2

theorem Endless.of_reaches
    {a b : Step × Scanner}
    (hReaches : Reaches a b)
    (hEndless : Endless b) :
    Endless a := by
  induction hReaches using
    Relation.ReflTransGen.head_induction_on with
  | refl => exact hEndless
  | @head a' c hMove _ ih =>
      rcases ih with ⟨run, hStart, hRun⟩
      refine ⟨fun n => n.casesOn a' run, rfl, ?_⟩
      intro n
      cases n with
      | zero =>
          change move a' = some (run 0)
          rw [hStart]
          exact hMove
      | succ n => exact hRun n

/- A run comes to a circle. -/
def ComesToCircle
    (lx : Lexer)
    (us : Array SourceUnit)
    (a : Step × Scanner) : Prop :=
  ∃ b q offset, Reaches a b ∧ Waits lx us q offset b ∧
    Circles lx us offset q

theorem ComesToCircle.endless
    (hInit : ∀ q, (lx.state q).initMatch ≠ some 0)
    {a : Step × Scanner}
    (hCircle : ComesToCircle lx us a) :
    Endless a := by
  rcases hCircle with ⟨b, q, offset, hReaches, hWaits, hBack⟩
  apply Endless.of_reaches hReaches
  apply endless_of_moves (P := fun b =>
    ∃ q, Waits lx us q offset b ∧ Circles lx us offset q)
  · intro b hKept
    rcases hKept with ⟨q, hWaits, hBack⟩
    exact hWaits.circles hInit hBack
  · exact ⟨q, hWaits, hBack⟩

------------------------------------------------------------
-- Runs that end
------------------------------------------------------------

/- A run ends after some number of moves at most. -/
def EndsWithin : Nat → Step × Scanner → Prop
  | 0, a => move a = none
  | n + 1, a => ∀ b, move a = some b → EndsWithin n b

theorem endsWithin_of_ended
    {a : Step × Scanner}
    (hEnds : move a = none)
    (n : Nat) :
    EndsWithin n a := by
  cases n with
  | zero => exact hEnds
  | succ n =>
      intro b hMove
      rw [hEnds] at hMove
      cases hMove

theorem endsWithin_restart
    {n : Nat}
    {sc : Scanner} :
    EndsWithin (n + 1) (.restart, sc) ↔
      EndsWithin n sc.begin := by
  constructor
  · intro hEnds
    exact hEnds sc.begin rfl
  · intro hEnds b hMove
    cases hMove
    exact hEnds

theorem EndsWithin.not_endless
    {n : Nat}
    {a : Step × Scanner}
    (hEnds : EndsWithin n a) :
    ¬ Endless a := by
  intro hEndless
  rcases hEndless with ⟨run, rfl, hRun⟩
  induction n generalizing run with
  | zero =>
      have hMove := hRun 0
      rw [hEnds] at hMove
      cases hMove
  | succ n ih =>
      apply ih (fun m => run (m + 1)) (fun m => hRun (m + 1))
      exact hEnds _ (hRun 0)

theorem GoesOn.inside
    {q offset : Nat}
    {a : Step × Scanner}
    (hGoes : GoesOn lx us q offset a) :
    offset ≤ us.size := by
  rcases a with ⟨outcome, sc⟩
  cases outcome with
  | done result =>
      cases result with
      | error e => cases hGoes
      | ok t => exact hGoes.2.inside
  | restart => exact Rests.inside hGoes
  | proceed =>
      rcases hGoes with ⟨start, hStands⟩
      exact hStands.inside.le

/-
  The states that empty matches at this offset have come
  through, up to the last one, which led to this state.
-/
def Trail
    (lx : Lexer)
    (us : Array SourceUnit)
    (q offset : Nat)
    (a : Step × Scanner)
    (visited : Finset Nat) : Prop :=
  ∀ v ∈ visited, v < lx.states.size ∧
    ∃ p, a.2.lastEmpty = some (offset, p) ∧
      Relation.ReflTransGen (Stalls lx us offset) v p ∧
      Stalls lx us offset p q

/- Without a circle no state is come through twice. -/
theorem Trail.not_mem
    {q q' offset : Nat}
    {a : Step × Scanner}
    {visited : Finset Nat}
    (hTrail : Trail lx us q offset a visited)
    (hStalls : Stalls lx us offset q q')
    (hPasses : a.2.lastEmpty ≠ some (offset, q))
    (hNone : ¬ Circles lx us offset q) :
    q ∉ visited := by
  intro hMem
  rcases (hTrail q hMem).2 with ⟨p, hLast, hPath, hHere⟩
  by_cases hSame : q' = q
  · rw [hSame] at hStalls
    rw [hStalls.eq_of_reaches hPath] at hLast
    exact hPasses hLast
  · apply hNone
    refine ⟨q', hStalls, hSame, ?_⟩
    rcases hPath.cases_head with hEq | ⟨q'', hNext, hRest⟩
    · rw [← hEq] at hHere
      exact absurd (hStalls.unique hHere) hSame
    · rw [hStalls.unique hNext]
      exact hRest.tail hHere

theorem Trail.insert
    {q q' offset : Nat}
    {a b : Step × Scanner}
    {visited : Finset Nat}
    (hTrail : Trail lx us q offset a visited)
    (hStalls : Stalls lx us offset q q')
    (hLast : b.2.lastEmpty = some (offset, q)) :
    Trail lx us q' offset b (insert q visited) := by
  intro v hMem
  rcases Finset.mem_insert.mp hMem with rfl | hBefore
  · exact ⟨hStalls.state_lt, v, hLast, .refl, hStalls⟩
  · rcases hTrail v hBefore with ⟨hInside, p, -, hPath, hHere⟩
    exact ⟨hInside, q, hLast, hPath.tail hHere, hStalls⟩

theorem Trail.card_le
    {q offset : Nat}
    {a : Step × Scanner}
    {visited : Finset Nat}
    (hTrail : Trail lx us q offset a visited) :
    visited.card ≤ lx.states.size := by
  have hSubset : visited ⊆ Finset.range lx.states.size := by
    intro v hMem
    exact Finset.mem_range.mpr (hTrail v hMem).1
  have hCard := Finset.card_le_card hSubset
  rwa [Finset.card_range] at hCard

/-
  A run that never comes to a circle ends.  Every move takes a
  unit or comes through one more state at the same offset.
-/
theorem Waits.endsWithin
    (hInit : ∀ q, (lx.state q).initMatch ≠ some 0)
    (n : Nat)
    {q offset : Nat}
    {a : Step × Scanner}
    {visited : Finset Nat}
    (hWaits : Waits lx us q offset a)
    (hTrail : Trail lx us q offset a visited)
    (hNone : ¬ ComesToCircle lx us a)
    (hBudget : (us.size + 1 - offset) * (lx.states.size + 1) ≤
      n + visited.card) :
    EndsWithin n a := by
  induction n generalizing q offset a visited with
  | zero =>
      have hCard := hTrail.card_le
      have hInside := hWaits.goesOn.inside
      have hLeast : 1 * (lx.states.size + 1) ≤
          (us.size + 1 - offset) * (lx.states.size + 1) :=
        Nat.mul_le_mul_right _ (by omega)
      omega
  | succ n ih =>
      intro b hMove
      rcases hWaits.comes hInit with ⟨b', hMove', hComes⟩
      rw [hMove] at hMove'
      cases hMove'
      have hLater : ¬ ComesToCircle lx us b := by
        intro hCircle
        rcases hCircle with ⟨c, p, offset', hReaches, hBack⟩
        exact hNone ⟨c, p, offset', .head hMove hReaches, hBack⟩
      rcases hComes with ⟨hEnds, -⟩ |
        ⟨q', offset', hWaits', hFurther, -⟩ |
        ⟨q', hWaits', hStalls, hPasses, hLast⟩
      · exact endsWithin_of_ended hEnds n
      · have hEmpty : Trail lx us q' offset' b ∅ := by
          intro v hMem
          cases hMem
        apply ih hWaits' hEmpty hLater
        have hCard := hTrail.card_le
        have hInside := hWaits'.goesOn.inside
        have hSplit : us.size + 1 - offset =
            us.size + 1 - offset' + (offset' - offset) := by
          omega
        have hLeast : 1 * (lx.states.size + 1) ≤
            (offset' - offset) * (lx.states.size + 1) :=
          Nat.mul_le_mul_right _ (by omega)
        rw [hSplit, Nat.add_mul] at hBudget
        rw [Finset.card_empty]
        omega
      · have hHere : ¬ Circles lx us offset q := by
          intro hBack
          exact hNone ⟨a, q, offset, .refl, hWaits, hBack⟩
        have hNew := hTrail.not_mem hStalls hPasses hHere
        apply ih hWaits' (hTrail.insert hStalls hLast) hLater
        rw [Finset.card_insert_of_notMem hNew]
        omega

theorem Waits.endsWithin_of_not_comesToCircle
    (hInit : ∀ q, (lx.state q).initMatch ≠ some 0)
    {q : Nat}
    {a : Step × Scanner}
    (hWaits : Waits lx us q 0 a)
    (hNone : ¬ ComesToCircle lx us a) :
    EndsWithin ((us.size + 1) * (lx.states.size + 1)) a := by
  have hTrail : Trail lx us q 0 a ∅ := by
    intro v hMem
    cases hMem
  exact hWaits.endsWithin hInit _ hTrail hNone le_rfl

end Runs

------------------------------------------------------------
-- All tokens of a text
------------------------------------------------------------

/- The lexer and the text of a scanner stay. -/
def Frames
    (sc sc' : Scanner) : Prop :=
  sc'.lexer = sc.lexer ∧ sc'.input.units = sc.input.units

theorem frames_deliver
    (sc : Scanner)
    (k : Kind) :
    Frames sc (sc.deliver k).2 := by
  unfold deliver
  dsimp only
  split
  · exact ⟨rfl, rfl⟩
  · exact ⟨rfl, rfl⟩
  · exact ⟨rfl, rfl⟩
  · unfold Input.read
    split
    · next hRead =>
        split at hRead
        · cases hRead
          exact ⟨rfl, rfl⟩
        · cases hRead
    · next hRead =>
        split at hRead
        · cases hRead
        · cases hRead
          exact ⟨rfl, rfl⟩

theorem frames_attemptHere
    (sc : Scanner) :
    Frames sc sc.attemptHere.2 := by
  have hConsume : ∀ looked a,
      Frames sc (sc.consume looked a) := by
    intro looked a
    unfold consume
    dsimp only
    split
    · exact ⟨rfl, rfl⟩
    · exact ⟨rfl, rfl⟩
  unfold attemptHere
  dsimp only
  generalize sc.lexState.attempt sc.current sc.input.rest =
    result
  rcases result with ⟨looked, a⟩
  have hConsumed := hConsume looked a
  dsimp only
  generalize sc.consume looked a = sc' at hConsumed ⊢
  split
  · exact hConsumed
  · split
    · split
      · exact hConsumed
      · have hDeliver := frames_deliver
          { sc' with
            lastEmpty :=
              some (sc.input.next - 1, sc'.state) } a.kind
        exact ⟨hDeliver.1.trans hConsumed.1,
          hDeliver.2.trans hConsumed.2⟩
    · have hDeliver := frames_deliver sc' a.kind
      exact ⟨hDeliver.1.trans hConsumed.1,
        hDeliver.2.trans hConsumed.2⟩

theorem frames_step
    (sc : Scanner) :
    Frames sc sc.step.2 := by
  unfold step
  generalize passOver sc.lexState sc.current sc.input.rest =
    passed
  rcases passed with ⟨count, first⟩
  dsimp only
  split
  · exact frames_attemptHere sc
  · cases first with
    | none => exact ⟨rfl, rfl⟩
    | some c =>
        have hAttempt := frames_attemptHere
          { sc with
            current := c,
            input :=
              { sc.input with
                next := sc.input.next + count - 1 + 1,
                tokenBegin := sc.input.next + count - 1 } }
        exact hAttempt

theorem frames_begin
    (sc : Scanner) :
    Frames sc sc.begin.2 := by
  have hRead : ∀ found input,
      sc.input.beginToken = (found, input) →
        input.units = sc.input.units := by
    intro found input hFound
    unfold Input.beginToken Input.read at hFound
    split at hFound
    · cases hFound
      rfl
    · cases hFound
      rfl
  unfold begin
  split
  · next c input hFound =>
      have hStep := frames_step
        { sc with current := c, input := input }
      exact ⟨hStep.1, hStep.2.trans (hRead _ _ hFound)⟩
  · next input hFound => exact ⟨rfl, hRead _ _ hFound⟩

theorem frames_steps
    {fuel : Nat}
    {a : Step × Scanner}
    {result : Except Failure Token}
    {sc : Scanner}
    (hSteps : steps fuel a = some (result, sc)) :
    Frames a.2 sc := by
  induction fuel generalizing a with
  | zero =>
      rcases a with ⟨outcome, sc'⟩
      cases outcome with
      | done result' =>
          cases hSteps
          exact ⟨rfl, rfl⟩
      | restart => cases hSteps
      | proceed => cases hSteps
  | succ fuel ih =>
      rcases a with ⟨outcome, sc'⟩
      cases outcome with
      | done result' =>
          cases hSteps
          exact ⟨rfl, rfl⟩
      | restart =>
          have hRest := ih hSteps
          have hHere := frames_begin sc'
          exact ⟨hRest.1.trans hHere.1, hRest.2.trans hHere.2⟩
      | proceed =>
          have hRest := ih hSteps
          have hHere := frames_step sc'
          exact ⟨hRest.1.trans hHere.1, hRest.2.trans hHere.2⟩

/- A run that ends hands on a token or a failure on its way. -/
theorem EndsWithin.exists_steps
    {n : Nat}
    {a : Step × Scanner}
    (hEnds : EndsWithin n a)
    {fuel : Nat}
    (hFuel : n ≤ fuel) :
    ∃ result sc, steps fuel a = some (result, sc) ∧
      ∃ m ≤ n, EndsWithin m (.done result, sc) := by
  induction n generalizing a fuel with
  | zero =>
      rcases a with ⟨outcome, sc⟩
      cases outcome with
      | done result =>
          refine ⟨result, sc, ?_, 0, le_rfl, hEnds⟩
          unfold steps
          rfl
      | restart => cases hEnds
      | proceed => cases hEnds
  | succ n ih =>
      rcases a with ⟨outcome, sc⟩
      cases outcome with
      | done result =>
          refine ⟨result, sc, ?_, n + 1, le_rfl, hEnds⟩
          unfold steps
          rfl
      | restart =>
          rcases fuel with - | fuel
          · omega
          rcases ih (hEnds sc.begin rfl)
              (Nat.le_of_succ_le_succ hFuel) with
            ⟨result, sc', hSteps, m, hm, hDone⟩
          exact ⟨result, sc', hSteps, m, by omega, hDone⟩
      | proceed =>
          rcases fuel with - | fuel
          · omega
          rcases ih (hEnds sc.step rfl)
              (Nat.le_of_succ_le_succ hFuel) with
            ⟨result, sc', hSteps, m, hm, hDone⟩
          exact ⟨result, sc', hSteps, m, by omega, hDone⟩

/- A run that ends once it has handed on a token ends. -/
theorem exists_endsWithin_of_steps
    {fuel : Nat}
    {a : Step × Scanner}
    {result : Except Failure Token}
    {sc : Scanner}
    (hSteps : steps fuel a = some (result, sc))
    {n : Nat}
    (hEnds : EndsWithin n (.done result, sc)) :
    ∃ m, EndsWithin m a := by
  induction fuel generalizing a with
  | zero =>
      rcases a with ⟨outcome, sc'⟩
      cases outcome with
      | done result' =>
          cases hSteps
          exact ⟨n, hEnds⟩
      | restart => cases hSteps
      | proceed => cases hSteps
  | succ fuel ih =>
      rcases a with ⟨outcome, sc'⟩
      cases outcome with
      | done result' =>
          cases hSteps
          exact ⟨n, hEnds⟩
      | restart =>
          rcases ih hSteps with ⟨m, hRest⟩
          refine ⟨m + 1, ?_⟩
          intro b hMove
          cases hMove
          exact hRest
      | proceed =>
          rcases ih hSteps with ⟨m, hRest⟩
          refine ⟨m + 1, ?_⟩
          intro b hMove
          cases hMove
          exact hRest

theorem stepBound_of_frames
    {sc sc' : Scanner}
    (hFrames : Frames sc sc') :
    sc'.stepBound = sc.stepBound := by
  unfold stepBound
  rw [hFrames.1, hFrames.2]

/- All tokens are found when the run ends soon enough. -/
theorem tokensWithin?_ne_none
    {n fuel : Nat}
    {sc : Scanner}
    (hEnds : EndsWithin n sc.begin)
    (hBound : n ≤ sc.stepBound)
    (hFuel : n < fuel) :
    tokensWithin? fuel sc ≠ none := by
  induction fuel generalizing n sc with
  | zero => omega
  | succ fuel ih =>
      rcases hEnds.exists_steps hBound with
        ⟨result, sc', hSteps, m, hm, hDone⟩
      have hFrames := frames_steps hSteps
      have hBegin := frames_begin sc
      have hSame : sc'.stepBound = sc.stepBound :=
        stepBound_of_frames ⟨hFrames.1.trans hBegin.1,
          hFrames.2.trans hBegin.2⟩
      unfold tokensWithin? nextToken?
      rw [hSteps]
      cases result with
      | error e => exact Option.some_ne_none _
      | ok t =>
          dsimp only
          split
          · exact Option.some_ne_none _
          · next hKind =>
              have hMove : move (.done (.ok t), sc') =
                  some sc'.begin := if_neg (by simpa using hKind)
              rcases m with - | m
              · rw [EndsWithin, hMove] at hDone
                cases hDone
              have hRest := ih (hDone sc'.begin hMove)
                (by omega) (by omega)
              split
              · exact Option.some_ne_none _
              · exact hRest

/- The bound on steps is enough for every run that ends. -/
theorem tokens?_ne_none
    {sc : Scanner}
    (hEnds : EndsWithin ((sc.input.units.size + 1) *
      (sc.lexer.states.size + 1)) (.restart, sc)) :
    sc.tokens? ≠ none := by
  have hPositive : 0 < (sc.input.units.size + 1) *
      (sc.lexer.states.size + 1) :=
    Nat.mul_pos (Nat.succ_pos _) (Nat.succ_pos _)
  have hEnough : (sc.input.units.size + 1) *
      (sc.lexer.states.size + 1) ≤ sc.stepBound :=
    Nat.le_mul_of_pos_right _ (Nat.succ_pos _)
  generalize (sc.input.units.size + 1) *
    (sc.lexer.states.size + 1) = n at hEnds hPositive hEnough
  rcases n with - | n
  · omega
  apply tokensWithin?_ne_none (endsWithin_restart.mp hEnds)
  · omega
  · omega

/- When all tokens are found the run ends. -/
theorem exists_endsWithin_of_tokensWithin?
    {fuel : Nat}
    {sc : Scanner}
    (hTokens : tokensWithin? fuel sc ≠ none) :
    ∃ n, EndsWithin n sc.begin := by
  induction fuel generalizing sc with
  | zero => exact absurd rfl hTokens
  | succ fuel ih =>
      unfold tokensWithin? nextToken? at hTokens
      cases hSteps : steps sc.stepBound sc.begin with
      | none =>
          rw [hSteps] at hTokens
          exact absurd rfl hTokens
      | some found =>
          rcases found with ⟨result, sc'⟩
          have hLeads := @exists_endsWithin_of_steps _ _ _ _
            hSteps
          rw [hSteps] at hTokens
          cases result with
          | error e => exact @hLeads 0 rfl
          | ok t =>
              by_cases hKind : t.lexeme.kind = 0
              · exact @hLeads 0 (if_pos hKind)
              have hRest : tokensWithin? fuel sc' ≠ none := by
                intro hNone
                dsimp only at hTokens
                rw [if_neg (by simpa using hKind), hNone]
                  at hTokens
                exact hTokens rfl
              rcases ih hRest with ⟨n, hEnds⟩
              apply @hLeads (n + 1)
              intro b hMove
              rw [move, if_neg hKind] at hMove
              cases hMove
              exact hEnds

end Scanner

------------------------------------------------------------
-- Scanners of a grammar
------------------------------------------------------------

namespace Lexer

/- The end of the file is not matched at the start of a text. -/
theorem initMatch_ne_zero
    {g : Grammar}
    {s s' : Session}
    {lx : Lexer}
    (hBuild : build g s = (s', .ok lx))
    (q : Nat) :
    (lx.state q).initMatch ≠ some 0 := by
  rcases builtFrom_build hBuild with ⟨c, hBuilt⟩
  by_cases hInside : q < lx.states.size
  · rcases hBuilt.state q hInside with ⟨name, reached, hState⟩
    rw [hState]
    intro hZero
    have hFilter := Option.filter_eq_some_iff.mp hZero
    simp at hFilter
  · rw [state_of_size_le (not_lt.mp hInside)]
    intro hZero
    cases hZero

end Lexer

namespace Scanner

/- A scanner at the start of a text, in any lexical state. -/
theorem waits_ofText
    {lx : Lexer}
    {text : String}
    {o : Options}
    {sc : Scanner}
    (hText : ofText lx text o = .ok sc)
    (q : Nat) :
    Waits lx sc.input.units q 0
      (.restart, { sc with state := q }) := by
  have hRests := (rests_ofText hText).1
  constructor
  · exact ⟨hRests.lexer, hRests.units, hRests.next, rfl, rfl,
      hRests.inside⟩
  · intro offset p hLast
    unfold ofText at hText
    cases hInput : Input.ofText text o.tabSize
        o.javaUnicodeEscape with
    | error e =>
        rw [hInput] at hText
        cases hText
    | ok input =>
        rw [hInput] at hText
        cases hText
        cases hLast

/-
  The tokens of a text are found unless the scanner goes on
  forever, and it does so exactly when it comes to a circle of
  empty matches at one offset.
-/
theorem tokens?_eq_none_iff
    {g : Grammar}
    {s s' : Session}
    {lx : Lexer}
    {text : String}
    {o : Options}
    {sc : Scanner}
    (hBuild : Lexer.build g s = (s', .ok lx))
    (hText : ofText lx text o = .ok sc)
    (q : Nat) :
    ({ sc with state := q }.tokens? = none ↔
        Endless (.restart, { sc with state := q })) ∧
      (Endless (.restart, { sc with state := q }) ↔
        ComesToCircle lx sc.input.units
          (.restart, { sc with state := q })) := by
  have hInit := Lexer.initMatch_ne_zero hBuild
  have hWaits := waits_ofText hText q
  have hLexer : { sc with state := q }.lexer = lx :=
    (rests_ofText hText).1.lexer
  generalize hStart : { sc with state := q } = start
    at hWaits hLexer ⊢
  have hUnits : start.input.units = sc.input.units := by
    rw [← hStart]
  have hCircle : start.tokens? = none →
      ComesToCircle lx sc.input.units (.restart, start) := by
    intro hTokens
    by_contra hNone
    apply tokens?_ne_none _ hTokens
    rw [hLexer, hUnits]
    exact hWaits.endsWithin_of_not_comesToCircle hInit hNone
  have hTokens : Endless (.restart, start) →
      start.tokens? = none := by
    intro hForever
    by_contra hSome
    rcases exists_endsWithin_of_tokensWithin? hSome with
      ⟨n, hEnds⟩
    exact (endsWithin_restart.mpr hEnds).not_endless hForever
  have hForever := @ComesToCircle.endless lx sc.input.units
    hInit (.restart, start)
  constructor
  · constructor
    · intro hNone
      exact hForever (hCircle hNone)
    · exact hTokens
  · constructor
    · intro hEndless
      exact hCircle (hTokens hEndless)
    · exact hForever

/- Two lexical states that lead to each other by empty matches. -/
def circular : Grammar :=
  let steps : Build Unit := do
    let there ← Build.tokenSection (some [defaultState])
      .token false
    let letter ← Build.rxChars false [.single 0x61]
    let letters ← Build.rxZeroOrMore letter
    Build.tokenSpec there letters none (some "INNER")
    let back ← Build.tokenSection (some ["INNER"])
      .token false
    let letter ← Build.rxChars false [.single 0x61]
    let letters ← Build.rxZeroOrMore letter
    Build.tokenSpec back letters none (some defaultState)
  (steps.run {}).2.grammar

/- The letter is not matched in either of the two states. -/
theorem tokens?_eq_none_iff_circular :
    ∃ lx sc, (Lexer.build (analyze circular {}).1
        (analyze circular {}).2.1).2 = .ok lx ∧
      ofText lx "b" {} = .ok sc ∧
      sc.tokens? = none ∧
      Endless (.restart, sc) := by
  have hTokens : (Lexer.build (analyze circular {}).1
      (analyze circular {}).2.1).2.toOption.any (fun lx =>
        (ofText lx "b" {}).toOption.any
          (·.tokens?.isNone)) = true := by
    cbv
  generalize analyze circular {} = analyzed at hTokens ⊢
  generalize hBuild : Lexer.build analyzed.1 analyzed.2.1 =
    outcome at hTokens ⊢
  rcases outcome with ⟨s', built⟩
  cases built with
  | error e => cases hTokens
  | ok lx =>
      refine ⟨lx, ?_⟩
      dsimp only [Except.toOption, Option.any] at hTokens
      cases hText : ofText lx "b" {} with
      | error e =>
          rw [hText] at hTokens
          cases hTokens
      | ok sc =>
          rw [hText] at hTokens
          have hNone := Option.isNone_iff_eq_none.mp hTokens
          have hEndless := (tokens?_eq_none_iff hBuild hText
            sc.state).1.mp hNone
          exact ⟨sc, rfl, rfl, hNone, hEndless⟩

end Scanner

end Descent
