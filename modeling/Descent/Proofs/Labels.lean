import Descent.Proofs.CharRanges
import Descent.Proofs.Collections
import Descent.Proofs.Path

/-
  Labels of the states of an automaton, and how they are
  extended while the automaton grows.

  Every state is given a language, its label, such that the
  label of a state holds what its moves lead to; a path can
  then read only words of the label of its first state.  Each
  step of a construction says how labels of the states so far
  are extended to the new ones, so no path is ever taken
  apart.

  Main declarations:
    * `Thompson.Respects` and `Thompson.mem_of_path`
    * `Thompson.Grows`
    * `Thompson.Labelled`
-/

------------------------------------------------------------
-- Labels
------------------------------------------------------------

namespace Descent

namespace Thompson

/- Languages that are given to states. -/
abbrev Labels : Type :=
  Nat → UnitLanguage

/- The label of a state holds what its moves lead to. -/
structure Respects
    (m : Nfa)
    (labels : Labels)
    (q : Nat) : Prop where
  silent :
    ∀ t ∈ (m.state q).silent, labels t ≤ labels q
  moves :
    ∀ e ∈ (m.state q).moves, ∀ c,
      e.1.contains c = true →
        ∀ w ∈ labels e.2, c :: w ∈ labels q

/- A state without moves respects any labels. -/
theorem respects_of_empty
    {m : Nfa}
    {q : Nat}
    (hEmpty : m.state q = default)
    (labels : Labels) :
    Respects m labels q := by
  constructor
  · intro t ht
    rw [hEmpty] at ht
    cases ht
  · intro e he
    rw [hEmpty] at he
    cases he

/- A path reads words of the label of its first state. -/
theorem mem_of_path
    {m : Nfa}
    {labels : Labels}
    (hLabels : ∀ q, Respects m labels q)
    {q r : Nat}
    {w v : List Nat}
    (hPath : m.Path q w r)
    (hEnd : v ∈ labels r) :
    w ++ v ∈ labels q := by
  induction hPath with
  | nil => exact hEnd
  | silent hMove _ ih =>
      exact (hLabels _).silent _ hMove (ih hEnd)
  | move hMove hUnit _ ih =>
      exact (hLabels _).moves _ hMove _ hUnit _ (ih hEnd)

/- The labels of targets are all that matters. -/
theorem Respects.congr
    {m : Nfa}
    {labels labels' : Labels}
    {q : Nat}
    (hRange : m.InRange)
    (hState : q < m.states.size)
    (hEq : ∀ t < m.states.size, labels' t = labels t)
    (hLabels : Respects m labels q) :
    Respects m labels' q := by
  constructor
  · intro t ht
    rw [hEq t (hRange.silent q t ht), hEq q hState]
    exact hLabels.silent t ht
  · intro e he
    rw [hEq e.2 (hRange.moves q e he), hEq q hState]
    exact hLabels.moves e he

------------------------------------------------------------
-- Growing automata
------------------------------------------------------------

/-
  An automaton has become larger.  Nothing is taken away,
  and new moves lead to states from a base on.
-/
structure Grows
    (base : Nat)
    (m m' : Nfa) : Prop where
  start : m'.start = m.start
  size : m.states.size ≤ m'.states.size
  silent :
    ∀ q, ∀ t ∈ (m.state q).silent, t ∈ (m'.state q).silent
  moves :
    ∀ q, ∀ e ∈ (m.state q).moves, e ∈ (m'.state q).moves
  accept : ∀ q, (m'.state q).accept = (m.state q).accept
  newSilent :
    ∀ q, ∀ t ∈ (m'.state q).silent,
      t ∈ (m.state q).silent ∨ base ≤ t
  newMoves :
    ∀ q, ∀ e ∈ (m'.state q).moves,
      e ∈ (m.state q).moves ∨ base ≤ e.2
  inRange : m.InRange → m'.InRange

namespace Grows

variable {base base' : Nat} {m m₁ m₂ : Nfa}

theorem refl
    (base : Nat)
    (m : Nfa) :
    Grows base m m where
  start := rfl
  size := le_rfl
  silent _ _ h := h
  moves _ _ h := h
  accept _ := rfl
  newSilent _ _ h := .inl h
  newMoves _ _ h := .inl h
  inRange h := h

theorem trans
    (hFirst : Grows base m m₁)
    (hSecond : Grows base m₁ m₂) :
    Grows base m m₂ where
  start := hSecond.start.trans hFirst.start
  size := hFirst.size.trans hSecond.size
  silent q t h := hSecond.silent q t (hFirst.silent q t h)
  moves q e h := hSecond.moves q e (hFirst.moves q e h)
  accept q := (hSecond.accept q).trans (hFirst.accept q)
  newSilent q t h := by
    rcases hSecond.newSilent q t h with h | h
    · exact hFirst.newSilent q t h
    · exact .inr h
  newMoves q e h := by
    rcases hSecond.newMoves q e h with h | h
    · exact hFirst.newMoves q e h
    · exact .inr h
  inRange h := hSecond.inRange (hFirst.inRange h)

theorem mono
    (hGrows : Grows base m m₁)
    (hBase : base' ≤ base) :
    Grows base' m m₁ where
  start := hGrows.start
  size := hGrows.size
  silent := hGrows.silent
  moves := hGrows.moves
  accept := hGrows.accept
  newSilent q t h :=
    (hGrows.newSilent q t h).imp_right hBase.trans
  newMoves q e h :=
    (hGrows.newMoves q e h).imp_right hBase.trans
  inRange := hGrows.inRange

theorem path
    (hGrows : Grows base m m₁)
    {q r : Nat}
    {w : List Nat}
    (hPath : m.Path q w r) :
    m₁.Path q w r :=
  hPath.mono hGrows.silent hGrows.moves

end Grows

/-
  Labels have been extended to the states that an automaton
  has got.  The labels of the states that it had respect
  their new moves too.
-/
structure Labelled
    (m m' : Nfa)
    (labels labels' : Labels) : Prop where
  agree :
    ∀ q < m.states.size, labels' q = labels q
  fresh :
    ∀ q, m.states.size ≤ q → q < m'.states.size →
      Respects m' labels' q
  kept :
    ∀ q < m.states.size,
      Respects m labels' q → Respects m' labels' q

theorem Labelled.refl
    (m : Nfa)
    (labels : Labels) :
    Labelled m m labels labels where
  agree _ _ := rfl
  fresh q hLow hHigh := by omega
  kept _ _ h := h

theorem Labelled.trans
    {base : Nat}
    {m m₁ m₂ : Nfa}
    {labels labels₁ labels₂ : Labels}
    (hRange : m.InRange)
    (hGrows : Grows base m m₁)
    (hFirst : Labelled m m₁ labels labels₁)
    (hSecond : Labelled m₁ m₂ labels₁ labels₂) :
    Labelled m m₂ labels labels₂ := by
  have hRange₁ := hGrows.inRange hRange
  have hSize := hGrows.size
  constructor
  · intro q hq
    rw [hSecond.agree q (hq.trans_le hSize),
      hFirst.agree q hq]
  · intro q hLow hHigh
    by_cases hq : q < m₁.states.size
    · exact hSecond.kept q hq
        ((hFirst.fresh q hLow hq).congr hRange₁ hq
          hSecond.agree)
    · exact hSecond.fresh q (not_lt.mp hq) hHigh
  · intro q hq hLabels
    have hq₁ := hq.trans_le hSize
    have hBack : Respects m labels₁ q :=
      hLabels.congr hRange hq fun t ht =>
        (hSecond.agree t (ht.trans_le hSize)).symm
    exact hSecond.kept q hq₁
      ((hFirst.kept q hq hBack).congr hRange₁ hq₁
        hSecond.agree)

------------------------------------------------------------
-- Single steps
------------------------------------------------------------

/- The automaton with one more state. -/
def pushed
    (m : Nfa) : Nfa :=
  { m with states := m.states.push {} }

/- The automaton with one more silent move. -/
def withSilent
    (source target : Nat)
    (m : Nfa) : Nfa :=
  { m with
    states := m.states.modify source fun s =>
      { s with silent := s.silent ++ [target] } }

/- The automaton with more moves to one target. -/
def withMoves
    (source target : Nat)
    (classes : List CharClass)
    (m : Nfa) : Nfa :=
  { m with
    states := m.states.modify source fun s =>
      { s with
        moves := s.moves ++
          classes.map fun cls => (cls, target) } }

/- A new state is like one that is not there. -/
theorem state_pushed
    (m : Nfa)
    (q : Nat) :
    (pushed m).state q = m.state q := by
  unfold Nfa.state pushed
  rw [Array.getD_eq_getD_getElem?, Array.getD_eq_getD_getElem?,
    Array.getElem?_push]
  split
  · next hq =>
      subst hq
      simp [default, instInhabitedNfaState.default]
  · rfl

theorem size_pushed
    (m : Nfa) :
    (pushed m).states.size = m.states.size + 1 := by
  simp [pushed]

theorem size_withSilent
    (source target : Nat)
    (m : Nfa) :
    (withSilent source target m).states.size =
      m.states.size := by
  simp [withSilent]

theorem size_withMoves
    (source target : Nat)
    (classes : List CharClass)
    (m : Nfa) :
    (withMoves source target classes m).states.size =
      m.states.size := by
  simp [withMoves]

theorem state_withSilent
    {source : Nat}
    {m : Nfa}
    (target : Nat)
    (hSource : source < m.states.size)
    (q : Nat) :
    (withSilent source target m).state q =
      if q = source then
        { m.state q with
          silent := (m.state q).silent ++ [target] }
      else m.state q :=
  getD_modify m.states _ _ q hSource

theorem mem_silent_withSilent
    {source : Nat}
    {m : Nfa}
    (target : Nat)
    (hSource : source < m.states.size) :
    target ∈ ((withSilent source target m).state
      source).silent := by
  rw [state_withSilent target hSource, if_pos rfl]
  exact List.mem_append_right _ (List.mem_singleton_self _)

theorem state_withMoves
    {source : Nat}
    {m : Nfa}
    (target : Nat)
    (classes : List CharClass)
    (hSource : source < m.states.size)
    (q : Nat) :
    (withMoves source target classes m).state q =
      if q = source then
        { m.state q with
          moves := (m.state q).moves ++
            classes.map fun cls => (cls, target) }
      else m.state q :=
  getD_modify m.states _ _ q hSource

theorem Grows.pushed
    (base : Nat)
    (m : Nfa) :
    Grows base m (pushed m) where
  start := rfl
  size := by
    rw [size_pushed]
    omega
  silent q t h := by rwa [state_pushed]
  moves q e h := by rwa [state_pushed]
  accept q := by rw [state_pushed]
  newSilent q t h := .inl (by rwa [state_pushed] at h)
  newMoves q e h := .inl (by rwa [state_pushed] at h)
  inRange hRange := by
    constructor
    · intro q t h
      rw [state_pushed] at h
      rw [size_pushed]
      exact (hRange.silent q t h).trans (Nat.lt_succ_self _)
    · intro q e h
      rw [state_pushed] at h
      rw [size_pushed]
      exact (hRange.moves q e h).trans (Nat.lt_succ_self _)

theorem Grows.withSilent
    {base source target : Nat}
    {m : Nfa}
    (hSource : source < m.states.size)
    (hTarget : target < m.states.size)
    (hBase : base ≤ target) :
    Grows base m (withSilent source target m) := by
  have hState := state_withSilent target hSource
  constructor
  case start => rfl
  case size => rw [size_withSilent]
  case silent =>
    intro q t h
    rw [hState]
    split
    · exact List.mem_append_left _ h
    · exact h
  case moves =>
    intro q e h
    rw [hState]
    split <;> exact h
  case accept =>
    intro q
    rw [hState]
    split <;> rfl
  case newSilent =>
    intro q t h
    rw [hState] at h
    split at h
    · rcases List.mem_append.mp h with h | h
      · exact .inl h
      · rw [List.mem_singleton] at h
        exact .inr (h ▸ hBase)
    · exact .inl h
  case newMoves =>
    intro q e h
    rw [hState] at h
    split at h <;> exact .inl h
  case inRange =>
    intro hRange
    constructor
    · intro q t h
      rw [hState] at h
      rw [size_withSilent]
      split at h
      · rcases List.mem_append.mp h with h | h
        · exact hRange.silent q t h
        · rw [List.mem_singleton] at h
          exact h ▸ hTarget
      · exact hRange.silent q t h
    · intro q e h
      rw [hState] at h
      rw [size_withSilent]
      split at h <;> exact hRange.moves q e h

theorem Grows.withMoves
    {base source target : Nat}
    {m : Nfa}
    (classes : List CharClass)
    (hSource : source < m.states.size)
    (hTarget : target < m.states.size)
    (hBase : base ≤ target) :
    Grows base m (withMoves source target classes m) := by
  have hState := state_withMoves target classes hSource
  have hNew :
      ∀ q, ∀ e ∈
          ((Thompson.withMoves source target classes m).state
            q).moves,
        e ∈ (m.state q).moves ∨ e.2 = target := by
    intro q e h
    rw [hState] at h
    split at h
    · rcases List.mem_append.mp h with h | h
      · exact .inl h
      · rcases List.mem_map.mp h with ⟨cls, -, rfl⟩
        exact .inr rfl
    · exact .inl h
  constructor
  case start => rfl
  case size => rw [size_withMoves]
  case silent =>
    intro q t h
    rw [hState]
    split <;> exact h
  case moves =>
    intro q e h
    rw [hState]
    split
    · exact List.mem_append_left _ h
    · exact h
  case accept =>
    intro q
    rw [hState]
    split <;> rfl
  case newSilent =>
    intro q t h
    rw [hState] at h
    split at h <;> exact .inl h
  case newMoves =>
    intro q e h
    exact (hNew q e h).imp_right fun h => hBase.trans_eq h.symm
  case inRange =>
    intro hRange
    constructor
    · intro q t h
      rw [hState] at h
      rw [size_withMoves]
      split at h <;> exact hRange.silent q t h
    · intro q e h
      rw [size_withMoves]
      rcases hNew q e h with h | h
      · exact hRange.moves q e h
      · exact h ▸ hTarget

/- A new state may have any label. -/
theorem Labelled.pushed
    (m : Nfa)
    (labels : Labels)
    (language : UnitLanguage) :
    Labelled m (pushed m) labels
      (Function.update labels m.states.size language) where
  agree q hq := Function.update_of_ne hq.ne _ _
  fresh q hLow hHigh := by
    apply respects_of_empty
    rw [state_pushed, Nfa.state_of_size_le hLow]
  kept q _ hLabels := by
    constructor
    · intro t ht
      rw [state_pushed] at ht
      exact hLabels.silent t ht
    · intro e he
      rw [state_pushed] at he
      exact hLabels.moves e he

theorem Labelled.withSilent
    {m m' : Nfa}
    {labels labels' : Labels}
    {source target : Nat}
    (hLabelled : Labelled m m' labels labels')
    (hSource : source < m'.states.size)
    (hLe : labels' target ≤ labels' source) :
    Labelled m (withSilent source target m') labels
      labels' := by
  have hStep :
      ∀ q, Respects m' labels' q →
        Respects (Thompson.withSilent source target m')
          labels' q := by
    intro q hLabels
    have hState := state_withSilent target hSource q
    constructor
    · intro t ht
      rw [hState] at ht
      split at ht
      · next hq =>
          rcases List.mem_append.mp ht with ht | ht
          · exact hLabels.silent t ht
          · rw [List.mem_singleton] at ht
            rw [ht, hq]
            exact hLe
      · exact hLabels.silent t ht
    · intro e he
      rw [hState] at he
      split at he <;> exact hLabels.moves e he
  constructor
  · exact hLabelled.agree
  · intro q hLow hHigh
    rw [size_withSilent] at hHigh
    exact hStep q (hLabelled.fresh q hLow hHigh)
  · intro q hq hLabels
    exact hStep q (hLabelled.kept q hq hLabels)

theorem Labelled.withMoves
    {m m' : Nfa}
    {labels labels' : Labels}
    {source target : Nat}
    {classes : List CharClass}
    (hLabelled : Labelled m m' labels labels')
    (hSource : source < m'.states.size)
    (hLe :
      ∀ cls ∈ classes, ∀ c, cls.contains c = true →
        ∀ w ∈ labels' target, c :: w ∈ labels' source) :
    Labelled m (withMoves source target classes m') labels
      labels' := by
  have hStep :
      ∀ q, Respects m' labels' q →
        Respects
          (Thompson.withMoves source target classes m')
          labels' q := by
    intro q hLabels
    have hState := state_withMoves target classes hSource q
    constructor
    · intro t ht
      rw [hState] at ht
      split at ht <;> exact hLabels.silent t ht
    · intro e he
      rw [hState] at he
      split at he
      · next hq =>
          rcases List.mem_append.mp he with he | he
          · exact hLabels.moves e he
          · rcases List.mem_map.mp he with ⟨cls, hCls, rfl⟩
            rw [hq]
            exact hLe cls hCls
      · exact hLabels.moves e he
  constructor
  · exact hLabelled.agree
  · intro q hLow hHigh
    rw [size_withMoves] at hHigh
    exact hStep q (hLabelled.fresh q hLow hHigh)
  · intro q hq hLabels
    exact hStep q (hLabelled.kept q hq hLabels)

------------------------------------------------------------
-- Several silent moves
------------------------------------------------------------

/- The automaton with more silent moves. -/
def withSilents
    (edges : List (Nat × Nat))
    (m : Nfa) : Nfa :=
  edges.foldl (fun m e => withSilent e.1 e.2 m) m

theorem size_withSilents
    (edges : List (Nat × Nat))
    (m : Nfa) :
    (withSilents edges m).states.size = m.states.size := by
  induction edges generalizing m with
  | nil => rfl
  | cons e edges ih =>
      change (withSilents edges (withSilent e.1 e.2 m)).states.size
        = _
      rw [ih, size_withSilent]

theorem Grows.withSilents
    {base : Nat}
    {edges : List (Nat × Nat)}
    {m : Nfa}
    (hEdges :
      ∀ e ∈ edges, e.1 < m.states.size ∧
        e.2 < m.states.size ∧ base ≤ e.2) :
    Grows base m (withSilents edges m) := by
  induction edges generalizing m with
  | nil => exact Grows.refl base m
  | cons e edges ih =>
      rcases hEdges e List.mem_cons_self with
        ⟨hSource, hTarget, hBase⟩
      refine (Grows.withSilent hSource hTarget hBase).trans
        (ih ?_)
      intro e' he'
      rw [size_withSilent]
      exact hEdges e' (List.mem_cons_of_mem _ he')

theorem mem_silent_withSilents
    {edges : List (Nat × Nat)}
    {m : Nfa}
    (hEdges :
      ∀ e ∈ edges, e.1 < m.states.size ∧
        e.2 < m.states.size)
    {source target : Nat}
    (hMem : (source, target) ∈ edges) :
    target ∈ ((withSilents edges m).state source).silent := by
  induction edges generalizing m with
  | nil => cases hMem
  | cons e edges ih =>
      have hRest :
          ∀ e' ∈ edges,
            e'.1 < (withSilent e.1 e.2 m).states.size ∧
              e'.2 < (withSilent e.1 e.2 m).states.size := by
        intro e' he'
        rw [size_withSilent]
        exact hEdges e' (List.mem_cons_of_mem _ he')
      rcases List.mem_cons.mp hMem with rfl | hMem
      · have hGrows := @Grows.withSilents 0 edges
          (Thompson.withSilent source target m)
          fun e' he' =>
            ⟨(hRest e' he').1, (hRest e' he').2,
              Nat.zero_le _⟩
        exact hGrows.silent source target
          (mem_silent_withSilent target
            (hEdges _ List.mem_cons_self).1)
      · exact ih hRest hMem

theorem Labelled.withSilents
    {m m' : Nfa}
    {labels labels' : Labels}
    {edges : List (Nat × Nat)}
    (hLabelled : Labelled m m' labels labels')
    (hEdges :
      ∀ e ∈ edges, e.1 < m'.states.size ∧
        labels' e.2 ≤ labels' e.1) :
    Labelled m (withSilents edges m') labels labels' := by
  induction edges generalizing m' with
  | nil => exact hLabelled
  | cons e edges ih =>
      rcases hEdges e List.mem_cons_self with ⟨hSource, hLe⟩
      refine ih (hLabelled.withSilent hSource hLe) ?_
      intro e' he'
      rw [size_withSilent]
      exact hEdges e' (List.mem_cons_of_mem _ he')

end Thompson

end Descent
