import Descent.Automaton.Nfa
import Mathlib.Data.Finset.Card
import Mathlib.Data.List.Basic
import Mathlib.Tactic.Common

/-
  Paths of nondeterministic automata, and the silent closure.

  A path reads a word from one state to another.  The closure
  of a set is computed by a search with a stack; the invariant
  of the search is that a state which has been seen is still
  on the stack or has all its silent targets seen.

  Main declarations:
    * `Nfa.Path` and `Nfa.Accepts`
    * `Nfa.InRange`
    * `Nfa.mem_closure`
-/

------------------------------------------------------------
-- Paths
------------------------------------------------------------

namespace Descent

namespace Nfa

/- A state that is not there is an empty one. -/
theorem state_of_size_le
    {m : Nfa}
    {q : Nat}
    (hOutside : m.states.size ≤ q) :
    m.state q = default := by
  unfold state
  rw [Array.getD_eq_getD_getElem?,
    Array.getElem?_eq_none hOutside]
  rfl

/- A word can be read from one state to another. -/
inductive Path
    (m : Nfa) :
    Nat → List Nat → Nat → Prop where
  | nil
      (q : Nat) :
      Path m q [] q
  | silent
      {q t r : Nat}
      {w : List Nat}
      (hMove : t ∈ (m.state q).silent)
      (hRest : Path m t w r) :
      Path m q w r
  | move
      {q t r : Nat}
      {cls : CharClass}
      {c : Nat}
      {w : List Nat}
      (hMove : (cls, t) ∈ (m.state q).moves)
      (hUnit : cls.contains c = true)
      (hRest : Path m t w r) :
      Path m q (c :: w) r

namespace Path

variable {m m' : Nfa} {q r s : Nat} {u v w : List Nat}

theorem append
    (hFirst : Path m q u r)
    (hRest : Path m r v s) :
    Path m q (u ++ v) s := by
  induction hFirst with
  | nil => exact hRest
  | silent hMove _ ih => exact .silent hMove (ih hRest)
  | move hMove hUnit _ ih => exact .move hMove hUnit (ih hRest)

/- A path stays one when an automaton gets more moves. -/
theorem mono
    (hSilent :
      ∀ q, ∀ t ∈ (m.state q).silent,
        t ∈ (m'.state q).silent)
    (hMoves :
      ∀ q, ∀ e ∈ (m.state q).moves,
        e ∈ (m'.state q).moves)
    (hPath : Path m q w r) :
    Path m' q w r := by
  induction hPath with
  | nil q => exact .nil q
  | silent hMove _ ih => exact .silent (hSilent _ _ hMove) ih
  | move hMove hUnit _ ih =>
      exact .move (hMoves _ _ hMove) hUnit ih

/-
  A path that reads a unit goes silently to a state with a
  move on that unit.
-/
theorem cons_iff
    {c : Nat} :
    Path m q (c :: w) r ↔
      ∃ p t, Path m q [] p ∧ t ∈ m.targets p c ∧
        Path m t w r := by
  constructor
  · intro hPath
    generalize hWord : c :: w = word at hPath
    induction hPath with
    | nil => cases hWord
    | silent hMove _ ih =>
        rcases ih hWord with ⟨p, t, hSilent, hTarget, hRest⟩
        exact ⟨p, t, .silent hMove hSilent, hTarget, hRest⟩
    | @move q t r cls d word hMove hUnit hRest ih =>
        cases hWord
        refine ⟨q, t, .nil q, ?_, hRest⟩
        exact List.mem_filterMap.mpr
          ⟨(cls, t), hMove, by simp [hUnit]⟩
  · rintro ⟨p, t, hSilent, hTarget, hRest⟩
    rcases List.mem_filterMap.mp hTarget with
      ⟨⟨cls, t'⟩, hMove, hUnit⟩
    rw [Option.ite_none_right_eq_some,
      Option.some_inj] at hUnit
    rcases hUnit with ⟨hContains, rfl⟩
    exact hSilent.append (.move hMove hContains hRest)

/- What silent moves keep holds along a silent path. -/
theorem closed
    {P : Nat → Prop}
    (hClosed :
      ∀ q, P q → ∀ t ∈ (m.state q).silent, P t)
    (hPath : Path m q [] r)
    (hStart : P q) :
    P r := by
  generalize hWord : ([] : List Nat) = word at hPath
  induction hPath with
  | nil => exact hStart
  | silent hMove _ ih =>
      exact ih (hClosed _ hStart _ hMove) hWord
  | move => cases hWord

end Path

/- An automaton accepts a word as a kind. -/
def Accepts
    (m : Nfa)
    (kind : Nat)
    (w : List Nat) : Prop :=
  ∃ q, m.Path m.start w q ∧ (m.state q).accept = some kind

/- Every move stays within the automaton. -/
structure InRange
    (m : Nfa) : Prop where
  silent :
    ∀ q, ∀ t ∈ (m.state q).silent, t < m.states.size
  moves :
    ∀ q, ∀ e ∈ (m.state q).moves, e.2 < m.states.size

theorem InRange.path
    {m : Nfa}
    (hRange : m.InRange)
    {q r : Nat}
    {w : List Nat}
    (hPath : m.Path q w r)
    (hStart : q < m.states.size) :
    r < m.states.size := by
  induction hPath with
  | nil => exact hStart
  | silent hMove _ ih => exact ih (hRange.silent _ _ hMove)
  | move hMove _ _ ih => exact ih (hRange.moves _ _ hMove)

------------------------------------------------------------
-- Marks
------------------------------------------------------------

/- A state is marked as seen. -/
def Seen
    (seen : Array Bool)
    (q : Nat) : Prop :=
  seen.getD q false = true

/- The states of an automaton that are not marked. -/
def unseen
    (seen : Array Bool) : Finset Nat :=
  (Finset.range seen.size).filter
    fun q => seen.getD q false = false

theorem seen_setIfInBounds
    (seen : Array Bool)
    (q t : Nat)
    (hRange : t < seen.size) :
    Seen (seen.setIfInBounds t true) q ↔
      q = t ∨ Seen seen q := by
  unfold Seen
  by_cases hq : q = t
  · subst hq
    simp [Array.getD_eq_getD_getElem?, hRange]
  · have hNe : t ≠ q := fun h => hq h.symm
    simp [Array.getD_eq_getD_getElem?, hq,
      Array.getElem?_setIfInBounds_ne hNe]

theorem size_foldl_setIfInBounds
    (ts : List Nat)
    (seen : Array Bool) :
    (ts.foldl (fun s t => s.setIfInBounds t true) seen).size =
      seen.size := by
  induction ts generalizing seen with
  | nil => rfl
  | cons t ts ih => simp [List.foldl_cons, ih]

theorem seen_foldl_setIfInBounds
    (ts : List Nat)
    (seen : Array Bool)
    (q : Nat)
    (hRange : ∀ t ∈ ts, t < seen.size) :
    Seen (ts.foldl (fun s t => s.setIfInBounds t true) seen)
        q ↔
      q ∈ ts ∨ Seen seen q := by
  induction ts generalizing seen with
  | nil => simp
  | cons t ts ih =>
      have hFirst : t < seen.size := hRange t (by simp)
      have hRest :
          ∀ s ∈ ts,
            s < (seen.setIfInBounds t true).size := by
        intro s hs
        simpa using hRange s (List.mem_cons_of_mem _ hs)
      rw [List.foldl_cons, ih _ hRest,
        seen_setIfInBounds _ _ _ hFirst, List.mem_cons]
      constructor
      · rintro (h | h | h)
        · exact .inl (.inr h)
        · exact .inl (.inl h)
        · exact .inr h
      · rintro ((h | h) | h)
        · exact .inr (.inl h)
        · exact .inl h
        · exact .inr (.inr h)

/- Marking distinct unmarked states leaves that many fewer. -/
theorem card_unseen_foldl
    (ts : List Nat)
    (seen : Array Bool)
    (hDistinct : ts.Nodup)
    (hUnseen : ∀ t ∈ ts, t ∈ unseen seen) :
    (unseen
        (ts.foldl (fun s t => s.setIfInBounds t true)
          seen)).card +
      ts.length = (unseen seen).card := by
  induction ts generalizing seen with
  | nil => simp
  | cons t ts ih =>
      rw [List.nodup_cons] at hDistinct
      have hFirst := hUnseen t (by simp)
      have hRange : t < seen.size := by
        simpa using (Finset.mem_filter.mp hFirst).1
      have hErase :
          unseen (seen.setIfInBounds t true) =
            (unseen seen).erase t := by
        ext q
        have hSeen := seen_setIfInBounds seen q t hRange
        unfold Seen at hSeen
        simp only [unseen, Array.size_setIfInBounds,
          Finset.mem_filter, Finset.mem_range,
          Finset.mem_erase, ← Bool.not_eq_true, hSeen]
        tauto
      have hRest : ∀ s ∈ ts, s ∈ (unseen seen).erase t := by
        intro s hs
        refine Finset.mem_erase.mpr ⟨?_, ?_⟩
        · rintro rfl
          exact hDistinct.1 hs
        · exact hUnseen s (List.mem_cons_of_mem _ hs)
      have hCard := ih (seen.setIfInBounds t true)
        hDistinct.2 (by rwa [hErase])
      rw [List.foldl_cons, List.length_cons]
      rw [hErase, Finset.card_erase_of_mem hFirst] at hCard
      have hPositive : 0 < (unseen seen).card :=
        Finset.card_pos.mpr ⟨t, hFirst⟩
      omega

------------------------------------------------------------
-- The search
------------------------------------------------------------

/- The silent targets of a state that have not been seen. -/
def freshTargets
    (m : Nfa)
    (seen : Array Bool)
    (q : Nat) : List Nat :=
  ((m.state q).silent.eraseDups).filter
    fun t => !seen.getD t true

theorem mem_freshTargets
    {m : Nfa}
    {seen : Array Bool}
    {q t : Nat}
    (hRange : m.InRange)
    (hSize : seen.size = m.states.size) :
    t ∈ freshTargets m seen q ↔
      t ∈ (m.state q).silent ∧ ¬ Seen seen t := by
  unfold freshTargets Seen
  rw [List.mem_filter, List.mem_eraseDups]
  refine and_congr_right ?_
  intro hTarget
  have hBound : t < seen.size := by
    rw [hSize]
    exact hRange.silent q t hTarget
  simp [Array.getD_eq_getD_getElem?, hBound]

theorem nodup_eraseDups
    (ts : List Nat) :
    ts.eraseDups.Nodup := by
  induction hLength : ts.length using Nat.strong_induction_on
    generalizing ts with
  | _ n ih =>
      cases ts with
      | nil => simp
      | cons t ts =>
          rw [List.eraseDups_cons, List.nodup_cons]
          have hShorter :
              (ts.filter fun s => !s == t).length < n := by
            have := List.length_filter_le
              (fun s => !s == t) ts
            rw [List.length_cons] at hLength
            omega
          refine ⟨?_, ih _ hShorter _ rfl⟩
          simp

theorem nodup_freshTargets
    (m : Nfa)
    (seen : Array Bool)
    (q : Nat) :
    (freshTargets m seen q).Nodup := by
  exact (nodup_eraseDups _).filter _

/-
  The search marks what the stack reaches silently.  Every
  call takes one state off the stack and pushes only states
  that it marks, so stack and unmarked states together
  shrink.
-/
theorem visit_spec
    {m : Nfa}
    (hRange : m.InRange)
    (fuel : Nat)
    (stack : List Nat)
    (seen : Array Bool)
    (hSize : seen.size = m.states.size)
    (hStack : ∀ q ∈ stack, Seen seen q)
    (hClosed :
      ∀ q, Seen seen q →
        q ∈ stack ∨ ∀ t ∈ (m.state q).silent, Seen seen t)
    (hFuel : stack.length + (unseen seen).card < fuel) :
    (∀ q, Seen seen q → Seen (m.visit fuel stack seen) q) ∧
      (∀ q, Seen (m.visit fuel stack seen) q →
        ∀ t ∈ (m.state q).silent,
          Seen (m.visit fuel stack seen) t) ∧
      ∀ q, Seen (m.visit fuel stack seen) q →
        ∃ p, Seen seen p ∧ m.Path p [] q := by
  induction fuel generalizing stack seen with
  | zero => omega
  | succ fuel ih =>
      cases stack with
      | nil =>
          refine ⟨fun q hq => hq, ?_, fun q hq => ?_⟩
          · intro q hq t ht
            rcases hClosed q hq with hMem | hTargets
            · cases hMem
            · exact hTargets t ht
          · exact ⟨q, hq, .nil q⟩
      | cons q stack =>
          let fresh := freshTargets m seen q
          let seen' :=
            fresh.foldl (fun s t => s.setIfInBounds t true)
              seen
          have hFresh :
              ∀ t, t ∈ fresh ↔
                t ∈ (m.state q).silent ∧ ¬ Seen seen t :=
            fun t => mem_freshTargets hRange hSize
          have hBounds : ∀ t ∈ fresh, t < seen.size := by
            intro t ht
            rw [hSize]
            exact hRange.silent q t ((hFresh t).mp ht).1
          have hSeen' :
              ∀ t, Seen seen' t ↔ t ∈ fresh ∨ Seen seen t :=
            fun t =>
              seen_foldl_setIfInBounds fresh seen t hBounds
          have hCount :
              (unseen seen').card + fresh.length =
                (unseen seen).card := by
            apply card_unseen_foldl
            · exact nodup_freshTargets m seen q
            · intro t ht
              have hNot := ((hFresh t).mp ht).2
              unfold Seen at hNot
              simp only [unseen, Finset.mem_filter,
                Finset.mem_range]
              exact ⟨hBounds t ht, by simpa using hNot⟩
          have hNext := ih (fresh ++ stack) seen'
            (by
              rw [size_foldl_setIfInBounds]
              exact hSize)
            (by
              intro t ht
              rcases List.mem_append.mp ht with ht | ht
              · exact (hSeen' t).mpr (.inl ht)
              · exact (hSeen' t).mpr
                  (.inr (hStack t
                    (List.mem_cons_of_mem _ ht))))
            (by
              intro t ht
              by_cases hOld : Seen seen t
              · rcases hClosed t hOld with hMem | hTargets
                · rcases List.mem_cons.mp hMem with rfl | hMem
                  · right
                    intro s hs
                    rw [hSeen', hFresh]
                    by_cases hs' : Seen seen s
                    · exact .inr hs'
                    · exact .inl ⟨hs, hs'⟩
                  · exact .inl
                      (List.mem_append_right _ hMem)
                · right
                  intro s hs
                  exact (hSeen' s).mpr (.inr (hTargets s hs))
              · rcases (hSeen' t).mp ht with ht | ht
                · exact .inl (List.mem_append_left _ ht)
                · exact absurd ht hOld)
            (by
              rw [List.length_append]
              rw [List.length_cons] at hFuel
              omega)
          rcases hNext with ⟨hMono, hTargets, hReached⟩
          refine ⟨?_, hTargets, ?_⟩
          · intro t ht
            exact hMono t ((hSeen' t).mpr (.inr ht))
          · intro t ht
            rcases hReached t ht with ⟨p, hp, hPath⟩
            rcases (hSeen' p).mp hp with hp | hp
            · exact ⟨q, hStack q (by simp),
                .silent ((hFresh p).mp hp).1 hPath⟩
            · exact ⟨p, hp, hPath⟩

------------------------------------------------------------
-- The closure
------------------------------------------------------------

/- The closure holds exactly what is reached silently. -/
theorem mem_closure
    {m : Nfa}
    (hRange : m.InRange)
    {qs : List Nat}
    (hStates : ∀ q ∈ qs, q < m.states.size)
    (r : Nat) :
    r ∈ m.closure qs ↔ ∃ q ∈ qs, m.Path q [] r := by
  let blank := Array.replicate m.states.size false
  let seen :=
    qs.foldl (fun s q => s.setIfInBounds q true) blank
  have hBlank : ∀ q, ¬ Seen blank q := by
    intro q
    simp only [Seen, blank, Array.getD_eq_getD_getElem?,
      Array.getElem?_replicate]
    split <;> simp
  have hSize : seen.size = m.states.size := by
    simp [seen, size_foldl_setIfInBounds, blank]
  have hSeen : ∀ q, Seen seen q ↔ q ∈ qs := by
    intro q
    have hFold := seen_foldl_setIfInBounds qs blank q
      (by simpa [blank] using hStates)
    simpa [hBlank q] using hFold
  have hCard : (unseen seen).card ≤ m.states.size := by
    calc (unseen seen).card
        ≤ (Finset.range seen.size).card :=
          Finset.card_filter_le _ _
      _ = m.states.size := by
          rw [Finset.card_range, hSize]
  rcases visit_spec hRange (qs.length + m.states.size + 1) qs
      seen hSize (fun q hq => (hSeen q).mpr hq)
      (fun q hq => .inl ((hSeen q).mp hq)) (by omega) with
    ⟨hMono, hTargets, hReached⟩
  have hMember :
      r ∈ m.closure qs ↔
        r < m.states.size ∧
          Seen (m.visit (qs.length + m.states.size + 1) qs
            seen) r := by
    simp [closure, Seen, seen, blank]
  rw [hMember]
  constructor
  · rintro ⟨-, hr⟩
    rcases hReached r hr with ⟨q, hq, hPath⟩
    exact ⟨q, (hSeen q).mp hq, hPath⟩
  · rintro ⟨q, hq, hPath⟩
    refine ⟨hRange.path hPath (hStates q hq), ?_⟩
    exact hPath.closed hTargets (hMono q ((hSeen q).mpr hq))

end Nfa

end Descent
