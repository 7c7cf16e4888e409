import Descent.Automaton.Dfa
import Descent.Proofs.Alphabet
import Mathlib.Data.Finset.Powerset
import Mathlib.Order.Bounds.Basic

/-
  The deterministic automaton reads what the other one reads.

  The construction keeps distinct sets, each of which is the
  closure of some states, so there are no more of them than
  there are subsets, and the bound on the work is never met.
  A run from a set ends in the set of all states that can be
  reached from it.

  Main declarations:
    * `Dfa.Subsets.Built` and `Dfa.Subsets.built_ofNfa`
    * `Dfa.accept_of_run` and `Dfa.not_accepts_of_run`
    * `Nfa.reached` and `Dfa.run_follows_reached`
-/

------------------------------------------------------------
-- Rows
------------------------------------------------------------

namespace Descent

namespace Dfa

open Text (maxUnit)
open Alphabet (representative)

namespace Subsets

/- A target stands for the states that a set moves to. -/
def IsTarget
    (m : Nfa)
    (s : Subsets)
    (set : List Nat)
    (c : Nat) : Option Nat → Prop
  | none => m.move set c = []
  | some q =>
      m.move set c ≠ [] ∧
        s.sets[q]? = some (m.closure (m.move set c))

/- Nothing that has been found is lost. -/
def Extends
    (s s' : Subsets) : Prop :=
  ∀ (q : Nat) set, s.sets[q]? = some set → s'.sets[q]? = some set

theorem Extends.refl
    (s : Subsets) :
    Extends s s :=
  fun _ _ h => h

theorem Extends.trans
    {s s₁ s₂ : Subsets}
    (hFirst : Extends s s₁)
    (hSecond : Extends s₁ s₂) :
    Extends s s₂ :=
  fun q set h => hSecond q set (hFirst q set h)

theorem IsTarget.extends
    {m : Nfa}
    {s s' : Subsets}
    {set : List Nat}
    {c : Nat}
    {target : Option Nat}
    (hExtends : Extends s s')
    (hTarget : IsTarget m s set c target) :
    IsTarget m s' set c target := by
  cases target with
  | none => exact hTarget
  | some q => exact ⟨hTarget.1, hExtends q _ hTarget.2⟩

/- A row has the targets of a set for some characters. -/
def IsRow
    (m : Nfa)
    (s : Subsets)
    (set cs : List Nat)
    (row : List (Option Nat)) : Prop :=
  List.Forall₂ (IsTarget m s set) cs row

theorem IsRow.extends
    {m : Nfa}
    {s s' : Subsets}
    {set cs : List Nat}
    {row : List (Option Nat)}
    (hExtends : Extends s s')
    (hRow : IsRow m s set cs row) :
    IsRow m s' set cs row :=
  hRow.imp fun _ _ h => h.extends hExtends

------------------------------------------------------------
-- The invariant
------------------------------------------------------------

/-
  An automaton in the making is sound.  States that are being
  worked on or pending have no targets yet.
-/
structure Built
    (m : Nfa)
    (reps busy : List Nat)
    (s : Subsets) : Prop where
  sizes : s.rows.size = s.sets.size
  distinct : s.sets.toList.Nodup
  closed :
    ∀ (q : Nat) set, s.sets[q]? = some set →
      ∃ qs, (∀ p ∈ qs, p < m.states.size) ∧
        set = m.closure qs
  waiting :
    ∀ q ∈ busy ++ s.pending, q < s.sets.size
  waitingOnce : (busy ++ s.pending).Nodup
  rows :
    ∀ (q : Nat) set, s.sets[q]? = some set →
      q ∉ busy ++ s.pending →
        ∃ row, s.rows[q]? = some row ∧
          IsRow m s set reps row

/- The closures of an automaton are told apart by their members. -/
theorem closure_eq_of_mem
    {m : Nfa}
    {qs rs : List Nat}
    (hSame : ∀ q, q ∈ m.closure qs ↔ q ∈ m.closure rs) :
    m.closure qs = m.closure rs := by
  unfold Nfa.closure at hSame ⊢
  refine List.filter_congr ?_
  intro q hq
  have hIff := hSame q
  simp only [List.mem_filter, hq, true_and] at hIff
  rw [Bool.eq_iff_iff]
  exact hIff

theorem mem_closure_lt
    {m : Nfa}
    {qs : List Nat}
    {q : Nat}
    (hMem : q ∈ m.closure qs) :
    q < m.states.size :=
  List.mem_range.mp (List.mem_filter.mp hMem).1

/- There are no more sets than subsets. -/
theorem Built.size_le
    {m : Nfa}
    {reps busy : List Nat}
    {s : Subsets}
    (hBuilt : Built m reps busy s) :
    s.sets.size ≤ 2 ^ m.states.size := by
  have hClosed : ∀ set ∈ s.sets.toList,
      ∃ qs, set = m.closure qs := by
    intro set hMem
    rcases List.getElem?_of_mem hMem with ⟨q, hq⟩
    rw [Array.getElem?_toList] at hq
    rcases hBuilt.closed q set hq with ⟨qs, -, hSet⟩
    exact ⟨qs, hSet⟩
  have hCard : s.sets.toList.toFinset.card ≤
      (Finset.range m.states.size).powerset.card := by
    refine Finset.card_le_card_of_injOn List.toFinset ?_ ?_
    · intro set hMem
      rcases hClosed set (List.mem_toFinset.mp hMem) with
        ⟨qs, rfl⟩
      refine Finset.mem_powerset.mpr ?_
      intro q hq
      exact Finset.mem_range.mpr
        (mem_closure_lt (List.mem_toFinset.mp hq))
    · intro set hMem set' hMem' hEq
      rcases hClosed set (List.mem_toFinset.mp hMem) with
        ⟨qs, rfl⟩
      rcases hClosed set' (List.mem_toFinset.mp hMem') with
        ⟨rs, rfl⟩
      refine closure_eq_of_mem fun q => ?_
      rw [← List.mem_toFinset, hEq, List.mem_toFinset]
  rw [List.toFinset_card_of_nodup hBuilt.distinct,
    Finset.card_powerset, Finset.card_range] at hCard
  exact hCard

------------------------------------------------------------
-- One set
------------------------------------------------------------

theorem extends_push
    (s : Subsets)
    (set : List Nat)
    (rows : Array (List (Option Nat)))
    (pending : List Nat) :
    Extends s
      { sets := s.sets.push set, rows := rows,
        pending := pending } := by
  intro q set' hSet
  have hInside := (Array.getElem?_eq_some_iff.mp hSet).1
  change (s.sets.push set)[q]? = _
  rw [Array.getElem?_push_lt hInside,
    ← Array.getElem?_eq_getElem hInside]
  exact hSet

/-
  Finding a set keeps the invariant, and what is added waits
  for its targets.
-/
theorem find_spec
    {m : Nfa}
    {reps busy : List Nat}
    {s : Subsets}
    (hBuilt : Built m reps busy s)
    {qs : List Nat}
    (hStates : ∀ q ∈ qs, q < m.states.size)
    (numClasses : Nat) :
    Built m reps busy (s.find (m.closure qs) numClasses).2 ∧
      Extends s (s.find (m.closure qs) numClasses).2 ∧
      (s.find (m.closure qs) numClasses).2.sets[
          (s.find (m.closure qs) numClasses).1]? =
        some (m.closure qs) ∧
      (s.find (m.closure qs) numClasses).2.sets.size +
          s.pending.length =
        s.sets.size +
          (s.find (m.closure qs) numClasses).2.pending.length
    := by
  unfold find
  split
  · next q hFound =>
      rcases Array.findIdx?_eq_some_iff_getElem.mp hFound with
        ⟨hInside, hEq, -⟩
      refine ⟨hBuilt, Extends.refl s, ?_, rfl⟩
      change s.sets[q]? = _
      rw [Array.getElem?_eq_getElem hInside]
      exact congrArg some (by simpa using hEq)
  · next hNew =>
      rw [Array.findIdx?_eq_none_iff] at hNew
      have hExtends := extends_push s (m.closure qs)
        (s.rows.push (List.replicate numClasses none))
        (s.sets.size :: s.pending)
      have hLast :
          (s.sets.push (m.closure qs))[s.sets.size]? =
            some (m.closure qs) := by
        simp
      refine ⟨⟨?_, ?_, ?_, ?_, ?_, ?_⟩, hExtends, hLast, ?_⟩
      · simp only [Array.size_push, hBuilt.sizes]
      · rw [Array.toList_push]
        refine List.nodup_append.mpr
          ⟨hBuilt.distinct, List.nodup_singleton _, ?_⟩
        intro set hMem set' hMem' hEq
        rw [List.mem_singleton] at hMem'
        have hNe := hNew set (Array.mem_toList_iff.mp hMem)
        simp [hEq, hMem'] at hNe
      · intro q set hSet
        rw [Array.getElem?_push] at hSet
        split at hSet
        · cases hSet
          exact ⟨qs, hStates, rfl⟩
        · exact hBuilt.closed q set hSet
      · intro q hq
        rw [Array.size_push]
        rcases List.mem_append.mp hq with hq | hq
        · exact (hBuilt.waiting q
            (List.mem_append_left _ hq)).trans
            (Nat.lt_succ_self _)
        · rcases List.mem_cons.mp hq with rfl | hq
          · exact Nat.lt_succ_self _
          · exact (hBuilt.waiting q
              (List.mem_append_right _ hq)).trans
              (Nat.lt_succ_self _)
      · refine List.nodup_middle.mpr
          (List.nodup_cons.mpr ⟨?_, hBuilt.waitingOnce⟩)
        intro hMem
        exact Nat.lt_irrefl _ (hBuilt.waiting _ hMem)
      · intro q set hSet hNot
        have hOld : q ∉ busy ++ s.pending := by
          intro hMem
          refine hNot ?_
          rcases List.mem_append.mp hMem with hMem | hMem
          · exact List.mem_append_left _ hMem
          · exact List.mem_append_right _
              (List.mem_cons_of_mem _ hMem)
        rw [Array.getElem?_push] at hSet
        split at hSet
        · next hq =>
            refine absurd ?_ hNot
            rw [hq]
            exact List.mem_append_right _ List.mem_cons_self
        · rcases hBuilt.rows q set hSet hOld with
            ⟨row, hRow, hTargets⟩
          refine ⟨row, ?_, hTargets.extends hExtends⟩
          have hInside := (Array.getElem?_eq_some_iff.mp hRow).1
          rw [Array.getElem?_push_lt hInside,
            ← Array.getElem?_eq_getElem hInside]
          exact hRow
      · simp only [Array.size_push, List.length_cons]
        omega

theorem move_lt
    {m : Nfa}
    (hRange : m.InRange)
    {set : List Nat}
    {c t : Nat}
    (hMem : t ∈ m.move set c) :
    t < m.states.size := by
  rcases List.mem_flatMap.mp hMem with ⟨q, -, hTarget⟩
  rcases List.mem_filterMap.mp hTarget with ⟨e, he, hEntry⟩
  rw [Option.ite_none_right_eq_some, Option.some_inj] at hEntry
  rw [← hEntry.2]
  exact hRange.moves q e he

/- The targets of a set are found for one character at a time. -/
theorem targets_spec
    {m : Nfa}
    (hRange : m.InRange)
    {reps busy : List Nat}
    (numClasses : Nat)
    (set cs : List Nat)
    {s : Subsets}
    (hBuilt : Built m reps busy s) :
    Built m reps busy (targets m numClasses set cs s).2 ∧
      Extends s (targets m numClasses set cs s).2 ∧
      IsRow m (targets m numClasses set cs s).2 set cs
        (targets m numClasses set cs s).1 ∧
      (targets m numClasses set cs s).2.sets.size +
          s.pending.length =
        s.sets.size +
          (targets m numClasses set cs s).2.pending.length
    := by
  induction cs generalizing s with
  | nil => exact ⟨hBuilt, Extends.refl s, .nil, rfl⟩
  | cons c cs ih =>
      unfold targets
      split
      · next hNone =>
          rcases ih hBuilt with ⟨hNext, hExtends, hRow, hCount⟩
          exact ⟨hNext, hExtends, .cons hNone hRow, hCount⟩
      · next hMoves =>
          have hFind := find_spec hBuilt
            (fun q (hq : q ∈ m.move set c) =>
              move_lt hRange hq)
            numClasses
          rcases hFind with ⟨hNext, hFirst, hFound, hCount⟩
          generalize s.find (m.closure (m.move set c))
            numClasses = found at hNext hFirst hFound hCount ⊢
          rcases found with ⟨q, s₁⟩
          rcases ih hNext with ⟨hLast, hSecond, hRow, hCount'⟩
          refine ⟨hLast, hFirst.trans hSecond,
            .cons ⟨hMoves, hSecond q _ hFound⟩ hRow, ?_⟩
          dsimp only at hCount hCount' ⊢
          omega

------------------------------------------------------------
-- All sets
------------------------------------------------------------

theorem built_initial
    {m : Nfa}
    (hStart : m.start < m.states.size)
    (a : Alphabet) :
    Built m a.representatives.toList [] (initial m a) := by
  refine ⟨rfl, List.nodup_singleton _, ?_, ?_,
    List.nodup_singleton _, ?_⟩
  · intro q set hSet
    refine ⟨[m.start], ?_, ?_⟩
    · intro p hp
      rw [List.mem_singleton] at hp
      exact hp ▸ hStart
    · rcases Array.getElem?_eq_some_iff.mp hSet with
        ⟨hInside, hEq⟩
      have hZero : q = 0 := by
        simpa [initial] using hInside
      subst hZero
      exact hEq.symm
  · intro q hq
    rw [List.nil_append] at hq
    have hZero : q = 0 := List.mem_singleton.mp hq
    subst hZero
    exact Nat.zero_lt_one
  · intro q set hSet hNot
    have hInside := (Array.getElem?_eq_some_iff.mp hSet).1
    have hZero : q = 0 := by
      simpa [initial] using hInside
    exact absurd (by simp [initial, hZero]) hNot

/- Putting in the row of the state that is worked on. -/
theorem Built.finish
    {m : Nfa}
    {reps : List Nat}
    {s : Subsets}
    {q : Nat}
    {set : List Nat}
    {row : List (Option Nat)}
    (hBuilt : Built m reps [q] s)
    (hSet : s.sets[q]? = some set)
    (hRow : IsRow m s set reps row) :
    Built m reps []
      { s with rows := s.rows.setIfInBounds q row } := by
  have hInside : q < s.rows.size := by
    rw [hBuilt.sizes]
    exact hBuilt.waiting q List.mem_cons_self
  refine ⟨?_, hBuilt.distinct, hBuilt.closed, ?_, ?_, ?_⟩
  · rw [Array.size_setIfInBounds]
    exact hBuilt.sizes
  · intro p hp
    exact hBuilt.waiting p (List.mem_cons_of_mem _ hp)
  · exact (List.nodup_cons.mp hBuilt.waitingOnce).2
  · intro p set' hSet' hNot
    by_cases hp : p = q
    · subst hp
      rw [hSet'] at hSet
      cases hSet
      refine ⟨row, ?_, hRow⟩
      exact Array.getElem?_setIfInBounds_self_of_lt hInside
    · rcases hBuilt.rows p set' hSet' (by
          intro hMem
          rcases List.mem_cons.mp hMem with hEq | hMem
          · exact hp hEq
          · exact hNot hMem) with
        ⟨row', hRow', hTargets⟩
      refine ⟨row', ?_, hTargets⟩
      have hNe : q ≠ p := fun h => hp h.symm
      change (s.rows.setIfInBounds q row)[p]? = _
      rw [Array.getElem?_setIfInBounds_ne hNe]
      exact hRow'

theorem close_cons
    (m : Nfa)
    (a : Alphabet)
    (fuel : Nat)
    {s : Subsets}
    {q : Nat}
    {pending : List Nat}
    (hPending : s.pending = q :: pending) :
    let done := targets m a.numClasses (s.sets.getD q [])
      a.representatives.toList { s with pending := pending }
    close m a (fuel + 1) s =
      close m a fuel
        { done.2 with
          rows := done.2.rows.setIfInBounds q done.1 } := by
  rw [close]
  split
  · next hNone => simp [hNone] at hPending
  · next q' pending' hPending' =>
      rw [hPending] at hPending'
      cases hPending'
      rfl

/-
  Every round finishes one state and never touches it again,
  so the rounds are no more than the sets.
-/
theorem close_spec
    {m : Nfa}
    (hRange : m.InRange)
    (a : Alphabet)
    (fuel : Nat)
    {s : Subsets}
    (hBuilt : Built m a.representatives.toList [] s)
    (hFuel :
      2 ^ m.states.size + s.pending.length <
        fuel + s.sets.size) :
    Built m a.representatives.toList [] (close m a fuel s) ∧
      (close m a fuel s).pending = [] ∧
      Extends s (close m a fuel s) := by
  induction fuel generalizing s with
  | zero =>
      have hSize := hBuilt.size_le
      omega
  | succ fuel ih =>
      cases hPending : s.pending with
      | nil =>
          rw [close]
          split
          · exact ⟨hBuilt, hPending, Extends.refl s⟩
          · next hMore => simp [hPending] at hMore
      | cons q pending =>
          rw [close_cons m a fuel hPending]
          let s₀ : Subsets := { s with pending := pending }
          have hBusy :
              Built m a.representatives.toList [q] s₀ := by
            refine ⟨hBuilt.sizes, hBuilt.distinct,
              hBuilt.closed, ?_, ?_, ?_⟩
            · have hWaiting := hBuilt.waiting
              rw [hPending] at hWaiting
              exact hWaiting
            · have hOnce := hBuilt.waitingOnce
              rw [hPending] at hOnce
              exact hOnce
            · have hRows := hBuilt.rows
              rw [hPending] at hRows
              exact hRows
          have hInside : q < s.sets.size :=
            hBusy.waiting q List.mem_cons_self
          have hSet : s.sets[q]? = some (s.sets.getD q []) := by
            rw [Array.getD_eq_getD_getElem?,
              Array.getElem?_eq_getElem hInside]
            rfl
          rcases targets_spec hRange a.numClasses
              (s.sets.getD q []) a.representatives.toList
              hBusy with
            ⟨hNext, hExtends, hRow, hCount⟩
          generalize targets m a.numClasses (s.sets.getD q [])
            a.representatives.toList s₀ = done
            at hNext hExtends hRow hCount ⊢
          rcases done with ⟨row, s₁⟩
          have hFinished := hNext.finish
            (hExtends q _ hSet) hRow
          have hLess : 2 ^ m.states.size + s₁.pending.length <
              fuel + s₁.sets.size := by
            have hLength : s.pending.length =
                pending.length + 1 := by
              rw [hPending, List.length_cons]
            change s₁.sets.size + pending.length =
              s.sets.size + s₁.pending.length at hCount
            omega
          rcases ih hFinished hLess with
            ⟨hLast, hEmpty, hSecond⟩
          exact ⟨hLast, hEmpty,
            fun p set h => hSecond p set (hExtends p set h)⟩

/- The finished sets: nothing is pending any more. -/
theorem built_ofNfa
    {m : Nfa}
    (hRange : m.InRange)
    (hStart : m.start < m.states.size)
    (a : Alphabet) :
    Built m a.representatives.toList [] (ofNfa m a) ∧
      (ofNfa m a).pending = [] ∧
      (ofNfa m a).sets[0]? = some (m.closure [m.start]) := by
  have hInitial := built_initial hStart a
  unfold ofNfa
  rw [Nat.one_shiftLeft]
  rcases close_spec hRange a (2 ^ m.states.size + 1) hInitial
      (by
        change 2 ^ m.states.size + 1 <
          2 ^ m.states.size + 1 + 1
        omega) with
    ⟨hBuilt, hEmpty, hExtends⟩
  exact ⟨hBuilt, hEmpty, hExtends 0 _ rfl⟩

end Subsets

------------------------------------------------------------
-- Runs
------------------------------------------------------------

/- The set that a state of the automaton stands for. -/
def StandsFor
    (m : Nfa)
    (a : Alphabet)
    (q : Nat)
    (set : List Nat) : Prop :=
  (Subsets.ofNfa m a).sets[q]? = some set

section Runs

variable {m : Nfa}

theorem state_ofNfa
    (hRange : m.InRange)
    (hStart : m.start < m.states.size)
    {a : Alphabet}
    {q : Nat}
    {set : List Nat}
    (hSet : StandsFor m a q set) :
    ∃ row,
      (ofNfa m a).states.getD q default =
          { targets := row, accept := m.acceptOf set } ∧
        Subsets.IsRow m (Subsets.ofNfa m a) set
          a.representatives.toList row := by
  rcases Subsets.built_ofNfa hRange hStart a with
    ⟨hBuilt, hEmpty, -⟩
  rcases hBuilt.rows q set hSet (by simp [hEmpty]) with
    ⟨row, hRow, hTargets⟩
  refine ⟨row, ?_, hTargets⟩
  have hZip :
      ((Subsets.ofNfa m a).sets.zip
        (Subsets.ofNfa m a).rows)[q]? = some (set, row) :=
    Array.getElem?_zip_eq_some.mpr ⟨hSet, hRow⟩
  simp only [ofNfa, Array.getD_eq_getD_getElem?,
    Array.getElem?_map, hZip, Option.map_some,
    Option.getD_some]

theorem accept_eq
    (hRange : m.InRange)
    (hStart : m.start < m.states.size)
    {a : Alphabet}
    {q : Nat}
    {set : List Nat}
    (hSet : StandsFor m a q set) :
    (ofNfa m a).accept? q = m.acceptOf set := by
  rcases state_ofNfa hRange hStart hSet with ⟨row, hState, -⟩
  rw [accept?, hState]

/- A set moves on a unit as it does on its representative. -/
theorem mem_move_iff
    {c d : Nat}
    (hSame : ∀ q t, t ∈ m.targets q d ↔ t ∈ m.targets q c)
    (set : List Nat)
    (t : Nat) :
    t ∈ m.move set d ↔ t ∈ m.move set c := by
  unfold Nfa.move
  simp only [List.mem_flatMap, hSame]

/-
  One step: there is no target when the set does not move, and
  else the target stands for what the set moves to.
-/
theorem step_ofNfa
    (hRange : m.InRange)
    (hStart : m.start < m.states.size)
    {q c : Nat}
    {set : List Nat}
    (hSet : StandsFor m (Alphabet.ofNfa m) q set)
    (hUnit : c ≤ maxUnit) :
    match (ofNfa m (Alphabet.ofNfa m)).step?
        (Alphabet.ofNfa m) q c with
    | none => ∀ t, t ∉ m.move set c
    | some r =>
        ∃ qs, qs ≠ [] ∧ (∀ t, t ∈ qs ↔ t ∈ m.move set c) ∧
          (∀ t ∈ qs, t < m.states.size) ∧
          StandsFor m (Alphabet.ofNfa m) r
            (m.closure qs) := by
  rcases state_ofNfa hRange hStart hSet with
    ⟨row, hState, hRow⟩
  rcases Alphabet.classify_ofNfa m hUnit with
    ⟨hInside, hSame⟩
  generalize hClass : (Alphabet.ofNfa m).classify c = cls
    at hInside hSame
  generalize hRep :
    representative (Alphabet.ofNfa m).representatives cls = d
    at hSame
  have hGet :
      (Alphabet.ofNfa m).representatives.toList[cls]? =
        some d := by
    rw [Array.getElem?_toList,
      Array.getElem?_eq_getElem hInside, ← hRep,
      representative, Array.getD_eq_getD_getElem?,
      Array.getElem?_eq_getElem hInside]
    rfl
  have hLength := hRow.length_eq
  have hTarget : ∃ target, row[cls]? = some target ∧
      Subsets.IsTarget m
        (Subsets.ofNfa m (Alphabet.ofNfa m)) set d target := by
    have hCls : cls < row.length := by
      rw [← hLength]
      exact (List.getElem?_eq_some_iff.mp hGet).1
    refine ⟨row.get ⟨cls, hCls⟩, by simp, ?_⟩
    have hAt := hRow.get (i := cls)
      (List.getElem?_eq_some_iff.mp hGet).1 hCls
    have hEq := (List.getElem?_eq_some_iff.mp hGet).2
    rw [List.get_eq_getElem, hEq] at hAt
    exact hAt
  rcases hTarget with ⟨target, hRowAt, hTarget⟩
  have hStep : (ofNfa m (Alphabet.ofNfa m)).step?
      (Alphabet.ofNfa m) q c = target := by
    rw [step?, target?, hState, hClass, hRowAt]
    rfl
  rw [hStep]
  cases target with
  | none =>
      intro t ht
      rw [← mem_move_iff hSame set t] at ht
      have hNone : m.move set d = [] := hTarget
      rw [hNone] at ht
      cases ht
  | some r =>
      exact ⟨m.move set d, hTarget.1, mem_move_iff hSame set,
        fun t ht => Subsets.move_lt hRange ht, hTarget.2⟩

/- A word is read by moving the closed set on its first unit. -/
theorem exists_path_cons_iff
    (hRange : m.InRange)
    {qs : List Nat}
    (hStates : ∀ t ∈ qs, t < m.states.size)
    (c : Nat)
    (w : List Nat)
    (r : Nat) :
    (∃ p ∈ qs, m.Path p (c :: w) r) ↔
      ∃ t ∈ m.move (m.closure qs) c, m.Path t w r := by
  simp only [Nfa.Path.cons_iff, Nfa.move,
    List.mem_flatMap, Nfa.mem_closure hRange hStates]
  constructor
  · rintro ⟨p, hp, p', t, hSilent, hTarget, hPath⟩
    exact ⟨t, ⟨p', ⟨p, hp, hSilent⟩, hTarget⟩, hPath⟩
  · rintro ⟨t, ⟨p', ⟨p, hp, hSilent⟩, hTarget⟩, hPath⟩
    exact ⟨p, hp, p', t, hSilent, hTarget, hPath⟩

/-
  A run from a closed set ends in the set of all states that
  can be reached from it, and fails only where there is none.
-/
theorem run_from
    (hRange : m.InRange)
    (hStart : m.start < m.states.size)
    (w : List Nat)
    (hUnits : ∀ c ∈ w, c ≤ maxUnit)
    {q : Nat}
    {qs : List Nat}
    (hStates : ∀ t ∈ qs, t < m.states.size)
    (hSet : StandsFor m (Alphabet.ofNfa m) q (m.closure qs)) :
    match (ofNfa m (Alphabet.ofNfa m)).run
        (Alphabet.ofNfa m) q w with
    | none => ∀ p ∈ qs, ∀ r, ¬ m.Path p w r
    | some q' =>
        ∃ set, StandsFor m (Alphabet.ofNfa m) q' set ∧
          ∀ r, r ∈ set ↔ ∃ p ∈ qs, m.Path p w r := by
  induction w generalizing q qs with
  | nil =>
      exact ⟨_, hSet, Nfa.mem_closure hRange hStates⟩
  | cons c w ih =>
      have hUnit := hUnits c List.mem_cons_self
      have hRest := fun d hd =>
        hUnits d (List.mem_cons_of_mem _ hd)
      have hStep := step_ofNfa hRange hStart hSet hUnit
      have hMoved := exists_path_cons_iff hRange hStates c w
      have hRun : (ofNfa m (Alphabet.ofNfa m)).run
          (Alphabet.ofNfa m) q (c :: w) =
          ((ofNfa m (Alphabet.ofNfa m)).step?
            (Alphabet.ofNfa m) q c).bind fun q' =>
              (ofNfa m (Alphabet.ofNfa m)).run
                (Alphabet.ofNfa m) q' w :=
        rfl
      rw [hRun]
      generalize (ofNfa m (Alphabet.ofNfa m)).step?
        (Alphabet.ofNfa m) q c = target at hStep ⊢
      cases target with
      | none =>
          intro p hp r hPath
          rcases (hMoved r).mp ⟨p, hp, hPath⟩ with ⟨t, ht, -⟩
          exact hStep t ht
      | some q₁ =>
          rcases hStep with ⟨rs, -, hRs, hInside, hSet₁⟩
          have hNext := ih hRest hInside hSet₁
          rw [Option.bind_some]
          generalize (ofNfa m (Alphabet.ofNfa m)).run
            (Alphabet.ofNfa m) q₁ w = result at hNext ⊢
          cases result with
          | none =>
              intro p hp r hPath
              rcases (hMoved r).mp ⟨p, hp, hPath⟩ with
                ⟨t, ht, hPath⟩
              exact hNext t ((hRs t).mpr ht) r hPath
          | some q' =>
              rcases hNext with ⟨set, hSet', hMem⟩
              refine ⟨set, hSet', fun r => ?_⟩
              rw [hMem, hMoved]
              simp only [hRs]

/- The automaton reads the words that the other one reads. -/
theorem run_start
    (hRange : m.InRange)
    (hStart : m.start < m.states.size)
    {w : List Nat}
    (hUnits : ∀ c ∈ w, c ≤ maxUnit) :
    match (ofNfa m (Alphabet.ofNfa m)).run
        (Alphabet.ofNfa m) 0 w with
    | none => ∀ r, ¬ m.Path m.start w r
    | some q =>
        ∃ set, StandsFor m (Alphabet.ofNfa m) q set ∧
          ∀ r, r ∈ set ↔ m.Path m.start w r := by
  have hFrom := run_from hRange hStart w hUnits
    (fun t ht => List.mem_singleton.mp ht ▸ hStart)
    (Subsets.built_ofNfa hRange hStart _).2.2
  generalize (ofNfa m (Alphabet.ofNfa m)).run
    (Alphabet.ofNfa m) 0 w = result at hFrom ⊢
  cases result with
  | none =>
      intro r
      exact hFrom m.start List.mem_cons_self r
  | some q =>
      rcases hFrom with ⟨set, hSet, hMem⟩
      refine ⟨set, hSet, fun r => ?_⟩
      rw [hMem]
      simp only [List.mem_singleton, exists_eq_left]

theorem acceptOf_eq_some_iff
    (m : Nfa)
    (set : List Nat)
    (kind : Nat) :
    m.acceptOf set = some kind ↔
      IsLeast
        { k | ∃ q ∈ set, (m.state q).accept = some k }
        kind := by
  unfold Nfa.acceptOf Nfa.leastKind
  rw [List.min?_eq_some_iff]
  simp only [List.mem_filterMap]
  rfl

/- The state after a word accepts the least kind of the word. -/
theorem accept_of_run
    (hRange : m.InRange)
    (hStart : m.start < m.states.size)
    {w : List Nat}
    (hUnits : ∀ c ∈ w, c ≤ maxUnit)
    {q : Nat}
    (hRun : (ofNfa m (Alphabet.ofNfa m)).run
      (Alphabet.ofNfa m) 0 w = some q)
    (kind : Nat) :
    (ofNfa m (Alphabet.ofNfa m)).accept? q = some kind ↔
      IsLeast { k | m.Accepts k w } kind := by
  have hRead := run_start hRange hStart hUnits
  rw [hRun] at hRead
  rcases hRead with ⟨set, hSet, hMem⟩
  rw [accept_eq hRange hStart hSet, acceptOf_eq_some_iff]
  simp only [hMem]
  rfl

/- Without moves no unit is read. -/
theorem step_of_hasMoves_false
    (hRange : m.InRange)
    (hStart : m.start < m.states.size)
    (hIdle : m.hasMoves = false)
    {c : Nat}
    (hUnit : c ≤ maxUnit) :
    (ofNfa m (Alphabet.ofNfa m)).step? (Alphabet.ofNfa m) 0
      c = none := by
  have hNone : ∀ set t, t ∉ m.move set c := by
    intro set t ht
    rcases List.mem_flatMap.mp ht with ⟨q, -, hTarget⟩
    rcases List.mem_filterMap.mp hTarget with ⟨e, he, -⟩
    unfold Nfa.hasMoves at hIdle
    rw [Array.any_eq_false] at hIdle
    by_cases hInside : q < m.states.size
    · have hState := hIdle q hInside
      unfold Nfa.state at he
      rw [Array.getD_eq_getD_getElem?,
        Array.getElem?_eq_getElem hInside, Option.getD_some]
        at he
      rw [Bool.not_eq_true', Bool.not_eq_false,
        List.isEmpty_iff] at hState
      rw [hState] at he
      cases he
    · rw [Nfa.state_of_size_le (not_lt.mp hInside)] at he
      cases he
  have hStep := step_ofNfa hRange hStart
    (Subsets.built_ofNfa hRange hStart _).2.2 hUnit
  generalize (ofNfa m (Alphabet.ofNfa m)).step?
    (Alphabet.ofNfa m) 0 c = target at hStep ⊢
  cases target with
  | none => rfl
  | some r =>
      rcases hStep with ⟨qs, hSome, hQs, -⟩
      rcases List.exists_mem_of_ne_nil qs hSome with ⟨t, ht⟩
      exact absurd ((hQs t).mp ht) (hNone _ t)

/- A word that cannot be read has no kind. -/
theorem not_accepts_of_run
    (hRange : m.InRange)
    (hStart : m.start < m.states.size)
    {w : List Nat}
    (hUnits : ∀ c ∈ w, c ≤ maxUnit)
    (hRun : (ofNfa m (Alphabet.ofNfa m)).run
      (Alphabet.ofNfa m) 0 w = none)
    (kind : Nat) :
    ¬ m.Accepts kind w := by
  have hRead := run_start hRange hStart hUnits
  rw [hRun] at hRead
  rintro ⟨q, hPath, -⟩
  exact hRead q hPath

end Runs

end Dfa

------------------------------------------------------------
-- States and sets
------------------------------------------------------------

/- The states that reading a word can lead to. -/
def Nfa.reached
    (m : Nfa)
    (w : List Nat) : Set Nat :=
  { q | m.Path m.start w q }

namespace Dfa

open Text (maxUnit)

section Sets

variable {m : Nfa}

/- No two states stand for one set. -/
theorem StandsFor.unique
    (hRange : m.InRange)
    (hStart : m.start < m.states.size)
    {a : Alphabet}
    {q q' : Nat}
    {set set' : List Nat}
    (hSet : StandsFor m a q set)
    (hSet' : StandsFor m a q' set')
    (hSame : ∀ r, r ∈ set ↔ r ∈ set') :
    q = q' := by
  rcases Subsets.built_ofNfa hRange hStart a with
    ⟨hBuilt, -, -⟩
  rcases hBuilt.closed q set hSet with ⟨qs, -, rfl⟩
  rcases hBuilt.closed q' set' hSet' with ⟨qs', -, rfl⟩
  have hEq : m.closure qs = m.closure qs' :=
    Subsets.closure_eq_of_mem hSame
  have hInside := (Array.getElem?_eq_some_iff.mp hSet).1
  apply (List.getElem?_inj (by simpa using hInside)
    hBuilt.distinct).mp
  rw [Array.getElem?_toList, Array.getElem?_toList, hSet,
    hSet', hEq]

/-
  A run that goes on from some states reads the word from one
  of them: only sets with a move have a target.
-/
theorem exists_path_of_run
    (hRange : m.InRange)
    (hStart : m.start < m.states.size)
    (w : List Nat)
    (hUnits : ∀ c ∈ w, c ≤ maxUnit)
    {q q' : Nat}
    {qs : List Nat}
    (hStates : ∀ t ∈ qs, t < m.states.size)
    (hSome : qs ≠ [])
    (hSet : StandsFor m (Alphabet.ofNfa m) q (m.closure qs))
    (hRun : (ofNfa m (Alphabet.ofNfa m)).run
      (Alphabet.ofNfa m) q w = some q') :
    ∃ p ∈ qs, ∃ r, m.Path p w r := by
  induction w generalizing q qs with
  | nil =>
      rcases List.exists_mem_of_ne_nil qs hSome with ⟨p, hp⟩
      exact ⟨p, hp, p, .nil p⟩
  | cons c w ih =>
      have hStep := step_ofNfa hRange hStart hSet
        (hUnits c List.mem_cons_self)
      rw [run, List.foldlM_cons] at hRun
      rcases Option.bind_eq_some_iff.mp hRun with
        ⟨q₁, hFirst, hRest⟩
      rw [hFirst] at hStep
      rcases hStep with ⟨rs, hMoves, hRs, hInside, hSet₁⟩
      rcases ih (fun d hd => hUnits d
          (List.mem_cons_of_mem _ hd)) hInside hMoves hSet₁
          hRest with
        ⟨t, ht, r, hPath⟩
      rcases (exists_path_cons_iff hRange hStates c w r).mpr
          ⟨t, (hRs t).mp ht, hPath⟩ with
        ⟨p, hp, hWhole⟩
      exact ⟨p, hp, r, hWhole⟩

theorem run_eq_none_iff
    (hRange : m.InRange)
    (hStart : m.start < m.states.size)
    {w : List Nat}
    (hUnits : ∀ c ∈ w, c ≤ maxUnit) :
    (ofNfa m (Alphabet.ofNfa m)).run (Alphabet.ofNfa m) 0
        w = none ↔
      m.reached w = ∅ := by
  constructor
  · intro hRun
    have hRead := run_start hRange hStart hUnits
    rw [hRun] at hRead
    exact Set.eq_empty_of_forall_notMem hRead
  · intro hEmpty
    cases hRun : (ofNfa m (Alphabet.ofNfa m)).run
        (Alphabet.ofNfa m) 0 w with
    | none => rfl
    | some q =>
        rcases exists_path_of_run hRange hStart w hUnits
            (fun t ht => List.mem_singleton.mp ht ▸ hStart)
            (List.cons_ne_nil m.start [])
            (Subsets.built_ofNfa hRange hStart _).2.2 hRun with
          ⟨p, hp, r, hPath⟩
        rw [List.mem_singleton.mp hp] at hPath
        have hMem : r ∈ m.reached w := hPath
        rw [hEmpty] at hMem
        exact absurd hMem (Set.notMem_empty r)

/-
  The state after a word accepts the least kind of the states
  that are reached, and none if they accept none.
-/
theorem accept_of_reached
    (hRange : m.InRange)
    (hStart : m.start < m.states.size)
    {w : List Nat}
    (hUnits : ∀ c ∈ w, c ≤ maxUnit)
    {q : Nat}
    (hRun : (ofNfa m (Alphabet.ofNfa m)).run
      (Alphabet.ofNfa m) 0 w = some q) :
    (∀ kind,
        (ofNfa m (Alphabet.ofNfa m)).accept? q = some kind ↔
          IsLeast
            { k | ∃ r ∈ m.reached w,
              (m.state r).accept = some k }
            kind) ∧
      ((ofNfa m (Alphabet.ofNfa m)).accept? q = none ↔
        ∀ r ∈ m.reached w, (m.state r).accept = none) := by
  classical
  have hSome := accept_of_run hRange hStart hUnits hRun
  refine ⟨hSome, ?_⟩
  constructor
  · intro hNone r hr
    by_contra hAccepts
    rcases Option.ne_none_iff_exists'.mp hAccepts with
      ⟨kind, hKind⟩
    have hLeast := Nat.find_spec
      (⟨kind, r, hr, hKind⟩ : ∃ k, m.Accepts k w)
    have hFirst : IsLeast { k | m.Accepts k w } _ :=
      ⟨hLeast, fun k hk => Nat.find_le hk⟩
    rw [(hSome _).mpr hFirst] at hNone
    cases hNone
  · intro hNone
    cases hKind : (ofNfa m (Alphabet.ofNfa m)).accept? q with
    | none => rfl
    | some kind =>
        rcases ((hSome kind).mp hKind).1 with ⟨r, hr, hAccepts⟩
        rw [hNone r hr] at hAccepts
        cases hAccepts

theorem run_eq_iff
    (hRange : m.InRange)
    (hStart : m.start < m.states.size)
    {v w : List Nat}
    (hFirst : ∀ c ∈ v, c ≤ maxUnit)
    (hSecond : ∀ c ∈ w, c ≤ maxUnit)
    (hReached : (m.reached v).Nonempty) :
    (ofNfa m (Alphabet.ofNfa m)).run (Alphabet.ofNfa m) 0 v =
        (ofNfa m (Alphabet.ofNfa m)).run (Alphabet.ofNfa m) 0
          w ↔
      m.reached v = m.reached w := by
  have hNone := run_eq_none_iff hRange hStart hFirst
  have hNone' := run_eq_none_iff hRange hStart hSecond
  have hRead := run_start hRange hStart hFirst
  have hRead' := run_start hRange hStart hSecond
  generalize (ofNfa m (Alphabet.ofNfa m)).run
    (Alphabet.ofNfa m) 0 v = result at *
  generalize (ofNfa m (Alphabet.ofNfa m)).run
    (Alphabet.ofNfa m) 0 w = result' at *
  cases result with
  | none => exact absurd (hNone.mp rfl) hReached.ne_empty
  | some q =>
      rcases hRead with ⟨set, hSet, hMem⟩
      cases result' with
      | none =>
          rw [hNone'.mp rfl]
          simp [hReached.ne_empty]
      | some q' =>
          rcases hRead' with ⟨set', hSet', hMem'⟩
          constructor
          · intro hSame
            cases hSame
            rw [StandsFor, hSet] at hSet'
            cases hSet'
            ext r
            exact (hMem r).symm.trans (hMem' r)
          · intro hSame
            congr 1
            apply hSet.unique hRange hStart hSet'
            intro r
            rw [hMem, hMem']
            exact Set.ext_iff.mp hSame r

/-
  The deterministic automaton follows the other one exactly.
  Its construction ends with nothing left to work on.  A run
  on a word fails exactly if no state can be reached by it,
  and ends else in a state that accepts the least kind of the
  reached states; two words that lead somewhere end in one
  state exactly if they lead to the same states.
-/
theorem run_follows_reached
    (hRange : m.InRange)
    (hStart : m.start < m.states.size) :
    let a := Alphabet.ofNfa m
    let d := ofNfa m a
    (Subsets.ofNfa m a).pending = [] ∧
      (∀ w, (∀ c ∈ w, c ≤ maxUnit) →
        (d.run a d.start w = none ↔ m.reached w = ∅) ∧
        ∀ q, d.run a d.start w = some q →
          (∀ kind, d.accept? q = some kind ↔
            IsLeast
              { k | ∃ r ∈ m.reached w,
                (m.state r).accept = some k }
              kind) ∧
          (d.accept? q = none ↔
            ∀ r ∈ m.reached w, (m.state r).accept = none)) ∧
      ∀ v w, (∀ c ∈ v, c ≤ maxUnit) →
        (∀ c ∈ w, c ≤ maxUnit) →
        (m.reached v).Nonempty → (m.reached w).Nonempty →
        (d.run a d.start v = d.run a d.start w ↔
          m.reached v = m.reached w) := by
  intro a d
  refine ⟨(Subsets.built_ofNfa hRange hStart a).2.1, ?_, ?_⟩
  · intro w hUnits
    refine ⟨run_eq_none_iff hRange hStart hUnits, ?_⟩
    intro q hRun
    exact accept_of_reached hRange hStart hUnits hRun
  · intro v w hFirst hSecond hReached _
    exact run_eq_iff hRange hStart hFirst hSecond hReached

/- Two units that lead to one state, which accepts a kind. -/
def converging : Nfa :=
  { states :=
      #[{ moves := [(.single 97, 1), (.single 98, 1)] },
        { accept := some 3 }] }

theorem run_follows_reached_converging :
    (ofNfa converging (Alphabet.ofNfa converging)).run
        (Alphabet.ofNfa converging) 0 [97] =
      (ofNfa converging (Alphabet.ofNfa converging)).run
        (Alphabet.ofNfa converging) 0 [98] := by
  have hRange : converging.InRange := by
    constructor
    · intro q t ht
      match q with
      | 0 => cases ht
      | 1 => cases ht
      | q + 2 => cases ht
    · intro q e he
      match q with
      | 0 =>
          rcases List.mem_pair.mp he with rfl | rfl
          · decide
          · decide
      | 1 => cases he
      | q + 2 => cases he
  have hTargets : ∀ p,
      converging.targets p 97 = converging.targets p 98 := by
    intro p
    match p with
    | 0 => rfl
    | 1 => rfl
    | p + 2 => rfl
  have hSame : converging.reached [97] =
      converging.reached [98] := by
    ext r
    simp only [Nfa.reached, Set.mem_ofPred_eq,
      Nfa.Path.cons_iff, hTargets]
  have hSome : (converging.reached [97]).Nonempty :=
    ⟨1, .move List.mem_cons_self rfl (.nil 1)⟩
  have hAll := run_follows_reached hRange (by decide)
  apply (hAll.2.2 [97] [98] ?_ ?_ hSome (hSame ▸ hSome)).mpr
  · exact hSame
  · intro c hc
    rw [List.mem_singleton.mp hc]
    decide
  · intro c hc
    rw [List.mem_singleton.mp hc]
    decide

end Sets

end Dfa

end Descent
