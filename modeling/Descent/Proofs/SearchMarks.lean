import Descent.Session
import Mathlib.Data.List.Nodup
import Mathlib.Logic.Function.Basic
import Mathlib.Logic.Relation

/-
  Marks of a search for cycles.

  A depth-first search marks what it has come to and what it
  has left.  Where it comes back to an index that it has not
  left, the cycle is open, and every index up to that one is
  left with its other links unseen.  Still no cycle is missed:
  what is left on the way lies on the cycle that is reported,
  and an index whose links have all been seen lies on a cycle
  only if one of them does.

  Main declarations:
    * `LeftRecursion.Way` and `LeftRecursion.Cycle`
    * `Statuses.Seeks` and `Statuses.Unwinds`
    * `Statuses.Seeks.finish` and `Statuses.Unwinds.close`
-/

namespace Descent

------------------------------------------------------------
-- Cycles
------------------------------------------------------------

namespace LeftRecursion

variable {C : Nat → Nat → Prop}

/- Indices that are passed on the way from one to another. -/
inductive Way
    (C : Nat → Nat → Prop) :
    Nat → List Nat → Nat → Prop where
  | last
      {p q : Nat}
      (hLink : C p q) :
      Way C p [q] q
  | next
      {p q r : Nat}
      {way : List Nat}
      (hLink : C p q)
      (hRest : Way C q way r) :
      Way C p (q :: way) r

theorem Way.transGen
    {p q : Nat}
    {way : List Nat}
    (hWay : Way C p way q) :
    Relation.TransGen C p q := by
  induction hWay with
  | last hLink => exact .single hLink
  | next hLink _ ih => exact ih.head hLink

theorem Way.mono
    {D : Nat → Nat → Prop}
    (hLinks : ∀ p q, C p q → D p q)
    {p q : Nat}
    {way : List Nat}
    (hWay : Way C p way q) :
    Way D p way q := by
  induction hWay with
  | last hLink => exact .last (hLinks _ _ hLink)
  | next hLink _ ih => exact .next (hLinks _ _ hLink) ih

/- Indices that lead to each other. -/
def Together
    (C : Nat → Nat → Prop)
    (p q : Nat) : Prop :=
  Relation.ReflTransGen C p q ∧ Relation.ReflTransGen C q p

theorem Together.trans
    {p q r : Nat}
    (hFirst : Together C p q)
    (hSecond : Together C q r) :
    Together C p r :=
  ⟨hFirst.1.trans hSecond.1, hSecond.2.trans hFirst.2⟩

/- A cycle that is reported, by its head and the way back to it. -/
structure Cycle where
  head : Nat
  way : List Nat

/- The way of a cycle leads along links. -/
def Cycle.Closes
    (C : Nat → Nat → Prop)
    (c : Cycle) : Prop :=
  Way C c.head c.way c.head

/- An index lies on the cycles of one that is reported. -/
def Reported
    (C : Nat → Nat → Prop)
    (cycles : List Cycle)
    (p : Nat) : Prop :=
  ∃ c ∈ cycles, Together C p c.head

theorem Reported.together
    {cycles : List Cycle}
    {p q : Nat}
    (hReported : Reported C cycles q)
    (hTogether : Together C p q) :
    Reported C cycles p := by
  rcases hReported with ⟨c, hMem, hHead⟩
  exact ⟨c, hMem, hTogether.trans hHead⟩

/- An index on a cycle is linked to one on it. -/
theorem exists_together_of_cyclic
    {p : Nat}
    (hCyclic : Relation.TransGen C p p) :
    ∃ q, C p q ∧ Together C p q ∧ Relation.TransGen C q q := by
  rcases Relation.TransGen.head'_iff.mp hCyclic with
    ⟨q, hLink, hBack⟩
  exact ⟨q, hLink, ⟨.single hLink, hBack⟩,
    Relation.TransGen.tail'_iff.mpr ⟨p, hBack, hLink⟩⟩

end LeftRecursion

------------------------------------------------------------
-- Statuses
------------------------------------------------------------

/- How far a search has come with each index. -/
abbrev Statuses := Nat → WalkStatus

namespace Statuses

open LeftRecursion

variable {C : Nat → Nat → Prop}
variable {cycles : List Cycle}
variable {st st' st'' : Statuses}

/- An index that no walk had reached may be done now. -/
def Explores
    (st st' : Statuses)
    (q : Nat) : Prop :=
  st' q = st q ∨ st q = .unvisited ∧ st' q = .done

theorem Explores.trans
    {q : Nat}
    (hFirst : Explores st st' q)
    (hSecond : Explores st' st'' q) :
    Explores st st'' q := by
  unfold Explores at *
  rcases hFirst with hSame | ⟨hOpen, hDone⟩
  · rw [hSame] at hSecond
    exact hSecond
  · rcases hSecond with hSame | ⟨hOpen', -⟩
    · exact .inr ⟨hOpen, hSame.trans hDone⟩
    · rw [hDone] at hOpen'
      cases hOpen'

theorem Explores.of_ne
    {q : Nat}
    (hExplores : Explores st st' q)
    (hVisited : st q ≠ .unvisited) :
    st' q = st q := by
  rcases hExplores with hSame | ⟨hOpen, -⟩
  · exact hSame
  · exact absurd hOpen hVisited

/- No index has come onto the stack. -/
theorem Explores.onStack
    {q : Nat}
    (hExplores : Explores st st' q)
    (hOnStack : st' q = .onStack) :
    st q = .onStack := by
  rcases hExplores with hSame | ⟨-, hDone⟩
  · rwa [← hSame]
  · rw [hDone] at hOnStack
    cases hOnStack

/- Nor has any become unvisited. -/
theorem Explores.unvisited
    {q : Nat}
    (hExplores : Explores st st' q)
    (hOpen : st' q = .unvisited) :
    st q = .unvisited := by
  rcases hExplores with hSame | ⟨hOpen', -⟩
  · rwa [← hSame]
  · exact hOpen'

/- What has come onto the stack is left there. -/
theorem Explores.onStack_self
    {p : Nat}
    (hExplores :
      Explores (Function.update st p .onStack) st' p) :
    st' p = .onStack := by
  rw [hExplores.of_ne (by simp), Function.update_self]

/- An index is done once what comes after it has been explored. -/
theorem Explores.around
    {p q : Nat}
    (hOpen : st p = .unvisited)
    (hExplores : q ≠ p →
      Explores (Function.update st p .onStack) st' q) :
    Explores st (Function.update st' p .done) q := by
  by_cases hSame : q = p
  · rw [hSame]
    exact .inr ⟨hOpen, Function.update_self p .done st'⟩
  · have hHere := hExplores hSame
    unfold Explores at hHere ⊢
    rw [Function.update_of_ne hSame] at hHere ⊢
    exact hHere

/-
  What has been found: genuine cycles, with heads that are
  done and that differ from each other.
-/
structure Found
    (C : Nat → Nat → Prop)
    (cycles : List Cycle)
    (st : Statuses) : Prop where
  heads : (cycles.map Cycle.head).Nodup
  done : ∀ c ∈ cycles, st c.head = .done
  closes : ∀ c ∈ cycles, c.Closes C

/- What holds while no cycle is open. -/
structure Seeks
    (C : Nat → Nat → Prop)
    (cycles : List Cycle)
    (st : Statuses) : Prop where
  found : Found C cycles st
  unreported : ∀ q, st q ≠ .onStackReported
  covers : ∀ q, st q = .done →
    Relation.TransGen C q q → Reported C cycles q

/- All that is linked to what is done is done. -/
def Closed
    (C : Nat → Nat → Prop)
    (st : Statuses) : Prop :=
  ∀ q r, C q r → st q = .done → st r = .done

/-
  What holds while indices are left on a cycle that closes at
  `v`.  Compared with before, `v` alone is marked, and what is
  done lies on that cycle if nothing else was reported.
-/
structure Unwinds
    (C : Nat → Nat → Prop)
    (cycles : List Cycle)
    (v : Nat)
    (st : Statuses) : Prop where
  found : Found C cycles st
  marked : st v = .onStackReported
  unreported : ∀ q, q ≠ v → st q ≠ .onStackReported
  covers : ∀ q, st q = .done →
    Relation.TransGen C q q →
      Reported C cycles q ∨ Together C q v

theorem Found.update
    (hFound : Found C cycles st)
    {p : Nat}
    (hOpen : st p ≠ .done)
    (status : WalkStatus) :
    Found C cycles (Function.update st p status) where
  heads := hFound.heads
  done c hMem := by
    have hDone := hFound.done c hMem
    have hOther : c.head ≠ p := by
      intro hSame
      exact hOpen (hSame ▸ hDone)
    rw [Function.update_of_ne hOther]
    exact hDone
  closes := hFound.closes

/- Nothing has been reported where no index on a cycle is done. -/
theorem seeks_nil
    (hUnreported : ∀ q, st q ≠ .onStackReported)
    (hUndone : ∀ q, Relation.TransGen C q q → st q ≠ .done) :
    Seeks C [] st where
  found := ⟨List.nodup_nil, List.forall_mem_nil _,
    List.forall_mem_nil _⟩
  unreported := hUnreported
  covers q hDone hCyclic := absurd hDone (hUndone q hCyclic)

/- The search comes to an index. -/
theorem Seeks.onStack
    (hSeeks : Seeks C cycles st)
    {p : Nat}
    (hOpen : st p = .unvisited) :
    Seeks C cycles (Function.update st p .onStack) where
  found := hSeeks.found.update (by simp [hOpen]) _
  unreported q := by
    by_cases hSame : q = p
    · rw [hSame, Function.update_self]
      simp
    · rw [Function.update_of_ne hSame]
      exact hSeeks.unreported q
  covers q hDone := by
    by_cases hSame : q = p
    · rw [hSame, Function.update_self] at hDone
      cases hDone
    · rw [Function.update_of_ne hSame] at hDone
      exact hSeeks.covers q hDone

theorem Closed.onStack
    (hClosed : Closed C st)
    {p : Nat}
    (hOpen : st p = .unvisited) :
    Closed C (Function.update st p .onStack) := by
  intro q r hLink hDone
  by_cases hSame : q = p
  · rw [hSame, Function.update_self] at hDone
    cases hDone
  · rw [Function.update_of_ne hSame] at hDone
    have hNext := hClosed q r hLink hDone
    rwa [Function.update_of_ne]
    rintro rfl
    rw [hOpen] at hNext
    cases hNext

/- All links of an index have been seen. -/
theorem Seeks.finish
    (hSeeks : Seeks C cycles st)
    {p : Nat}
    (hStack : st p = .onStack)
    (hLinks : ∀ q, C p q → st q = .done) :
    Seeks C cycles (Function.update st p .done) where
  found := hSeeks.found.update (by simp [hStack]) _
  unreported q := by
    by_cases hSame : q = p
    · rw [hSame, Function.update_self]
      simp
    · rw [Function.update_of_ne hSame]
      exact hSeeks.unreported q
  covers q hDone hCyclic := by
    by_cases hSame : q = p
    · rw [hSame] at hCyclic ⊢
      rcases exists_together_of_cyclic hCyclic with
        ⟨r, hLink, hTogether, hNext⟩
      exact (hSeeks.covers r (hLinks r hLink)
        hNext).together hTogether
    · rw [Function.update_of_ne hSame] at hDone
      exact hSeeks.covers q hDone hCyclic

theorem Closed.finish
    (hClosed : Closed C st)
    {p : Nat}
    (hLinks : ∀ q, C p q → st q = .done) :
    Closed C (Function.update st p .done) := by
  intro q r hLink hDone
  have hNext : st r = .done := by
    by_cases hSame : q = p
    · exact hLinks r (hSame ▸ hLink)
    · rw [Function.update_of_ne hSame] at hDone
      exact hClosed q r hLink hDone
  by_cases hSame : r = p
  · rw [hSame, Function.update_self]
  · rwa [Function.update_of_ne hSame]

/- The search comes back to an index that it has not left. -/
theorem Seeks.mark
    (hSeeks : Seeks C cycles st)
    {v : Nat}
    (hStack : st v = .onStack) :
    Unwinds C cycles v
      (Function.update st v .onStackReported) where
  found := hSeeks.found.update (by simp [hStack]) _
  marked := Function.update_self v .onStackReported st
  unreported q hOther := by
    rw [Function.update_of_ne hOther]
    exact hSeeks.unreported q
  covers q hDone hCyclic := by
    by_cases hSame : q = v
    · rw [hSame, Function.update_self] at hDone
      cases hDone
    · rw [Function.update_of_ne hSame] at hDone
      exact .inl (hSeeks.covers q hDone hCyclic)

/- An index on the open cycle is left. -/
theorem Unwinds.pass
    {v p : Nat}
    (hUnwinds : Unwinds C cycles v st)
    (hStack : st p = .onStack)
    (hTogether : Together C p v) :
    Unwinds C cycles v (Function.update st p .done) where
  found := hUnwinds.found.update (by simp [hStack]) _
  marked := by
    have hOther : v ≠ p := by
      rintro rfl
      rw [hUnwinds.marked] at hStack
      cases hStack
    rw [Function.update_of_ne hOther]
    exact hUnwinds.marked
  unreported q hOther := by
    by_cases hSame : q = p
    · rw [hSame, Function.update_self]
      simp
    · rw [Function.update_of_ne hSame]
      exact hUnwinds.unreported q hOther
  covers q hDone hCyclic := by
    by_cases hSame : q = p
    · rw [hSame]
      exact .inr hTogether
    · rw [Function.update_of_ne hSame] at hDone
      exact hUnwinds.covers q hDone hCyclic

/- The open cycle is reported where it closes. -/
theorem Unwinds.close
    {v : Nat}
    (hUnwinds : Unwinds C cycles v st)
    {way : List Nat}
    (hWay : Way C v way v) :
    Seeks C (cycles ++ [⟨v, way⟩])
      (Function.update st v .done) := by
  have hOpen : st v ≠ .done := by
    rw [hUnwinds.marked]
    simp
  have hFound := hUnwinds.found.update hOpen .done
  have hHere : Reported C (cycles ++ [⟨v, way⟩]) v :=
    ⟨⟨v, way⟩, List.mem_append_right _ (List.mem_singleton_self _),
      .refl, .refl⟩
  refine ⟨⟨?_, ?_, ?_⟩, ?_, ?_⟩
  · rw [List.map_append, List.nodup_append]
    refine ⟨hFound.heads, List.nodup_singleton _, ?_⟩
    intro head hHead other hOther
    rw [List.map_singleton, List.mem_singleton] at hOther
    rcases List.mem_map.mp hHead with ⟨c, hMem, rfl⟩
    intro hSame
    have hHead : c.head = v := hSame.trans hOther
    exact hOpen (hHead ▸ hUnwinds.found.done c hMem)
  · intro c hMem
    rcases List.mem_append.mp hMem with hOld | hNew
    · exact hFound.done c hOld
    · rw [List.mem_singleton.mp hNew]
      exact Function.update_self v .done st
  · intro c hMem
    rcases List.mem_append.mp hMem with hOld | hNew
    · exact hFound.closes c hOld
    · rw [List.mem_singleton.mp hNew]
      exact hWay
  · intro q
    by_cases hSame : q = v
    · rw [hSame, Function.update_self]
      simp
    · rw [Function.update_of_ne hSame]
      exact hUnwinds.unreported q hSame
  · intro q hDone hCyclic
    by_cases hSame : q = v
    · rw [hSame]
      exact hHere
    · rw [Function.update_of_ne hSame] at hDone
      rcases hUnwinds.covers q hDone hCyclic with
        ⟨c, hMem, hTogether⟩ | hTogether
      · exact ⟨c, List.mem_append_left _ hMem, hTogether⟩
      · exact hHere.together hTogether

end Statuses

end Descent
