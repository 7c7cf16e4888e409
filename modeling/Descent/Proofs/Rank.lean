import Mathlib.Data.Finset.Card
import Mathlib.Logic.Relation
import Mathlib.Order.WellFounded

/-
  Ranks of acyclic relations between indices.

  Many walks over a grammar go down a bounded number of steps.
  Where no index comes below itself, every step lowers the
  rank, which is never larger than the number of indices, so
  the bound is not met and more steps change nothing.

  Main declarations:
    * `Acyclic`
    * `rank`, `rank_lt` and `rank_le`
    * `Acyclic.wellFounded`
    * `eq_of_rank_lt`
-/

------------------------------------------------------------
-- Acyclic relations
------------------------------------------------------------

namespace Descent

/- No index comes below itself. -/
def Acyclic
    (R : Nat → Nat → Prop) : Prop :=
  ∀ i, ¬ Relation.TransGen R i i

theorem acyclic_of_wellFounded
    {R : Nat → Nat → Prop}
    (hFounded : WellFounded R) :
    Acyclic R := by
  intro i hCycle
  have hBelow : WellFounded (Relation.TransGen R) :=
    hFounded.transGen
  exact hBelow.irrefl.irrefl i hCycle

/- It is enough that some number goes down. -/
theorem acyclic_of_lt
    {R : Nat → Nat → Prop}
    {f : Nat → Nat}
    (hLess : ∀ j i, R j i → f j < f i) :
    Acyclic R := by
  apply acyclic_of_wellFounded
  exact Subrelation.wf (fun h => hLess _ _ h)
    (measure f).wf

------------------------------------------------------------
-- Ranks
------------------------------------------------------------

section Ranks

variable {R : Nat → Nat → Prop} {size : Nat}

open Classical in
/- The indices below one, as far as they are inside. -/
noncomputable def indicesBelow
    (R : Nat → Nat → Prop)
    (size i : Nat) : Finset Nat :=
  (Finset.range size).filter
    fun j => Relation.TransGen R j i

theorem mem_indicesBelow
    {i j : Nat} :
    j ∈ indicesBelow R size i ↔
      j < size ∧ Relation.TransGen R j i := by
  simp only [indicesBelow, Finset.mem_filter,
    Finset.mem_range]

/- More than the steps from an index down to the last. -/
noncomputable def rank
    (R : Nat → Nat → Prop)
    (size i : Nat) : Nat :=
  if i < size then (indicesBelow R size i).card + 1 else 0

/- Steps go down, if only indices inside have any. -/
theorem rank_lt
    (hAcyclic : Acyclic R)
    (hInside : ∀ j i, R j i → i < size)
    {i j : Nat}
    (hStep : R j i) :
    rank R size j < rank R size i := by
  unfold rank
  rw [if_pos (hInside j i hStep)]
  split
  · next hj =>
      have hSubset :
          indicesBelow R size j ⊂ indicesBelow R size i := by
        apply Finset.ssubset_iff_subset_ne.mpr
        constructor
        · intro k hk
          rcases mem_indicesBelow.mp hk with ⟨hSize, hBelow⟩
          exact mem_indicesBelow.mpr
            ⟨hSize, hBelow.tail hStep⟩
        · intro hEq
          have hSelf : j ∈ indicesBelow R size j := by
            rw [hEq]
            exact mem_indicesBelow.mpr ⟨hj, .single hStep⟩
          exact hAcyclic j (mem_indicesBelow.mp hSelf).2
      have hCard := Finset.card_lt_card hSubset
      omega
  · omega

theorem rank_le
    (hAcyclic : Acyclic R)
    (i : Nat) :
    rank R size i ≤ size := by
  unfold rank
  split
  · next hi =>
      have hSubset : indicesBelow R size i ⊆
          (Finset.range size).erase i := by
        intro j hj
        rcases mem_indicesBelow.mp hj with ⟨hSize, hBelow⟩
        apply Finset.mem_erase.mpr
        refine ⟨?_, Finset.mem_range.mpr hSize⟩
        rintro rfl
        exact hAcyclic j hBelow
      have hCard := Finset.card_le_card hSubset
      rw [Finset.card_erase_of_mem (Finset.mem_range.mpr hi),
        Finset.card_range] at hCard
      omega
  · exact Nat.zero_le size

theorem Acyclic.wellFounded
    (hAcyclic : Acyclic R)
    (hInside : ∀ j i, R j i → i < size) :
    WellFounded R :=
  Subrelation.wf (fun h => rank_lt hAcyclic hInside h)
    (measure (rank R size)).wf

/-
  A function that goes down step by step gives one result for
  all depths beyond the rank.
-/
theorem eq_of_rank_lt
    {α : Type}
    {f : Nat → Nat → α}
    (hAcyclic : Acyclic R)
    (hInside : ∀ j i, R j i → i < size)
    (hStep : ∀ d d' i, (∀ j, R j i → f d j = f d' j) →
      f (d + 1) i = f (d' + 1) i)
    {d d' i : Nat}
    (hLeft : rank R size i < d)
    (hRight : rank R size i < d') :
    f d i = f d' i := by
  induction d generalizing d' i with
  | zero => exact absurd hLeft (Nat.not_lt_zero _)
  | succ d ih =>
      cases d' with
      | zero => exact absurd hRight (Nat.not_lt_zero _)
      | succ d' =>
          apply hStep
          intro j hj
          have hLess := rank_lt hAcyclic hInside hj
          exact ih (by omega) (by omega)

end Ranks

end Descent
