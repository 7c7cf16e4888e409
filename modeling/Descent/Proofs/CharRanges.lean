import Descent.Proofs.Language
import Mathlib.Tactic.Common

/-
  The ranges of a character list hold exactly its characters.

  Sorted ranges are joined from the left, so the invariant of
  the fold speaks of the ranges that are done in reverse: each
  lies beyond the next one and does not touch it.

  Main declarations:
    * `CharRanges.Separate`
    * `CharRanges.covers_merge` and `CharRanges.separate_merge`
    * `CharRanges.Separate.eq_of_covers`
    * `CharRanges.covers_ofItems`
    * `CharRanges.ofItems_canonical`
-/

------------------------------------------------------------
-- Covering
------------------------------------------------------------

namespace Descent

open Text (maxUnit caseVariants lowerUnit upperUnit)

/- A character has a form only within the 16-bit range. -/
theorem Text.mapUnit_le
    (runs : List Text.CaseRun)
    {c : Nat}
    (hUnit : c ≤ maxUnit) :
    Text.mapUnit runs c ≤ maxUnit := by
  unfold Text.mapUnit
  split
  · split
    · assumption
    · exact hUnit
  · exact hUnit

theorem Text.mem_pushNew
    (xs : List Nat)
    (x y : Nat) :
    y ∈ Text.pushNew xs x ↔ y ∈ xs ∨ y = x := by
  unfold Text.pushNew
  split
  · next hMem =>
      constructor
      · exact Or.inl
      · rintro (hy | rfl)
        · exact hy
        · exact List.contains_iff_mem.mp hMem
  · rw [List.mem_append, List.mem_singleton]

theorem Text.mem_caseVariants
    (c d : Nat) :
    d ∈ caseVariants c ↔
      d = c ∨ d = lowerUnit c ∨ d = upperUnit c := by
  unfold caseVariants
  rw [Text.mem_pushNew, Text.mem_pushNew,
    List.mem_singleton, or_assoc]

theorem Text.caseVariants_le
    {c d : Nat}
    (hUnit : c ≤ maxUnit)
    (hForm : d ∈ caseVariants c) :
    d ≤ maxUnit := by
  rcases (Text.mem_caseVariants c d).mp hForm with
    rfl | rfl | rfl
  · exact hUnit
  · exact Text.mapUnit_le _ hUnit
  · exact Text.mapUnit_le _ hUnit

namespace CharRanges

/- Some range holds a character. -/
def Covers
    (ranges : List Range)
    (c : Nat) : Prop :=
  ∃ r ∈ ranges, r.1 ≤ c ∧ c ≤ r.2

theorem covers_cons
    (r : Range)
    (ranges : List Range)
    (c : Nat) :
    Covers (r :: ranges) c ↔
      (r.1 ≤ c ∧ c ≤ r.2) ∨ Covers ranges c := by
  simp [Covers]

theorem covers_append
    (left right : List Range)
    (c : Nat) :
    Covers (left ++ right) c ↔
      Covers left c ∨ Covers right c := by
  simp only [Covers, List.mem_append, or_and_right,
    exists_or]

/-
  Ranges that are not empty, ascend, and neither overlap nor
  touch.
-/
structure Separate
    (ranges : List Range) : Prop where
  nonempty : ∀ r ∈ ranges, r.1 ≤ r.2
  apart : ranges.Pairwise fun a b => a.2 + 1 < b.1

------------------------------------------------------------
-- Joining
------------------------------------------------------------

theorem absorb_spec
    {done : List Range}
    {r : Range}
    (hDone : Separate done.reverse)
    (hRange : r.1 ≤ r.2)
    (hBefore : ∀ d ∈ done, d.1 ≤ r.1) :
    Separate (absorb done r).reverse ∧
      (∀ d ∈ absorb done r, d.1 ≤ r.1) ∧
      ∀ c, Covers (absorb done r) c ↔
        Covers done c ∨ (r.1 ≤ c ∧ c ≤ r.2) := by
  cases done with
  | nil =>
      refine ⟨⟨?_, ?_⟩, ?_, ?_⟩ <;>
        simp [absorb, Covers, hRange]
  | cons last rest =>
      have hLast : last.1 ≤ last.2 :=
        hDone.nonempty last (by simp)
      have hLastFirst : last.1 ≤ r.1 :=
        hBefore last (by simp)
      have hApart :
          rest.reverse.Pairwise
              (fun a b => a.2 + 1 < b.1) ∧
            ∀ d ∈ rest, d.2 + 1 < last.1 := by
        have hPairwise := hDone.apart
        rw [List.reverse_cons,
          List.pairwise_append] at hPairwise
        refine ⟨hPairwise.1, ?_⟩
        intro d hd
        exact hPairwise.2.2 d (by simpa using hd) last
          (by simp)
      have hRest : ∀ d ∈ rest, d.1 ≤ d.2 := by
        intro d hd
        exact hDone.nonempty d (by simp [hd])
      have hStep :
          absorb (last :: rest) r =
            if r.1 ≤ last.2 + 1 then
              (last.1, max last.2 r.2) :: rest
            else
              r :: last :: rest :=
        rfl
      rw [hStep]
      split
      · next hTouch =>
          refine ⟨⟨?_, ?_⟩, ?_, ?_⟩
          · intro d hd
            rw [List.mem_reverse, List.mem_cons] at hd
            rcases hd with rfl | hd
            · exact le_max_of_le_left hLast
            · exact hRest d hd
          · rw [List.reverse_cons, List.pairwise_append]
            refine ⟨hApart.1, List.pairwise_singleton _ _, ?_⟩
            intro d hd b hb
            rw [List.mem_singleton] at hb
            subst hb
            exact hApart.2 d (by simpa using hd)
          · intro d hd
            rcases List.mem_cons.mp hd with rfl | hd
            · exact hLastFirst
            · exact hBefore d (List.mem_cons_of_mem _ hd)
          · intro c
            rw [covers_cons, covers_cons]
            by_cases hc : Covers rest c
            · simp [hc]
            · simp only [hc, or_false]
              omega
      · next hGap =>
          refine ⟨⟨?_, ?_⟩, ?_, ?_⟩
          · intro d hd
            rw [List.mem_reverse, List.mem_cons] at hd
            rcases hd with rfl | hd
            · exact hRange
            · exact hDone.nonempty d (List.mem_reverse.mpr hd)
          · rw [List.reverse_cons, List.pairwise_append]
            refine
              ⟨hDone.apart, List.pairwise_singleton _ _, ?_⟩
            intro d hd b hb
            rw [List.mem_singleton] at hb
            subst hb
            rw [List.mem_reverse, List.mem_cons] at hd
            rcases hd with rfl | hd
            · omega
            · have := hApart.2 d hd
              omega
          · intro d hd
            rcases List.mem_cons.mp hd with rfl | hd
            · exact le_rfl
            · exact hBefore d hd
          · intro c
            rw [covers_cons]
            exact or_comm

/-
  Folding over sorted ranges keeps the ranges done separate
  and covers what was covered.
-/
theorem foldl_absorb_spec
    (ranges : List Range)
    (done : List Range)
    (hSorted : ranges.Pairwise fun a b => a.1 ≤ b.1)
    (hRanges : ∀ r ∈ ranges, r.1 ≤ r.2)
    (hDone : Separate done.reverse)
    (hBefore : ∀ d ∈ done, ∀ r ∈ ranges, d.1 ≤ r.1) :
    Separate (ranges.foldl absorb done).reverse ∧
      ∀ c, Covers (ranges.foldl absorb done) c ↔
        Covers done c ∨ Covers ranges c := by
  induction ranges generalizing done with
  | nil =>
      refine ⟨hDone, ?_⟩
      intro c
      simp [Covers]
  | cons r ranges ih =>
      rw [List.pairwise_cons] at hSorted
      rcases absorb_spec hDone (hRanges r (by simp))
          (fun d hd => hBefore d hd r (by simp)) with
        ⟨hSeparate, hFirst, hCovers⟩
      have hNext := ih (absorb done r) hSorted.2
        (fun s hs => hRanges s (List.mem_cons_of_mem _ hs))
        hSeparate
        (fun d hd s hs =>
          (hFirst d hd).trans (hSorted.1 s hs))
      refine ⟨hNext.1, ?_⟩
      intro c
      rw [List.foldl_cons, hNext.2 c, hCovers c, covers_cons,
        or_assoc]

theorem sorted_mergeSort_rangeLE
    (ranges : List Range) :
    (ranges.mergeSort rangeLE).Pairwise
      fun a b => a.1 ≤ b.1 := by
  have hSorted := @List.pairwise_mergeSort _ rangeLE
    (by
      intro a b c hab hbc
      simp [rangeLE] at *
      omega)
    (by
      intro a b
      simp [rangeLE]
      omega)
    ranges
  refine hSorted.imp ?_
  intro a b hab
  simp [rangeLE] at hab
  omega

/- Joining ranges makes them separate. -/
theorem separate_merge
    (ranges : List Range) :
    Separate (merge ranges) := by
  refine
    (foldl_absorb_spec _ [] (sorted_mergeSort_rangeLE _) ?_
      ⟨by simp, by simp⟩ (by simp)).1
  intro r hr
  simpa using (List.mem_filter.mp
    (List.mem_mergeSort.mp hr)).2

/- Joining ranges covers what they cover. -/
theorem covers_merge
    (ranges : List Range)
    (c : Nat) :
    Covers (merge ranges) c ↔ Covers ranges c := by
  have hSpec := (foldl_absorb_spec
    ((ranges.filter fun r => r.1 ≤ r.2).mergeSort rangeLE)
    [] (sorted_mergeSort_rangeLE _)
    (by
      intro r hr
      simpa using (List.mem_filter.mp
        (List.mem_mergeSort.mp hr)).2)
    ⟨by simp, by simp⟩ (by simp)).2 c
  have hMerge :
      Covers (merge ranges) c ↔
        Covers
          ((ranges.filter
            fun r => r.1 ≤ r.2).mergeSort rangeLE) c := by
    simpa [merge, Covers] using hSpec
  rw [hMerge]
  constructor
  · rintro ⟨r, hr, hc⟩
    exact ⟨r, (List.mem_filter.mp
      (List.mem_mergeSort.mp hr)).1, hc⟩
  · rintro ⟨r, hr, hc⟩
    refine ⟨r, List.mem_mergeSort.mpr
      (List.mem_filter.mpr ⟨hr, ?_⟩), hc⟩
    simpa using hc.1.trans hc.2

------------------------------------------------------------
-- Gaps
------------------------------------------------------------

theorem covers_complementFrom
    (ranges : List Range)
    (next c : Nat)
    (hRanges : Separate ranges)
    (hBounds : ∀ r ∈ ranges, r.2 ≤ maxUnit)
    (hNext : ∀ r ∈ ranges, next ≤ r.1) :
    Covers (complementFrom next ranges) c ↔
      next ≤ c ∧ c ≤ maxUnit ∧ ¬ Covers ranges c := by
  induction ranges generalizing next with
  | nil =>
      unfold complementFrom
      split <;> simp [Covers]
      omega
  | cons r ranges ih =>
      have hApart := List.pairwise_cons.mp hRanges.apart
      have hFirst : r.1 ≤ r.2 := hRanges.nonempty r (by simp)
      have hBound : r.2 ≤ maxUnit := hBounds r (by simp)
      have hStart : next ≤ r.1 := hNext r (by simp)
      have hRest := ih (r.2 + 1)
        ⟨fun s hs =>
          hRanges.nonempty s (List.mem_cons_of_mem _ hs),
          hApart.2⟩
        (fun s hs => hBounds s (List.mem_cons_of_mem _ hs))
        (fun s hs => (hApart.1 s hs).le)
      have hBeyond : Covers ranges c → r.2 + 1 < c := by
        rintro ⟨s, hs, hLow, -⟩
        exact (hApart.1 s hs).trans_le hLow
      rw [complementFrom, covers_append, hRest, covers_cons]
      have hGap :
          Covers (if next < r.1 then [(next, r.1 - 1)]
            else []) c ↔ next ≤ c ∧ c < r.1 := by
        split <;> simp [Covers] <;> omega
      rw [hGap]
      by_cases hc : Covers ranges c
      · have := hBeyond hc
        simp only [hc, not_true_eq_false, and_false, or_false,
          or_true, iff_false]
        omega
      · simp only [hc, or_false, not_false_eq_true, and_true]
        omega

/- Gaps begin at the given character or later and end in time. -/
theorem mem_complementFrom
    {ranges : List Range}
    {next : Nat}
    {gap : Range}
    (hRanges : Separate ranges)
    (hBounds : ∀ r ∈ ranges, r.2 ≤ maxUnit)
    (hNext : ∀ r ∈ ranges, next ≤ r.1)
    (hGap : gap ∈ complementFrom next ranges) :
    next ≤ gap.1 ∧ gap.1 ≤ gap.2 ∧ gap.2 ≤ maxUnit := by
  induction ranges generalizing next with
  | nil =>
      unfold complementFrom at hGap
      split at hGap
      · next hRoom =>
          rw [List.mem_singleton.mp hGap]
          exact ⟨le_rfl, hRoom, le_rfl⟩
      · cases hGap
  | cons r ranges ih =>
      have hApart := List.pairwise_cons.mp hRanges.apart
      have hFirst : r.1 ≤ r.2 := hRanges.nonempty r (by simp)
      have hBound : r.2 ≤ maxUnit := hBounds r (by simp)
      have hStart : next ≤ r.1 := hNext r (by simp)
      rw [complementFrom, List.mem_append] at hGap
      rcases hGap with hHere | hLater
      · split at hHere
        · next hRoom =>
            rw [List.mem_singleton.mp hHere]
            dsimp only
            omega
        · cases hHere
      · have hRest := ih
          ⟨fun s hs =>
            hRanges.nonempty s (List.mem_cons_of_mem _ hs),
            hApart.2⟩
          (fun s hs => hBounds s (List.mem_cons_of_mem _ hs))
          (fun s hs => (hApart.1 s hs).le) hLater
        omega

/- Between two gaps lies a range that is not empty. -/
theorem separate_complementFrom
    {ranges : List Range}
    {next : Nat}
    (hRanges : Separate ranges)
    (hBounds : ∀ r ∈ ranges, r.2 ≤ maxUnit)
    (hNext : ∀ r ∈ ranges, next ≤ r.1) :
    Separate (complementFrom next ranges) := by
  refine ⟨fun gap hGap =>
    (mem_complementFrom hRanges hBounds hNext hGap).2.1, ?_⟩
  induction ranges generalizing next with
  | nil =>
      unfold complementFrom
      split
      · exact List.pairwise_singleton _ _
      · exact List.Pairwise.nil
  | cons r ranges ih =>
      have hApart := List.pairwise_cons.mp hRanges.apart
      have hFirst : r.1 ≤ r.2 := hRanges.nonempty r (by simp)
      have hRest : Separate ranges :=
        ⟨fun s hs =>
          hRanges.nonempty s (List.mem_cons_of_mem _ hs),
          hApart.2⟩
      have hRestBounds : ∀ s ∈ ranges, s.2 ≤ maxUnit :=
        fun s hs => hBounds s (List.mem_cons_of_mem _ hs)
      have hRestNext : ∀ s ∈ ranges, r.2 + 1 ≤ s.1 :=
        fun s hs => (hApart.1 s hs).le
      rw [complementFrom, List.pairwise_append]
      refine ⟨?_, ih hRest hRestBounds hRestNext, ?_⟩
      · split
        · exact List.pairwise_singleton _ _
        · exact List.Pairwise.nil
      · intro gap hGap later hLater
        have hBeyond := (mem_complementFrom hRest hRestBounds
          hRestNext hLater).1
        split at hGap
        · rw [List.mem_singleton.mp hGap]
          dsimp only
          omega
        · cases hGap

------------------------------------------------------------
-- Canonical form
------------------------------------------------------------

/- What comes after the first range is covered beyond it. -/
theorem Separate.covers_tail
    {r : Range}
    {ranges : List Range}
    (hSeparate : Separate (r :: ranges))
    (c : Nat) :
    Covers ranges c ↔ r.2 + 1 < c ∧ Covers (r :: ranges) c := by
  rw [covers_cons]
  constructor
  · rintro ⟨s, hs, hLow, hHigh⟩
    have hBeyond :=
      (List.pairwise_cons.mp hSeparate.apart).1 s hs
    exact ⟨hBeyond.trans_le hLow, .inr ⟨s, hs, hLow, hHigh⟩⟩
  · rintro ⟨hBeyond, ⟨-, hHigh⟩ | hRest⟩
    · omega
    · exact hRest

/- The first range begins with the first character. -/
theorem Separate.le_of_covers
    {r : Range}
    {ranges : List Range}
    (hSeparate : Separate (r :: ranges))
    {c : Nat}
    (hCovers : Covers (r :: ranges) c) :
    r.1 ≤ c := by
  rcases (covers_cons r ranges c).mp hCovers with hHere | hRest
  · exact hHere.1
  · have hFirst := hSeparate.nonempty r List.mem_cons_self
    have hBeyond := ((hSeparate.covers_tail c).mp hRest).1
    omega

/-
  Separate ranges are a canonical form: those that cover the
  same characters are the same.
-/
theorem Separate.eq_of_covers
    {left right : List Range}
    (hLeft : Separate left)
    (hRight : Separate right)
    (hSame : ∀ c, Covers left c ↔ Covers right c) :
    left = right := by
  induction left generalizing right with
  | nil =>
      cases right with
      | nil => rfl
      | cons b right =>
          have hHere : Covers (b :: right) b.1 :=
            ⟨b, List.mem_cons_self, le_rfl,
              hRight.nonempty b List.mem_cons_self⟩
          rcases (hSame b.1).mpr hHere with ⟨_, hNone, -⟩
          cases hNone
  | cons a left ih =>
      have hFirst := hLeft.nonempty a List.mem_cons_self
      cases right with
      | nil =>
          have hHere : Covers (a :: left) a.1 :=
            ⟨a, List.mem_cons_self, le_rfl, hFirst⟩
          rcases (hSame a.1).mp hHere with ⟨_, hNone, -⟩
          cases hNone
      | cons b right =>
          have hFirst' := hRight.nonempty b List.mem_cons_self
          have hLow : a.1 = b.1 := by
            apply le_antisymm
            · exact hLeft.le_of_covers ((hSame b.1).mpr
                ⟨b, List.mem_cons_self, le_rfl, hFirst'⟩)
            · exact hRight.le_of_covers ((hSame a.1).mp
                ⟨a, List.mem_cons_self, le_rfl, hFirst⟩)
          -- Right behind a range nothing is covered.
          have hEnd : ∀ {r : Range} {ranges : List Range},
              Separate (r :: ranges) → r.1 ≤ r.2 →
                ¬ Covers (r :: ranges) (r.2 + 1) := by
            intro r ranges hSeparate hRange hCovers
            rcases (covers_cons _ _ _).mp hCovers with hHere | hRest
            · omega
            · have := ((hSeparate.covers_tail _).mp hRest).1
              omega
          have hHigh : a.2 = b.2 := by
            apply le_antisymm
            · by_contra hMore
              exact hEnd hRight hFirst' ((hSame _).mp
                ⟨a, List.mem_cons_self, by omega, by omega⟩)
            · by_contra hMore
              exact hEnd hLeft hFirst ((hSame _).mpr
                ⟨b, List.mem_cons_self, by omega, by omega⟩)
          have hTail : left = right := by
            apply ih
              ⟨fun s hs =>
                hLeft.nonempty s (List.mem_cons_of_mem _ hs),
                (List.pairwise_cons.mp hLeft.apart).2⟩
              ⟨fun s hs =>
                hRight.nonempty s (List.mem_cons_of_mem _ hs),
                (List.pairwise_cons.mp hRight.apart).2⟩
            intro c
            rw [hLeft.covers_tail, hRight.covers_tail, hSame,
              hHigh]
          rw [hTail, Prod.ext hLow hHigh]

------------------------------------------------------------
-- Items
------------------------------------------------------------

theorem covers_otherCases
    (r : Range)
    (c : Nat) :
    Covers (otherCases r) c ↔
      ∃ d, (r.1 ≤ d ∧ d ≤ r.2) ∧
        c ∈ (caseVariants d).drop 1 := by
  simp only [Covers, otherCases, List.mem_flatMap,
    List.mem_map, List.mem_range'_1]
  constructor
  · rintro ⟨-, ⟨d, hd, v, hv, rfl⟩, hLow, hHigh⟩
    have hEq : v = c := le_antisymm hLow hHigh
    subst hEq
    exact ⟨d, by omega, hv⟩
  · rintro ⟨d, hd, hc⟩
    exact ⟨(c, c), ⟨d, by omega, c, hc, rfl⟩, le_rfl, le_rfl⟩

theorem holds_iff_itemRange
    (item : CharItem)
    {c : Nat}
    (hUnit : c ≤ maxUnit) :
    item.Holds c ↔
      (itemRange item).1 ≤ c ∧ c ≤ (itemRange item).2 := by
  cases item <;> simp [CharItem.Holds, itemRange] <;> omega

theorem itemRange_le
    (item : CharItem) :
    (itemRange item).2 ≤ maxUnit := by
  cases item <;> simp [itemRange]

/- A unit is itself or one of its other forms. -/
theorem mem_caseVariants_drop
    (c d : Nat) :
    d ∈ caseVariants c ↔
      d = c ∨ d ∈ (caseVariants c).drop 1 := by
  have hHead : ∃ forms, caseVariants c = c :: forms := by
    unfold caseVariants Text.pushNew
    split <;> split <;> simp
  rcases hHead with ⟨forms, hForms⟩
  rw [hForms, List.mem_cons, List.drop_one, List.tail_cons]

/- The range of an item and the case forms of its units. -/
def itemRanges
    (ignoreCase : Bool)
    (item : CharItem) : List Range :=
  itemRange item ::
    (if ignoreCase then otherCases (itemRange item) else [])

theorem itemRanges_le
    (ignoreCase : Bool)
    (item : CharItem)
    {r : Range}
    (hRange : r ∈ itemRanges ignoreCase item) :
    r.2 ≤ maxUnit := by
  rcases List.mem_cons.mp hRange with rfl | hRange
  · exact itemRange_le item
  · split at hRange
    · simp only [otherCases, List.mem_flatMap, List.mem_map,
        List.mem_range'_1] at hRange
      rcases hRange with ⟨d, hd, v, hv, rfl⟩
      refine Text.caseVariants_le (c := d) ?_
        (List.mem_of_mem_drop hv)
      have := itemRange_le item
      omega
    · cases hRange

theorem covers_itemRanges
    (ignoreCase : Bool)
    (item : CharItem)
    {c : Nat}
    (hUnit : c ≤ maxUnit) :
    Covers (itemRanges ignoreCase item) c ↔
      item.Holds c ∨
        (ignoreCase = true ∧
          ∃ d ≤ maxUnit,
            item.Holds d ∧ c ∈ caseVariants d) := by
  rw [itemRanges, covers_cons, ← holds_iff_itemRange _ hUnit]
  have hBound := itemRange_le item
  cases ignoreCase with
  | false => simp [Covers]
  | true =>
      simp only [if_true, true_and, covers_otherCases]
      constructor
      · rintro (hc | ⟨d, hd, hc⟩)
        · exact .inl hc
        · have hdUnit : d ≤ maxUnit := by omega
          exact .inr ⟨d, hdUnit,
            (holds_iff_itemRange item hdUnit).mpr hd,
            List.mem_of_mem_drop hc⟩
      · rintro (hc | ⟨d, hdUnit, hd, hc⟩)
        · exact .inl hc
        · rcases (mem_caseVariants_drop d c).mp hc with
            rfl | hc
          · exact .inl hd
          · exact .inr ⟨d,
              (holds_iff_itemRange item hdUnit).mp hd, hc⟩

theorem covers_flatMap_itemRanges
    (items : List CharItem)
    (ignoreCase : Bool)
    {c : Nat}
    (hUnit : c ≤ maxUnit) :
    Covers (items.flatMap (itemRanges ignoreCase)) c ↔
      InItems ignoreCase items c := by
  unfold InItems
  simp only [← covers_itemRanges ignoreCase _ hUnit]
  simp only [Covers, List.mem_flatMap]
  constructor
  · rintro ⟨r, ⟨item, hItem, hr⟩, hc⟩
    exact ⟨item, hItem, r, hr, hc⟩
  · rintro ⟨item, hItem, r, hr, hc⟩
    exact ⟨r, ⟨item, hItem, hr⟩, hc⟩

theorem covers_of_merge_le
    {items : List CharItem}
    {ignoreCase : Bool}
    {c : Nat}
    (hCovers :
      Covers (items.flatMap (itemRanges ignoreCase)) c) :
    c ≤ maxUnit := by
  rcases hCovers with ⟨r, hr, -, hHigh⟩
  rcases List.mem_flatMap.mp hr with ⟨item, -, hr⟩
  exact hHigh.trans (itemRanges_le ignoreCase item hr)

/-
  The last unit of a separate range is covered, so a bound on
  the covered units bounds the ranges.
-/
theorem merge_le
    {items : List CharItem}
    {ignoreCase : Bool}
    {r : Range}
    (hRange :
      r ∈ merge (items.flatMap (itemRanges ignoreCase))) :
    r.2 ≤ maxUnit := by
  have hNonempty := (separate_merge _).nonempty r hRange
  have hCovers :
      Covers (merge (items.flatMap (itemRanges ignoreCase)))
        r.2 :=
    ⟨r, hRange, hNonempty, le_rfl⟩
  rw [covers_merge] at hCovers
  exact covers_of_merge_le hCovers

/- The ranges of a character list cover exactly its units. -/
theorem covers_ofItems
    (negated : Bool)
    (items : List CharItem)
    (ignoreCase : Bool)
    (c : Nat) :
    Covers (ofItems negated items ignoreCase) c ↔
      InList negated items ignoreCase c := by
  unfold InList
  change
    Covers
      (if negated then
        complement
          (merge (items.flatMap (itemRanges ignoreCase)))
      else
        merge (items.flatMap (itemRanges ignoreCase))) c ↔ _
  cases negated with
  | false =>
      simp only [Bool.false_eq_true, if_false, covers_merge,
        iff_true]
      constructor
      · intro hc
        have hUnit := covers_of_merge_le hc
        exact ⟨hUnit,
          (covers_flatMap_itemRanges _ _ hUnit).mp hc⟩
      · rintro ⟨hUnit, hc⟩
        exact (covers_flatMap_itemRanges _ _ hUnit).mpr hc
  | true =>
      simp only [if_true, Bool.true_eq_false, iff_false]
      rw [complement, covers_complementFrom _ _ _
        (separate_merge _) (fun r hr => merge_le hr)
        (fun r _ => Nat.zero_le _), covers_merge]
      constructor
      · rintro ⟨-, hUnit, hc⟩
        exact ⟨hUnit, fun hIn =>
          hc ((covers_flatMap_itemRanges _ _ hUnit).mpr hIn)⟩
      · rintro ⟨hUnit, hc⟩
        exact ⟨Nat.zero_le _, hUnit, fun hIn =>
          hc ((covers_flatMap_itemRanges _ _ hUnit).mp hIn)⟩

/- The ranges of a character list are separate. -/
theorem separate_ofItems
    (negated : Bool)
    (items : List CharItem)
    (ignoreCase : Bool) :
    Separate (ofItems negated items ignoreCase) := by
  change Separate
    (if negated then
      complement
        (merge (items.flatMap (itemRanges ignoreCase)))
    else
      merge (items.flatMap (itemRanges ignoreCase)))
  cases negated with
  | false => exact separate_merge _
  | true =>
      exact separate_complementFrom (separate_merge _)
        (fun _ hRange => merge_le hRange)
        (fun _ _ => Nat.zero_le _)

/-
  The ranges of a character list are the canonical form of its
  set.  They ascend, are not empty, neither overlap nor touch,
  and lie within the 16-bit range; they cover a unit exactly if
  an item holds it, or a character of which it is a case form,
  or exactly if none does for a negated list; and no other
  ranges in this form cover the same units.
-/
theorem ofItems_canonical
    (negated : Bool)
    (items : List CharItem)
    (ignoreCase : Bool) :
    Separate (ofItems negated items ignoreCase) ∧
      (∀ r ∈ ofItems negated items ignoreCase,
        r.2 ≤ maxUnit) ∧
      (∀ c ≤ maxUnit,
        Covers (ofItems negated items ignoreCase) c ↔
          (negated = true ↔ ¬ ∃ item ∈ items,
            item.Holds c ∨ ignoreCase = true ∧
              ∃ d ≤ maxUnit,
                item.Holds d ∧ c ∈ caseVariants d)) ∧
      ∀ ranges, Separate ranges →
        (∀ c, Covers ranges c ↔
          Covers (ofItems negated items ignoreCase) c) →
        ranges = ofItems negated items ignoreCase := by
  have hSeparate := separate_ofItems negated items ignoreCase
  refine ⟨hSeparate, ?_, ?_, fun ranges hRanges hSame =>
    hRanges.eq_of_covers hSeparate hSame⟩
  · intro r hr
    have hCovers : Covers (ofItems negated items ignoreCase)
        r.2 :=
      ⟨r, hr, hSeparate.nonempty r hr, le_rfl⟩
    exact ((covers_ofItems _ _ _ _).mp hCovers).1
  · intro c hUnit
    rw [covers_ofItems, InList, and_iff_right hUnit]
    change (InItems ignoreCase items c ↔ negated = false) ↔
      (negated = true ↔ ¬ InItems ignoreCase items c)
    cases negated with
    | false => simp
    | true => simp

/- An inverted range holds nothing, and touching ones are joined. -/
example :
    ofItems true [.range 0x62 0x64, .range 0x7a 0x61, .single 0x65,
        .range 0x66 0x10000] false =
      [(0, 0x61)] := by
  cbv

end CharRanges

end Descent
