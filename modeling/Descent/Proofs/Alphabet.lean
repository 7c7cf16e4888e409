import Descent.Automaton.Alphabet
import Descent.Proofs.Path

/-
  Characters of one class do the same in an automaton.

  Between two neighbouring cuts no move begins or ends, so a
  character moves every state to where the cut at or before
  it does; and a cut is put into the class of a character with
  the same signature.

  Main declarations:
    * `Alphabet.mem_sortUnique`
    * `Alphabet.mem_targets_of_signature`
    * `Alphabet.classify_ofNfa`
-/

------------------------------------------------------------
-- Sorting
------------------------------------------------------------

namespace Descent

namespace Alphabet

open Text (maxUnit)

/- Put a number in front of a list that does not begin with it. -/
def keepNew
    (acc : List Nat)
    (x : Nat) : List Nat :=
  if acc.head? = some x then acc else x :: acc

theorem mem_keepNew
    (acc : List Nat)
    (x y : Nat) :
    y ∈ keepNew acc x ↔ y = x ∨ y ∈ acc := by
  unfold keepNew
  split
  · next hHead =>
      have hMem : x ∈ acc := List.mem_of_mem_head? hHead
      constructor
      · intro hy
        exact .inr hy
      · rintro (rfl | hy)
        · exact hMem
        · exact hy
  · rw [List.mem_cons]

theorem mem_foldl_keepNew
    (xs acc : List Nat)
    (y : Nat) :
    y ∈ xs.foldl keepNew acc ↔ y ∈ acc ∨ y ∈ xs := by
  induction xs generalizing acc with
  | nil => simp
  | cons x xs ih =>
      rw [List.foldl_cons, ih, mem_keepNew, List.mem_cons]
      tauto

/- Numbers that do not go down are kept in strict order. -/
theorem pairwise_foldl_keepNew
    (xs acc : List Nat)
    (hSorted : xs.Pairwise (· ≤ ·))
    (hAcc : acc.Pairwise (· > ·))
    (hLow : ∀ a ∈ acc, ∀ x ∈ xs, a ≤ x) :
    (xs.foldl keepNew acc).Pairwise (· > ·) := by
  induction xs generalizing acc with
  | nil => exact hAcc
  | cons x xs ih =>
      rw [List.pairwise_cons] at hSorted
      rw [List.foldl_cons]
      refine ih _ hSorted.2 ?_ ?_
      · unfold keepNew
        split
        · exact hAcc
        · next hHead =>
            refine List.pairwise_cons.mpr ⟨?_, hAcc⟩
            intro a ha
            have hLe := hLow a ha x List.mem_cons_self
            refine lt_of_le_of_ne hLe ?_
            rintro rfl
            cases acc with
            | nil => cases ha
            | cons b acc =>
                rcases List.mem_cons.mp ha with rfl | ha
                · exact hHead rfl
                · have hGreater :=
                    (List.pairwise_cons.mp hAcc).1 a ha
                  have hLess := hLow b List.mem_cons_self a
                    List.mem_cons_self
                  omega
      · intro a ha y hy
        rcases (mem_keepNew acc x a).mp ha with rfl | ha
        · exact hSorted.1 y hy
        · exact hLow a ha y (List.mem_cons_of_mem _ hy)

theorem sortUnique_eq
    (xs : List Nat) :
    sortUnique xs =
      ((xs.mergeSort (· ≤ ·)).foldl keepNew []).reverse :=
  rfl

theorem mem_sortUnique
    (xs : List Nat)
    (y : Nat) :
    y ∈ sortUnique xs ↔ y ∈ xs := by
  rw [sortUnique_eq, List.mem_reverse, mem_foldl_keepNew,
    List.mem_mergeSort]
  simp

theorem pairwise_sortUnique
    (xs : List Nat) :
    (sortUnique xs).Pairwise (· < ·) := by
  rw [sortUnique_eq, List.pairwise_reverse]
  refine pairwise_foldl_keepNew _ _ ?_ .nil ?_
  · have hSorted := @List.pairwise_mergeSort Nat
      (fun a b => decide (a ≤ b))
      (fun a b c hab hbc => decide_eq_true
        ((of_decide_eq_true hab).trans (of_decide_eq_true hbc)))
      (fun a b => by
        rw [Bool.or_eq_true, decide_eq_true_eq,
          decide_eq_true_eq]
        exact le_total a b) xs
    exact hSorted.imp of_decide_eq_true
  · intro a ha
    cases ha

------------------------------------------------------------
-- Signatures
------------------------------------------------------------

theorem mem_signature
    (m : Nfa)
    (c q : Nat)
    (targets : List Nat) :
    (q, targets) ∈ signature m c ↔
      q < m.states.size ∧ targets ≠ [] ∧
        sortUnique (m.targets q c) = targets := by
  unfold signature
  rw [List.mem_filterMap]
  constructor
  · rintro ⟨r, hr, hEntry⟩
    rw [List.mem_range] at hr
    split at hEntry
    · cases hEntry
    · next hNe =>
        cases hEntry
        exact ⟨hr, hNe, rfl⟩
  · rintro ⟨hq, hNe, rfl⟩
    refine ⟨q, List.mem_range.mpr hq, ?_⟩
    split
    · next hNil => exact absurd hNil hNe
    · rfl

/- A state that is not there has no targets. -/
theorem lt_size_of_mem_targets
    {m : Nfa}
    {q c t : Nat}
    (hTarget : t ∈ m.targets q c) :
    q < m.states.size := by
  by_contra hBeyond
  unfold Nfa.targets at hTarget
  rw [Nfa.state_of_size_le (not_lt.mp hBeyond)] at hTarget
  cases hTarget

/- Characters with one signature have the same targets. -/
theorem mem_targets_of_signature
    {m : Nfa}
    {c d : Nat}
    (hSame : signature m c = signature m d)
    {q t : Nat}
    (hTarget : t ∈ m.targets q c) :
    t ∈ m.targets q d := by
  have hMem : t ∈ sortUnique (m.targets q c) :=
    (mem_sortUnique _ t).mpr hTarget
  have hEntry :
      (q, sortUnique (m.targets q c)) ∈ signature m c := by
    refine (mem_signature m c q _).mpr
      ⟨lt_size_of_mem_targets hTarget, ?_, rfl⟩
    exact List.ne_nil_of_mem hMem
  rw [hSame, mem_signature] at hEntry
  rw [← hEntry.2.2] at hMem
  exact (mem_sortUnique _ t).mp hMem

------------------------------------------------------------
-- Cuts
------------------------------------------------------------

theorem mem_cuts
    (m : Nfa)
    (c : Nat) :
    c ∈ cuts m ↔
      c = 0 ∨ ∃ s ∈ m.states.toList, ∃ e ∈ s.moves,
        c = e.1.bounds.1 ∨
          (e.1.bounds.2 < maxUnit ∧
            c = e.1.bounds.2 + 1) := by
  unfold cuts
  rw [mem_sortUnique, List.mem_cons]
  refine or_congr_right ?_
  simp only [List.mem_flatMap]
  refine exists_congr fun s => and_congr_right fun hs => ?_
  refine exists_congr fun e => and_congr_right fun he => ?_
  split <;> simp_all

theorem zero_mem_cuts
    (m : Nfa) :
    0 ∈ cuts m :=
  (mem_cuts m 0).mpr (.inl rfl)

/- A character does what the cut at or before it does. -/
theorem targets_eq_of_cut
    {m : Nfa}
    {c p : Nat}
    (hUnit : c ≤ maxUnit)
    (hBefore : p ≤ c)
    (hLast : ∀ d ∈ cuts m, d ≤ c → d ≤ p)
    (q : Nat) :
    m.targets q c = m.targets q p := by
  unfold Nfa.targets
  refine List.filterMap_congr ?_
  intro e he
  have hInside : q < m.states.size := by
    by_contra hBeyond
    rw [Nfa.state_of_size_le (not_lt.mp hBeyond)] at he
    cases he
  have hState : m.state q ∈ m.states.toList := by
    unfold Nfa.state
    rw [Array.getD_eq_getD_getElem?,
      Array.getElem?_eq_getElem hInside]
    exact Array.getElem_mem_toList hInside
  have hLow := hLast e.1.bounds.1
    ((mem_cuts m _).mpr
      (.inr ⟨_, hState, e, he, .inl rfl⟩))
  have hHigh : e.1.bounds.2 < maxUnit →
      e.1.bounds.2 + 1 ≤ c → e.1.bounds.2 + 1 ≤ p :=
    fun hEnd => hLast _ ((mem_cuts m _).mpr
      (.inr ⟨_, hState, e, he, .inr ⟨hEnd, rfl⟩⟩))
  have hSame : e.1.contains c = e.1.contains p := by
    rw [Bool.eq_iff_iff]
    simp only [CharClass.contains, Bool.and_eq_true,
      decide_eq_true_eq]
    constructor
    · rintro ⟨hLo, hHi⟩
      exact ⟨hLow hLo, hBefore.trans hHi⟩
    · rintro ⟨hLo, hHi⟩
      refine ⟨hLo.trans hBefore, ?_⟩
      by_contra hAfter
      have hEnd := hHigh (by omega) (by omega)
      omega
  simp only [hSame]

------------------------------------------------------------
-- Classes
------------------------------------------------------------

/- The class of a character is that of the last piece before it. -/
theorem classOf_spec
    (c : Nat)
    (best : ClassId)
    (pieces : List (Nat × ClassId))
    (hSorted : (pieces.map (·.1)).Pairwise (· < ·)) :
    ((∀ e ∈ pieces, c < e.1) ∧
        classOf c best pieces = best) ∨
      ∃ e ∈ pieces, e.1 ≤ c ∧
        classOf c best pieces = e.2 ∧
        ∀ e' ∈ pieces, e'.1 ≤ c → e'.1 ≤ e.1 := by
  induction pieces generalizing best with
  | nil =>
      left
      exact ⟨fun e he => (List.not_mem_nil he).elim, rfl⟩
  | cons first pieces ih =>
      rcases first with ⟨start, cls⟩
      rw [List.map_cons, List.pairwise_cons] at hSorted
      have hLater : ∀ e ∈ pieces, start < e.1 := by
        intro e he
        exact hSorted.1 e.1 (List.mem_map_of_mem he)
      unfold classOf
      by_cases hStart : start ≤ c
      · rw [if_pos hStart]
        right
        rcases ih cls hSorted.2 with
          ⟨hNone, hClass⟩ | ⟨e, he, hLe, hClass, hLast⟩
        · refine ⟨(start, cls), List.mem_cons_self, hStart,
            hClass, ?_⟩
          intro e' he' hLe'
          rcases List.mem_cons.mp he' with rfl | he'
          · exact le_rfl
          · exact absurd hLe' (not_le.mpr (hNone e' he'))
        · refine ⟨e, List.mem_cons_of_mem _ he, hLe, hClass, ?_⟩
          intro e' he' hLe'
          rcases List.mem_cons.mp he' with rfl | he'
          · exact (hLater e he).le
          · exact hLast e' he' hLe'
      · rw [if_neg hStart]
        left
        refine ⟨?_, rfl⟩
        intro e he
        rcases List.mem_cons.mp he with rfl | he
        · exact not_le.mp hStart
        · exact (not_le.mp hStart).trans (hLater e he)

/- The character that stands for a class. -/
def representative
    (reps : Array Nat)
    (cls : ClassId) : Nat :=
  reps.getD cls 0

/- Classes in the making hold some characters. -/
structure Sorting.Holds
    (m : Nfa)
    (s : Sorting)
    (placed : List Nat) : Prop where
  sizes : s.signatures.size = s.representatives.size
  signatures :
    ∀ cls sig, s.signatures[cls]? = some sig →
      sig = signature m (representative s.representatives cls)
  starts : s.pieces.map (·.1) = placed.reverse
  classes :
    ∀ e ∈ s.pieces, e.2 < s.representatives.size ∧
      signature m e.1 =
        signature m (representative s.representatives e.2)

theorem representative_push
    (reps : Array Nat)
    (c : Nat)
    {cls : Nat}
    (hInside : cls < reps.size) :
    representative (reps.push c) cls =
      representative reps cls := by
  unfold representative
  rw [Array.getD_eq_getD_getElem?, Array.getD_eq_getD_getElem?,
    Array.getElem?_push_lt hInside,
    Array.getElem?_eq_getElem hInside]

theorem representative_push_size
    (reps : Array Nat)
    (c : Nat) :
    representative (reps.push c) reps.size = c := by
  simp [representative, Array.getD_eq_getD_getElem?]

theorem Sorting.Holds.place
    {m : Nfa}
    {s : Sorting}
    {placed : List Nat}
    (hHolds : s.Holds m placed)
    (c : Nat) :
    (s.place c (signature m c)).Holds m (placed ++ [c]) := by
  unfold Sorting.place
  split
  · next cls hFound =>
      rcases Array.findIdx?_eq_some_iff_getElem.mp hFound with
        ⟨hInside, hEq, -⟩
      have hSig := hHolds.signatures cls _
        (Array.getElem?_eq_getElem hInside)
      rw [beq_iff_eq] at hEq
      refine ⟨hHolds.sizes, hHolds.signatures, ?_, ?_⟩
      · rw [List.map_cons, hHolds.starts, List.reverse_append]
        rfl
      · intro e he
        rcases List.mem_cons.mp he with rfl | he
        · exact ⟨hHolds.sizes ▸ hInside, hEq ▸ hSig⟩
        · exact hHolds.classes e he
  · next hNew =>
      have hSizes := hHolds.sizes
      refine ⟨?_, ?_, ?_, ?_⟩
      · simp only [Array.size_push, hSizes]
      · intro cls sig hSig
        rw [Array.getElem?_push] at hSig
        split at hSig
        · next hLast =>
            cases hSig
            rw [hLast, hSizes, representative_push_size]
        · have hInside : cls < s.signatures.size := by
            exact (Array.getElem?_eq_some_iff.mp hSig).1
          rw [representative_push _ _ (hSizes ▸ hInside)]
          exact hHolds.signatures cls sig hSig
      · rw [List.map_cons, hHolds.starts, List.reverse_append]
        rfl
      · intro e he
        rw [Array.size_push]
        rcases List.mem_cons.mp he with rfl | he
        · refine ⟨hSizes.trans_lt (Nat.lt_succ_self _), ?_⟩
          rw [hSizes, representative_push_size]
        · rcases hHolds.classes e he with ⟨hInside, hEq⟩
          refine ⟨hInside.trans (Nat.lt_succ_self _), ?_⟩
          rw [representative_push _ _ hInside]
          exact hEq

theorem Sorting.Holds.foldl
    {m : Nfa}
    (cs : List Nat)
    {s : Sorting}
    {placed : List Nat}
    (hHolds : s.Holds m placed) :
    (cs.foldl (fun s c => s.place c (signature m c)) s).Holds
      m (placed ++ cs) := by
  induction cs generalizing s placed with
  | nil =>
      rw [List.append_nil]
      exact hHolds
  | cons c cs ih =>
      have hNext := ih (hHolds.place c)
      rwa [List.append_assoc] at hNext

theorem Sorting.holds_empty
    (m : Nfa) :
    ({} : Sorting).Holds m [] := by
  constructor
  · rfl
  · intro cls sig hSig
    cases hSig
  · rfl
  · intro e he
    cases he

/- The classes of an automaton in the making. -/
def sorting
    (m : Nfa) : Sorting :=
  (cuts m).foldl (fun s c => s.place c (signature m c)) {}

theorem holds_sorting
    (m : Nfa) :
    (sorting m).Holds m (cuts m) := by
  have hHolds := (Sorting.holds_empty m).foldl (cuts m)
  rwa [List.nil_append] at hHolds

theorem pieces_ofNfa
    (m : Nfa) :
    (ofNfa m).pieces = (sorting m).pieces.reverse :=
  rfl

/- The pieces start at the cuts. -/
theorem starts_ofNfa
    (m : Nfa) :
    (ofNfa m).pieces.map (·.1) = cuts m := by
  rw [pieces_ofNfa, List.map_reverse,
    (holds_sorting m).starts, List.reverse_reverse]

theorem pairwise_starts
    (m : Nfa) :
    ((ofNfa m).pieces.map (·.1)).Pairwise (· < ·) := by
  rw [starts_ofNfa]
  exact pairwise_sortUnique _

/- A unit has the class of the last piece before it. -/
theorem exists_piece_of_classify
    (m : Nfa)
    {c : Nat}
    (hUnit : c ≤ maxUnit) :
    ∃ e ∈ (ofNfa m).pieces,
      e.1 ≤ c ∧
        (ofNfa m).classify c = e.2 ∧
        ∀ d ∈ cuts m, d ≤ c → d ≤ e.1 := by
  have hClassify : (ofNfa m).classify c =
      classOf c 0 (ofNfa m).pieces := by
    unfold classify
    rw [min_eq_left hUnit]
  have hMem : ∀ d ∈ cuts m,
      ∃ e ∈ (ofNfa m).pieces, e.1 = d := by
    intro d hd
    rw [← starts_ofNfa] at hd
    exact List.mem_map.mp hd
  rcases classOf_spec c 0 _ (pairwise_starts m) with
    ⟨hNone, -⟩ | ⟨e, he, hLe, hClass, hLast⟩
  · rcases hMem 0 (zero_mem_cuts m) with ⟨e, he, hZero⟩
    have hLess := hNone e he
    omega
  · refine ⟨e, he, hLe, hClassify.trans hClass, ?_⟩
    intro d hd hdc
    rcases hMem d hd with ⟨e', he', rfl⟩
    exact hLast e' he' hdc

/- A class is there, and its representative is like its units. -/
theorem signature_classify
    (m : Nfa)
    {c : Nat}
    (hUnit : c ≤ maxUnit) :
    (ofNfa m).classify c < (ofNfa m).numClasses ∧
      signature m c =
        signature m
          (representative (ofNfa m).representatives
            ((ofNfa m).classify c)) := by
  rcases exists_piece_of_classify m hUnit with
    ⟨e, he, hLe, hClass, hLast⟩
  rw [pieces_ofNfa, List.mem_reverse] at he
  rcases (holds_sorting m).classes e he with
    ⟨hInside, hPiece⟩
  have hTargets : ∀ q, m.targets q c = m.targets q e.1 :=
    targets_eq_of_cut hUnit hLe hLast
  have hCut : signature m c = signature m e.1 := by
    unfold signature
    simp only [hTargets]
  rw [hClass, hCut]
  exact ⟨hInside, hPiece⟩

/-
  The class of a unit has a representative that moves every
  state to the same targets as the unit.
-/
theorem classify_ofNfa
    (m : Nfa)
    {c : Nat}
    (hUnit : c ≤ maxUnit) :
    (ofNfa m).classify c < (ofNfa m).numClasses ∧
      ∀ q t,
        t ∈ m.targets q
            (representative (ofNfa m).representatives
              ((ofNfa m).classify c)) ↔
          t ∈ m.targets q c := by
  rcases signature_classify m hUnit with ⟨hInside, hSame⟩
  refine ⟨hInside, ?_⟩
  intro q t
  constructor
  · exact mem_targets_of_signature hSame.symm
  · exact mem_targets_of_signature hSame

end Alphabet

end Descent
