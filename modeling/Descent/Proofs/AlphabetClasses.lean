import Descent.Proofs.Alphabet
import Mathlib.Data.List.Nodup
import Mathlib.Data.List.Perm.Basic

/-
  Characters that do the same are of one class.

  The classes in the making have different signatures, and
  each of them begins with its representative.  So the classes
  of an alphabet are exactly the characters that an automaton
  does not tell apart, and its intervals are those classes,
  piece by piece.

  Main declarations:
    * `Alphabet.signature_eq_iff`
    * `Alphabet.Tiles`
    * `Alphabet.ofNfa_exact`
-/

namespace Descent

namespace Alphabet

open Text (maxUnit)

------------------------------------------------------------
-- Signatures
------------------------------------------------------------

/- Sorted numbers are the same when their members are. -/
theorem sortUnique_congr
    {xs ys : List Nat}
    (hSame : ∀ x, x ∈ xs ↔ x ∈ ys) :
    sortUnique xs = sortUnique ys := by
  have hNodup : ∀ zs : List Nat, (sortUnique zs).Nodup := by
    intro zs
    exact (pairwise_sortUnique zs).imp Nat.ne_of_lt
  have hPerm : (sortUnique xs).Perm (sortUnique ys) := by
    rw [List.perm_ext_iff_of_nodup (hNodup xs) (hNodup ys)]
    intro x
    rw [mem_sortUnique, mem_sortUnique]
    exact hSame x
  exact hPerm.eq_of_pairwise
    (fun a b _ _ hLess hMore => absurd hMore (Nat.lt_asymm hLess))
    (pairwise_sortUnique xs) (pairwise_sortUnique ys)

/- A signature says what a character does. -/
theorem signature_eq_iff
    (m : Nfa)
    (c d : Nat) :
    signature m c = signature m d ↔
      ∀ q t, t ∈ m.targets q c ↔ t ∈ m.targets q d := by
  constructor
  · intro hSame q t
    constructor
    · exact mem_targets_of_signature hSame
    · exact mem_targets_of_signature hSame.symm
  · intro hSame
    unfold signature
    simp only [fun q => sortUnique_congr (hSame q)]

------------------------------------------------------------
-- Classes in the making
------------------------------------------------------------

/-
  Classes in the making have different signatures, and their
  representatives are of their own class.
-/
structure Sorting.Apart
    (s : Sorting) : Prop where
  distinct :
    ∀ (i j : Nat) (sig : Signature),
      s.signatures[i]? = some sig →
        s.signatures[j]? = some sig → i = j
  own :
    ∀ (cls rep : Nat), s.representatives[cls]? = some rep →
      (rep, cls) ∈ s.pieces

theorem Sorting.apart_empty :
    ({} : Sorting).Apart := by
  constructor
  · intro i j sig hi
    cases hi
  · intro cls rep hRep
    cases hRep

theorem Sorting.Apart.place
    {s : Sorting}
    (hApart : s.Apart)
    (hSizes : s.signatures.size = s.representatives.size)
    (c : Nat)
    (sig : Signature) :
    (s.place c sig).Apart := by
  unfold Sorting.place
  split
  · refine ⟨hApart.distinct, ?_⟩
    intro cls rep hRep
    exact List.mem_cons_of_mem _ (hApart.own cls rep hRep)
  · next hNew =>
      have hOther : ∀ i : Nat,
          s.signatures[i]? ≠ some sig := by
        intro i hi
        have hFresh := Array.findIdx?_eq_none_iff.mp hNew sig
          (Array.mem_of_getElem? hi)
        rw [beq_self_eq_true] at hFresh
        exact Bool.noConfusion hFresh
      constructor
      · intro i j other hi hj
        rw [Array.getElem?_push] at hi hj
        split at hi
        · next hLast =>
            cases hi
            split at hj
            · next hSame => exact hLast.trans hSame.symm
            · exact absurd hj (hOther j)
        · split at hj
          · cases hj
            exact absurd hi (hOther i)
          · exact hApart.distinct i j other hi hj
      · intro cls rep hRep
        rw [Array.getElem?_push] at hRep
        split at hRep
        · next hLast =>
            cases hRep
            rw [hLast, hSizes]
            exact List.mem_cons_self
        · exact List.mem_cons_of_mem _
            (hApart.own cls rep hRep)

theorem apart_foldl
    {m : Nfa}
    (cs : List Nat)
    {s : Sorting}
    {placed : List Nat}
    (hHolds : s.Holds m placed)
    (hApart : s.Apart) :
    (cs.foldl (fun s c => s.place c (signature m c)) s).Apart := by
  induction cs generalizing s placed with
  | nil => exact hApart
  | cons c cs ih =>
      exact ih (hHolds.place c) (hApart.place hHolds.sizes c _)

theorem apart_sorting
    (m : Nfa) :
    (sorting m).Apart :=
  apart_foldl (cuts m) (Sorting.holds_empty m)
    Sorting.apart_empty

------------------------------------------------------------
-- Intervals
------------------------------------------------------------

/-
  Intervals that are not empty, one behind the other, from a
  first character to a last one.
-/
def Tiles
    (first last : Nat) : List (Nat × Nat × ClassId) → Prop
  | [] => False
  | [(lo, hi, _)] => lo = first ∧ hi = last ∧ lo ≤ hi
  | (lo, hi, _) :: next :: rest =>
      lo = first ∧ lo ≤ hi ∧
        Tiles (hi + 1) last (next :: rest)

theorem Tiles.covers
    {first last : Nat}
    {intervals : List (Nat × Nat × ClassId)}
    (hTiles : Tiles first last intervals)
    {c : Nat}
    (hFirst : first ≤ c)
    (hLast : c ≤ last) :
    ∃ e ∈ intervals, e.1 ≤ c ∧ c ≤ e.2.1 := by
  induction intervals generalizing first with
  | nil => exact hTiles.elim
  | cons e intervals ih =>
      rcases e with ⟨lo, hi, cls⟩
      cases intervals with
      | nil =>
          rcases hTiles with ⟨rfl, rfl, -⟩
          exact ⟨_, List.mem_cons_self, hFirst, hLast⟩
      | cons next rest =>
          rcases hTiles with ⟨rfl, -, hRest⟩
          by_cases hInside : c ≤ hi
          · exact ⟨_, List.mem_cons_self, hFirst, hInside⟩
          · rcases ih hRest (Nat.lt_of_not_le hInside) with
              ⟨e, he, hBounds⟩
            exact ⟨e, List.mem_cons_of_mem _ he, hBounds⟩

/- No interval is empty, and none ends behind the last one. -/
theorem Tiles.bounds
    {first last : Nat}
    {intervals : List (Nat × Nat × ClassId)}
    (hTiles : Tiles first last intervals) :
    ∀ e ∈ intervals,
      first ≤ e.1 ∧ e.1 ≤ e.2.1 ∧ e.2.1 ≤ last := by
  induction intervals generalizing first with
  | nil => exact hTiles.elim
  | cons e intervals ih =>
      rcases e with ⟨lo, hi, cls⟩
      cases intervals with
      | nil =>
          rcases hTiles with ⟨rfl, rfl, hLe⟩
          intro e he
          rw [List.mem_singleton.mp he]
          exact ⟨le_rfl, hLe, le_rfl⟩
      | cons next rest =>
          rcases hTiles with ⟨rfl, hLe, hRest⟩
          have hBounds := ih hRest
          have hNext := hBounds next List.mem_cons_self
          intro e he
          rcases List.mem_cons.mp he with rfl | he
          · refine ⟨le_rfl, hLe, ?_⟩
            show hi ≤ last
            omega
          · have hLater := hBounds e he
            exact ⟨by omega, hLater.2⟩

/- The intervals of pieces begin and are classed like them. -/
theorem mem_pieces_of_intervalsOf
    {pieces : List (Nat × ClassId)}
    {e : Nat × Nat × ClassId}
    (he : e ∈ intervalsOf pieces) :
    (e.1, e.2.2) ∈ pieces := by
  induction pieces with
  | nil => cases he
  | cons piece pieces ih =>
      cases pieces with
      | nil =>
          rw [List.mem_singleton.mp he]
          exact List.mem_cons_self
      | cons next rest =>
          rcases List.mem_cons.mp he with rfl | he
          · exact List.mem_cons_self
          · exact List.mem_cons_of_mem _ (ih he)

theorem tiles_intervalsOf
    (start : Nat)
    (cls : ClassId)
    (pieces : List (Nat × ClassId))
    (hSorted :
      (((start, cls) :: pieces).map (·.1)).Pairwise (· < ·))
    (hUnits : ∀ e ∈ (start, cls) :: pieces, e.1 ≤ maxUnit) :
    Tiles start maxUnit
      (intervalsOf ((start, cls) :: pieces)) := by
  induction pieces generalizing start cls with
  | nil =>
      exact ⟨rfl, rfl, hUnits _ List.mem_cons_self⟩
  | cons next rest ih =>
      rw [List.map_cons, List.pairwise_cons] at hSorted
      have hLess : start < next.1 :=
        hSorted.1 _ List.mem_cons_self
      have hRest := ih next.1 next.2 hSorted.2
        (fun e he => hUnits e (List.mem_cons_of_mem _ he))
      have hEnd : next.1 - 1 + 1 = next.1 :=
        Nat.sub_add_cancel (Nat.one_le_of_lt hLess)
      cases rest with
      | nil =>
          refine ⟨rfl, Nat.le_sub_one_of_lt hLess, ?_⟩
          rw [hEnd]
          exact hRest
      | cons e rest =>
          refine ⟨rfl, Nat.le_sub_one_of_lt hLess, ?_⟩
          rw [hEnd]
          exact hRest

/- A character of an interval has its class. -/
theorem classOf_of_intervalsOf
    (c : Nat)
    (best : ClassId)
    (pieces : List (Nat × ClassId))
    (hSorted : (pieces.map (·.1)).Pairwise (· < ·))
    {e : Nat × Nat × ClassId}
    (he : e ∈ intervalsOf pieces)
    (hFirst : e.1 ≤ c)
    (hLast : c ≤ e.2.1) :
    classOf c best pieces = e.2.2 := by
  induction pieces generalizing best with
  | nil => cases he
  | cons piece pieces ih =>
      rcases piece with ⟨start, cls⟩
      cases pieces with
      | nil =>
          cases List.mem_singleton.mp he
          exact if_pos hFirst
      | cons next rest =>
          rw [List.map_cons, List.pairwise_cons] at hSorted
          unfold classOf
          rcases List.mem_cons.mp he with rfl | he
          · have hLess : start < next.1 :=
              hSorted.1 _ List.mem_cons_self
            have hNext : ¬next.1 ≤ c := by
              change c ≤ next.1 - 1 at hLast
              omega
            rw [if_pos hFirst]
            exact if_neg hNext
          · have hLess : start < e.1 := by
              apply hSorted.1
              exact List.mem_map_of_mem
                (mem_pieces_of_intervalsOf he)
            rw [if_pos (by omega)]
            exact ih cls hSorted.2 he

------------------------------------------------------------
-- The alphabet of an automaton
------------------------------------------------------------

section Automaton

variable (m : Nfa)

/- The moves of an automaton are ranges of units. -/
def UnitRanges : Prop :=
  ∀ s ∈ m.states.toList, ∀ e ∈ s.moves,
    e.1.bounds.1 ≤ e.1.bounds.2 ∧ e.1.bounds.2 ≤ maxUnit

variable {m}

theorem le_maxUnit_of_mem_cuts
    (hRanges : UnitRanges m)
    {c : Nat}
    (hc : c ∈ cuts m) :
    c ≤ maxUnit := by
  rcases (mem_cuts m c).mp hc with
    rfl | ⟨s, hs, e, he, rfl | ⟨hLess, rfl⟩⟩
  · exact Nat.zero_le _
  · have hBounds := hRanges s hs e he
    exact hBounds.1.trans hBounds.2
  · exact hLess

theorem le_maxUnit_of_mem_pieces
    (hRanges : UnitRanges m)
    {e : Nat × ClassId}
    (he : e ∈ (ofNfa m).pieces) :
    e.1 ≤ maxUnit := by
  apply le_maxUnit_of_mem_cuts hRanges
  rw [← starts_ofNfa]
  exact List.mem_map_of_mem he

/- The intervals cover the units, one behind the other. -/
theorem tiles_ofNfa
    (hRanges : UnitRanges m) :
    Tiles 0 maxUnit (ofNfa m).intervals := by
  have hSorted := pairwise_starts m
  have hUnits : ∀ e ∈ (ofNfa m).pieces, e.1 ≤ maxUnit :=
    fun e he => le_maxUnit_of_mem_pieces hRanges he
  have hZero : ∃ e ∈ (ofNfa m).pieces, e.1 = 0 := by
    rw [← List.mem_map, starts_ofNfa]
    exact zero_mem_cuts m
  unfold intervals
  cases hPieces : (ofNfa m).pieces with
  | nil =>
      rw [hPieces] at hZero
      rcases hZero with ⟨e, he, -⟩
      cases he
  | cons first pieces =>
      rcases first with ⟨start, cls⟩
      rw [hPieces] at hSorted hUnits hZero
      have hStart : start = 0 := by
        rcases hZero with ⟨e, he, hZero⟩
        rcases List.mem_cons.mp he with rfl | he
        · exact hZero
        · rw [List.map_cons, List.pairwise_cons] at hSorted
          have hLess := hSorted.1 _ (List.mem_map_of_mem he)
          omega
      have hTiles := tiles_intervalsOf start cls pieces
        hSorted hUnits
      rwa [hStart] at hTiles ⊢

theorem classify_of_interval
    {e : Nat × Nat × ClassId}
    (he : e ∈ (ofNfa m).intervals)
    {c : Nat}
    (hFirst : e.1 ≤ min c maxUnit)
    (hLast : min c maxUnit ≤ e.2.1) :
    (ofNfa m).classify c = e.2.2 :=
  classOf_of_intervalsOf _ 0 _ (pairwise_starts m) he
    hFirst hLast

theorem class_of_interval_lt
    {e : Nat × Nat × ClassId}
    (he : e ∈ (ofNfa m).intervals) :
    e.2.2 < (ofNfa m).numClasses := by
  have hPiece := mem_pieces_of_intervalsOf he
  rw [pieces_ofNfa, List.mem_reverse] at hPiece
  exact ((holds_sorting m).classes _ hPiece).1

/- Units of one class are those that do the same. -/
theorem classify_eq_iff
    {c d : Nat}
    (hc : c ≤ maxUnit)
    (hd : d ≤ maxUnit) :
    (ofNfa m).classify c = (ofNfa m).classify d ↔
      ∀ q t, t ∈ m.targets q c ↔ t ∈ m.targets q d := by
  rw [← signature_eq_iff]
  rcases signature_classify m hc with ⟨hcClass, hcSame⟩
  rcases signature_classify m hd with ⟨hdClass, hdSame⟩
  constructor
  · intro hSame
    rw [hcSame, hdSame, hSame]
  · intro hSame
    have hHolds := holds_sorting m
    have hStored : ∀ cls, cls < (ofNfa m).numClasses →
        (sorting m).signatures[cls]? =
          some (signature m
            (representative (ofNfa m).representatives cls)) := by
      intro cls hInside
      have hSize : cls < (sorting m).signatures.size := by
        rw [hHolds.sizes]
        exact hInside
      have hSome := Array.getElem?_eq_getElem hSize
      rw [hSome, hHolds.signatures cls _ hSome]
      rfl
    have hFirst := hStored _ hcClass
    have hSecond := hStored _ hdClass
    rw [← hcSame] at hFirst
    rw [← hdSame, ← hSame] at hSecond
    exact (apart_sorting m).distinct _ _ _ hFirst hSecond

/- A representative is of its own class. -/
theorem classify_representative
    (hRanges : UnitRanges m)
    {k rep : Nat}
    (hRep : (ofNfa m).representatives[k]? = some rep) :
    rep ≤ maxUnit ∧ (ofNfa m).classify rep = k := by
  have hPiece : (rep, k) ∈ (ofNfa m).pieces := by
    rw [pieces_ofNfa, List.mem_reverse]
    exact (apart_sorting m).own k rep hRep
  have hUnit := le_maxUnit_of_mem_pieces hRanges hPiece
  refine ⟨hUnit, ?_⟩
  rcases exists_piece_of_classify m hUnit with
    ⟨e, he, hLe, hClass, hLast⟩
  have hCut : rep ∈ cuts m := by
    rw [← starts_ofNfa]
    exact List.mem_map_of_mem hPiece
  have hStart : e.1 = rep :=
    le_antisymm hLe (hLast rep hCut le_rfl)
  -- The pieces start at different characters.
  have hSame : e = (rep, k) := by
    have hNodup := (pairwise_starts m).imp Nat.ne_of_lt
    exact List.inj_on_of_nodup_map hNodup he hPiece hStart
  rw [hClass, hSame]

/-
  The classes of an alphabet are exactly the units that an
  automaton does not tell apart.  Every character has a class
  that is there, every class has a representative of its own,
  and the intervals cover the units, one behind the other,
  each of them within one class.
-/
theorem ofNfa_exact
    (m : Nfa)
    (hRanges : UnitRanges m) :
    (∀ c d, c ≤ maxUnit → d ≤ maxUnit →
      ((ofNfa m).classify c = (ofNfa m).classify d ↔
        ∀ q t, t ∈ m.targets q c ↔ t ∈ m.targets q d)) ∧
      (∀ c, ∃ e ∈ (ofNfa m).intervals,
        e.1 ≤ min c maxUnit ∧ min c maxUnit ≤ e.2.1 ∧
          (ofNfa m).classify c = e.2.2 ∧
          e.2.2 < (ofNfa m).numClasses) ∧
      (∀ k < (ofNfa m).numClasses,
        ∃ rep, (ofNfa m).representatives[k]? = some rep ∧
          rep ≤ maxUnit ∧ (ofNfa m).classify rep = k) ∧
      Tiles 0 maxUnit (ofNfa m).intervals ∧
      ∀ e ∈ (ofNfa m).intervals, ∀ c,
        e.1 ≤ c → c ≤ e.2.1 →
          (ofNfa m).classify c = e.2.2 := by
  have hTiles := tiles_ofNfa hRanges
  refine ⟨?_, ?_, ?_, hTiles, ?_⟩
  · intro c d hc hd
    exact classify_eq_iff hc hd
  · intro c
    have hUnit := Nat.min_le_right c maxUnit
    rcases hTiles.covers (Nat.zero_le _) hUnit with
      ⟨e, he, hFirst, hLast⟩
    have hClass := classify_of_interval he hFirst hLast
    exact ⟨e, he, hFirst, hLast, hClass,
      class_of_interval_lt he⟩
  · intro k hk
    have hRep := Array.getElem?_eq_getElem hk
    exact ⟨_, hRep, classify_representative hRanges hRep⟩
  · intro e he c hFirst hLast
    have hUnit := hLast.trans (hTiles.bounds e he).2.2
    apply classify_of_interval he
    · rwa [min_eq_left hUnit]
    · rwa [min_eq_left hUnit]

/-
  A range up to the largest unit beside a single character:
  the cut behind the range is left out, the one behind the
  character is not.
-/
def upperHalf : Nfa :=
  { states :=
      #[{ moves := [(.range 0x8000 maxUnit, 1), (.single 0x61, 1)] },
        { accept := some 1 }] }

theorem ofNfa_exact_upperHalf :
    UnitRanges upperHalf ∧
      (ofNfa upperHalf).classify 0x61 =
        (ofNfa upperHalf).classify maxUnit ∧
      (ofNfa upperHalf).classify 0x7fff ≠
        (ofNfa upperHalf).classify 0x8000 ∧
      Tiles 0 maxUnit (ofNfa upperHalf).intervals := by
  have hRanges : UnitRanges upperHalf := by
    unfold UnitRanges
    decide
  rcases ofNfa_exact upperHalf hRanges with
    ⟨hEq, -, -, hTiles, -⟩
  have hSame := hEq 0x61 maxUnit (by decide) le_rfl
  have hOther := hEq 0x7fff 0x8000 (by decide) (by decide)
  refine ⟨hRanges, hSame.mpr ?_, ?_, hTiles⟩
  · intro q t
    match q with
    | 0 => exact Iff.rfl
    | 1 => exact Iff.rfl
    | q + 2 => exact Iff.rfl
  · intro hClass
    have hTarget := (hOther.mp hClass 0 1).mpr (by decide)
    revert hTarget
    decide

end Automaton

end Alphabet

end Descent
