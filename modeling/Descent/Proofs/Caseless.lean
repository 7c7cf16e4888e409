import Descent.Proofs.Units
import Descent.Text.LetterCase

/-
  Texts in which case makes no difference.

  A text can be put together again from its units.  If both
  case maps leave its characters alone, they leave its units
  alone as well, since no case map touches a surrogate.

  Main declarations:
    * `Text.ofUnits_units`
    * `Text.lowerUnit_of_isCaseless`
    * `Text.upperUnit_of_isCaseless`
    * `Text.caseVariants_of_isCaseless`
-/

------------------------------------------------------------
-- From units back to texts
------------------------------------------------------------

namespace Descent.Text

/- A character is what its units are read as. -/
theorem codePoints_charUnits
    (c : Char)
    (us : List Nat) :
    codePoints (charUnits c ++ us) =
      some c.toNat :: codePoints us := by
  have hBounds := char_bounds c
  unfold charUnits codePointUnits
  split
  · have hHigh : isHighSurrogate c.toNat = false := by
      simp only [isHighSurrogate, Bool.and_eq_false_iff,
        decide_eq_false_iff_not]
      omega
    have hNot : isSurrogate c.toNat = false := by
      simp only [isSurrogate, Bool.and_eq_false_iff,
        decide_eq_false_iff_not]
      omega
    cases us with
    | nil => simp [codePoints, hNot]
    | cons u us => simp [codePoints, hHigh, hNot]
  · next hLarge =>
      unfold maxUnit at hLarge
      have hHigh : isHighSurrogate
          (0xd800 + (c.toNat - 0x10000) / 0x400) = true := by
        simp only [isHighSurrogate, Bool.and_eq_true,
          decide_eq_true_eq]
        omega
      have hLow : isLowSurrogate
          (0xdc00 + (c.toNat - 0x10000) % 0x400) = true := by
        simp only [isLowSurrogate, Bool.and_eq_true,
          decide_eq_true_eq]
        omega
      have hPair : pairCodePoint
          (0xd800 + (c.toNat - 0x10000) / 0x400)
          (0xdc00 + (c.toNat - 0x10000) % 0x400) =
            c.toNat := by
        unfold pairCodePoint
        omega
      simp only [List.cons_append, List.nil_append, codePoints,
        hHigh, hLow, Bool.and_self, if_true, hPair]

/- A text is put together again from its units. -/
theorem ofUnits_units
    (s : String) :
    ofUnits (units s) = s := by
  have hPoints : ∀ cs : List Char,
      codePoints (cs.flatMap charUnits) =
        cs.map fun c => some c.toNat := by
    intro cs
    induction cs with
    | nil => rfl
    | cons c cs ih =>
        rw [List.flatMap_cons, codePoints_charUnits, ih]
        rfl
  unfold ofUnits units
  rw [hPoints, List.map_map]
  have hChars : ∀ cs : List Char,
      cs.map (fun c => Char.ofNat c.toNat) = cs := by
    intro cs
    simp
  exact (congrArg String.ofList (hChars s.toList)).trans
    (String.ofList_toList)

------------------------------------------------------------
-- Units that no case map touches
------------------------------------------------------------

/- Surrogates have no case. -/
theorem mapUnit_of_isSurrogate
    {runs : List CaseRun}
    (hRuns : ∀ r ∈ runs,
      r.last < 0xd800 ∨ 0xdfff < r.first)
    {u : Nat}
    (hSurrogate : isSurrogate u = true) :
    mapUnit runs u = u := by
  have hNone : runImage? runs u = none := by
    simp only [isSurrogate, Bool.and_eq_true,
      decide_eq_true_eq] at hSurrogate
    induction runs with
    | nil => rfl
    | cons r runs ih =>
        have hHere := hRuns r List.mem_cons_self
        have hImage : r.image? u = none := by
          apply if_neg
          omega
        unfold runImage?
        rw [hImage]
        split
        · rfl
        · exact ih fun r' hr' =>
            hRuns r' (List.mem_cons_of_mem r hr')
  unfold mapUnit
  rw [hNone]

/- A character that its full image leaves alone. -/
theorem mapUnit_of_fullImage
    {expansions : List (Nat × List Nat)}
    (hLonger : ∀ e ∈ expansions, e.2.length ≠ 1)
    {runs : List CaseRun}
    {c : Nat}
    (hSame : fullImage expansions runs c = [c]) :
    mapUnit runs c = c := by
  unfold fullImage at hSame
  split at hSame
  · next image hLookup =>
      have hMem : (c, image) ∈ expansions := by
        rw [List.lookup_eq_some_iff] at hLookup
        rcases hLookup with ⟨front, back, hSplit, -⟩
        rw [hSplit]
        simp
      have hLength := hLonger _ hMem
      rw [hSame] at hLength
      exact absurd rfl hLength
  · unfold mapUnit
    cases hImage : runImage? runs c with
    | none => rfl
    | some d =>
        rw [hImage] at hSame
        have hd : d = c := List.singleton_inj.mp hSame
        rw [hd]
        dsimp only
        split
        · rfl
        · rfl

/- A case map that leaves a text alone leaves its units alone. -/
theorem mapUnit_of_mem_charUnits
    {expansions : List (Nat × List Nat)}
    (hLonger : ∀ e ∈ expansions, e.2.length ≠ 1)
    {runs : List CaseRun}
    (hRuns : ∀ r ∈ runs,
      r.last < 0xd800 ∨ 0xdfff < r.first)
    {c : Char}
    (hSame : fullImage expansions runs c.toNat = [c.toNat])
    {u : Nat}
    (hu : u ∈ charUnits c) :
    mapUnit runs u = u := by
  have hBounds := char_bounds c
  unfold charUnits codePointUnits at hu
  split at hu
  · rw [List.mem_singleton.mp hu]
    exact mapUnit_of_fullImage hLonger hSame
  · next hLarge =>
      unfold maxUnit at hLarge
      apply mapUnit_of_isSurrogate hRuns
      simp only [isSurrogate, Bool.and_eq_true,
        decide_eq_true_eq]
      simp only [List.mem_cons, List.not_mem_nil, or_false]
        at hu
      omega

section Caseless

variable {s : String}

theorem lowerUnit_of_isCaseless
    (hCaseless : isCaseless s = true)
    {u : Nat}
    (hu : u ∈ units s) :
    lowerUnit u = u := by
  rcases List.mem_flatMap.mp hu with ⟨c, hc, hu⟩
  have hBoth := List.all_eq_true.mp hCaseless c hc
  rw [Bool.and_eq_true, beq_iff_eq] at hBoth
  exact mapUnit_of_mem_charUnits (by decide)
    (by decide +kernel) hBoth.1 hu

theorem upperUnit_of_isCaseless
    (hCaseless : isCaseless s = true)
    {u : Nat}
    (hu : u ∈ units s) :
    upperUnit u = u := by
  rcases List.mem_flatMap.mp hu with ⟨c, hc, hu⟩
  have hBoth := List.all_eq_true.mp hCaseless c hc
  rw [Bool.and_eq_true, beq_iff_eq, beq_iff_eq] at hBoth
  exact mapUnit_of_mem_charUnits (by decide)
    (by decide +kernel) hBoth.2 hu

/- A unit of such a text has no other case form. -/
theorem caseVariants_of_isCaseless
    (hCaseless : isCaseless s = true)
    {u : Nat}
    (hu : u ∈ units s) :
    caseVariants u = [u] := by
  unfold caseVariants
  rw [lowerUnit_of_isCaseless hCaseless hu,
    upperUnit_of_isCaseless hCaseless hu]
  simp [pushNew]

end Caseless

end Descent.Text
