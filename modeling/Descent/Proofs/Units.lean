import Descent.Lexer.Input
import Mathlib.Algebra.Ring.Nat
import Mathlib.Tactic.Common

/-
  Units of texts and of inputs.

  No character is a surrogate, so the units of a text say
  which text it is, and every unit that an input holds, by
  itself or by an escape, is a 16-bit unit.

  Main declarations:
    * `Text.units_injective`
    * `decode_le`
-/

------------------------------------------------------------
-- Units of texts
------------------------------------------------------------

namespace Descent

namespace Text

theorem char_bounds
    (c : Char) :
    c.toNat < 0xd800 ∨
      (0xdfff < c.toNat ∧ c.toNat < 0x110000) :=
  c.valid

theorem charUnits_ne_nil
    (c : Char) :
    charUnits c ≠ [] := by
  unfold charUnits codePointUnits
  split
  · exact List.cons_ne_nil _ _
  · exact List.cons_ne_nil _ _

theorem charUnits_le
    (c : Char)
    {u : Nat}
    (hu : u ∈ charUnits c) :
    u ≤ maxUnit := by
  have hBounds := char_bounds c
  unfold charUnits codePointUnits at hu
  split at hu
  · next hSmall =>
      rw [List.mem_singleton] at hu
      rwa [hu]
  · next hLarge =>
      unfold maxUnit at hLarge ⊢
      simp only [List.mem_cons, List.not_mem_nil, or_false]
        at hu
      rcases hu with hu | hu
      · omega
      · omega

theorem units_le
    (s : String) :
    ∀ u ∈ units s, u ≤ maxUnit := by
  intro u hu
  rcases List.mem_flatMap.mp hu with ⟨c, -, hc⟩
  exact charUnits_le c hc

theorem units_ne_nil
    {s : String}
    (hSome : s ≠ "") :
    units s ≠ [] := by
  intro hNil
  unfold units at hNil
  rw [List.flatMap_eq_nil_iff] at hNil
  apply hSome
  rw [← String.toList_eq_nil_iff]
  apply List.eq_nil_iff_forall_not_mem.mpr
  intro c hc
  exact charUnits_ne_nil c (hNil c hc)

/- The first character can be read off the units. -/
theorem charUnits_append_inj
    {c d : Char}
    {us vs : List Nat}
    (hSame : charUnits c ++ us = charUnits d ++ vs) :
    c = d ∧ us = vs := by
  have hc := char_bounds c
  have hd := char_bounds d
  have hChar : c.toNat = d.toNat → us = vs →
      c = d ∧ us = vs := by
    intro hNat hRest
    exact ⟨Char.toNat_inj.mp hNat, hRest⟩
  unfold charUnits codePointUnits maxUnit at hSame
  split at hSame
  · split at hSame
    · simp only [List.cons_append, List.nil_append,
        List.cons.injEq] at hSame
      exact hChar hSame.1 hSame.2
    · -- The first half of a pair is no character.
      simp only [List.cons_append, List.nil_append,
        List.cons.injEq] at hSame
      omega
  · split at hSame
    · simp only [List.cons_append, List.nil_append,
        List.cons.injEq] at hSame
      omega
    · simp only [List.cons_append, List.nil_append,
        List.cons.injEq] at hSame
      apply hChar
      · omega
      · exact hSame.2.2

theorem flatMap_charUnits_injective
    (cs ds : List Char)
    (hSame : cs.flatMap charUnits = ds.flatMap charUnits) :
    cs = ds := by
  induction cs generalizing ds with
  | nil =>
      cases ds with
      | nil => rfl
      | cons d ds =>
          rw [List.flatMap_nil, List.flatMap_cons] at hSame
          have hNil := (List.append_eq_nil_iff.mp
            hSame.symm).1
          exact absurd hNil (charUnits_ne_nil d)
  | cons c cs ih =>
      cases ds with
      | nil =>
          rw [List.flatMap_nil, List.flatMap_cons] at hSame
          have hNil := (List.append_eq_nil_iff.mp hSame).1
          exact absurd hNil (charUnits_ne_nil c)
      | cons d ds =>
          rw [List.flatMap_cons, List.flatMap_cons] at hSame
          rcases charUnits_append_inj hSame with
            ⟨hFirst, hRest⟩
          rw [hFirst, ih ds hRest]

/- Texts with the same units are the same. -/
theorem units_injective
    {s t : String}
    (hSame : units s = units t) :
    s = t := by
  apply String.toList_inj.mp
  exact flatMap_charUnits_injective _ _ hSame

end Text

------------------------------------------------------------
-- Units of inputs
------------------------------------------------------------

open Text (maxUnit)

theorem placeUnits_le
    (p : Position)
    {us : List Nat}
    (hUnits : ∀ c ∈ us, c ≤ maxUnit) :
    ∀ u ∈ placeUnits p us, u.unit ≤ maxUnit := by
  induction us generalizing p with
  | nil =>
      intro u hu
      cases hu
  | cons c us ih =>
      intro u hu
      rcases List.mem_cons.mp hu with hFirst | hRest
      · rw [hFirst]
        exact hUnits c List.mem_cons_self
      · apply ih (p.advance c) _ u hRest
        intro d hd
        exact hUnits d (List.mem_cons_of_mem _ hd)

theorem hexValue?_lt
    {c v : Nat}
    (hValue : hexValue? c = some v) :
    v < 16 := by
  unfold hexValue? at hValue
  split at hValue
  · cases hValue
    omega
  split at hValue
  · cases hValue
    omega
  split at hValue
  · cases hValue
    omega
  · cases hValue

/- The digits read so far leave room for the missing ones. -/
def EscapeMode.Fits : EscapeMode → Prop
  | .digits _ missing value =>
      1 ≤ missing ∧ (value + 1) * 16 ^ missing ≤ 0x10000
  | _ => True

theorem decodeEscapes_le
    {us : List Nat}
    (hUnits : ∀ c ∈ us, c ≤ maxUnit)
    {p : Position}
    {mode : EscapeMode}
    {result : List SourceUnit}
    (hResult : decodeEscapes p mode us = .ok result)
    (hFits : mode.Fits) :
    ∀ u ∈ result, u.unit ≤ maxUnit := by
  induction us generalizing p mode result with
  | nil =>
      cases mode with
      | plain odd =>
          cases hResult
          intro u hu
          cases hu
      | opened slash => cases hResult
      | marked slash => cases hResult
      | digits slash missing value => cases hResult
  | cons c us ih =>
      have hRest : ∀ d ∈ us, d ≤ maxUnit := fun d hd =>
        hUnits d (List.mem_cons_of_mem _ hd)
      -- What is decoded later follows a unit that fits.
      have hCons : ∀ {p : Position} {mode : EscapeMode}
          {unit : SourceUnit} {result : List SourceUnit},
          (decodeEscapes p mode us).map (unit :: ·) =
            .ok result →
          mode.Fits → unit.unit ≤ maxUnit →
          ∀ u ∈ result, u.unit ≤ maxUnit := by
        intro p mode unit result hMap hMode hUnit
        cases hLater : decodeEscapes p mode us with
        | error e =>
            rw [hLater] at hMap
            cases hMap
        | ok later =>
            rw [hLater] at hMap
            cases hMap
            intro u hu
            rcases List.mem_cons.mp hu with hFirst | hMem
            · rw [hFirst]
              exact hUnit
            · exact ih hRest hLater hMode u hMem
      have hc := hUnits c List.mem_cons_self
      cases mode with
      | plain odd =>
          unfold decodeEscapes at hResult
          dsimp only at hResult
          split at hResult
          · split at hResult
            · exact ih hRest hResult trivial
            · exact hCons hResult trivial hc
          · exact hCons hResult trivial hc
      | opened slash =>
          unfold decodeEscapes at hResult
          exact ih hRest hResult trivial
      | marked slash =>
          unfold decodeEscapes at hResult
          split at hResult
          · exact ih hRest hResult trivial
          · split at hResult
            · next v hValue =>
                have hDigit := hexValue?_lt hValue
                apply ih hRest hResult
                unfold EscapeMode.Fits
                omega
            · cases hResult
      | digits slash missing value =>
          unfold decodeEscapes at hResult
          rcases hFits with ⟨hMissing, hRoom⟩
          split at hResult
          · next v hValue =>
              have hDigit := hexValue?_lt hValue
              split at hResult
              · next hLast =>
                  have hOne : missing = 1 := by omega
                  subst hOne
                  apply hCons hResult trivial
                  unfold maxUnit
                  dsimp only
                  omega
              · next hMore =>
                  apply ih hRest hResult
                  refine ⟨by omega, ?_⟩
                  have hPow : 16 ^ missing =
                      16 * 16 ^ (missing - 1) := by
                    rw [← Nat.pow_succ']
                    congr 1
                    omega
                  rw [hPow] at hRoom
                  refine Nat.le_trans ?_ hRoom
                  rw [← Nat.mul_assoc]
                  apply Nat.mul_le_mul_right
                  omega
          · cases hResult

/- Every unit of an input is a 16-bit unit. -/
theorem decode_le
    {text : String}
    {tabSize : Nat}
    {escapes : Bool}
    {us : List SourceUnit}
    (hDecode : decode text tabSize escapes = .ok us) :
    ∀ u ∈ us, u.unit ≤ maxUnit := by
  unfold decode at hDecode
  split at hDecode
  · exact decodeEscapes_le (Text.units_le text) hDecode
      trivial
  · cases hDecode
    exact placeUnits_le _ (Text.units_le text)

end Descent
