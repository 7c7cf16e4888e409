import Descent.Proofs.Places
import Mathlib.Data.List.Basic
import Mathlib.Tactic.Common

/-
  Unicode escapes.

  An escape is opened by a backslash at the end of an odd run
  of backslashes, when the letter follows.  Reading a text
  with escapes succeeds exactly when every escape has its four
  digits, and it reads what the text without escapes holds,
  each escape replaced by its value.

  Main declarations:
    * `OpensEscape`
    * `WithinEscape`
    * `escapeValue?`
    * `decodedAt`
    * `decode_escapes`
-/

namespace Descent

------------------------------------------------------------
-- Escapes of a text
------------------------------------------------------------

/- The length of the run of backslashes before a unit. -/
def slashesBefore
    (us : List Nat)
    (i : Nat) : Nat :=
  ((us.take i).reverse.takeWhile (· == backslash)).length

/-
  A backslash opens an escape when it ends an odd run of
  backslashes and the letter follows.
-/
def OpensEscape
    (us : List Nat)
    (i : Nat) : Prop :=
  us[i]? = some backslash ∧
    us[i + 1]? = some letterU ∧
    (slashesBefore us i + 1) % 2 = 1

instance
    (us : List Nat)
    (i : Nat) :
    Decidable (OpensEscape us i) := by
  unfold OpensEscape
  infer_instance

/- How many letters come first. -/
def letters
    (us : List Nat) : Nat :=
  (us.takeWhile (· == letterU)).length

/- The values of so many hexadecimal digits. -/
def hexDigits? : Nat → List Nat → Option (List Nat)
  | 0, _ => some []
  | _ + 1, [] => none
  | n + 1, c :: us =>
      (hexValue? c).bind fun v =>
        (hexDigits? n us).map (v :: ·)

/- The number with these hexadecimal digits. -/
def hexNumber
    (value : Nat)
    (digits : List Nat) : Nat :=
  digits.foldl (fun v d => v * 16 + d) value

/-
  The value of an escape: behind its backslash stand letters
  and then four digits.
-/
def escapeValue?
    (us : List Nat)
    (i : Nat) : Option Nat :=
  let behind := us.drop (i + 1)
  (hexDigits? 4 (behind.drop (letters behind))).map (hexNumber 0)

/- The number of units of an escape. -/
def escapeLength
    (us : List Nat)
    (i : Nat) : Nat :=
  1 + (letters (us.drop (i + 1)) + 4)

/- A letter or a digit of an escape. -/
def WithinEscape
    (us : List Nat)
    (i : Nat) : Prop :=
  ∃ j < i, OpensEscape us j ∧ i < j + escapeLength us j

instance
    (us : List Nat)
    (i : Nat) :
    Decidable (WithinEscape us i) := by
  unfold WithinEscape
  infer_instance

/-
  What a unit of a text is decoded to: an escape to its value,
  at its backslash, and any other unit to itself.
-/
def decodedUnit?
    (us : List Nat)
    (i : Nat) : Option Nat :=
  if WithinEscape us i then none
  else if OpensEscape us i then escapeValue? us i
  else us[i]?

/-
  The unit that is read for a unit of a text: the place is
  that of the unit without escapes.
-/
def decodedAt
    (us : List Nat)
    (raw : List SourceUnit)
    (i : Nat) : Option SourceUnit :=
  (decodedUnit? us i).bind fun c =>
    raw[i]?.map ({ · with unit := c })

------------------------------------------------------------
-- Letters and digits
------------------------------------------------------------

/- A letter or a digit is no backslash, no line end and no tab. -/
def Inner
    (c : Nat) : Prop :=
  c ≠ backslash ∧ 0x0d < c

theorem inner_letterU :
    Inner letterU := by
  unfold Inner
  decide

theorem inner_of_hexValue
    {c v : Nat}
    (hValue : hexValue? c = some v) :
    Inner c := by
  unfold Inner backslash
  unfold hexValue? at hValue
  split at hValue
  · omega
  · split at hValue
    · omega
    · split at hValue
      · omega
      · exact absurd hValue (Option.some_ne_none v).symm

theorem letters_cons_letterU
    (us : List Nat) :
    letters (letterU :: us) = letters us + 1 := by
  unfold letters
  rw [List.takeWhile_cons, if_pos (beq_self_eq_true letterU),
    List.length_cons]

theorem letters_cons_of_ne
    {c : Nat}
    (hOther : c ≠ letterU)
    (us : List Nat) :
    letters (c :: us) = 0 := by
  unfold letters
  rw [List.takeWhile_cons_of_neg (by rwa [beq_iff_eq])]
  rfl

theorem letters_le
    (us : List Nat) :
    letters us ≤ us.length :=
  (List.takeWhile_prefix _).length_le

theorem inner_of_mem_letters
    {us : List Nat}
    {c : Nat}
    (hc : c ∈ us.take (letters us)) :
    Inner c := by
  have hTake := List.prefix_iff_eq_take.mp
    (List.takeWhile_prefix (l := us) (· == letterU))
  unfold letters at hc
  rw [← hTake] at hc
  have hLetter := List.all_takeWhile (p := (· == letterU)) (l := us)
  rw [List.all_eq_true] at hLetter
  rw [beq_iff_eq.mp (hLetter c hc)]
  exact inner_letterU

theorem hexDigits?_cons
    {n c v : Nat}
    (hValue : hexValue? c = some v)
    (us : List Nat) :
    hexDigits? (n + 1) (c :: us) =
      (hexDigits? n us).map (v :: ·) := by
  show (hexValue? c).bind _ = _
  rw [hValue]
  rfl

theorem hexDigits?_cons_none
    {n c : Nat}
    (hValue : hexValue? c = none)
    (us : List Nat) :
    hexDigits? (n + 1) (c :: us) = none := by
  show (hexValue? c).bind _ = _
  rw [hValue]
  rfl

theorem hexDigits?_some
    {n : Nat}
    {us ds : List Nat}
    (hDigits : hexDigits? n us = some ds) :
    n ≤ us.length ∧ ∀ c ∈ us.take n, Inner c := by
  induction n generalizing us ds with
  | zero =>
      refine ⟨Nat.zero_le _, ?_⟩
      intro c hc
      rw [List.take_zero] at hc
      exact absurd hc List.not_mem_nil
  | succ n ih =>
      cases us with
      | nil => exact absurd hDigits (Option.some_ne_none ds).symm
      | cons c us =>
          cases hValue : hexValue? c with
          | none =>
              rw [hexDigits?_cons_none hValue] at hDigits
              exact absurd hDigits (Option.some_ne_none ds).symm
          | some v =>
              rw [hexDigits?_cons hValue,
                Option.map_eq_some_iff] at hDigits
              rcases hDigits with ⟨ds, hDigits, -⟩
              rcases ih hDigits with ⟨hLe, hInner⟩
              refine ⟨Nat.succ_le_succ hLe, ?_⟩
              intro d hd
              rw [List.take_succ_cons, List.mem_cons] at hd
              rcases hd with rfl | hd
              · exact inner_of_hexValue hValue
              · exact hInner d hd

/- The units of an escape behind its backslash. -/
theorem inner_of_digits
    {us ds : List Nat}
    (hDigits :
      hexDigits? 4 (us.drop (letters us)) = some ds) :
    letters us + 4 ≤ us.length ∧
      ∀ c ∈ us.take (letters us + 4), Inner c := by
  rcases hexDigits?_some hDigits with ⟨hLe, hInner⟩
  have hLetters := letters_le us
  rw [List.length_drop] at hLe
  refine ⟨by omega, ?_⟩
  intro c hc
  rw [List.take_add, List.mem_append] at hc
  rcases hc with hc | hc
  · exact inner_of_mem_letters hc
  · exact hInner c hc

theorem hexNumber_cons
    (value d : Nat)
    (ds : List Nat) :
    hexNumber value (d :: ds) = hexNumber (value * 16 + d) ds :=
  rfl

------------------------------------------------------------
-- Reading an escape
------------------------------------------------------------

/- The position some units further on in its line. -/
def Position.right
    (p : Position)
    (n : Nat) : Position :=
  { p with column := p.column + UInt32.ofNat n }

theorem Position.right_zero
    (p : Position) :
    p.right 0 = p := by
  show { p with column := p.column + 0 } = p
  rw [UInt32.add_zero]

theorem Position.right_right
    (p : Position)
    (m n : Nat) :
    (p.right m).right n = p.right (m + n) := by
  unfold right
  rw [UInt32.add_assoc, ← UInt32.ofNat_add]

theorem decodeEscapes_digits
    (p : Position)
    (slash : SourceUnit)
    (n value : Nat)
    (us : List Nat) :
    decodeEscapes p (.digits slash (n + 1) value) us =
      match hexDigits? (n + 1) us with
      | some ds =>
          (decodeEscapes (p.right 4) (.plain false)
            (us.drop (n + 1))).map
              ({ slash with unit := hexNumber value ds } :: ·)
      | none => .error (.invalidEscape p.location) := by
  induction n generalizing value us with
  | zero =>
      cases us with
      | nil => rfl
      | cons c us =>
          rw [decodeEscapes]
          cases hValue : hexValue? c with
          | none => rw [hexDigits?_cons_none hValue]
          | some v =>
              rw [hexDigits?_cons hValue]
              rfl
  | succ n ih =>
      cases us with
      | nil => rfl
      | cons c us =>
          rw [decodeEscapes]
          cases hValue : hexValue? c with
          | none => rw [hexDigits?_cons_none hValue]
          | some v =>
              rw [hexDigits?_cons hValue]
              show (if n + 2 ≤ 1 then _ else _) = _
              rw [if_neg (by omega)]
              show decodeEscapes p (.digits slash (n + 1) _) us = _
              rw [ih]
              cases hexDigits? (n + 1) us with
              | none => rfl
              | some ds => rfl

theorem decodeEscapes_marked
    (p : Position)
    (slash : SourceUnit)
    (us : List Nat) :
    decodeEscapes p (.marked slash) us =
      match hexDigits? 4 (us.drop (letters us)) with
      | some ds =>
          (decodeEscapes (p.right (letters us + 4))
            (.plain false) (us.drop (letters us + 4))).map
              ({ slash with unit := hexNumber 0 ds } :: ·)
      | none =>
          .error (.invalidEscape
            (p.right (letters us)).location) := by
  induction us generalizing p with
  | nil =>
      show _ = Except.error
        (Failure.invalidEscape (p.right 0).location)
      rw [p.right_zero]
      rfl
  | cons c us ih =>
      rw [decodeEscapes]
      by_cases hLetter : c = letterU
      · subst hLetter
        have hNext : { p with column := p.column + 1 } =
            p.right 1 := rfl
        rw [if_pos (beq_self_eq_true letterU), hNext, ih,
          letters_cons_letterU, List.drop_succ_cons,
          p.right_right, p.right_right, Nat.add_comm 1,
          Nat.add_comm 1, Nat.add_right_comm]
        rfl
      · rw [if_neg (by rwa [beq_iff_eq]),
          letters_cons_of_ne hLetter, List.drop_zero]
        cases hValue : hexValue? c with
        | none =>
            rw [hexDigits?_cons_none hValue, p.right_zero]
        | some v =>
            rw [hexDigits?_cons hValue]
            show decodeEscapes p (.digits slash 3 v) us = _
            rw [decodeEscapes_digits, p.right_zero]
            cases hDigits : hexDigits? 3 us with
            | none => rfl
            | some ds =>
                have hNumber :
                    hexNumber 0 (v :: ds) = hexNumber v ds := by
                  rw [hexNumber_cons, Nat.zero_mul, Nat.zero_add]
                dsimp only [Option.map_some]
                rw [hNumber]
                rfl

/- Units that are no line end and no tab move the column on. -/
theorem advance_of_quiet
    {p : Position}
    (hFeed : p.afterFeed = false)
    (hReturn : p.afterReturn = false)
    {c : Nat}
    (hc : 0x0d < c) :
    p.advance c = p.right 1 := by
  unfold Position.advance Position.settle Position.right
  rw [hFeed, hReturn]
  simp only [Bool.false_eq_true, if_false, beq_iff_eq]
  rw [if_neg (by omega), if_neg (by omega), if_neg (by omega)]
  rfl

theorem foldl_advance_of_quiet
    {p : Position}
    (hFeed : p.afterFeed = false)
    (hReturn : p.afterReturn = false)
    {us : List Nat}
    (hUnits : ∀ c ∈ us, Inner c) :
    us.foldl Position.advance p =
      p.right us.length := by
  induction us generalizing p with
  | nil => exact p.right_zero.symm
  | cons c us ih =>
      have hc := hUnits c List.mem_cons_self
      have hRest := ih (p := p.right 1) hFeed hReturn
        (fun d hd => hUnits d (List.mem_cons_of_mem c hd))
      rw [List.foldl_cons, advance_of_quiet hFeed hReturn hc.2,
        hRest, p.right_right, List.length_cons, Nat.add_comm]

section Opening

variable {p : Position}
variable {us : List Nat}

/- A backslash and a letter open an escape. -/
theorem decodeEscapes_opening
    (hLetter : us.head? = some letterU) :
    decodeEscapes p (.plain false) (backslash :: us) =
      decodeEscapes (p.advance backslash)
        (.opened ((p.advance backslash).tag backslash)) us := by
  rw [decodeEscapes]
  simp only [beq_self_eq_true, Bool.not_false, Bool.and_self,
    if_true, hLetter]

/-
  An escape with four digits is one unit, at its backslash,
  and the text behind it goes on as if all its units had been
  read.
-/
theorem decodeEscapes_of_digits
    (hSound : p.Sound)
    (hLetter : us.head? = some letterU)
    {ds : List Nat}
    (hDigits :
      hexDigits? 4 (us.drop (letters us)) = some ds) :
    decodeEscapes p (.plain false) (backslash :: us) =
      (decodeEscapes
        ((us.take (letters us + 4)).foldl Position.advance
          (p.advance backslash))
        (.plain false) (us.drop (letters us + 4))).map
          ({ (p.advance backslash).tag backslash with
              unit := hexNumber 0 ds } :: ·) := by
  rcases inner_of_digits hDigits with ⟨hLe, hInner⟩
  have hAdvance := Position.advance_eq hSound backslash
  have hFeed : (p.advance backslash).afterFeed = false := by
    rw [hAdvance]
    rfl
  have hReturn : (p.advance backslash).afterReturn = false := by
    rw [hAdvance]
    rfl
  rw [decodeEscapes_opening hLetter,
    foldl_advance_of_quiet hFeed hReturn hInner,
    List.length_take_of_le hLe]
  cases us with
  | nil => exact absurd hLetter (Option.some_ne_none _).symm
  | cons c us =>
      cases Option.some.inj hLetter
      rw [letters_cons_letterU, List.drop_succ_cons] at hDigits
      rw [decodeEscapes, decodeEscapes_marked, hDigits,
        advance_of_quiet hFeed hReturn inner_letterU.2,
        letters_cons_letterU]
      rw [Position.right_right, Nat.add_comm 1,
        Nat.add_right_comm]
      rfl

/- An escape without them is an error. -/
theorem decodeEscapes_of_no_digits
    (hLetter : us.head? = some letterU)
    (hDigits :
      hexDigits? 4 (us.drop (letters us)) = none) :
    ∃ failure,
      decodeEscapes p (.plain false) (backslash :: us) =
        .error failure := by
  rw [decodeEscapes_opening hLetter]
  cases us with
  | nil => exact absurd hLetter (Option.some_ne_none _).symm
  | cons c us =>
      cases Option.some.inj hLetter
      rw [letters_cons_letterU, List.drop_succ_cons] at hDigits
      rw [decodeEscapes, decodeEscapes_marked, hDigits]
      exact ⟨_, rfl⟩

/- Any other unit stays. -/
theorem decodeEscapes_of_other
    {c : Nat}
    {odd : Bool}
    (hOther : ¬(c = backslash ∧ odd = false ∧
      us.head? = some letterU)) :
    decodeEscapes p (.plain odd) (c :: us) =
      (decodeEscapes (p.advance c)
        (.plain (c == backslash && !odd)) us).map
          ((p.advance c).tag c :: ·) := by
  rw [decodeEscapes]
  cases hOdd : (c == backslash && !odd) with
  | false => rfl
  | true =>
      rw [Bool.and_eq_true, beq_iff_eq, Bool.not_eq_true']
        at hOdd
      have hHead : ¬us.head? = some letterU :=
        fun hLetter => hOther ⟨hOdd.1, hOdd.2, hLetter⟩
      simp only [if_true, beq_iff_eq, hHead, if_false]

end Opening

------------------------------------------------------------
-- Reading from an index
------------------------------------------------------------

section Reading

variable (tabSize : Nat)
variable {us : List Nat}
variable {i c : Nat}

/- An odd run of backslashes has just been read. -/
def oddBefore
    (us : List Nat)
    (i : Nat) : Bool :=
  slashesBefore us i % 2 == 1

theorem slashesBefore_succ
    (hUnit : us[i]? = some c) :
    slashesBefore us (i + 1) =
      if c = backslash then slashesBefore us i + 1 else 0 := by
  unfold slashesBefore
  rw [take_succ_of_unit hUnit, List.reverse_append]
  show (List.takeWhile _ (c :: _)).length = _
  rw [List.takeWhile_cons]
  by_cases hSlash : c = backslash
  · rw [if_pos (beq_iff_eq.mpr hSlash), if_pos hSlash]
    rfl
  · rw [if_neg (by rwa [beq_iff_eq]), if_neg hSlash]
    rfl

theorem oddBefore_succ
    (hUnit : us[i]? = some c) :
    oddBefore us (i + 1) =
      (c == backslash && !oddBefore us i) := by
  unfold oddBefore
  rw [slashesBefore_succ hUnit, Bool.eq_iff_iff]
  by_cases hSlash : c = backslash
  · simp only [hSlash, if_true, beq_self_eq_true, Bool.true_and,
      beq_iff_eq, Bool.not_eq_true', beq_eq_false_iff_ne]
    omega
  · simp [hSlash]

theorem opensEscape_iff
    (hUnit : us[i]? = some c) :
    OpensEscape us i ↔
      c = backslash ∧ oddBefore us i = false ∧
        (us.drop (i + 1)).head? = some letterU := by
  unfold OpensEscape oddBefore
  rw [hUnit, List.head?_drop, beq_eq_false_iff_ne,
    Option.some.injEq]
  constructor
  · rintro ⟨hSlash, hLetter, hOdd⟩
    exact ⟨hSlash, by omega, hLetter⟩
  · rintro ⟨hSlash, hEven, hLetter⟩
    exact ⟨hSlash, hLetter, by omega⟩

theorem hexDigits_of_escapeValue
    {v : Nat}
    (hValue : escapeValue? us i = some v) :
    ∃ ds,
      hexDigits? 4 ((us.drop (i + 1)).drop
        (letters (us.drop (i + 1)))) = some ds ∧
        hexNumber 0 ds = v :=
  Option.map_eq_some_iff.mp hValue

/- An escape with a value ends within the text. -/
theorem escapeLength_le
    {v : Nat}
    (hValue : escapeValue? us i = some v)
    (hLt : i < us.length) :
    i + escapeLength us i ≤ us.length := by
  rcases hexDigits_of_escapeValue hValue with ⟨ds, hDigits, -⟩
  have hLe := (inner_of_digits hDigits).1
  rw [List.length_drop] at hLe
  unfold escapeLength
  omega

/- Behind its backslash it holds no backslash. -/
theorem inner_of_escape
    {v j d : Nat}
    (hValue : escapeValue? us i = some v)
    (hAfter : i < j)
    (hBefore : j < i + escapeLength us i)
    (hUnit : us[j]? = some d) :
    Inner d := by
  rcases hexDigits_of_escapeValue hValue with ⟨ds, hDigits, -⟩
  apply (inner_of_digits hDigits).2
  unfold escapeLength at hBefore
  apply List.mem_of_getElem? (i := j - (i + 1))
  rw [List.getElem?_take_of_lt (by omega), List.getElem?_drop,
    Nat.add_sub_cancel' hAfter]
  exact hUnit

/- Behind an escape no run of backslashes goes on. -/
theorem oddBefore_escape
    {v : Nat}
    (hValue : escapeValue? us i = some v)
    (hLt : i < us.length) :
    oddBefore us (i + escapeLength us i) = false := by
  have hLe := escapeLength_le hValue hLt
  have hLast : i + escapeLength us i =
      i + letters (us.drop (i + 1)) + 4 + 1 := by
    unfold escapeLength
    omega
  have hUnit := List.getElem?_eq_getElem
    (show i + letters (us.drop (i + 1)) + 4 < us.length by
      omega)
  have hInner := inner_of_escape hValue (by omega) (by omega)
    hUnit
  rw [hLast, oddBefore_succ hUnit,
    beq_eq_false_iff_ne.mpr hInner.1]
  rfl

/- Behind an escape no escape goes on. -/
theorem not_withinEscape_behind
    {v : Nat}
    (hValue : escapeValue? us i = some v)
    (hOutside : ¬WithinEscape us i) :
    ¬WithinEscape us (i + escapeLength us i) := by
  rintro ⟨j, hBefore, hOpens, hWithin⟩
  rcases Nat.lt_trichotomy j i with hLt | rfl | hLt
  · exact hOutside ⟨j, hLt, hOpens, by omega⟩
  · exact Nat.lt_irrefl _ hWithin
  · exact (inner_of_escape hValue hLt hBefore hOpens.1).1 rfl

/- Nor behind a unit that opens none. -/
theorem not_withinEscape_succ
    (hOpens : ¬OpensEscape us i)
    (hOutside : ¬WithinEscape us i) :
    ¬WithinEscape us (i + 1) := by
  rintro ⟨j, hBefore, hOther, hWithin⟩
  rcases Nat.lt_succ_iff_lt_or_eq.mp hBefore with hLt | rfl
  · exact hOutside ⟨j, hLt, hOther, by omega⟩
  · exact hOpens hOther

/- What is known about the result of reading from an index. -/
def Reads
    (us : List Nat)
    (raw : List SourceUnit)
    (i : Nat) : Except Failure (List SourceUnit) → Prop
  | .ok placed =>
      (∀ j, i ≤ j → OpensEscape us j →
        (escapeValue? us j).isSome = true) ∧
        placed = (List.range' i (us.length - i)).filterMap
          (decodedAt us raw)
  | .error _ =>
      ∃ j, i ≤ j ∧ OpensEscape us j ∧ escapeValue? us j = none

variable {raw : List SourceUnit}
variable {u : SourceUnit}
variable {r : Except Failure (List SourceUnit)}

theorem reads_end :
    Reads us raw us.length (.ok []) := by
  refine ⟨?_, ?_⟩
  · intro j hLe hOpens
    rcases List.getElem?_eq_some_iff.mp hOpens.1 with ⟨hLt, -⟩
    omega
  · rw [Nat.sub_self]
    rfl

/- A unit that belongs to no escape is read as it is. -/
theorem Reads.other
    (hUnit : us[i]? = some c)
    (hOpens : ¬OpensEscape us i)
    (hOutside : ¬WithinEscape us i)
    (hRaw : raw[i]? = some u)
    (hSame : u.unit = c)
    (hReads : Reads us raw (i + 1) r) :
    Reads us raw i (r.map (u :: ·)) := by
  cases r with
  | error failure =>
      rcases hReads with ⟨j, hLe, hBad⟩
      exact ⟨j, Nat.le_of_succ_le hLe, hBad⟩
  | ok placed =>
      rcases hReads with ⟨hValues, rfl⟩
      refine ⟨?_, ?_⟩
      · intro j hLe hOther
        rcases Nat.eq_or_lt_of_le hLe with rfl | hLt
        · exact absurd hOther hOpens
        · exact hValues j hLt hOther
      · rcases List.getElem?_eq_some_iff.mp hUnit with ⟨hLt, -⟩
        have hHere : decodedAt us raw i = some u := by
          unfold decodedAt decodedUnit?
          rw [if_neg hOutside, if_neg hOpens, hUnit, hRaw,
            ← hSame]
          rfl
        have hLength : us.length - i =
            us.length - (i + 1) + 1 := by omega
        rw [hLength, List.range'_succ,
          List.filterMap_cons_some hHere]

/- An escape is read as its value, at its backslash. -/
theorem Reads.escape
    {v : Nat}
    (hOpens : OpensEscape us i)
    (hOutside : ¬WithinEscape us i)
    (hValue : escapeValue? us i = some v)
    (hRaw : raw[i]? = some u)
    (hReads : Reads us raw (i + escapeLength us i) r) :
    Reads us raw i (r.map ({ u with unit := v } :: ·)) := by
  have hInside : ∀ j, i < j → j < i + escapeLength us i →
      ¬OpensEscape us j := by
    intro j hAfter hBefore hOther
    exact (inner_of_escape hValue hAfter hBefore hOther.1).1 rfl
  cases r with
  | error failure =>
      rcases hReads with ⟨j, hLe, hBad⟩
      exact ⟨j, by omega, hBad⟩
  | ok placed =>
      rcases hReads with ⟨hValues, rfl⟩
      refine ⟨?_, ?_⟩
      · intro j hLe hOther
        rcases Nat.eq_or_lt_of_le hLe with rfl | hLt
        · rw [hValue]
          rfl
        · apply hValues j _ hOther
          by_contra hBefore
          exact hInside j hLt (by omega) hOther
      · rcases List.getElem?_eq_some_iff.mp hOpens.1 with
          ⟨hLt, -⟩
        have hLe := escapeLength_le hValue hLt
        have hHere : decodedAt us raw i =
            some { u with unit := v } := by
          unfold decodedAt decodedUnit?
          rw [if_neg hOutside, if_pos hOpens, hValue, hRaw]
          rfl
        obtain ⟨k, hk⟩ : ∃ k, escapeLength us i = k + 1 :=
          ⟨_, Nat.add_comm 1 _⟩
        have hRest : (List.range' (i + 1) k).filterMap
            (decodedAt us raw) = [] := by
          rw [List.filterMap_eq_nil_iff]
          intro j hj
          rw [List.mem_range'_1] at hj
          have hWithin : WithinEscape us j :=
            ⟨i, by omega, hOpens, by omega⟩
          unfold decodedAt decodedUnit?
          rw [if_pos hWithin]
          rfl
        have hLength : us.length - i =
            k + 1 + (us.length - (i + (k + 1))) := by omega
        rw [hLength, ← List.range'_append_1, hk,
          List.filterMap_append, List.range'_succ,
          List.filterMap_cons_some hHere, hRest]
        rfl

/- An escape without a value is an error. -/
theorem Reads.error
    (failure : Failure)
    (hOpens : OpensEscape us i)
    (hValue : escapeValue? us i = none) :
    Reads us raw i (.error failure) :=
  ⟨i, Nat.le_refl i, hOpens, hValue⟩

/- The reader, at an index, with the right flag. -/
def readFrom
    (us : List Nat)
    (i : Nat) : Except Failure (List SourceUnit) :=
  decodeEscapes (positionAfter tabSize us i)
    (.plain (oddBefore us i)) (us.drop i)

theorem drop_of_unit
    (hUnit : us[i]? = some c) :
    us.drop i = c :: us.drop (i + 1) := by
  rcases List.getElem?_eq_some_iff.mp hUnit with ⟨hLt, rfl⟩
  exact List.drop_eq_getElem_cons hLt

theorem readFrom_of_other
    (hUnit : us[i]? = some c)
    (hOpens : ¬OpensEscape us i) :
    readFrom tabSize us i =
      (readFrom tabSize us (i + 1)).map
        (((positionAfter tabSize us i).advance c).tag c :: ·) := by
  have hOther := mt (opensEscape_iff hUnit).mpr hOpens
  unfold readFrom
  rw [drop_of_unit hUnit, decodeEscapes_of_other hOther,
    ← oddBefore_succ hUnit, positionAfter_advance tabSize hUnit]

theorem readFrom_of_escape
    {v : Nat}
    (hOpens : OpensEscape us i)
    (hValue : escapeValue? us i = some v) :
    readFrom tabSize us i =
      (readFrom tabSize us (i + escapeLength us i)).map
        ({ ((positionAfter tabSize us i).advance backslash).tag
            backslash with unit := v } :: ·) := by
  rcases (opensEscape_iff hOpens.1).mp hOpens with
    ⟨-, hEven, hLetter⟩
  rcases List.getElem?_eq_some_iff.mp hOpens.1 with ⟨hLt, -⟩
  rcases hexDigits_of_escapeValue hValue with ⟨ds, hDigits, rfl⟩
  unfold readFrom
  rw [hEven, oddBefore_escape hValue hLt,
    drop_of_unit hOpens.1,
    decodeEscapes_of_digits (sound_positionAfter tabSize us i)
      hLetter hDigits,
    ← positionAfter_advance tabSize hOpens.1,
    ← positionAfter_add, List.drop_drop]
  unfold escapeLength
  rw [Nat.add_assoc]

theorem readFrom_of_error
    (hOpens : OpensEscape us i)
    (hValue : escapeValue? us i = none) :
    ∃ failure, readFrom tabSize us i = .error failure := by
  rcases (opensEscape_iff hOpens.1).mp hOpens with
    ⟨-, hEven, hLetter⟩
  unfold readFrom
  rw [hEven, drop_of_unit hOpens.1]
  exact decodeEscapes_of_no_digits hLetter
    (Option.map_eq_none_iff.mp hValue)

/- Outside the escapes the reader reads what is expected. -/
theorem reads_readFrom
    (hLe : i ≤ us.length)
    (hOutside : ¬WithinEscape us i) :
    Reads us (placeUnits (.start tabSize) us) i
      (readFrom tabSize us i) := by
  -- The index grows, by one unit or by an escape at a time.
  induction hLeft : us.length - i using Nat.strongRecOn
    generalizing i with
  | ind n ih =>
      rcases Nat.eq_or_lt_of_le hLe with rfl | hLt
      · unfold readFrom
        rw [List.drop_length]
        exact reads_end
      have hUnit := List.getElem?_eq_getElem hLt
      by_cases hOpens : OpensEscape us i
      · have hRaw := placeUnits_of_unit tabSize hOpens.1
        cases hValue : escapeValue? us i with
        | none =>
            rcases readFrom_of_error tabSize hOpens hValue with
              ⟨failure, hError⟩
            rw [hError]
            exact Reads.error failure hOpens hValue
        | some v =>
            have hPos : 0 < escapeLength us i :=
              Nat.add_pos_left Nat.zero_lt_one _
            rw [readFrom_of_escape tabSize hOpens hValue]
            exact Reads.escape hOpens hOutside hValue hRaw
              (ih _ (by omega) (escapeLength_le hValue hLt)
                (not_withinEscape_behind hValue hOutside) rfl)
      · have hRaw := placeUnits_of_unit tabSize hUnit
        rw [readFrom_of_other tabSize hUnit hOpens]
        exact Reads.other hUnit hOpens hOutside hRaw rfl
          (ih _ (by omega) hLt
            (not_withinEscape_succ hOpens hOutside) rfl)

end Reading

------------------------------------------------------------
-- Reading a text
------------------------------------------------------------

/-
  Reading a text with escapes succeeds exactly when every
  escape has its digits.  It gives the units of the text, each
  escape replaced by its value, and every unit stands where
  reading without escapes places it, an escape at its
  backslash.
-/
theorem decode_escapes
    (text : String)
    (tabSize : Nat) :
    ∃ raw,
      decode text tabSize false = .ok raw ∧
        ((∃ placed, decode text tabSize true = .ok placed) ↔
          ∀ i, OpensEscape (Text.units text) i →
            (escapeValue? (Text.units text) i).isSome = true) ∧
        ∀ placed, decode text tabSize true = .ok placed →
          placed =
            (List.range (Text.units text).length).filterMap
              (decodedAt (Text.units text) raw) := by
  have hReads := reads_readFrom tabSize
    (Nat.zero_le (Text.units text).length)
    (fun ⟨j, hLt, _⟩ => absurd hLt (Nat.not_lt_zero j))
  have hDecode : decode text tabSize true =
      readFrom tabSize (Text.units text) 0 := rfl
  refine ⟨_, rfl, ?_⟩
  rw [hDecode]
  cases hRead : readFrom tabSize (Text.units text) 0 with
  | error failure =>
      rw [hRead] at hReads
      rcases hReads with ⟨j, -, hOpens, hValue⟩
      refine ⟨⟨?_, ?_⟩, ?_⟩
      · rintro ⟨placed, hPlaced⟩
        cases hPlaced
      · intro hValues
        have hSome := hValues j hOpens
        rw [hValue] at hSome
        exact absurd hSome Bool.false_ne_true
      · intro placed hPlaced
        cases hPlaced
  | ok placed =>
      rw [hRead] at hReads
      rcases hReads with ⟨hValues, hPlaced⟩
      refine ⟨⟨?_, ?_⟩, ?_⟩
      · intro _ j
        exact hValues j (Nat.zero_le j)
      · intro _
        exact ⟨placed, rfl⟩
      · rintro _ ⟨rfl⟩
        rw [List.range_eq_range']
        exact hPlaced

/- A run of two backslashes opens nothing, the third one does. -/
example :
    (decodeEscapes (.start 1) (.plain false)
        (Text.units "\\\\\\u0041\\\\u")).toOption =
      some [⟨0x5c, 1, 1⟩, ⟨0x5c, 1, 2⟩, ⟨0x41, 1, 3⟩,
        ⟨0x5c, 1, 9⟩, ⟨0x5c, 1, 10⟩, ⟨0x75, 1, 11⟩] := by
  decide

end Descent
