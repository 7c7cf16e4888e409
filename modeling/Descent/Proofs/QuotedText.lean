import Descent.Proofs.UnicodeEscapes
import Descent.Proofs.Units
import Descent.Text.Escape

/-
  Texts in string literals.

  A text is written with short escapes of two characters and
  with unicode escapes.  The reader of unicode escapes leaves
  the short ones alone, and it is misled by none of them: every
  character is written by a piece of text that is read from an
  even run of backslashes and leaves such a run behind.  Once
  the short escapes are replaced, the text is back.

  Main declarations:
    * `readShort`
    * `toList_hex4`
    * `ReadsAs` and `readsAs_escapeChar`
    * `readShort_decode_escape`
-/

------------------------------------------------------------
-- Short escapes
------------------------------------------------------------

namespace Descent

/- The character that a letter stands for behind a backslash. -/
def escapedChar? : Nat → Option Nat
  | 0x62 => some 0x08
  | 0x74 => some 0x09
  | 0x6e => some 0x0a
  | 0x66 => some 0x0c
  | 0x72 => some 0x0d
  | 0x22 => some 0x22
  | 0x27 => some 0x27
  | 0x5c => some 0x5c
  | _ => none

/- Replace the short escapes, from left to right. -/
def readShort : List Nat → List Nat
  | [] => []
  | [c] => [c]
  | c :: d :: rest =>
      match if c = backslash then escapedChar? d else none with
      | some e => e :: readShort rest
      | none => c :: readShort (d :: rest)

theorem readShort_escape
    {d e : Nat}
    (hEscape : escapedChar? d = some e)
    (rest : List Nat) :
    readShort (backslash :: d :: rest) = e :: readShort rest := by
  rw [readShort, if_pos rfl, hEscape]

theorem readShort_other
    {c : Nat}
    (hOther : c ≠ backslash)
    (rest : List Nat) :
    readShort (c :: rest) = c :: readShort rest := by
  cases rest with
  | nil => rfl
  | cons d rest => rw [readShort, if_neg hOther]

------------------------------------------------------------
-- Hexadecimal digits
------------------------------------------------------------

/- A number in at least so many hexadecimal digits. -/
def paddedHex
    (width n : Nat) : List Char :=
  List.replicate (width - (Nat.toDigits 16 n).length) '0' ++
    Nat.toDigits 16 n

theorem paddedHex_one
    {n : Nat}
    (hDigit : n < 16) :
    paddedHex 1 n = [n.digitChar] := by
  unfold paddedHex
  rw [Nat.toDigits_of_lt_base hDigit]
  rfl

/- The last digit is the remainder. -/
theorem paddedHex_succ
    {width : Nat}
    (hWidth : 0 < width)
    (n : Nat) :
    paddedHex (width + 1) n =
      paddedHex width (n / 16) ++ [(n % 16).digitChar] := by
  unfold paddedHex
  by_cases hDigit : n < 16
  · obtain ⟨k, rfl⟩ : ∃ k, width = k + 1 :=
      ⟨width - 1, (Nat.sub_add_cancel hWidth).symm⟩
    have hZeros : List.replicate (k + 1) '0' =
        List.replicate k '0' ++ ['0'] :=
      List.replicate_succ'
    rw [Nat.toDigits_of_lt_base hDigit,
      Nat.div_eq_of_lt hDigit, Nat.mod_eq_of_lt hDigit,
      Nat.toDigits_zero]
    simp only [List.length_singleton, Nat.add_sub_cancel]
    rw [hZeros]
  · rw [Nat.toDigits_of_base_le (by decide) (Nat.not_lt.mp hDigit),
      List.length_append, List.length_singleton,
      Nat.add_sub_add_right, List.append_assoc]

/- A unit has four digits. -/
theorem toList_hex4
    {n : Nat}
    (hUnit : n ≤ Text.maxUnit) :
    (Text.hex4 n).toList =
      [(n / 4096).digitChar, (n / 256 % 16).digitChar,
        (n / 16 % 16).digitChar, (n % 16).digitChar] := by
  have hLast : n / 16 / 16 / 16 < 16 := by
    unfold Text.maxUnit at hUnit
    omega
  have hPadded : (Text.hex4 n).toList = paddedHex 4 n :=
    String.toList_ofList
  have hSecond : n / 16 / 16 = n / 256 :=
    Nat.div_div_eq_div_mul n 16 16
  have hFirst : n / 256 / 16 = n / 4096 :=
    Nat.div_div_eq_div_mul n 256 16
  rw [hPadded, paddedHex_succ (by decide),
    paddedHex_succ (by decide), paddedHex_succ (by decide),
    paddedHex_one hLast, hSecond, hFirst]
  rfl

theorem hexValue?_digitChar :
    ∀ d < 16, hexValue? (Nat.digitChar d).toNat = some d := by
  decide

------------------------------------------------------------
-- Pieces of text
------------------------------------------------------------

/-
  A piece of text is read as these units, whatever comes
  behind it, and leaves no odd run of backslashes.
-/
def ReadsAs
    (piece us : List Nat) : Prop :=
  ∀ p rest, ∃ p' placed,
    decodeEscapes p (.plain false) (piece ++ rest) =
        (decodeEscapes p' (.plain false) rest).map
          (placed ++ ·) ∧
      placed.map (·.unit) = us

theorem readsAs_nil :
    ReadsAs [] [] := by
  intro p rest
  refine ⟨p, [], ?_, rfl⟩
  rw [List.nil_append]
  cases decodeEscapes p (.plain false) rest with
  | error failure => rfl
  | ok placed => rfl

theorem ReadsAs.append
    {piece us piece' us' : List Nat}
    (hFirst : ReadsAs piece us)
    (hSecond : ReadsAs piece' us') :
    ReadsAs (piece ++ piece') (us ++ us') := by
  intro p rest
  rcases hFirst p (piece' ++ rest) with ⟨p₁, placed₁, hRead₁, rfl⟩
  rcases hSecond p₁ rest with ⟨p₂, placed₂, hRead₂, rfl⟩
  refine ⟨p₂, placed₁ ++ placed₂, ?_, List.map_append⟩
  rw [List.append_assoc, hRead₁, hRead₂]
  cases decodeEscapes p₂ (.plain false) rest with
  | error failure => rfl
  | ok placed =>
      exact congrArg Except.ok
        (List.append_assoc placed₁ placed₂ placed).symm

/- A unit that is no backslash is read as itself. -/
theorem readsAs_other
    {c : Nat}
    (hOther : c ≠ backslash) :
    ReadsAs [c] [c] := by
  intro p rest
  refine ⟨p.advance c, [(p.advance c).tag c], ?_, rfl⟩
  rw [List.singleton_append,
    decodeEscapes_of_other fun h => hOther h.1,
    beq_eq_false_iff_ne.mpr hOther]
  rfl

/- A backslash and a unit that is not the letter stay. -/
theorem readsAs_short
    {d : Nat}
    (hLetter : d ≠ letterU) :
    ReadsAs [backslash, d] [backslash, d] := by
  intro p rest
  let p₁ := p.advance backslash
  let p₂ := p₁.advance d
  refine ⟨p₂, [p₁.tag backslash, p₂.tag d], ?_, rfl⟩
  have hOpens : ¬ (backslash = backslash ∧ false = false ∧
      (d :: rest).head? = some letterU) :=
    fun h => hLetter (Option.some.inj h.2.2)
  have hSecond : ¬ (d = backslash ∧ true = false ∧
      rest.head? = some letterU) :=
    fun h => Bool.false_ne_true h.2.1.symm
  have hOdd : (backslash == backslash && !false) = true := rfl
  rw [List.cons_append, List.singleton_append,
    decodeEscapes_of_other hOpens, hOdd,
    -- The second unit ends the run, even if it is a backslash.
    decodeEscapes_of_other hSecond, Bool.not_true,
    Bool.and_false]
  cases decodeEscapes p₂ (.plain false) rest with
  | error failure => rfl
  | ok placed => rfl

theorem units_append
    (s t : String) :
    Text.units (s ++ t) = Text.units s ++ Text.units t := by
  unfold Text.units
  rw [String.toList_append, List.flatMap_append]

theorem units_join
    (pieces : List String) :
    Text.units (String.join pieces) =
      pieces.flatMap Text.units := by
  induction pieces with
  | nil => rfl
  | cons s pieces ih =>
      rw [String.join_cons, units_append, ih, List.flatMap_cons]

theorem charUnits_digitChar :
    ∀ d < 16, Text.charUnits (Nat.digitChar d) =
      [(Nat.digitChar d).toNat] := by
  decide

/- The units of a unicode escape. -/
theorem units_unitEscape
    {u : Nat}
    (hUnit : u ≤ Text.maxUnit) :
    Text.units (Text.unitEscape u) =
      backslash :: letterU ::
        [(u / 4096).digitChar.toNat,
          (u / 256 % 16).digitChar.toNat,
          (u / 16 % 16).digitChar.toNat,
          (u % 16).digitChar.toNat] := by
  have hHigh : u / 4096 < 16 := by
    unfold Text.maxUnit at hUnit
    omega
  have hDigit : ∀ n, Text.charUnits (n % 16).digitChar =
      [(n % 16).digitChar.toNat] :=
    fun n => charUnits_digitChar _ (Nat.mod_lt n (by decide))
  have hOpening : Text.units "\\u" = [backslash, letterU] := by
    decide
  unfold Text.unitEscape
  rw [units_append, hOpening, Text.units, toList_hex4 hUnit]
  simp only [List.flatMap_cons, List.flatMap_nil, hDigit,
    charUnits_digitChar _ hHigh]
  rfl

/- A unicode escape is read as its unit. -/
theorem readsAs_unitEscape
    {u : Nat}
    (hUnit : u ≤ Text.maxUnit) :
    ReadsAs (Text.units (Text.unitEscape u)) [u] := by
  have hHigh := hexValue?_digitChar (u / 4096) (by
    unfold Text.maxUnit at hUnit
    omega)
  have hDigit : ∀ n, hexValue? (n % 16).digitChar.toNat =
      some (n % 16) :=
    fun n => hexValue?_digitChar _ (Nat.mod_lt n (by decide))
  have hNotLetter : (u / 4096).digitChar.toNat ≠ letterU := by
    intro hSame
    rw [hSame] at hHigh
    cases hHigh
  have hNumber :
      hexNumber 0 [u / 4096, u / 256 % 16, u / 16 % 16,
        u % 16] = u := by
    simp only [hexNumber, List.foldl_cons, List.foldl_nil]
    omega
  intro p rest
  rw [units_unitEscape hUnit]
  simp only [List.cons_append, List.nil_append]
  rw [decodeEscapes_opening rfl, decodeEscapes,
    decodeEscapes_marked, letters_cons_of_ne hNotLetter,
    List.drop_zero, hexDigits?_cons hHigh,
    hexDigits?_cons (hDigit _), hexDigits?_cons (hDigit _),
    hexDigits?_cons (hDigit _), hexDigits?]
  simp only [Option.map_some, hNumber]
  exact ⟨_, [{ (p.advance backslash).tag backslash with
    unit := u }], rfl, rfl⟩

------------------------------------------------------------
-- Characters
------------------------------------------------------------

/- Units without a backslash are read one after another. -/
theorem readShort_append
    {us : List Nat}
    (hOther : backslash ∉ us)
    (rest : List Nat) :
    readShort (us ++ rest) = us ++ readShort rest := by
  induction us with
  | nil => rfl
  | cons u us ih =>
      rw [List.mem_cons, not_or] at hOther
      rw [List.cons_append, readShort_other (Ne.symm hOther.1),
        ih hOther.2, List.cons_append]

/- Several unicode escapes are read as their units. -/
theorem readsAs_unitEscapes
    {us : List Nat}
    (hUnits : ∀ u ∈ us, u ≤ Text.maxUnit) :
    ReadsAs (Text.units (String.join (us.map Text.unitEscape)))
      us := by
  rw [units_join]
  induction us with
  | nil => exact readsAs_nil
  | cons u us ih =>
      rw [List.forall_mem_cons] at hUnits
      exact (readsAs_unitEscape hUnits.1).append (ih hUnits.2)

/- Only the backslash has a backslash among its units. -/
theorem backslash_notMem_charUnits
    {c : Char}
    (hOther : c.toNat ≠ backslash) :
    backslash ∉ Text.charUnits c := by
  intro hMem
  unfold Text.charUnits Text.codePointUnits at hMem
  split at hMem
  · exact hOther (List.mem_singleton.mp hMem).symm
  · rw [List.mem_pair] at hMem
    unfold backslash at hMem
    omega

/- A character has a short escape, or none and is no backslash. -/
theorem escapeChar_cases
    (c : Char) :
    (∃ d, d ≠ letterU ∧ escapedChar? d = some c.toNat ∧
        c.toNat ≤ Text.maxUnit ∧
        Text.units (Text.escapeChar c) = [backslash, d]) ∨
      c.toNat ≠ backslash ∧
        Text.escapeChar c =
          if Text.isPrintable c then String.singleton c
          else String.join
            ((Text.charUnits c).map Text.unitEscape) := by
  have hShort : ∀ (n : Nat) (s : String) (d : Nat),
      c.toNat = n → d ≠ letterU ∧ escapedChar? d = some n ∧
        n ≤ Text.maxUnit ∧ Text.units s = [backslash, d] →
      ∃ d, d ≠ letterU ∧ escapedChar? d = some c.toNat ∧
        c.toNat ≤ Text.maxUnit ∧
        Text.units s = [backslash, d] := by
    rintro _ s d rfl hEscape
    exact ⟨d, hEscape⟩
  unfold Text.escapeChar
  split
  · next h => exact .inl (hShort 0x08 _ 0x62 h (by decide))
  · next h => exact .inl (hShort 0x09 _ 0x74 h (by decide))
  · next h => exact .inl (hShort 0x0a _ 0x6e h (by decide))
  · next h => exact .inl (hShort 0x0c _ 0x66 h (by decide))
  · next h => exact .inl (hShort 0x0d _ 0x72 h (by decide))
  · next h => exact .inl (hShort 0x22 _ 0x22 h (by decide))
  · next h => exact .inl (hShort 0x27 _ 0x27 h (by decide))
  · next h => exact .inl (hShort 0x5c _ 0x5c h (by decide))
  · next hBackslash => exact .inr ⟨hBackslash, rfl⟩

/-
  A character is read as units that stand for it, once short
  escapes are replaced.
-/
theorem readsAs_escapeChar
    (c : Char) :
    ∃ us, ReadsAs (Text.units (Text.escapeChar c)) us ∧
      ∀ rest, readShort (us ++ rest) =
        Text.charUnits c ++ readShort rest := by
  rcases escapeChar_cases c with
    ⟨d, hLetter, hEscape, hUnit, hUnits⟩ | ⟨hOther, hText⟩
  · refine ⟨[backslash, d], hUnits ▸ readsAs_short hLetter, ?_⟩
    intro rest
    unfold Text.charUnits Text.codePointUnits
    rw [if_pos hUnit]
    exact readShort_escape hEscape rest
  · refine ⟨Text.charUnits c, ?_,
      readShort_append (backslash_notMem_charUnits hOther)⟩
    rw [hText]
    split
    · next hPrintable =>
        have hUnits : Text.charUnits c = [c.toNat] := by
          unfold Text.isPrintable at hPrintable
          unfold Text.charUnits Text.codePointUnits Text.maxUnit
          simp only [Bool.and_eq_true, decide_eq_true_eq]
            at hPrintable
          rw [if_pos (by omega)]
        have hSingle : Text.units (String.singleton c) =
            Text.charUnits c := by
          unfold Text.units
          rw [String.toList_singleton, List.flatMap_singleton]
        rw [hSingle, hUnits]
        exact readsAs_other hOther
    · exact readsAs_unitEscapes
        (fun u hu => Text.charUnits_le c hu)

------------------------------------------------------------
-- Texts
------------------------------------------------------------

/- Characters are read one after another. -/
theorem readsAs_escapeChars
    (cs : List Char) :
    ∃ us, ReadsAs
        (cs.flatMap fun c => Text.units (Text.escapeChar c)) us ∧
      readShort us = cs.flatMap Text.charUnits := by
  induction cs with
  | nil => exact ⟨[], readsAs_nil, rfl⟩
  | cons c cs ih =>
      rcases readsAs_escapeChar c with ⟨us, hReads, hShort⟩
      rcases ih with ⟨more, hMore, hRest⟩
      refine ⟨us ++ more, hReads.append hMore, ?_⟩
      rw [hShort, hRest, List.flatMap_cons]

/-
  A text as it stands in a string literal is read without
  error, and once the short escapes are replaced from left to
  right, its units are those of the text.
-/
theorem readShort_decode_escape
    (s : String)
    (tabSize : Nat) :
    ∃ placed,
      decode (Text.escape s) tabSize true = .ok placed ∧
        readShort (placed.map (·.unit)) = Text.units s := by
  rcases readsAs_escapeChars s.toList with ⟨us, hReads, hShort⟩
  rcases hReads (.start tabSize) [] with
    ⟨p, placed, hRead, rfl⟩
  refine ⟨placed, ?_, hShort⟩
  have hUnits : Text.units (Text.escape s) =
      s.toList.flatMap fun c =>
        Text.units (Text.escapeChar c) := by
    unfold Text.escape
    rw [units_join, List.flatMap_map]
  have hEnd : decodeEscapes p (.plain false) [] = .ok [] := by
    rw [decodeEscapes]
  rw [List.append_nil, hEnd] at hRead
  show decodeEscapes (.start tabSize) (.plain false)
    (Text.units (Text.escape s)) = .ok placed
  rw [hUnits, hRead]
  exact congrArg Except.ok (List.append_nil placed)

/- Two backslashes before a letter are no escape of a unit. -/
example :
    (decode (Text.escape "\\u0041\u00e9") 8 true).toOption.map
        (fun placed => readShort (placed.map (·.unit))) =
      some [0x5c, 0x75, 0x30, 0x30, 0x34, 0x31, 0xe9] := by
  cbv

end Descent
