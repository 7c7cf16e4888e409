/-
  This file defines the view of a text as a sequence of
  16-bit units, the alphabet of every scanner built here, and
  the way back, which replaces an unpaired surrogate.

  Key definitions include:
    * `maxUnit`
    * `charUnits`
    * `units`
    * `ofUnits`
    * `ofUnits?`
-/

namespace Descent.Text

/- The largest unit. -/
def maxUnit : Nat := 0xffff

------------------------------------------------------------
-- From text to units
------------------------------------------------------------

/-
  The units of one code point: itself, or above the 16-bit
  range a high surrogate followed by a low one.
-/
def codePointUnits
    (c : Nat) : List Nat :=
  if c ≤ maxUnit then
    [c]
  else
    [0xd800 + (c - 0x10000) / 0x400,
     0xdc00 + (c - 0x10000) % 0x400]

/- The units of one character. -/
def charUnits
    (c : Char) : List Nat :=
  codePointUnits c.toNat

/- The units of a text, in order. -/
def units
    (s : String) : List Nat :=
  s.toList.flatMap charUnits

------------------------------------------------------------
-- From units to text
------------------------------------------------------------

/- The first half of a surrogate pair. -/
def isHighSurrogate
    (u : Nat) : Bool :=
  0xd800 ≤ u && u < 0xdc00

/- The second half of a surrogate pair. -/
def isLowSurrogate
    (u : Nat) : Bool :=
  0xdc00 ≤ u && u < 0xe000

/- A unit that stands for no character on its own. -/
def isSurrogate
    (u : Nat) : Bool :=
  0xd800 ≤ u && u < 0xe000

/- The code point of a surrogate pair. -/
def pairCodePoint
    (high low : Nat) : Nat :=
  0x10000 + (high - 0xd800) * 0x400 + (low - 0xdc00)

/-
  The code points of a unit sequence, `none` for each
  surrogate without a partner.
-/
def codePoints : List Nat → List (Option Nat)
  | [] => []
  | [u] => [if isSurrogate u then none else some u]
  | u :: v :: rest =>
      if isHighSurrogate u && isLowSurrogate v then
        some (pairCodePoint u v) :: codePoints rest
      else
        (if isSurrogate u then none else some u) :: codePoints (v :: rest)

/- The character that stands for an unpaired surrogate. -/
def replacementChar : Char :=
  Char.ofNat 0xfffd

/- The text of a unit sequence, with unpaired surrogates replaced. -/
def ofUnits
    (us : List Nat) : String :=
  String.ofList
    ((codePoints us).map fun
      | some c => Char.ofNat c
      | none => replacementChar)

/- The text of a unit sequence, if it has no unpaired surrogate. -/
def ofUnits?
    (us : List Nat) : Option String :=
  ((codePoints us).mapM id).map fun cs =>
    String.ofList (cs.map Char.ofNat)

end Descent.Text
