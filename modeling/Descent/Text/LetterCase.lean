import Descent.Text.CaseTable
import Descent.Text.Units

/-
  This file defines letter case: the one-character maps that
  a scanner compares with, which stay within the 16-bit range,
  and the full upper case form of a text.

  Key definitions include:
    * `lowerUnit`
    * `upperUnit`
    * `caseVariants`
    * `upperText`
    * `isCaseless`
-/

namespace Descent.Text

------------------------------------------------------------
-- Maps of one character
------------------------------------------------------------

/-
  The image of a character under the first run that holds it.
  The runs ascend, so those beyond the character are not
  looked at.
-/
def runImage? : List CaseRun → Nat → Option Nat
  | [], _ => none
  | r :: rs, c =>
      if c < r.first then
        none
      else
        match r.image? c with
        | some d => some d
        | none => runImage? rs c

/-
  The image under the runs, or the character itself when it
  has none within the 16-bit range.
-/
def mapUnit
    (runs : List CaseRun)
    (c : Nat) : Nat :=
  match runImage? runs c with
  | some d => if d ≤ maxUnit then d else c
  | none => c

/- The lower case form of a unit. -/
def lowerUnit
    (c : Nat) : Nat :=
  mapUnit lowerRuns c

/- The upper case form of a unit. -/
def upperUnit
    (c : Nat) : Nat :=
  mapUnit upperRuns c

/- Append a value unless it is already there. -/
def pushNew
    (xs : List Nat)
    (x : Nat) : List Nat :=
  if xs.contains x then xs else xs ++ [x]

/- A unit with its lower and upper case forms, each once. -/
def caseVariants
    (c : Nat) : List Nat :=
  pushNew (pushNew [c] (lowerUnit c)) (upperUnit c)

------------------------------------------------------------
-- Maps of a whole text
------------------------------------------------------------

/- The full image of a code point: longer forms come first. -/
def fullImage
    (expansions : List (Nat × List Nat))
    (runs : List CaseRun)
    (c : Nat) : List Nat :=
  match expansions.lookup c with
  | some image => image
  | none => [(runImage? runs c).getD c]

/- The full lower case form of a code point. -/
def fullLower
    (c : Nat) : List Nat :=
  fullImage lowerExpansions lowerRuns c

/- The full upper case form of a code point. -/
def fullUpper
    (c : Nat) : List Nat :=
  fullImage upperExpansions upperRuns c

/- The upper case form of a text. -/
def upperText
    (s : String) : String :=
  String.ofList
    (s.toList.flatMap fun c =>
      (fullUpper c.toNat).map Char.ofNat)

/- Both full case maps leave every character of the text alone. -/
def isCaseless
    (s : String) : Bool :=
  s.toList.all fun c =>
    fullLower c.toNat == [c.toNat] && fullUpper c.toNat == [c.toNat]

end Descent.Text
