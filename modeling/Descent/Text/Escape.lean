import Descent.Text.Units

/-
  This file defines how texts are written inside the string
  literals and trace lines of generated code, and the blanks
  that are trimmed from the texts copied into it.

  Key definitions include:
    * `hex`
    * `escape`
    * `escapeUnicode`
    * `trim`
-/

namespace Descent.Text

------------------------------------------------------------
-- Numbers
------------------------------------------------------------

/- A number in lower case hexadecimal digits. -/
def hex
    (n : Nat) : String :=
  String.ofList (Nat.toDigits 16 n)

/- A number in at least four hexadecimal digits. -/
def hex4
    (n : Nat) : String :=
  let ds := Nat.toDigits 16 n
  String.ofList (List.replicate (4 - ds.length) '0' ++ ds)

/- The escape of one unit. -/
def unitEscape
    (u : Nat) : String :=
  "\\u" ++ hex4 u

------------------------------------------------------------
-- String literals
------------------------------------------------------------

/- A character that is written as itself in a trace line. -/
def isPrintable
    (c : Char) : Bool :=
  0x20 ≤ c.toNat && c.toNat ≤ 0x7e

/-
  A character as it stands in a string literal: the short
  escapes first, then itself if it is printable, else one
  escape for each of its units.
-/
def escapeChar
    (c : Char) : String :=
  match c.toNat with
  | 0x08 => "\\b"
  | 0x09 => "\\t"
  | 0x0a => "\\n"
  | 0x0c => "\\f"
  | 0x0d => "\\r"
  | 0x22 => "\\\""
  | 0x27 => "\\'"
  | 0x5c => "\\\\"
  | _ =>
      if isPrintable c then
        String.singleton c
      else
        String.join ((charUnits c).map unitEscape)

/- A text as it stands in a string literal. -/
def escape
    (s : String) : String :=
  String.join (s.toList.map escapeChar)

/-
  A text as it stands in a trace line: characters that are
  not printable become one escape of the whole code point.
-/
def escapeUnicode
    (s : String) : String :=
  String.join
    (s.toList.map fun c =>
      if isPrintable c then String.singleton c else unitEscape c.toNat)

------------------------------------------------------------
-- Blanks
------------------------------------------------------------

/- A white space character in the sense of Unicode. -/
def isBlank
    (c : Char) : Bool :=
  let n := c.toNat
  (0x09 ≤ n && n ≤ 0x0d) || n == 0x20 || n == 0x85 || n == 0xa0 || n == 0x1680 ||
    (0x2000 ≤ n && n ≤ 0x200a) || n == 0x2028 || n == 0x2029 || n == 0x202f ||
    n == 0x205f || n == 0x3000

/- A text without the blanks at its two ends. -/
def trim
    (s : String) : String :=
  String.ofList
    (((s.toList.dropWhile isBlank).reverse.dropWhile isBlank).reverse)

end Descent.Text
