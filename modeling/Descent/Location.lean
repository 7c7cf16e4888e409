/-
  This file defines source positions.

  Key definitions include:
    * `Location`
-/

namespace Descent

/- A line and a column, both counted from one. -/
structure Location where
  line : Nat := 0
  column : Nat := 0
  deriving Repr, DecidableEq, Inhabited

end Descent
