/-
  This file defines the languages of generated code.

  Key definitions include:
    * `Language`
-/

namespace Descent

/- A language in which code is generated or written by hand. -/
inductive Language where
  | java
  | cpp
  deriving Repr, DecidableEq, Inhabited

end Descent
