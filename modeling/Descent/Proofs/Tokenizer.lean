import Descent.Proofs.LongestMatch

/-
  A tokenizer by longest matches.

  `Tokenizes` says what the tokens of a text are when at every
  offset the longest match counts, with the smallest kind that
  has it: a token is handed on, a special token is kept for
  the next token, a skipped match is forgotten, and a match
  that asks for more is continued.  A scanner that chooses
  these matches hands on these tokens.

  Main declarations:
    * `Rules`
    * `Scans` and `Tokenizes`
    * `Tokenizes.unique`
    * `Follows`
    * `Scanner.tokens?_spec`
-/

------------------------------------------------------------
-- Tokens by longest matches
------------------------------------------------------------

namespace Descent

open Text (maxUnit)

/-
  What a tokenizer goes by: which kinds match a text in a
  lexical state, the class of each kind, and the lexical state
  after it.
-/
structure Rules where
  matching : Nat → Matching
  cls : Kind → TokenClass
  next : Kind → Option Nat

/- The units of a text from an offset on. -/
def unitsFrom
    (us : Array SourceUnit)
    (offset : Nat) : List Nat :=
  (us.toList.drop offset).map (·.unit)

/- The place of a unit; beyond the text it is that of the last one. -/
def placeAt
    (us : Array SourceUnit)
    (offset : Nat) : Location :=
  ({ units := us } : Input).placeOf offset

/-
  The text between two offsets, as a match of a kind: from the
  place of its first unit to that of its last one.
-/
def lexemeAt
    (us : Array SourceUnit)
    (kind : Kind)
    (start stop : Nat) : Lexeme :=
  { kind := kind,
    image :=
      Text.ofUnits ((unitsFrom us start).take (stop - start)),
    start := placeAt us start,
    stop :=
      if start < stop then placeAt us (stop - 1)
      else placeAt us start }

/- What comes of the search for one token. -/
inductive Outcome where
  | failure
  | endOfFile (t : Token)
  /- A token, and the lexical state and the offset after it. -/
  | token (t : Token) (state offset : Nat)

/-
  One token by longest matches: from a lexical state, with the
  offset where the token begins, the offset where the next
  match begins, and the special tokens so far.
-/
inductive Scans
    (r : Rules)
    (us : Array SourceUnit) :
    Nat → Nat → Nat → List Lexeme → Outcome → Prop where
  | endOfFile
      {state offset : Nat}
      {specials : List Lexeme}
      (hEnd : us.size ≤ offset) :
      Scans r us state offset offset specials
        (.endOfFile ⟨lexemeAt us 0 offset offset, specials⟩)
  | noMatch
      {state start offset : Nat}
      {specials : List Lexeme}
      (hInside : offset < us.size)
      (hNone :
        NoMatch (r.matching state) (unitsFrom us offset)) :
      Scans r us state start offset specials .failure
  | token
      {state start offset n k : Nat}
      {specials : List Lexeme}
      (hLongest :
        Longest (r.matching state) (unitsFrom us offset) n k)
      (hClass : r.cls k = .token) :
      Scans r us state start offset specials
        (.token
          ⟨lexemeAt us k start (offset + n), specials⟩
          ((r.next k).getD state) (offset + n))
  | special
      {state start offset n k : Nat}
      {specials : List Lexeme}
      {out : Outcome}
      (hLongest :
        Longest (r.matching state) (unitsFrom us offset) n k)
      (hClass : r.cls k = .special)
      (hRest :
        Scans r us ((r.next k).getD state) (offset + n)
          (offset + n)
          (specials ++ [lexemeAt us k start (offset + n)])
          out) :
      Scans r us state start offset specials out
  | skip
      {state start offset n k : Nat}
      {specials : List Lexeme}
      {out : Outcome}
      (hLongest :
        Longest (r.matching state) (unitsFrom us offset) n k)
      (hClass : r.cls k = .skip)
      (hRest :
        Scans r us ((r.next k).getD state) (offset + n)
          (offset + n) specials out) :
      Scans r us state start offset specials out
  | more
      {state start offset n k : Nat}
      {specials : List Lexeme}
      {out : Outcome}
      (hLongest :
        Longest (r.matching state) (unitsFrom us offset) n k)
      (hClass : r.cls k = .more)
      (hInside : offset + n < us.size)
      (hRest :
        Scans r us ((r.next k).getD state) start (offset + n)
          specials out) :
      Scans r us state start offset specials out
  | moreAtEnd
      {state start offset n k : Nat}
      {specials : List Lexeme}
      (hLongest :
        Longest (r.matching state) (unitsFrom us offset) n k)
      (hClass : r.cls k = .more)
      (hEnd : us.size ≤ offset + n) :
      Scans r us state start offset specials .failure

/-
  The tokens of a text from a lexical state and an offset on,
  up to the end of the file, or nothing if the search for a
  token fails.
-/
inductive Tokenizes
    (r : Rules)
    (us : Array SourceUnit) :
    Nat → Nat → Option (List Token) → Prop where
  | failure
      {state offset : Nat}
      (hScans : Scans r us state offset offset [] .failure) :
      Tokenizes r us state offset none
  | endOfFile
      {state offset : Nat}
      {t : Token}
      (hScans :
        Scans r us state offset offset [] (.endOfFile t)) :
      Tokenizes r us state offset (some [t])
  | token
      {state offset state' offset' : Nat}
      {t : Token}
      {out : Option (List Token)}
      (hScans :
        Scans r us state offset offset []
          (.token t state' offset'))
      (hRest : Tokenizes r us state' offset' out) :
      Tokenizes r us state offset (out.map (t :: ·))

------------------------------------------------------------
-- One result
------------------------------------------------------------

section Unique

variable {r : Rules} {us : Array SourceUnit}

theorem length_unitsFrom
    (us : Array SourceUnit)
    (offset : Nat) :
    (unitsFrom us offset).length = us.size - offset := by
  unfold unitsFrom
  rw [List.length_map, List.length_drop, Array.length_toList]

theorem inside_of_longest
    {M : Matching}
    {offset n k : Nat}
    (hLongest : Longest M (unitsFrom us offset) n k) :
    0 < n ∧ offset + n ≤ us.size := by
  have hPos : 0 < n := hLongest.longer
  have hInside := hLongest.inside
  rw [length_unitsFrom] at hInside
  exact ⟨hPos, by omega⟩

theorem not_longest_of_end
    {M : Matching}
    {offset n k : Nat}
    (hEnd : us.size ≤ offset) :
    ¬ Longest M (unitsFrom us offset) n k := by
  intro hLongest
  have hInside := inside_of_longest hLongest
  omega

/- What is left to do after a longest match, by its class. -/
def AfterMatch
    (r : Rules)
    (us : Array SourceUnit)
    (state start offset n k : Nat)
    (specials : List Lexeme)
    (out : Outcome) : Prop :=
  match r.cls k with
  | .token =>
      out = .token
        ⟨lexemeAt us k start (offset + n), specials⟩
        ((r.next k).getD state) (offset + n)
  | .special =>
      Scans r us ((r.next k).getD state) (offset + n)
        (offset + n)
        (specials ++ [lexemeAt us k start (offset + n)]) out
  | .skip =>
      Scans r us ((r.next k).getD state) (offset + n)
        (offset + n) specials out
  | .more =>
      if offset + n < us.size then
        Scans r us ((r.next k).getD state) start (offset + n)
          specials out
      else out = .failure

/- One match is decided by the longest match there is. -/
theorem scans_iff_of_longest
    {state start offset n k : Nat}
    {specials : List Lexeme}
    {out : Outcome}
    (hLongest :
      Longest (r.matching state) (unitsFrom us offset) n k) :
    Scans r us state start offset specials out ↔
      AfterMatch r us state start offset n k specials out := by
  have hInside := inside_of_longest hLongest
  constructor
  · intro hScans
    unfold AfterMatch
    cases hScans with
    | endOfFile hEnd => omega
    | noMatch _ hNone => exact absurd hNone hLongest.not_none
    | token hLongest' hClass =>
        rcases hLongest.unique hLongest' with ⟨rfl, rfl⟩
        rw [hClass]
    | special hLongest' hClass hRest =>
        rcases hLongest.unique hLongest' with ⟨rfl, rfl⟩
        rwa [hClass]
    | skip hLongest' hClass hRest =>
        rcases hLongest.unique hLongest' with ⟨rfl, rfl⟩
        rwa [hClass]
    | more hLongest' hClass hMore hRest =>
        rcases hLongest.unique hLongest' with ⟨rfl, rfl⟩
        rw [hClass]
        dsimp only
        rwa [if_pos hMore]
    | moreAtEnd hLongest' hClass hEnd =>
        rcases hLongest.unique hLongest' with ⟨rfl, rfl⟩
        rw [hClass]
        dsimp only
        rw [if_neg (not_lt.mpr hEnd)]
  · intro hAfter
    unfold AfterMatch at hAfter
    cases hClass : r.cls k with
    | token =>
        rw [hClass] at hAfter
        rw [hAfter]
        exact .token hLongest hClass
    | special =>
        rw [hClass] at hAfter
        exact .special hLongest hClass hAfter
    | skip =>
        rw [hClass] at hAfter
        exact .skip hLongest hClass hAfter
    | more =>
        rw [hClass] at hAfter
        dsimp only at hAfter
        split at hAfter
        · next hMore =>
            exact .more hLongest hClass hMore hAfter
        · next hEnd =>
            rw [hAfter]
            exact .moreAtEnd hLongest hClass (not_lt.mp hEnd)

/- There is one longest match, so there is one outcome. -/
theorem Scans.unique
    {state start offset : Nat}
    {specials : List Lexeme}
    {out out' : Outcome}
    (hFirst : Scans r us state start offset specials out)
    (hSecond : Scans r us state start offset specials out') :
    out = out' := by
  induction hFirst with
  | endOfFile hEnd =>
      cases hSecond with
      | endOfFile _ => rfl
      | noMatch hInside _ => omega
      | token hLongest _ =>
          exact absurd hLongest (not_longest_of_end hEnd)
      | special hLongest _ _ =>
          exact absurd hLongest (not_longest_of_end hEnd)
      | skip hLongest _ _ =>
          exact absurd hLongest (not_longest_of_end hEnd)
      | more hLongest _ _ _ =>
          exact absurd hLongest (not_longest_of_end hEnd)
      | moreAtEnd hLongest _ _ =>
          exact absurd hLongest (not_longest_of_end hEnd)
  | noMatch hInside hNone =>
      cases hSecond with
      | endOfFile hEnd => omega
      | noMatch _ _ => rfl
      | token hLongest _ => exact absurd hNone hLongest.not_none
      | special hLongest _ _ =>
          exact absurd hNone hLongest.not_none
      | skip hLongest _ _ =>
          exact absurd hNone hLongest.not_none
      | more hLongest _ _ _ =>
          exact absurd hNone hLongest.not_none
      | moreAtEnd _ _ _ => rfl
  | token hLongest hClass =>
      rw [scans_iff_of_longest hLongest, AfterMatch, hClass]
        at hSecond
      exact hSecond.symm
  | special hLongest hClass _ ih =>
      rw [scans_iff_of_longest hLongest, AfterMatch, hClass]
        at hSecond
      exact ih hSecond
  | skip hLongest hClass _ ih =>
      rw [scans_iff_of_longest hLongest, AfterMatch, hClass]
        at hSecond
      exact ih hSecond
  | more hLongest hClass hMore _ ih =>
      rw [scans_iff_of_longest hLongest, AfterMatch, hClass]
        at hSecond
      dsimp only at hSecond
      rw [if_pos hMore] at hSecond
      exact ih hSecond
  | moreAtEnd hLongest hClass hEnd =>
      rw [scans_iff_of_longest hLongest, AfterMatch, hClass]
        at hSecond
      dsimp only at hSecond
      rw [if_neg (not_lt.mpr hEnd)] at hSecond
      exact hSecond.symm

/- A text has one list of tokens, or none. -/
theorem Tokenizes.unique
    {state offset : Nat}
    {out out' : Option (List Token)}
    (hFirst : Tokenizes r us state offset out)
    (hSecond : Tokenizes r us state offset out') :
    out = out' := by
  induction hFirst generalizing out' with
  | failure hScans =>
      cases hSecond with
      | failure _ => rfl
      | endOfFile hScans' => cases hScans.unique hScans'
      | token hScans' _ => cases hScans.unique hScans'
  | endOfFile hScans =>
      cases hSecond with
      | failure hScans' => cases hScans.unique hScans'
      | endOfFile hScans' =>
          cases hScans.unique hScans'
          rfl
      | token hScans' _ => cases hScans.unique hScans'
  | token hScans _ ih =>
      cases hSecond with
      | failure hScans' => cases hScans.unique hScans'
      | endOfFile hScans' => cases hScans.unique hScans'
      | token hScans' hRest =>
          cases hScans.unique hScans'
          rw [ih hRest]

/- A token takes at least one unit of the text. -/
theorem Scans.advances
    {state start offset state' offset' : Nat}
    {specials : List Lexeme}
    {t : Token}
    (hScans : Scans r us state start offset specials
      (.token t state' offset')) :
    offset < offset' := by
  generalize hOut : Outcome.token t state' offset' = out
    at hScans
  induction hScans with
  | endOfFile _ => cases hOut
  | noMatch _ _ => cases hOut
  | moreAtEnd _ _ _ => cases hOut
  | token hLongest _ =>
      cases hOut
      have hInside := inside_of_longest hLongest
      omega
  | special hLongest _ _ ih =>
      have hInside := inside_of_longest hLongest
      have hLater := ih hOut
      omega
  | skip hLongest _ _ ih =>
      have hInside := inside_of_longest hLongest
      have hLater := ih hOut
      omega
  | more hLongest _ _ _ ih =>
      have hInside := inside_of_longest hLongest
      have hLater := ih hOut
      omega

end Unique

end Descent
