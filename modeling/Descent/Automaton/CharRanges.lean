import Descent.Grammar.Basic
import Descent.Text.LetterCase

/-
  This file defines the characters of a character list as
  ascending ranges that neither overlap nor touch.

  Key definitions include:
    * `CharRanges.merge`
    * `CharRanges.complement`
    * `CharRanges.ofItems`
-/

namespace Descent

namespace CharRanges

open Text (maxUnit caseVariants)

/- An inclusive range of characters. -/
abbrev Range := Nat × Nat

/- The order of ranges: by first character, then by last. -/
def rangeLE
    (a b : Range) : Bool :=
  a.1 < b.1 || (a.1 == b.1 && a.2 ≤ b.2)

/- Join a range to the ones before it, the last of which comes first. -/
def absorb
    (done : List Range)
    (r : Range) : List Range :=
  match done with
  | [] => [r]
  | last :: rest =>
      if r.1 ≤ last.2 + 1 then
        (last.1, max last.2 r.2) :: rest
      else
        r :: last :: rest

/- Sort ranges, drop the empty ones and join those that overlap or touch. -/
def merge
    (ranges : List Range) : List Range :=
  let sorted := (ranges.filter fun r => r.1 ≤ r.2).mergeSort rangeLE
  (sorted.foldl absorb []).reverse

/- The gaps of ascending ranges, from a character on. -/
def complementFrom
    (next : Nat) : List Range → List Range
  | [] => if next ≤ maxUnit then [(next, maxUnit)] else []
  | (lo, hi) :: rest =>
      (if next < lo then [(next, lo - 1)] else []) ++ complementFrom (hi + 1) rest

/- The gaps of ascending ranges. -/
def complement
    (ranges : List Range) : List Range :=
  complementFrom 0 ranges

/- The range of an item, cut off at the largest unit. -/
def itemRange : CharItem → Range
  | .single c => (c, min c maxUnit)
  | .range lo hi => (lo, min hi maxUnit)

/- The other case forms of the characters of a range. -/
def otherCases
    (r : Range) : List Range :=
  (List.range' r.1 (r.2 + 1 - r.1)).flatMap fun c =>
    ((caseVariants c).drop 1).map fun v => (v, v)

/- The ranges of a character list. -/
def ofItems
    (negated : Bool)
    (items : List CharItem)
    (ignoreCase : Bool) : List Range :=
  let ranges := items.flatMap fun item =>
    let r := itemRange item
    r :: (if ignoreCase then otherCases r else [])
  let merged := merge ranges
  if negated then complement merged else merged

end CharRanges

end Descent
